import ProxyBroker.Persist.Aggregate

namespace Persist

-- Any number of stores, and all the proxies that there have been so far. A proxy does not change.
-- Instead, what becomes of it is another proxy.
structure World {ι : Type} (kind : ι → Backend) where
  proxies : List Proxy
  stores  : (i : ι) → (kind i).State

-- Proxies are named by their position.
inductive Act (ι : Type)
  | new (host : IpAddr) (port : UInt16) (expectedTypes : Finset Proto)
  | recordAttempt (n : Nat) (runtime : Option ℚ) (err : Option ProxyError)
  | upsert (n : Nat) (i : ι)
  | load (i : ι)

namespace World

variable {ι : Type} [DecidableEq ι] {kind : ι → Backend} (S : Serde)

def empty : World kind where
  proxies := []
  stores  := fun i => (kind i).empty

def push (w : World kind) (ps : List Proxy) : World kind :=
  { w with proxies := w.proxies ++ ps }

def act (w : World kind) : Act ι → Option (World kind)
  | .new host port expectedTypes     => some (w.push [Proxy.new host port expectedTypes])
  | .recordAttempt n runtime err     => w.proxies[n]?.map fun p => w.push [p.recordAttempt runtime err]
  | .upsert n i                      => w.proxies[n]?.map fun p =>
    { w with stores := Function.update w.stores i ((kind i).upsert S (w.stores i) p) }
  | .load i                          => ((kind i).load S (w.stores i)).map w.push

-- What is reached by acts of a certain kind.
inductive Reached (ok : World kind → Act ι → Prop) : World kind → Prop
  | empty : Reached ok .empty
  | act {w w' : World kind} {a : Act ι} : Reached ok w → ok w a → w.act S a = some w' → Reached ok w'

-- No attempt is recorded for a proxy whose counter is at its limit, and nothing is loaded from a store
-- that has counted more requests than fit into the counter of a proxy with errors.
def NoOverflow (w : World kind) : Act ι → Prop
  | .recordAttempt n _ _ => ∀ p ∈ w.proxies[n]?, p.requests.toNat + 1 < 2 ^ 32
  | .load i              => ∀ k, ∀ a ∈ (kind i).aggregate S (w.stores i) k, a.requests < 2 ^ 32 ∨ a.errors = 0
  | _                    => True

end World

end Persist
