import ProxyBroker.Pool.Program

-- The proxy that an operation takes out of the pool on behalf of a task.
def PoolOp.leases : (o : PoolOp) → o.Ret → Option Proxy
  | select _, r  => r
  | tryGet .., r => r
  | notified, _ | park, _ | notifyWaiters, _ | loadExhausted, _ | storeExhausted, _ => none
  | pin _, _ | recordSession .., _ | loadCursor, _ | bumpCursor, _                  => none
  | push .., _ | evict _, _ | add .., _ | remove _, _ | len, _ | addrs, _           => none
  | bumpRotations, _                                                               => none

-- The proxy that a task hands back by an operation.
def Op.returns : Op → Option Proxy
  | pool (.push .holder e) => some e.proxy
  | pool (.evict p)        => some p
  | pool (.add .holder p)  => some p
  | _                      => none

namespace Event

def leases : Event Effects → Option Proxy
  | ⟨.pool o, r⟩ => o.leases r
  | _            => none

def returns (e : Event Effects) : Option Proxy :=
  e.op.returns

end Event

-- A proxy that a task has leased, with the number of relay attempts it has served since.
structure Lease where
  proxy  : Proxy
  served : Nat

namespace Lease

-- `p` is the leased proxy, except that the attempts which it has served were counted.
def Returns (h : Option Lease) (p : Proxy) : Prop :=
  ∃ l, h = some l ∧ p.ident = l.proxy.ident ∧ p.requests = l.proxy.requests + UInt32.ofNat l.served

-- What a task may do depending on the proxy that it has leased: it never leases a second one, it only
-- hands back the one that it has leased, it only connects to that one, and it waits for anything but
-- a connection only while it does not have one. Only a proxy that it has leased can be benched.
def demand (h : Option Lease) : Op → Prop
  | .pool (.select _) | .pool (.tryGet ..) | .pool .park => h = none
  | .pool (.push .holder e)                              => Returns h e.proxy
  | .pool (.evict p) | .pool (.add .holder p)            => Returns h p
  | .net (.resolve _) | .env .nextProxy | .env (.sleep _) => h = none
  | .env (.check _) | .env .never                        => h = none
  | .env (.bench _) | .env .panic                        => h.isSome
  | .net (.dial _ k)                                     => ∃ l, h = some l ∧ l.proxy.key = k
  | .net (.upWrite .negotiation _)                       => h.isSome
  | .net (.upRead .negotiation _)                        => h.isSome
  | .net (.socks4 ..) | .net (.socks5 ..) | .net (.tls _) => h.isSome
  | _                                                    => True

def next (h : Option Lease) (e : Event Effects) : Option Lease :=
  match e.leases, e.returns with
  | some p, _      => some ⟨p, 0⟩
  | none, some _   => none
  | none, none     =>
    match e.op with
    | .net (.dial .relay _) => h.map fun l => { l with served := l.served + 1 }
    | _                     => h

def monitor : Monitor Effects (Option Lease) where
  demand := demand
  next   := next

end Lease
