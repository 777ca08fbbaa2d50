import ProxyBroker.Resumption.Notify
import ProxyBroker.Pool.Machine

namespace Pool

-- The calls of the methods of a pool that wait, or that can end the waiting of others.
inductive Call
  | get (scheme : Scheme) (key : ClientKey) (fuel : Nat)
  | waitReady (n fuel : Nat)
  | importer (fuel : Nat)
  | putOk (p : Proxy)
  | putFailed (p : Proxy)
  | add (p : Proxy)
  | remove (k : Key)

namespace Call

def code (c : Config) : Call → Async Unit
  | get scheme key fuel => do let _ ← Pool.get c fuel scheme key
  | waitReady n fuel    => Pool.waitReady fuel n
  | importer fuel       => Pool.importer c fuel
  | putOk p             => Pool.putOk c p
  | putFailed p         => Pool.putFailed c p
  | add p               => Async.exec (.add .outsider p)
  | remove k            => do let _ ← Pool.remove k

-- What a call waits for. All of them stop waiting when there is nothing left to be imported.
def Awaits (s : State) : Call → Prop
  | get scheme .. => ∃ e ∈ s.state, eligible scheme e
  | waitReady n _ => n ≤ s.state.length
  | _             => False

end Call

-- The `Notify` of a pool. A call of `add` notifies everyone before it releases the pool, provided that it
-- has added its proxy.
def notify (c : Config) : Notify Effects State Call where
  machine   := machine c
  code      := Call.code c
  creates
    | .pool .notified => true
    | _               => false
  awaits
    | .pool .park => true
    | _           => false
  wakes s
    | .pool .notifyWaiters => true
    | .pool (.add _ p)     => !s.state.any (·.proxy.key = p.key)
    | _                    => false

end Pool
