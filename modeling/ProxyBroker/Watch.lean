import ProxyBroker.Pool.Program

namespace Watch

def removeStale (want : List Key) : List Key → Async Unit
  | []      => return
  | k :: ks => do
    Async.when (k ∉ want) do
      let _ ← Pool.remove k
    removeStale want ks

def addMissing (current : List Key) : List Proxy → Async Unit
  | []      => return
  | p :: ps => do
    Async.when (p.key ∉ current) <| Async.exec (.add .outsider p)
    addMissing current ps

-- The two loops of `reconcile` are critical sections of their own, and so is the snapshot that both
-- of them compare with.
def reconcile (desired : List Proxy) : Async Unit := do
  let current : List Key := ← Async.pool .addrs
  removeStale (desired.map Proxy.key) current
  addMissing current desired

end Watch
