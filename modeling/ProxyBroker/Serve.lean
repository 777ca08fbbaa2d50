import ProxyBroker.Broker.Gather
import ProxyBroker.Broker.CheckStream
import ProxyBroker.Pool.Machine

-- How `serve_cmd` fills its pool.
namespace Serve

-- The history of a store wins over a file.
def unionDedup (primary secondary : List Proxy) : List Proxy :=
  primary ++ secondary.filter (·.key ∉ primary.map Proxy.key)

-- The pool that is filled from a file.
def load (c : Pool.Config) (history loaded : List Proxy) : Pool.State :=
  .fromProxies c (unionDedup history loaded)

-- What a stream has handed out, where the last answer of a stream is `none`.
def handed (tr : Trace Effects) : List (Option Proxy) :=
  tr.filterMap fun
    | ⟨.env .nextProxy, r⟩ => some r
    | _                    => none

-- What can have been found by the end of a stream that was not dropped.
inductive Found (d : Broker.Databases) (countries : Option (List Str)) : List Proxy → Prop
  | intro {results batches : List (List Broker.Candidate)} {c : CheckStream.Params}
    {log : Nursery.Log CheckStream.Ops}
    {x : Nursery.Config CheckStream.State (Prog CheckStream.Ops Unit) (Prog CheckStream.Ops Unit)} :
    Unordered Broker.maxConcurrentProviders results [] batches →
    c.source = Broker.findSource d countries batches → CheckStream.Run c log x →
    x.main = .ret () → x.shared.closed = false → x.shared.queue = [] → Found d countries x.shared.received

-- The connections of clients, which are the tasks besides the importer.
def Client (c : Pool.Config) (p : Async Unit) : Prop :=
  ∃ auth fuel peer, p = Server.handleClient ⟨c, auth, fuel⟩ peer

-- No proxy has been taken out of the pool yet.
def Untouched (_ : System Effects Pool.State) (e : Event Effects) : Prop :=
  e.leases = none ∧ ∀ k, e.op ≠ .pool (.remove k)

-- A run of the pool that is filled by an importer.
abbrev Filling (c : Pool.Config) (fuel : Nat) : Trace Effects → System Effects Pool.State → Prop :=
  System.Run (Pool.machine c) (Client c) Untouched ⟨.spawned, [⟨[], Pool.importer c fuel⟩]⟩

-- The first thread is the importer. It is done, and its stream has yielded the given proxies.
def Drained (x : System Effects Pool.State) (ps : List Proxy) : Prop :=
  ∃ tr ts, x.threads = ⟨tr, .ret ()⟩ :: ts ∧ handed tr = ps.map some ++ [none]

end Serve
