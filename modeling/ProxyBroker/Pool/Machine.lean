import ProxyBroker.Resumption.System
import ProxyBroker.Pool.Lease
import ProxyBroker.Server.HandleClient
import ProxyBroker.Connector
import ProxyBroker.Watch
import ProxyBroker.Mcp
import ProxyBroker.Scheduler

namespace Pool

variable (c : Config)

-- How a pool answers the operations on it. A waiting task can be woken up at any time.
def answersPool (s : State) : (o : PoolOp) → o.Ret → State → Prop
  | .notified, _, s' | .park, _, s' | .notifyWaiters, _, s' => s' = s
  | .loadExhausted, r, s'     => r = s.exhausted ∧ s' = s
  | .storeExhausted, _, s'    => s' = { s with exhausted := true }
  | .pin k, r, s'             => r = s.pin k ∧ s' = s
  | .recordSession k a, _, s' => ∃ victim, s' = s.recordSession c k a victim
  | .loadCursor, r, s'        => r = s.roundRobin ∧ s' = s
  | .bumpCursor, _, s'        => s' = { s with roundRobin := s.roundRobin + 1 }
  | .select ctx, r, s'        => (r, s') = s.select ctx
  | .push _ e, _, s'          => s' = s.push e
  | .evict _, _, s'           => s' = { s with evictions := s.evictions + 1 }
  | .add _ p, _, s'           => s' = s.add p
  | .remove k, r, s'          => r = decide (s.state.length ≠ (s.remove k).state.length) ∧ s' = s.remove k
  | .len, r, s'               => r = s.state.length ∧ s' = s
  | .addrs, r, s'             => r = s.addrs ∧ s' = s
  | .tryGet scheme cc, r, s'  => (r, s') = s.tryGet c scheme cc
  | .bumpRotations, _, s'     => s' = { s with rotations := s.rotations + 1 }

-- All other operations are answered by surroundings about which nothing is assumed.
def answers (s : State) : Event Effects → State → Prop
  | ⟨.pool o, r⟩, s' => answersPool c s o r s'
  | _, s'            => s' = s

def machine : Machine Effects State where
  answers := answers c

end Pool

open Pool

-- The tasks that work on a pool: the importer, connections of clients, connections of `hyper`, the
-- watcher and the re-checker, and the reports of dead proxies.
inductive Service (c : Config) : Async Unit → Prop
  | importer (fuel : Nat) : Service c (importer c fuel)
  | handleClient (auth : Option Server.AuthExpect) (fuel : Nat) (peer : IpAddr) :
    Service c (Server.handleClient ⟨c, auth, fuel⟩ peer)
  | connect (fuel : Nat) (cfg : Connector.RotateConfig) (uri : Connector.Uri) :
    Service c do let _ ← Connector.connect c fuel cfg uri
  | reconcile (desired : List Proxy) : Service c (Watch.reconcile desired)
  | rechecker (cfg : Scheduler.RecheckConfig) (fuel : Nat) : Service c (Scheduler.rechecker cfg fuel)
  | handleReportDead (addr : Str) : Service c do let _ ← Mcp.handleReportDead addr

-- All of these tasks, and the other tool that is offered by `mcp`.
inductive AnyService (c : Config) : Async Unit → Prop
  | service {p : Async Unit} : Service c p → AnyService c p
  | handleGetProxy (scheme : Scheme) (country : Option Str) :
    AnyService c do let _ ← Mcp.handleGetProxy scheme country
