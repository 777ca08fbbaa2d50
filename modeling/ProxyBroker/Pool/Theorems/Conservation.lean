import ProxyBroker.Pool.Theorems.Accounting
import ProxyBroker.Pool.Theorems.Panic
import ProxyBroker.Server.Theorems.Commit

open Pool System Prog

namespace Pool

-- The proxies that an operation puts into the pool without returning a lease.
def admitting (s : State) : Op → List Proxy
  | .pool (.push .outsider e) => [e.proxy]
  | .pool (.add .outsider p)  => if s.state.any (·.proxy.key = p.key) then [] else [p]
  | _                         => []

-- A record of what has happened to the proxies of a pool. The statistics about their use are left out
-- of the record, since they change while a proxy is leased.
structure Ledger where
  admitted : Multiset Proxy
  evicted  : Multiset Proxy
  removed  : Multiset Proxy

namespace Ledger

def opening (s : State) : Ledger where
  admitted := s.proxies.map Proxy.ident
  evicted  := 0
  removed  := 0

def record (l : Ledger) (s : State) (o : Op) : Ledger where
  admitted := l.admitted + (admitting s o).map Proxy.ident
  evicted  := l.evicted + (evicting o).map Proxy.ident
  removed  := l.removed + (deleting s o).map Proxy.ident

end Ledger

-- A pool together with a record of what happens to it.
def audited (c : Config) : Machine Effects (State × Ledger) where
  answers := fun (s, l) e (s', l') => (machine c).answers s e s' ∧ l' = l.record s e.op

theorem audited_projects (c : Config) : Projects (audited c) c Prod.fst :=
  ⟨And.left⟩

-- The states in which a pool is created.
inductive Initial (c : Config) : State → Prop
  | fromProxies (proxies : List Proxy) : Initial c (.fromProxies c proxies)
  | spawned : Initial c .spawned

theorem Initial.evictions {c : Config} {s : State} (h : Initial c s) : s.evictions = 0 := by
  cases h <;> rfl

end Pool

namespace Op

-- Everything except for returning a proxy by adding it.
def IsPut : Op → Prop
  | pool (.add .holder _) => False
  | _                     => True

theorem IsIdle.isPut {o : Op} (h : o.IsIdle) : o.IsPut := by
  cases o
  case pool o =>
    cases o
    case add g _ =>
      cases g
      · exact (h : False).elim
      · trivial
    all_goals trivial
  all_goals trivial

theorem IsServing.isPut {o : Op} (h : o.IsServing) : o.IsPut := by
  cases o
  case pool o => cases o <;> trivial
  all_goals trivial

-- What is handed back is returned to the pool or evicted, and what enters the pool is handed back or
-- admitted.
theorem IsPut.entering {o : Op} (h : o.IsPut) (s : State) :
    o.returns.toList ++ admitting s o = entering s o ++ evicting o := by
  cases o
  case pool o =>
    cases o
    case push g e => cases g <;> rfl
    case add g p =>
      cases g
      · exact (h : False).elim
      · simp [returns, admitting, Pool.entering, evicting]
    all_goals rfl
  all_goals rfl

end Op

theorem Service.uses {c : Config} {p : Async Unit} (h : Service c p) : p.Uses Op.IsPut := by
  cases h
  case importer => exact (importer_uses ..).mono fun _ h => h.isPut
  case handleClient =>
    refine Uses.bind (Server.accept_uses _ _ ?_ ?_ fun _ => trivial) fun j => ?_
    · exact fun _ h => h.isIdle.isPut
    · exact fun _ h => h.isIdle.isPut
    · split
      · exact (Server.attempts_uses ..).mono fun _ h => h.isPut
      · trivial
  case connect =>
    exact Uses.bind ((Connector.connect_uses ..).mono fun _ h => h.isServing.isPut) fun _ => trivial
  case reconcile => exact (Watch.reconcile_uses _).mono fun _ h => h.isIdle.isPut
  case rechecker => exact (Scheduler.rechecker_uses ..).mono fun _ h => h.isIdle.isPut
  case handleReportDead =>
    exact Uses.bind ((Mcp.handleReportDead_uses _).mono fun _ h => h.isIdle.isPut) fun _ => trivial

namespace System

variable {σ : Type}

-- The proxies that are leased by tasks which can still hand them back, and those whose task has panicked.
def held (x : System Effects σ) : List Proxy :=
  System.leased { x with threads := x.threads.filter fun t => !t.code.panicked }

variable {x : System Effects σ}

end System

namespace Pool

-- Every proxy that was admitted is in exactly one place: in the pool, leased, evicted, or removed.
structure Conserved (s : State) (l : Ledger) (leased : List Proxy) : Prop where
  balance   : (s.proxies.map Proxy.ident : Multiset Proxy) + leased.map Proxy.ident + l.evicted + l.removed =
    l.admitted
  evictions : s.evictions = l.evicted.card

variable {c : Config} {s₀ : State} {x y : System Effects (State × Ledger)} {e : Event Effects}
variable {tr : Trace Effects}

theorem Conserved.event {service : Async Unit → Prop} (hx : x.IsLeased)
    (hc : Conserved x.shared.1 x.shared.2 x.leased) (hp : e.op.IsPut)
    (h : Step (audited c) service x (some e) y) : Conserved y.shared.1 y.shared.2 y.leased := by
  obtain ⟨_, _, _, -, -, -, ha, hl⟩ := hx.event_inv h
  have hb := pooled_leased_event Proxy.ident_ident (audited_projects c) hx h
  have he := congrArg (fun l : List Proxy => (l.map Proxy.ident : Multiset Proxy)) (hp.entering x.shared.1)
  simp only [List.map_append, ← Multiset.coe_add] at he
  rw [hl]
  constructor
  case evictions => simp [Ledger.record, answers_evictions ha, hc.evictions]
  case balance =>
    apply add_right_cancel (b := (e.returns.toList.map Proxy.ident : Multiset Proxy))
    calc _
      _ = (y.shared.1.proxies.map Proxy.ident : Multiset Proxy) + y.leased.map Proxy.ident +
            (e.returns.toList.map Proxy.ident + (deleting x.shared.1 e.op).map Proxy.ident) +
            x.shared.2.evicted + x.shared.2.removed + (evicting e.op).map Proxy.ident := by
        simp only [Ledger.record]
        abel
      _ = (x.shared.1.proxies.map Proxy.ident : Multiset Proxy) + x.leased.map Proxy.ident +
            x.shared.2.evicted + x.shared.2.removed +
            ((entering x.shared.1 e.op).map Proxy.ident + (evicting e.op).map Proxy.ident) := by
        rw [hb]
        abel
      _ = x.shared.2.admitted +
            ((entering x.shared.1 e.op).map Proxy.ident + (evicting e.op).map Proxy.ident) := by
        rw [hc.balance]
      _ = _ := by
        rw [← he]
        simp only [Ledger.record, Event.returns]
        abel

namespace OverflowExample

open Server Server.SocksExample

def config : Config :=
  { Config.default with failTimeout := 18446744073709551615 * 10 ^ 9 }

-- The client is served by a proxy that cannot be connected to.
def failing : Trace Effects := greeting ++ [
  ⟨.pool .notified, ()⟩,
  ⟨.pool .loadCursor, (0 : UInt64)⟩,
  ⟨.env .now, (0 : Instant)⟩,
  ⟨.pool (.select ⟨.https, .best, none, 0, 0, false⟩), some proxy⟩,
  ⟨.net (.dial .relay proxy.key), .failed⟩,
  ⟨.env (.bench config.failTimeout), (0 : Instant)⟩
]

end OverflowExample

end Pool
