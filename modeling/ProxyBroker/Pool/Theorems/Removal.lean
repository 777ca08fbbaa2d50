import ProxyBroker.Pool.Theorems.Accounting

open Pool System

namespace Op

-- An address is added or imported by someone who does not return a lease.
def Admits (a : Key) : Op → Prop
  | pool (.push .outsider e) => e.proxy.key = a
  | pool (.add .outsider p)  => p.key = a
  | _                        => False

end Op

namespace Pool

variable {c : Config} {s : State} {p : Proxy} {o : Op} {a : Key} {e : Event Effects}

-- What enters the pool is either handed back, or added or imported.
theorem returns_or_admits (h : p ∈ entering s o) : o.returns = some p ∨ o.Admits p.key := by
  cases o
  case pool o =>
    cases o
    case push g e =>
      cases List.mem_singleton.mp h
      cases g
      · exact .inl rfl
      · exact .inr rfl
    case add g q =>
      simp only [entering] at h
      split_ifs at h
      · cases h
      · cases List.mem_singleton.mp h
        cases g
        · exact .inl rfl
        · exact .inr rfl
    all_goals cases h
  all_goals cases h

theorem mem_addrs {k : Key} : k ∈ s.addrs ↔ k ∈ s.proxies.map Proxy.key := by
  simp [State.addrs, State.proxies, Function.comp_def]

-- The address is not in the pool, and none of the leased proxies can bring it back.
def Gone (a : Key) (x : System Effects State) : Prop :=
  a ∉ (x.shared.proxies.map Proxy.key : Multiset Key) + x.leased.map Proxy.key

variable {x y z : System Effects State} {tr₁ tr₂ : Trace Effects} {service : Async Unit → Prop}

theorem Gone.event (hx : x.IsLeased) (hg : Gone a x) (h : Step (machine c) service x (some e) y)
    (ha : ¬e.op.Admits a) : Gone a y := by
  refine absent_event Proxy.ident_key (.refl c) hx hg h fun p hp => ?_
  rcases returns_or_admits hp with hr | hp
  · exact .inl hr
  · refine .inr ?_
    rintro rfl
    exact ha hp

theorem Gone.spawn (hg : Gone a x) (h : Step (machine c) service x none y) : Gone a y := by
  rw [Gone, leased_spawn h, h.shared_spawn]
  exact hg

theorem leases_mem_leased (hx : x.IsLeased) (h : Step (machine c) service x (some e) y)
    (hl : e.leases = some p) : p.key ∈ y.leased.map Proxy.key := by
  have hb := leased_event Proxy.ident_key hx h
  have hr : e.returns = none := by
    by_contra hr
    obtain ⟨q, hr⟩ := Option.ne_none_iff_exists'.mp hr
    simp [Lease.returns_leases hr] at hl
  simp only [hl, hr, Option.toList_none, List.map_nil, Multiset.coe_nil, add_zero] at hb
  simp [← Multiset.mem_coe, ← hb]

-- As long as nobody adds or imports the address, it stays gone.
theorem Gone.run (hx : x.IsLeased) (hg : Gone a x)
    (h : System.Runs (machine c) (AnyService c) x tr₂ y) (hn : ∀ e ∈ tr₂, ¬e.op.Admits a) :
    Gone a y ∧ ∀ e ∈ tr₂, ∀ p, e.leases = some p → p.key ≠ a := by
  induction h
  case refl => exact ⟨hg, by simp⟩
  case spawn hs _ hi => exact hi (hx.spawn hs fun _ h => h.lease) (hg.spawn hs) hn
  case event x y z e tr hs _ _ hi =>
    have hg' : Gone a y := hg.event hx hs (hn e (by simp))
    have ⟨hz, ht⟩ := hi (hx.event hs) hg' fun e he => hn e (by simp [he])
    refine ⟨hz, fun e' he p hl => ?_⟩
    rcases List.mem_cons.mp he with rfl | he
    · rintro rfl
      exact hg' <| Multiset.mem_add.mpr <| .inr <| leases_mem_leased hx hs hl
    · exact ht e' he p hl

theorem Gone.of_remove {removed : Bool} (hx : x.IsLeased)
    (h : Step (machine c) service x (some ⟨.pool (.remove a), removed⟩) y)
    (ha : a ∉ x.leased.map Proxy.key) : Gone a y := by
  obtain ⟨_, _, _, -, -, -, -, hs⟩ := hx.event_inv h
  have hl := leased_event Proxy.ident_key hx h
  simp only [Event.leases, PoolOp.leases, Event.returns, Op.returns, Option.toList_none, List.map_nil,
    Multiset.coe_nil, add_zero] at hl
  rw [Gone, hs, ← hl, Multiset.mem_add, not_or]
  refine ⟨?_, ha⟩
  simp [State.remove, State.proxies]

-- A removal that happens while the address is not leased sticks: in every continuation of the run, and
-- until somebody adds or imports the address, it is neither in the pool nor handed out.
theorem remove_sticks {s₀ : State} {removed : Bool}
    (h₁ : System.Runs (machine c) (AnyService c) ⟨s₀, []⟩ tr₁ x)
    (hr : Step (machine c) (AnyService c) x (some ⟨.pool (.remove a), removed⟩) y)
    (ha : a ∉ x.leased.map Proxy.key)
    (h₂ : System.Runs (machine c) (AnyService c) y tr₂ z) (hn : ∀ e ∈ tr₂, ¬e.op.Admits a) :
    a ∉ z.shared.addrs ∧ ∀ e ∈ tr₂, ∀ p, e.leases = some p → p.key ≠ a := by
  have hx : x.IsLeased := (isLeased_init s₀).run h₁ fun _ h => h.lease
  have hg : Gone a y := .of_remove hx hr ha
  have ⟨hz, ht⟩ := hg.run (hx.event hr) h₂ hn
  refine ⟨fun hm => hz ?_, ht⟩
  exact Multiset.mem_add.mpr <| .inl <| mem_addrs.mp hm

namespace LeaseExample

-- A connection of `hyper` has leased the only proxy of a pool.
def proxy : Proxy :=
  (Proxy.new (.v4 10 0 0 1) 8080 ∅).addType .http none

def pool : State :=
  .fromProxies .default [proxy]

def uri : Connector.Uri where
  scheme := some "http".toList
  host   := some "10.0.0.2".toList
  port   := none

def leasing : Trace Effects := [
  ⟨.net (.resolve "10.0.0.2".toList), none⟩,
  ⟨.pool .notified, ()⟩,
  ⟨.pool .loadCursor, (0 : UInt64)⟩,
  ⟨.env .now, (0 : Instant)⟩,
  ⟨.pool (.select ⟨.http, .best, none, 0, 0, false⟩), some proxy⟩
]

abbrev Runs := System.Runs (machine .default) (AnyService .default)

-- The connection succeeds, so that the proxy is handed back.
def returning : Trace Effects := [
  ⟨.net (.dial .relay proxy.key), .ok⟩,
  ⟨.pool (.push .holder ⟨proxy.recordAttempt (some 0) none, none⟩), ()⟩
]

theorem answers_select :
    (machine .default).answers pool ⟨.pool (.select ⟨.http, .best, none, 0, 0, false⟩), some proxy⟩
      { pool with state := [] } :=
  rfl

end LeaseExample

open LeaseExample in
-- A proxy is reported dead while it is leased. Afterwards, it is handed back.
theorem remove_resurrected :
    ∃ x y z, Runs ⟨pool, []⟩ leasing x ∧
      Step (machine .default) (AnyService .default) x (some ⟨.pool (.remove proxy.key), false⟩) y ∧
      Runs y returning z ∧ (∀ e ∈ returning, ¬e.op.Admits proxy.key) ∧ proxy.key ∈ z.shared.addrs :=
  ⟨_, _, _,
    .spawn (.spawn (.service (.connect 1 ⟨1⟩ uri))) <|
    .spawn (.spawn (.service (.handleReportDead "10.0.0.1:8080".toList))) <|
    .event (.first rfl) trivial <| .event (.first rfl) trivial <|
    .event (.first ⟨rfl, rfl⟩) trivial <| .event (.first rfl) trivial <|
    .event (.first answers_select) trivial .refl,
    .second ⟨rfl, rfl⟩,
    .event (.first rfl) trivial <| .event (.first rfl) trivial .refl,
    by simp [returning, Op.Admits],
    mem_addrs.mpr (.head _)⟩

namespace LeaseExample

-- The proxy cannot be connected to, and is handed back.
def refusing : Trace Effects := [
  ⟨.net (.dial .relay proxy.key), .failed⟩,
  ⟨.env (.bench Config.default.failTimeout), (0 : Instant)⟩,
  ⟨.pool (.push .holder ⟨proxy.recordAttempt none (some .connFailed), some Config.default.failTimeout⟩), ()⟩,
  ⟨.pool .notifyWaiters, ()⟩
]

-- The next attempt finds the pool empty.
def seeking : Trace Effects := [
  ⟨.pool .notified, ()⟩,
  ⟨.pool .loadCursor, (0 : UInt64)⟩,
  ⟨.env .now, (1 : Instant)⟩,
  ⟨.pool (.select ⟨.http, .best, none, 0, 1, false⟩), none⟩
]

theorem reported_runs : ∃ x y z, Runs ⟨pool, []⟩ (leasing ++ refusing) x ∧
    Step (machine .default) (AnyService .default) x (some ⟨.pool (.remove proxy.key), true⟩) y ∧
    Runs y seeking z ∧ x.leased = [] :=
  ⟨_, _, _,
    .spawn (.spawn (.service (.connect 2 ⟨2⟩ uri))) <|
    .spawn (.spawn (.service (.handleReportDead "10.0.0.1:8080".toList))) <|
    .event (.first rfl) trivial <| .event (.first rfl) trivial <|
    .event (.first ⟨rfl, rfl⟩) trivial <| .event (.first rfl) trivial <|
    .event (.first answers_select) trivial <| .event (.first rfl) trivial <|
    .event (.first rfl) trivial <| .event (.first rfl) trivial <| .event (.first rfl) trivial .refl,
    .second ⟨rfl, rfl⟩,
    .event (.first rfl) trivial <| .event (.first ⟨rfl, rfl⟩) trivial <|
    .event (.first rfl) trivial <| .event (.first rfl) trivial .refl,
    rfl⟩

end LeaseExample

open LeaseExample in
-- A proxy is reported dead after it has been handed back. The attempt that follows does not get it again.
theorem remove_sticks_reported :
    ∃ x y z, Runs ⟨pool, []⟩ (leasing ++ refusing) x ∧
      Step (machine .default) (AnyService .default) x (some ⟨.pool (.remove proxy.key), true⟩) y ∧
      Runs y seeking z ∧
      proxy.key ∉ z.shared.addrs ∧ ∀ e ∈ seeking, ∀ p, e.leases = some p → p.key ≠ proxy.key := by
  obtain ⟨x, y, z, h₁, hr, h₂, hl⟩ := reported_runs
  have hn : proxy.key ∉ x.leased.map Proxy.key := by simp [hl]
  exact ⟨x, y, z, h₁, hr, h₂, remove_sticks h₁ hr hn h₂ (by simp [seeking, Op.Admits])⟩

end Pool
