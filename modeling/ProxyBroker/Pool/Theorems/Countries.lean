import ProxyBroker.Pool.Theorems.Conservation

open Pool System Prog

namespace Op

-- The importer only lets those proxies into the pool that are on the list of allowed countries.
def IsScreened (c : Config) : Op → Prop
  | pool (.push .outsider e) => countryOk c e.proxy
  | _                        => True

variable {c : Config} {o : Op}

theorem IsServing.isScreened (h : o.IsServing) : o.IsScreened c := by
  cases o
  case pool o =>
    cases o
    case push g _ => cases g <;> trivial
    all_goals trivial
  all_goals trivial

theorem IsUpkeep.isScreened (h : o.IsUpkeep) : o.IsScreened c := by
  cases o
  case pool o => cases o <;> trivial
  all_goals trivial

theorem IsControl.isScreened {removeAllowed : Bool} (h : o.IsControl removeAllowed) : o.IsScreened c := by
  cases o
  case pool o => cases o <;> trivial
  all_goals trivial

theorem IsClientSide.isScreened (h : o.IsClientSide) : o.IsScreened c := by
  cases o
  case net => trivial
  all_goals exact (h : False).elim

end Op

namespace Pool

-- Everyone who works on a pool: the tasks, and callers of `Pool::add`.
inductive Caller (c : Config) : Async Unit → Prop
  | task {p : Async Unit} : AnyService c p → Caller c p
  | add (p : Proxy) : Caller c (Async.exec (.add .outsider p))

variable {c : Config}

theorem importer_screened (fuel : Nat) : (importer c fuel).Uses (Op.IsScreened c) := by
  induction fuel
  case zero => exact Async.uses_never.mpr trivial
  case succ hi =>
    refine Uses.bind ⟨trivial, fun _ => trivial⟩ fun r => ?_
    split
    case h_1 proxy =>
      refine Uses.bind ?_ fun _ => hi
      unfold Async.when
      split_ifs with hc
      · exact Uses.bind ⟨hc, fun _ => trivial⟩ fun _ => ⟨trivial, fun _ => trivial⟩
      · trivial
    case h_2 => exact Uses.bind ⟨trivial, fun _ => trivial⟩ fun _ => ⟨trivial, fun _ => trivial⟩

theorem Caller.screened {p : Async Unit} (h : Caller c p) : p.Uses (Op.IsScreened c) := by
  cases h
  case add => exact ⟨trivial, fun _ => trivial⟩
  case task h =>
    cases h
    case handleGetProxy =>
      refine Uses.bind (Uses.bind ⟨trivial, fun _ => trivial⟩ fun r => ?_) fun _ => trivial
      split
      · trivial
      · exact Uses.bind ⟨trivial, fun _ => trivial⟩ fun _ => trivial
    case service h =>
      cases h
      case importer => exact importer_screened _
      case handleClient =>
        refine Uses.bind (Server.accept_uses _ _ ?_ ?_ fun _ => trivial) fun j => ?_
        · exact fun _ h => h.isScreened
        · exact fun _ h => h.isScreened
        · split
          · exact (Server.attempts_uses ..).mono fun _ h => h.isScreened
          · trivial
      case connect =>
        exact Uses.bind ((Connector.connect_uses ..).mono fun _ h => h.isServing.isScreened) fun _ => trivial
      case reconcile => exact (Watch.reconcile_uses _).mono fun _ h => h.isScreened
      case rechecker => exact (Scheduler.rechecker_uses ..).mono fun _ h => h.isScreened
      case handleReportDead =>
        exact Uses.bind ((Mcp.handleReportDead_uses _).mono fun _ h => h.isScreened) fun _ => trivial

theorem Caller.lease {p : Async Unit} (h : Caller c p) : Sat Lease.monitor p (fun _ h => h = none) none := by
  cases h
  case task h => exact h.lease
  case add    => exact Lease.sat_idle ⟨trivial, fun _ => trivial⟩

-- A proxy that is not on the list of allowed countries is not added, unless its address is in the pool
-- already, so that nothing is added.
def Screened (c : Config) (x : System Effects State) (e : Event Effects) : Prop :=
  match e.op with
  | .pool (.add .outsider p) => countryOk c p ∨ p.key ∈ x.shared.proxies.map Proxy.key
  | _                        => True

variable {s₀ : State} {x y : System Effects State} {e : Event Effects} {tr : Trace Effects}

-- What enters the pool is handed back, or it is on the list.
theorem Screened.entering {p : Proxy} (h : Screened c x e) (ho : e.op.IsScreened c)
    (hp : p ∈ entering x.shared e.op) : e.returns = some p ∨ countryOk c p := by
  obtain ⟨o, r⟩ := e
  cases o
  case pool o =>
    cases o
    case push g q =>
      cases List.mem_singleton.mp hp
      cases g
      · exact .inl rfl
      · exact .inr ho
    case add g q =>
      simp only [Pool.entering] at hp
      split_ifs at hp with hk
      · cases hp
      · cases List.mem_singleton.mp hp
        cases g
        · exact .inl rfl
        · refine .inr (h.resolve_right fun hm => hk ?_)
          simpa [State.proxies] using hm
    all_goals cases hp
  all_goals cases hp

-- All proxies that are in the pool, or can be brought back by a lease, are on the list.
def Allowed (c : Config) (x : System Effects State) : Prop :=
  false ∉ (x.shared.proxies.map (countryOk c) : Multiset Bool) + x.leased.map (countryOk c)

theorem Allowed.event {service : Async Unit → Prop} (hx : x.IsLeased) (ha : Allowed c x)
    (hg : Screened c x e) (ho : e.op.IsScreened c) (h : Step (machine c) service x (some e) y) :
    Allowed c y := by
  refine absent_event (fun _ => rfl) (.refl c) hx ha h fun p hp => ?_
  rcases hg.entering ho hp with hr | hc
  · exact .inl hr
  · exact .inr (by simp [hc])

-- If every addition is screened like an import is, then all proxies of the pool are always on the list.
theorem countries_allowed (h₀ : Initial c s₀)
    (h : Run (machine c) (Caller c) (Screened c) ⟨s₀, []⟩ tr x) :
    ∀ p ∈ x.shared.proxies, countryOk c p := by
  obtain ⟨-, -, ha⟩ : x.IsLeased ∧ x.Disciplined (.only (Op.IsScreened c)) (fun _ => True) () ∧ Allowed c x := by
    refine h.invariant (I := fun x => x.IsLeased ∧
      x.Disciplined (.only (Op.IsScreened c)) (fun _ => True) () ∧ Allowed c x) ?_ ?_ ?_
    · refine ⟨isLeased_init _, by simp [Disciplined], ?_⟩
      cases h₀ <;> simp [Allowed, leased, observations, State.proxies, State.fromProxies, State.spawned]
    · rintro x y ⟨hx, hp, ha⟩ hs
      refine ⟨hx.spawn hs fun _ h => h.lease, hp.spawn hs fun _ h => h.screened.sat_only, ?_⟩
      rwa [Allowed, leased_spawn hs, hs.shared_spawn]
    · rintro x e y ⟨hx, hp, ha⟩ hg hs
      obtain ⟨_, _, _, -, -, ho, -⟩ := hp.event_inv hs
      exact ⟨hx.event hs, hp.event hs, ha.event hx hg ho hs⟩
  intro p hp
  by_contra hc
  refine ha (Multiset.mem_add.mpr (.inl ?_))
  exact Multiset.mem_coe.mpr (List.mem_map.mpr ⟨p, hp, by simpa using hc⟩)

namespace CountriesExample

def config : Config :=
  { Config.default with countries := some {"US".toList} }

-- A proxy whose location is not known.
def unknown : Proxy :=
  Proxy.new (.v4 10 0 0 1) 8080 ∅

def domestic : Proxy :=
  { unknown with geo := some ⟨"us".toList, "United States".toList, none, none⟩ }

end CountriesExample

open CountriesExample in
-- The watcher adds a proxy that an import would have rejected.
theorem countries_violated :
    ∃ x, System.Runs (machine config) (Caller config) ⟨.fromProxies config [unknown], []⟩
        [⟨.pool .addrs, []⟩, ⟨.pool (.add .outsider unknown), ()⟩] x ∧
      (State.fromProxies config [unknown]).proxies = [] ∧
      unknown ∈ x.shared.proxies ∧ countryOk config unknown = false :=
  ⟨_,
    .spawn (.spawn (.task (.service (.reconcile [unknown])))) <|
    .event (.first ⟨rfl, rfl⟩) trivial <| .event (.first rfl) trivial .refl,
    rfl, List.mem_singleton.mpr rfl, rfl⟩

open CountriesExample in
theorem countries_allowed_domestic :
    ∃ x, Run (machine config) (Caller config) (Screened config) ⟨.fromProxies config [], []⟩
        [⟨.pool .addrs, []⟩, ⟨.pool (.add .outsider domestic), ()⟩] x ∧
      x.shared.proxies = [domestic] ∧ ∀ p ∈ x.shared.proxies, countryOk config p :=
  have h : Run (machine config) (Caller config) (Screened config) ⟨.fromProxies config [], []⟩
      [⟨.pool .addrs, []⟩, ⟨.pool (.add .outsider domestic), ()⟩] _ :=
    .spawn (.spawn (.task (.service (.reconcile [domestic])))) <|
    .event (.first ⟨rfl, rfl⟩) trivial <|
    .event (.first rfl) (.inl (by decide : countryOk config domestic = true)) .refl
  ⟨_, h, rfl, countries_allowed (.fromProxies []) h⟩

end Pool
