import ProxyBroker.Scheduler.Theorems.Attendance

open Pool System Prog

-- By such an event, a task deletes an address from the pool, or finds out that there is nothing to delete.
def Deletes (a : Key) (e : Event Effects) : Prop :=
  e.op = .pool (.remove a) ∨ ∃ ks, e = Scheduler.listed ks ∧ a ∉ ks

namespace Pool

theorem Gone.of_deletes {c : Config} {service : Async Unit → Prop} {x y : System Effects State} {e : Event Effects}
    {a : Key} (hx : x.IsLeased) (h : System.Step (machine c) service x (some e) y) (hd : Deletes a e)
    (ha : a ∉ x.leased.map Proxy.key) : Gone a y := by
  rcases hd with hd | ⟨ks, rfl, hk⟩
  · obtain ⟨o, r⟩ := e
    cases hd
    exact .of_remove hx h ha
  · obtain ⟨_, _, _, -, -, -, ha'⟩ := hx.event_inv h
    have ⟨hr, hs⟩ : ks = x.shared.addrs ∧ y.shared = x.shared := ha'
    have hl := leased_event Proxy.ident_key hx h
    simp only [Scheduler.listed, Event.leases, PoolOp.leases, Event.returns, Op.returns, Option.toList_none, List.map_nil,
      Multiset.coe_nil, add_zero] at hl
    rw [Gone, hs, ← hl, Multiset.mem_add, not_or]
    exact ⟨fun hm => hk (hr ▸ mem_addrs.mpr hm), ha⟩

end Pool

namespace Watch

variable {a : Key}

theorem removeStale_removes {want ks : List Key} {tr : Trace Effects} (hk : a ∈ ks) (hw : a ∉ want) :
    (removeStale want ks).Sat (.history fun _ _ => True) (fun _ tr => ∃ e ∈ tr, e.op = .pool (.remove a)) tr := by
  induction ks generalizing tr
  case nil => cases hk
  case cons k ks hi =>
    unfold removeStale
    simp only [sat_bind]
    by_cases hka : a = k
    case pos =>
      subst hka
      simp only [Async.when, hw, not_false_eq_true, if_true, Pool.remove, sat_bind, Async.sat_pool]
      exact ⟨trivial, fun r => sat_history_mem ⟨_, List.mem_append_right _ (List.mem_singleton_self _), rfl⟩⟩
    case neg =>
      exact .of_forall (fun _ _ => trivial) fun _ _ => hi ((List.mem_cons.mp hk).resolve_left hka)

-- A completed call has deleted everything that is not desired.
theorem reconcile_deletes {desired : List Proxy} {tr : Trace Effects} (ha : a ∉ desired.map Proxy.key)
    (h : (reconcile desired).Runs tr (.ret ())) : ∃ e ∈ tr, Deletes a e := by
  have key : (reconcile desired).Sat (.history fun _ _ => True) (fun _ tr => ∃ e ∈ tr, Deletes a e) [] := by
    unfold reconcile
    simp only [sat_bind, Async.sat_pool]
    refine ⟨trivial, fun (current : List Key) => ?_⟩
    by_cases hc : a ∈ current
    case pos =>
      refine (removeStale_removes hc ha).mono fun _ tr h => ?_
      obtain ⟨e, he, ho⟩ := h
      exact sat_history_mem ⟨e, he, .inl ho⟩
    case neg =>
      have hd : ∃ e ∈ [Scheduler.listed current], Deletes a e := ⟨_, List.mem_singleton_self _, .inr ⟨current, rfl, hc⟩⟩
      exact (sat_history_mem hd).mono fun _ tr h => sat_history_mem h
  simpa [Monitor.history_after] using key.result h

end Watch

namespace Scheduler

variable {c : Config} {cfg : RecheckConfig} {x y z : Attendance} {e : Event Effects} {a : Key}

-- The loop does not check the address at the moment, and is not going to do so before it has found the
-- address in the pool.
structure Idle (a : Key) (i : Iteration Effects Phase) : Prop where
  retrying : i.state.retrying a = false
  passed   : ∀ s, i.state = .job s a → ¬Passed s a i.done

variable {i : Iteration Effects Phase}

theorem Treats.admits {k : Key} {o : Op} (h : Treats k o) (ha : o.Admits a) : k = a := by
  cases o
  case pool o =>
    cases o
    case add g p =>
      cases g
      · exact (h : False).elim
      · exact h.left.symm.trans ha
    case push => exact (h : False).elim
    all_goals exact (ha : False).elim
  all_goals exact (ha : False).elim

theorem isEnv_admits {o : Op} (h : o.IsEnv) : ¬o.Admits a := by
  cases o
  case env => exact id
  all_goals exact (h : False).elim

-- As long as it is idle, the loop does not add the address.
theorem Idle.demands (h : Idle a i) {o : Op} (hd : i.state.Demands i.done o) : ¬o.Admits a := by
  obtain ⟨ph, tr, rest⟩ := i
  cases ph
  case start | enrolled => exact isEnv_admits hd
  case head =>
    rcases hd with rfl | hd
    · exact id
    · exact isEnv_admits hd
  case job s k =>
    rcases hd with ⟨rfl, _⟩ | ⟨hp, ht⟩
    · exact id
    · intro ha
      cases ht.admits ha
      exact h.passed s rfl hp.passed

-- An address is only retried after it was checked.
theorem Idle.leads (h : Idle a i) {ph : Phase} (hl : i.state.Leads (some ph) (i.done ++ [e])) :
    ph.retrying a = false := by
  obtain ⟨ph₀, tr₀, rest⟩ := i
  cases ph₀
  case start =>
    obtain ⟨now, ⟨⟩⟩ := hl
    rfl
  case head s =>
    obtain ⟨ks, s', ⟨⟩, -, he⟩ := hl
    exact (congrFun he.retrying a).trans h.retrying
  case enrolled s =>
    cases hl
    case head   => exact h.retrying
    case job hp =>
      obtain ⟨_, rfl⟩ := pop_inv hp
      exact h.retrying
  case job s k =>
    obtain ⟨s', ⟨⟩, ht⟩ := hl
    by_cases hk : k = a
    case neg => exact (ht.retrying hk).trans h.retrying
    subst hk
    generalize hd : tr₀ ++ [e] = tr at ht
    cases ht
    case dropped => exact h.retrying
    case retried hp =>
      obtain ⟨rfl, _⟩ := List.append_inj' hd rfl
      exact absurd hp (h.passed s rfl)
    all_goals simp [Phase.retrying, Schedule.setRetrying, Schedule.push]

theorem Idle.proceeds (h : Idle a i) (he : ∀ ks, e = listed ks → a ∉ ks) {j : Iteration Effects Phase}
    (hp : Proceeds i e (some j)) : Idle a j := by
  cases hp
  case same _ hs hd =>
    refine ⟨hs ▸ h.retrying, fun s hj hp => ?_⟩
    rw [hs] at hj
    rw [hd] at hp
    rcases hp with hr | ⟨ks, hk, hm⟩
    · exact h.passed s hj (.inl hr)
    · rcases List.mem_append.mp hm with hm | hm
      · exact h.passed s hj (.inr ⟨ks, hk, hm⟩)
      · exact he ks (List.mem_singleton.mp hm).symm hk
  case next hd hl =>
    have hr := h.leads hl
    refine ⟨hr, fun s hj hp => ?_⟩
    rw [hj] at hr
    rw [hd] at hp
    rcases hp with ht | ⟨_, _, hm⟩
    · exact Bool.false_ne_true (hr.symm.trans ht)
    · cases hm

-- Nobody else adds or imports the address.
def Spares (a : Key) : Attended.Label Effects → Prop
  | .other e => ¬e.op.Admits a
  | _        => True

-- The address is not leased, and the loop is idle with respect to it.
structure Clear (a : Key) (x : Attendance) : Prop where
  leased : a ∉ x.system.leased.map Proxy.key
  idle   : ∀ i, x.actor = some i → Idle a i

-- An address that is gone stays gone, and the loop stays idle.
theorem Idle.step (hx : Sane x) (hg : Gone a x.system) (hi : ∀ i, x.actor = some i → Idle a i)
    {l : Attended.Label Effects} (hl : Spares a l) (h : AttendStep c cfg x l y) :
    Gone a y.system ∧ (∀ i, y.actor = some i → Idle a i) ∧ ∀ e, l = .own e → ¬e.op.Admits a := by
  cases l
  case spawn =>
    cases h
    case spawn h => exact ⟨hg.spawn h, hi, fun _ h => nomatch h⟩
  case other e =>
    cases h
    case other h => exact ⟨hg.event hx.leased h hl, hi, fun _ h => nomatch h⟩
  case own e =>
    obtain ⟨i, hxi, hd, hp, ha, _⟩ := hx.own h
    have hn := (hi i hxi).demands hd
    refine ⟨?_, ?_, ?_⟩
    · refine Absent.own hx hg h fun p hp hk => ?_
      rcases returns_or_admits hp with hr | hp
      · rw [← Event.returns, (upkeep_idle hd.isUpkeep).right] at hr
        cases hr
      · exact hn (hk ▸ hp)
    · intro j hj
      rw [hj] at hp
      refine (hi i hxi).proceeds ?_ hp
      rintro ks rfl hk
      refine hg <| Multiset.mem_add.mpr <| .inl <| mem_addrs.mp ?_
      rw [← ha.left]
      exact hk
    · rintro _ ⟨⟩
      exact hn

-- Every completed call of `reconcile` without the address has deleted it. If the address is clear by then,
-- the loop does not add it afterwards, unless someone else does so.
theorem not_resurrected {desired : List Proxy} {watching : Trace Effects} (ha : a ∉ desired.map Proxy.key)
    (hw : (Watch.reconcile desired).Runs watching (.ret ())) :
    (∃ e ∈ watching, Deletes a e) ∧
    ∀ e ∈ watching, Deletes a e → ∀ s₀ tr₁ tr₂ x y z,
      Attends c cfg (fun _ _ => True) (attended cfg s₀) tr₁ x → AttendStep c cfg x (.other e) y → Clear a x →
      Attends c cfg (fun _ => Spares a) y tr₂ z → ∀ e', .own e' ∈ tr₂ → ¬e'.op.Admits a := by
  refine ⟨Watch.reconcile_deletes ha hw, ?_⟩
  intro e _ hd s₀ tr₁ tr₂ x y z h₁ hs hc h₂
  have hx : Sane x := (Sane.initial s₀).run h₁
  have hy : Gone a y.system ∧ ∀ i, y.actor = some i → Idle a i := by
    cases hs
    case other h => exact ⟨.of_deletes hx.leased h hd hc.leased, hc.idle⟩
  have key := h₂.invariant (I := fun tr z => Sane z ∧ Gone a z.system ∧ (∀ i, z.actor = some i → Idle a i) ∧
    ∀ e, .own e ∈ tr → ¬e.op.Admits a) ⟨hx.step hs, hy.left, hy.right, by simp⟩ ?_
  · exact key.right.right.right
  · rintro tr x l y ⟨hx, hg, hi, ht⟩ hl h
    obtain ⟨hg, hi, ha⟩ := Idle.step hx hg hi hl h
    refine ⟨hx.step h, hg, hi, fun e he => ?_⟩
    rcases List.mem_append.mp he with he | he
    · exact ht e he
    · exact ha e (List.mem_singleton.mp he).symm

namespace RecheckExample

def working : Checked where
  working       := true
  types         := fun _ => none
  requests      := 1
  errors        := []
  runtimes      := []
  probeRuntimes := []
  caps          := ⟨false, false⟩
  trust         := []

-- What is left of a proxy after a successful check.
def fresh : Proxy :=
  afterCheck (.new addr.host addr.port ∅) working

def watching : Trace Effects := [
  listed [addr],
  ⟨.pool (.remove addr), true⟩
]

end RecheckExample

open RecheckExample LeaseExample in
-- The watcher deletes the only proxy of a pool while the proxy is being checked. The loop adds it again.
theorem resurrected :
    ∃ tr₁ tr₂ x z t, Attends .default eager (fun _ _ => True) (attended eager pool) tr₁ x ∧
      t ∈ x.system.threads ∧ (Watch.reconcile []).Runs t.trace (.ret ()) ∧ t.code = .ret () ∧
      Attends .default eager (fun _ => Spares addr) x tr₂ z ∧
      .own ⟨.pool (.add .outsider fresh), ()⟩ ∈ tr₂ ∧ fresh.key = addr ∧ addr ∈ z.system.shared.addrs := by
  have h := popping_attends pool rfl
  have h := h.loop [addr] ⟨rfl, rfl⟩ trivial
  have h := h.step trivial (.spawn (.spawn (.service (.reconcile []))))
  have h := h.step trivial (.other (.first (r := [addr]) ⟨rfl, rfl⟩))
  have h := h.step trivial (.other (.first (r := true) ⟨rfl, rfl⟩))
  have h' := h.continue fun _ => Spares addr
  have h' := h'.loop working rfl trivial
  have h' := h'.loop () rfl trivial
  have h' := h'.loop (20 : Instant) rfl trivial
  have h' := h'.loop (5 : Duration) rfl trivial
  have h' := h'.loop () rfl trivial
  refine ⟨_, _, _, _, _, h, List.mem_singleton_self _, .call (.call .refl), rfl, h', ?_, rfl, ?_⟩
  · exact List.mem_append_right _ (List.mem_singleton_self _)
  · exact List.mem_singleton_self addr

open RecheckExample LeaseExample in
-- The watcher deletes the proxy when the loop has just popped its job, and is about to look for it in the pool.
theorem not_resurrected_popped :
    ∃ tr₂ x y z, x.actor = some (.begin (Phase.body eager) (.job popped addr)) ∧
      AttendStep .default eager x (.other ⟨.pool (.remove addr), true⟩) y ∧ Clear addr x ∧
      Attends .default eager (fun _ => Spares addr) y tr₂ z ∧ tr₂.length = 5 ∧
      ∀ e', .own e' ∈ tr₂ → ¬e'.op.Admits addr := by
  have hw : (Watch.reconcile []).Runs watching (.ret ()) := .call (.call .refl)
  have h := popping_attends pool rfl
  have h := h.step trivial (.spawn (.spawn (.service (.reconcile []))))
  have h := h.step trivial (.other (.first (r := [addr]) ⟨rfl, rfl⟩))
  have h' := h.step trivial (.other (.first (r := true) ⟨rfl, rfl⟩))
  have h' := h'.continue fun _ => Spares addr
  have h' := h'.loop [] ⟨rfl, rfl⟩ trivial
  have h' := h'.loop (20 : Instant) rfl trivial
  have h' := h'.loop [] ⟨rfl, rfl⟩ trivial
  have h' := h'.loop (20 : Instant) rfl trivial
  have h' := h'.loop false rfl trivial
  have hm : ⟨.pool (.remove addr), true⟩ ∈ watching := List.mem_cons_of_mem _ (List.mem_singleton_self _)
  refine ⟨_, _, _, _, rfl, ?step, ?clear, h', rfl,
    (not_resurrected List.not_mem_nil hw).right _ hm (.inl rfl) _ _ _ _ _ _ h ?step ?clear h'⟩
  case step  => exact .other (.first ⟨rfl, rfl⟩)
  case clear =>
    refine ⟨List.not_mem_nil, ?_⟩
    rintro _ ⟨⟩
    refine ⟨rfl, ?_⟩
    rintro _ ⟨⟩ (hr | ⟨_, _, hm⟩)
    · cases hr
    · cases hm

end Scheduler
