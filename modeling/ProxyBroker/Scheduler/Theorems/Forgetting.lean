import ProxyBroker.Scheduler.Theorems.Attendance

open Pool System Attended

namespace Op

-- The address is put into the pool, no matter by whom.
def Offers (a : Key) : Op → Prop
  | pool (.push _ e) => e.proxy.key = a
  | pool (.add _ p)  => p.key = a
  | _                => False

-- The address is removed from the pool, or not returned to it.
def Loses (a : Key) : Op → Prop
  | pool (.remove k) => k = a
  | pool (.evict p)  => p.key = a
  | _                => False

end Op

namespace Pool

variable {c : Config} {s s' : State} {a : Key} {e : Event Effects} {p : Proxy}

theorem offers_mem (h : (machine c).answers s e s') (ho : e.op.Offers a) : a ∈ s'.proxies.map Proxy.key := by
  obtain ⟨o, r⟩ := e
  cases o
  case pool o =>
    cases o
    case push g q =>
      cases h
      cases ho
      simp [State.push, State.proxies]
    case add g p =>
      cases h
      cases ho
      unfold State.add
      split
      case isTrue h  => simpa [State.proxies] using h
      case isFalse h => simp [State.push, State.proxies]
    all_goals exact (ho : False).elim
  all_goals exact (ho : False).elim

theorem returns_offers_or_loses {o : Op} (h : o.returns = some p) : o.Offers p.key ∨ o.Loses p.key := by
  cases o
  case pool o =>
    cases o
    case push g _ =>
      cases g
      · cases h
        exact .inl rfl
      · cases h
    case add g _ =>
      cases g
      · cases h
        exact .inl rfl
      · cases h
    case evict =>
      cases h
      exact .inr rfl
    all_goals cases h
  all_goals cases h

theorem deleting_loses {o : Op} (h : p ∈ deleting s o) : o.Loses p.key := by
  cases o
  case pool o =>
    cases o
    case remove k =>
      have ⟨_, hk⟩ := List.mem_filter.mp h
      exact (of_decide_eq_true hk).symm
    all_goals cases h
  all_goals cases h

variable {x y : System Effects State} {service : Async Unit → Prop}

-- An address stays in the pool or leased until it is removed or evicted.
theorem not_gone_event (hx : x.IsLeased) (h : Step (machine c) service x (some e) y) (hg : ¬Gone a x)
    (hl : ¬e.op.Loses a) : ¬Gone a y := by
  obtain ⟨_, _, _, -, -, -, ha⟩ := hx.event_inv h
  have hb := pooled_leased_event Proxy.ident_key (.refl c) hx h
  have hm := hb.symm ▸ Multiset.mem_add.mpr (.inl (not_not.mp hg))
  rcases Multiset.mem_add.mp hm with hm | hm
  · exact not_not.mpr hm
  · refine not_not.mpr <| Multiset.mem_add.mpr <| .inl ?_
    rcases Multiset.mem_add.mp hm with hm | hm
    · obtain ⟨p, hp, rfl⟩ := List.mem_map.mp (Multiset.mem_coe.mp hm)
      rcases returns_offers_or_loses (Option.mem_toList.mp hp) with ho | hl'
      · exact offers_mem ha ho
      · exact absurd hl' hl
    · obtain ⟨p, hp, rfl⟩ := List.mem_map.mp (Multiset.mem_coe.mp hm)
      exact absurd (deleting_loses hp) hl

theorem Gone.not_offers (hg : Gone a x) (h : (machine c).answers s e x.shared) : ¬e.op.Offers a :=
  fun ho => hg <| Multiset.mem_add.mpr <| .inl <| offers_mem h ho

end Pool

namespace Scheduler

variable {c : Config} {cfg : RecheckConfig} {x y : Attendance} {e : Event Effects} {a : Key} {v : ℚ}
variable {i j : Iteration Effects Phase} {tr : List (Label Effects)}

def Phase.keys : Phase → List Key
  | start                  => []
  | head s | enrolled _ s => s.keys
  | job s k               => k :: s.keys

-- The address is a part of the schedule, or is about to become one.
def Tracked (a : Key) (i : Iteration Effects Phase) : Prop :=
  a ∈ i.state.keys ∨ ∃ s ks, i.state = .head s ∧ a ∈ ks ∧ listed ks ∈ i.done

-- Someone else has removed or evicted the address, and nobody has put it into the pool since.
def Lost (a : Key) (tr : List (Label Effects)) : Prop :=
  ∃ tr₁ e tr₂, tr = tr₁ ++ .other e :: tr₂ ∧ e.op.Loses a ∧
    ∀ e', .other e' ∈ tr₂ ∨ .own e' ∈ tr₂ → ¬e'.op.Offers a

theorem Lost.last (h : e.op.Loses a) : Lost a (tr ++ [.other e]) :=
  ⟨tr, e, [], rfl, h, by simp⟩

theorem Lost.append {l : Label Effects} (h : Lost a tr) (hl : ∀ e, l = .other e ∨ l = .own e → ¬e.op.Offers a) :
    Lost a (tr ++ [l]) := by
  obtain ⟨tr₁, e, tr₂, rfl, he, ht⟩ := h
  refine ⟨tr₁, e, tr₂ ++ [l], by simp, he, fun e' he' => ?_⟩
  simp only [List.mem_append, List.mem_singleton] at he'
  rcases he' with (he' | he') | (he' | he')
  · exact ht e' (.inl he')
  · exact hl e' (.inl he'.symm)
  · exact ht e' (.inr he')
  · exact hl e' (.inr he'.symm)

theorem Enrols.keys {ks : List Key} {s s' : Schedule} (h : Enrols ks s s') (ha : a ∈ s'.keys) : a ∈ s.keys ∨ a ∈ ks := by
  induction h
  case nil => exact .inl ha
  case known _ _ hi =>
    rcases hi ha with h | h
    · exact .inl h
    · exact .inr (List.mem_cons_of_mem _ h)
  case new _ _ hi =>
    rcases hi ha with h | h
    · rcases List.mem_cons.mp h with rfl | h
      · exact .inr List.mem_cons_self
      · exact .inl h
    · exact .inr (List.mem_cons_of_mem _ h)

theorem Treated.keys {s s' : Schedule} {k : Key} {tr : Trace Effects} (h : Treated s k tr s') : s'.keys ⊆ k :: s.keys := by
  cases h
  case dropped | evicted => exact List.subset_cons_self ..
  all_goals exact List.Subset.refl _

-- Addresses get into the schedule by being found in the pool.
theorem Tracked.proceeds (h : Tracked a j) (hp : Proceeds i e (some j)) :
    Tracked a i ∨ ∃ ks, e = listed ks ∧ a ∈ ks := by
  cases hp
  case same _ hs hd =>
    rcases h with h | ⟨s, ks, hj, ha, hm⟩
    · exact .inl (.inl (hs ▸ h))
    · rcases List.mem_append.mp (hd ▸ hm) with hm | hm
      · exact .inl (.inr ⟨s, ks, hs ▸ hj, ha, hm⟩)
      · exact .inr ⟨ks, (List.mem_singleton.mp hm).symm, ha⟩
  case next hd hl =>
    rcases h with h | ⟨_, _, _, _, hm⟩
    case inr =>
      rw [hd] at hm
      cases hm
    obtain ⟨ph, tr₀, rest⟩ := i
    obtain ⟨ph', tr', rest'⟩ := j
    cases ph
    case start =>
      obtain ⟨now, ⟨⟩⟩ := hl
      cases h
    case head s =>
      obtain ⟨ks, s', ⟨⟩, hm, he⟩ := hl
      rcases he.keys h with h | h
      · exact .inl (.inl h)
      · rcases List.mem_append.mp hm with hm | hm
        · exact .inl (.inr ⟨s, ks, rfl, h, hm⟩)
        · exact .inr ⟨ks, (List.mem_singleton.mp hm).symm, h⟩
    case enrolled s =>
      cases hl
      case head   => exact .inl (.inl h)
      case job hp =>
        obtain ⟨he, rfl⟩ := pop_inv hp
        exact .inl (.inl ((List.perm_cons_erase he).map Scheduled.key |>.mem_iff.mpr h))
    case job s k =>
      obtain ⟨s', ⟨⟩, ht⟩ := hl
      exact .inl (.inl (ht.keys h))

theorem Tracked.mem_keys (h : Tracked a j) (hd : j.done = []) : a ∈ j.state.keys := by
  rcases h with h | ⟨_, _, _, _, hm⟩
  · exact h
  · rw [hd] at hm
    cases hm

-- An address is not retried anymore once it was put into the pool again, unless the loop has given it up.
theorem retrying_proceeds (hk : i.state.Kept) (hd : i.state.Demands i.done e.op) (hp : Proceeds i e (some j))
    (hr : i.state.retrying a = true) (ht : Tracked a j) : j.state.retrying a = true ∨ e.op.Offers a := by
  cases hp
  case same _ hs _ => exact .inl (hs ▸ hr)
  case next hj hl =>
    replace ht := ht.mem_keys hj
    obtain ⟨ph, tr₀, rest⟩ := i
    obtain ⟨ph', tr', rest'⟩ := j
    cases ph
    case start => cases hr
    case head s =>
      obtain ⟨ks, s', ⟨⟩, -, he⟩ := hl
      exact .inl ((congrFun he.retrying a).trans hr)
    case enrolled s =>
      cases hl
      case head   => exact .inl hr
      case job hp =>
        obtain ⟨_, rfl⟩ := pop_inv hp
        exact .inl hr
    case job s k =>
      obtain ⟨s', ⟨⟩, htr⟩ := hl
      by_cases hka : k = a
      case neg => exact .inl ((htr.retrying hka).trans hr)
      subst hka
      generalize hl : tr₀ ++ [e] = tr at htr
      cases htr
      case dropped hf _ => exact absurd (hf.symm.trans hr) Bool.false_ne_true
      case working =>
        obtain ⟨_, ⟨⟩⟩ := List.append_inj' hl rfl
        rcases hd with ⟨hd, _⟩ | ⟨_, hd⟩
        · cases hd
        · exact .inr hd.left
      case retried => exact .inl (by simp [Phase.retrying, Schedule.setRetrying, Schedule.push])
      case evicted => exact absurd ht (List.nodup_cons.mp hk.nodup).left

theorem Phase.Demands.loses {ph : Phase} {tr : Trace Effects} {o : Op} (h : ph.Demands tr o) (hl : o.Loses a) :
    ∃ s, ph = .job s a ∧ o = .pool (.remove a) := by
  cases o
  case pool o =>
    cases o
    case remove k =>
      cases hl
      cases ph
      case start | enrolled => exact (h : False).elim
      case head             => exact h.elim nofun (fun h : False => h.elim)
      case job s k          =>
        rcases h with ⟨h, _⟩ | ⟨_, h⟩
        · cases h
        · cases h
          exact ⟨s, rfl, rfl⟩
    case evict =>
      cases ph
      case start | enrolled => exact (h : False).elim
      case head             => exact h.elim nofun (fun h : False => h.elim)
      case job              => exact h.elim nofun (fun h => (h.right : False).elim)
    all_goals exact (hl : False).elim
  all_goals exact (hl : False).elim

-- If the loop itself removes an address, it retries or forgets it.
theorem removed_proceeds (hk : i.state.Kept) (hd : i.state.Demands i.done e.op) (hp : Proceeds i e (some j))
    (he : e.op.Loses a) (ht : Tracked a j) : j.state.retrying a = true := by
  obtain ⟨s, hs, ho⟩ := hd.loses he
  obtain ⟨ph, tr₀, rest⟩ := i
  obtain ⟨o, r⟩ := e
  cases hs
  cases ho
  cases hp
  case same ho hs hd =>
    obtain ⟨_, ⟨_, _, h⟩ | ⟨h, _⟩⟩ := ho
    · simp at h
    · have := h.undecided _ (List.mem_append_right _ (List.mem_singleton_self _))
      exact this.elim nofun (fun h : False => h.elim)
  case next hj hl =>
    replace ht := ht.mem_keys hj
    obtain ⟨ph', tr', rest'⟩ := j
    obtain ⟨s', ⟨⟩, htr⟩ := hl
    generalize hl : tr₀ ++ [_] = tr at htr
    cases htr
    case dropped ks _ _ =>
      rw [← List.nil_append [listed ks]] at hl
      obtain ⟨_, ⟨⟩⟩ := List.append_inj' hl rfl
    case working => obtain ⟨_, ⟨⟩⟩ := List.append_inj' hl rfl
    case retried => simp [Phase.retrying, Schedule.setRetrying, Schedule.push]
    case evicted => exact absurd ht (List.nodup_cons.mp hk.nodup).left

-- An address of the schedule that is neither in the pool nor leased is being retried, or was lost.
def Accounted (tr : List (Label Effects)) (x : Attendance) : Prop :=
  ∀ i, x.actor = some i → ∀ a, Tracked a i → Gone a x.system → Lost a tr ∨ i.state.retrying a = true

theorem not_gone_own (hx : Sane x) (h : AttendStep c cfg x (.own e) y) (hg : ¬Gone a x.system)
    (hl : ¬e.op.Loses a) : ¬Gone a y.system := by
  obtain ⟨i, _, hd, _, ha, hy⟩ := hx.own h
  have hp := answers_add Proxy.key ha
  simp only [(upkeep_idle hd.isUpkeep).left, Option.toList_none, List.map_nil, Multiset.coe_nil, add_zero] at hp
  refine not_not.mpr ?_
  rw [hy]
  rcases Multiset.mem_add.mp (not_not.mp hg) with hm | hm
  · replace hm := hp.symm ▸ Multiset.mem_add.mpr (.inl hm)
    rcases Multiset.mem_add.mp hm with hm | hm
    · exact Multiset.mem_add.mpr (.inl hm)
    · obtain ⟨p, hp, rfl⟩ := List.mem_map.mp (Multiset.mem_coe.mp hm)
      exact absurd (deleting_loses hp) hl
  · exact Multiset.mem_add.mpr (.inr hm)

theorem Accounted.spawn (ht : Accounted tr x) (h : AttendStep c cfg x .spawn y) : Accounted (tr ++ [.spawn]) y := by
  cases h
  case spawn x y u h =>
    intro i hi a ha hg
    have hg' : Gone a x := by rwa [Gone, leased_spawn h, h.shared_spawn] at hg
    rcases ht i hi a ha hg' with hl | hr
    · exact .inl (hl.append (by simp))
    · exact .inr hr

theorem Accounted.other (hx : Sane x) (ht : Accounted tr x) (h : AttendStep c cfg x (.other e) y) :
    Accounted (tr ++ [.other e]) y := by
  cases h
  case other x y u h =>
    intro i hi a ha hg
    by_cases hl : e.op.Loses a
    case pos => exact .inl (.last hl)
    obtain ⟨_, _, _, -, -, -, hm⟩ := hx.leased.event_inv h
    have hg' : Gone a x := by
      by_contra hg'
      exact not_gone_event hx.leased h hg' hl hg
    rcases ht i hi a ha hg' with hl | hr
    · refine .inl (hl.append ?_)
      rintro _ (⟨⟨⟩⟩ | ⟨⟨⟩⟩)
      exact hg.not_offers hm
    · exact .inr hr

theorem Accounted.own (hx : Sane x) (ht : Accounted tr x) (h : AttendStep c cfg x (.own e) y) :
    Accounted (tr ++ [.own e]) y := by
  obtain ⟨i, hi, hd, hp, hm, hl⟩ := hx.own h
  intro j hj a ha hg
  rw [hj] at hp
  have hk := hx.kept i hi
  by_cases hl : e.op.Loses a
  case pos => exact .inr (removed_proceeds hk hd hp hl ha)
  have hg' : Gone a x.system := by
    by_contra hg'
    exact not_gone_own hx h hg' hl hg
  rcases ha.proceeds hp with ha' | ⟨ks, rfl, hks⟩
  · rcases ht i hi a ha' hg' with hl | hr
    · refine .inl (hl.append ?_)
      rintro _ (⟨⟨⟩⟩ | ⟨⟨⟩⟩)
      exact hg.not_offers hm
    · exact .inr <| (retrying_proceeds hk hd hp hr ha).resolve_right (hg.not_offers hm)
  · refine absurd (Multiset.mem_add.mpr <| .inl <| mem_addrs.mp ?_) hg'
    exact hm.left ▸ hks

theorem Accounted.run {s₀ : State} {guard : Attendance → Label Effects → Prop}
    (h : Attends c cfg guard (attended cfg s₀) tr x) : Sane x ∧ Accounted tr x := by
  refine h.invariant (I := fun tr x => Sane x ∧ Accounted tr x) ⟨.initial s₀, ?_⟩ ?_
  · rintro i ⟨⟩ a (ha | ⟨_, _, ⟨⟩, _⟩)
    cases ha
  · rintro tr x l y ⟨hx, ht⟩ - h
    refine ⟨hx.step h, ?_⟩
    cases l
    case spawn => exact ht.spawn h
    case other => exact ht.other hx h
    case own   => exact ht.own hx h

-- What can become of the success rate of an address: it stays the same, a sample is folded into it, or it is
-- forgotten. The latter happens if the loop gives the address up, or does not find it in the pool.
inductive Fate (a : Key) (v : ℚ) (i : Iteration Effects Phase) (e : Event Effects) : Option ℚ → Prop
  | kept : Fate a v i e (some v)
  | folded (working : Bool) : Fate a v i e (some (3 / 10 * (if working then 1 else 0) + 7 / 10 * v))
  | evicted : e.op = .pool (.remove a) → Fate a v i e none
  | dropped {s : Schedule} {ks : List Key} : i.state = .job s a → e = listed ks → a ∉ ks → Fate a v i e none

theorem Fate.of_eq {w : Option ℚ} (h : w = some v) : Fate a v i e w :=
  h ▸ .kept

theorem Proceeds.fate (hp : Proceeds i e (some j)) (hv : i.state.ewma a = some v) : Fate a v i e (j.state.ewma a) := by
  cases hp
  case same _ hs _ => exact .of_eq (hs ▸ hv)
  case next hj hl =>
    by_cases hs : i.state.subject = some a
    case neg => exact .of_eq (hl.ewma hs hv)
    obtain ⟨ph, tr₀, rest⟩ := i
    obtain ⟨ph', tr', rest'⟩ := j
    cases ph
    case start | head | enrolled => cases hs
    case job s k =>
      cases hs
      obtain ⟨s', ⟨⟩, ht⟩ := hl
      replace hv : s.ewma a = some v := hv
      change Fate a v _ e (s'.ewma a)
      generalize hl : tr₀ ++ [e] = tr at ht
      cases ht
      case dropped ks _ hn =>
        rw [← List.nil_append [listed ks]] at hl
        obtain ⟨_, ⟨⟩⟩ := List.append_inj' hl rfl
        simp only [Schedule.forget, Function.update_self]
        exact .dropped rfl rfl hn
      case working =>
        simp only [Schedule.push, Schedule.setRetrying, Schedule.fold, Function.update_self, hv, Option.getD_some]
        exact .folded true
      case retried =>
        simp only [Schedule.push, Schedule.setRetrying, Schedule.fold, Function.update_self, hv, Option.getD_some]
        exact .folded false
      case evicted =>
        obtain ⟨_, ⟨⟩⟩ := List.append_inj' hl rfl
        simp only [Schedule.setRetrying, Schedule.forget, Function.update_self]
        exact .evicted rfl

theorem Phase.Kept.mem_keys {ph : Phase} (h : ph.Kept) (hv : ph.ewma a = some v) : a ∈ ph.keys := by
  have hn : ph.ewma a ≠ none := by simp [hv]
  cases ph
  case start    => cases hv
  case head     => exact (Scheduler.Kept.ewma h a).mpr hn
  case enrolled => exact (Scheduler.Kept.ewma h.left a).mpr hn
  case job      => exact (Scheduler.Kept.ewma h a).mpr hn

-- When the loop looks up the address of a job, the address is not leased, unless it is in the pool as well.
def Unleased (a : Key) (x : Attendance) (e : Event Effects) : Prop :=
  ∀ i s, x.actor = some i → i.state = .job s a → e.op = .pool .addrs →
    a ∈ x.system.leased.map Proxy.key → a ∈ x.system.shared.addrs

-- The loop only forgets an address if it gives the address up because of its score, or if someone else has
-- removed or evicted the address.
theorem forgets_lost {s₀ : State} (h : Attends c cfg (fun _ _ => True) (attended cfg s₀) tr x)
    (hs : AttendStep c cfg x (.own e) y) (hu : Unleased a x e) (hx : x.actor = some i) (hy : y.actor = some j)
    (hv : i.state.ewma a = some v) :
    j.state.ewma a = some v ∨
    (∃ working : Bool, j.state.ewma a = some (3 / 10 * (if working then 1 else 0) + 7 / 10 * v)) ∨
    j.state.ewma a = none ∧ (e.op = .pool (.remove a) ∨ Lost a tr) := by
  have ⟨hsane, ht⟩ := Accounted.run h
  obtain ⟨i', hi, hd, hp, hm, -⟩ := hsane.own hs
  cases hx.symm.trans hi
  rw [hy] at hp
  have hf := hp.fate hv
  generalize j.state.ewma a = w at hf ⊢
  cases hf
  case kept           => exact .inl rfl
  case folded working => exact .inr (.inl ⟨working, rfl⟩)
  case evicted he     => exact .inr (.inr ⟨rfl, .inl he⟩)
  case dropped s ks hi he hn =>
    subst he
    have hr : i.state.retrying a = false := by
      rw [hi] at hd ⊢
      rcases hd with ⟨_, hr, _⟩ | ⟨_, h⟩
      · exact hr
      · exact (h : False).elim
    have hks : ks = x.system.shared.addrs := hm.left
    have hg : Gone a x.system := by
      intro hg
      rcases Multiset.mem_add.mp hg with hg | hg
      · exact hn (hks ▸ mem_addrs.mpr hg)
      · exact hn (hks ▸ hu i s hx hi rfl hg)
    rcases ht i hx a (.inl ((hsane.kept i hx).mem_keys hv)) hg with hl | hr'
    · exact .inr (.inr ⟨rfl, .inr hl⟩)
    · exact absurd (hr.symm.trans hr') Bool.false_ne_true

theorem RecheckExample.popped_ewma : popped.ewma addr = some 1 := by
  simp [popped]

open RecheckExample LeaseExample in
-- A client leases the only proxy of a pool just before the loop looks its address up. The loop forgets it,
-- although nobody has removed or evicted it.
theorem forgets_leased :
    ∃ tr x y i j, Attends .default eager (fun _ _ => True) (attended eager pool) tr x ∧
      AttendStep .default eager x (.own (listed [])) y ∧ x.actor = some i ∧ y.actor = some j ∧
      i.state.ewma addr = some 1 ∧ j.state.ewma addr = none ∧
      (∀ e, .other e ∈ tr ∨ .own e ∈ tr → ¬e.op.Loses addr) ∧ addr ∈ x.system.leased.map Proxy.key := by
  have hr : Runs ⟨pool, []⟩ leasing _ :=
    .spawn (.spawn (.service (.connect 1 ⟨1⟩ uri))) <|
    .event (.first rfl) trivial <| .event (.first rfl) trivial <|
    .event (.first ⟨rfl, rfl⟩) trivial <| .event (.first rfl) trivial <|
    .event (.first answers_select) trivial .refl
  obtain ⟨ls, h, hl⟩ := (popping_attends pool rfl).others hr
  refine ⟨_, _, _, _, _, h, .own .event ⟨rfl, rfl⟩, rfl, rfl, ?_, ?_, ?_, ?_⟩
  · exact popped_ewma
  · show (popped.forget addr).ewma addr = none
    simp [Schedule.forget]
  · intro e he
    have hn : ∀ e', .own e' ∈ popping → ¬e'.op.Loses addr := by
      simp only [popping, List.mem_cons, List.not_mem_nil, or_false, Label.own.injEq]
      rintro _ (rfl | rfl | rfl | rfl | rfl | rfl | rfl | rfl | rfl | rfl) <;> exact id
    have hn' : ∀ e' ∈ leasing, ¬e'.op.Loses addr := by
      simp only [leasing, List.mem_cons, List.not_mem_nil, or_false]
      rintro _ (rfl | rfl | rfl | rfl | rfl) <;> exact id
    rcases he with he | he
    · rcases List.mem_append.mp he with he | he
      · simp [popping] at he
      · rcases hl _ he with hl | ⟨e', he', ⟨⟩⟩
        · cases hl
        · exact hn' e he'
    · rcases List.mem_append.mp he with he | he
      · exact hn e he
      · rcases hl _ he with hl | ⟨_, _, hl⟩
        · cases hl
        · cases hl
  · exact .head _

open RecheckExample LeaseExample in
-- The loop checks the proxy while nobody has leased it.
theorem forgets_lost_idle :
    ∃ x y i j v, AttendStep .default eager x (.own (listed [addr])) y ∧ Unleased addr x (listed [addr]) ∧
      x.actor = some i ∧ y.actor = some j ∧ i.state.ewma addr = some v ∧
      (j.state.ewma addr = some v ∨
      (∃ working : Bool, j.state.ewma addr = some (3 / 10 * (if working then 1 else 0) + 7 / 10 * v)) ∨
      j.state.ewma addr = none ∧ ((listed [addr]).op = .pool (.remove addr) ∨ Lost addr popping)) := by
  have hs : AttendStep .default eager (atJob pool) (.own (listed [addr])) _ := .own .event ⟨rfl, rfl⟩
  have hu : Unleased addr (atJob pool) (listed [addr]) := by
    rintro _ _ - - - hm
    cases hm
  exact ⟨_, _, _, _, 1, hs, hu, rfl, rfl, popped_ewma,
    forgets_lost (popping_attends pool rfl) hs hu rfl rfl popped_ewma⟩

end Scheduler
