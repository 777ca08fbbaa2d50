import ProxyBroker.Checker.Theorems.Admission

namespace Checker

variable {r : RetryPolicy} {c : Checker} {w : Answers} {p : Proxy} {t u : Proto} {level l : Option AnonLevel}
variable {i tries : Nat} {ts : List Proto} {any : Bool}

section Attempts

-- From the `i`-th attempt on, the first one whose outcome is not worth another try works.
def Works (r : RetryPolicy) (w : Answers) (t : Proto) (i : Nat) (level : Option AnonLevel) : Prop :=
  ∃ n obs, i ≤ n ∧ n < r.maxTries ∧ w.attempt t n = .ok (.working obs) ∧ obs.level = level ∧
    ∀ j, i ≤ j → j < n → ∃ e ∈ r.retryOn, w.attempt t j = .error e

theorem works_of_working {obs : Observation} (ha : w.attempt t i = .ok (.working obs)) :
    Works r w t i level ↔ i < r.maxTries ∧ obs.level = level := by
  constructor
  case mp =>
    rintro ⟨n, obs', hi, hn, ha', rfl, hr⟩
    rcases Nat.eq_or_lt_of_le hi with rfl | hi
    · rw [ha] at ha'
      cases ha'
      exact ⟨hn, rfl⟩
    · obtain ⟨e, -, he⟩ := hr i le_rfl hi
      rw [ha] at he
      cases he
  case mpr =>
    rintro ⟨hi, hl⟩
    exact ⟨i, obs, le_rfl, hi, ha, hl, fun j hj hi => by omega⟩

theorem not_works_of_invalid (ha : w.attempt t i = .ok .invalid) : ¬Works r w t i level := by
  rintro ⟨n, obs, hi, -, ha', -, hr⟩
  rcases Nat.eq_or_lt_of_le hi with rfl | hi
  · rw [ha] at ha'
    cases ha'
  · obtain ⟨e, -, he⟩ := hr i le_rfl hi
    rw [ha] at he
    cases he

theorem works_of_error {e : ProxyError} (ha : w.attempt t i = .error e) :
    Works r w t i level ↔ e ∈ r.retryOn ∧ Works r w t (i + 1) level := by
  constructor
  case mp =>
    rintro ⟨n, obs, hi, hn, ha', hl, hr⟩
    rcases Nat.eq_or_lt_of_le hi with rfl | hi
    · rw [ha] at ha'
      cases ha'
    · obtain ⟨e', hm, he⟩ := hr i le_rfl hi
      rw [ha] at he
      cases he
      exact ⟨hm, n, obs, hi, hn, ha', hl, fun j hj => hr j (by omega)⟩
  case mpr =>
    rintro ⟨hm, n, obs, hi, hn, ha', hl, hr⟩
    refine ⟨n, obs, by omega, hn, ha', hl, fun j hj hn => ?_⟩
    rcases Nat.eq_or_lt_of_le hj with rfl | hj
    · exact ⟨e, hm, ha⟩
    · exact hr j hj hn

theorem Works.lt (h : Works r w t i level) : i < r.maxTries := by
  obtain ⟨n, -, hi, hn, -⟩ := h
  omega

theorem not_works_of_le (h : r.maxTries ≤ i) : ¬Works r w t i level :=
  fun hw => absurd hw.lt (Nat.not_lt_of_le h)

-- A protocol is confirmed, with the level that was observed, or nothing is known about it that was not known before.
theorem attempts_types (h : tries + i = r.maxTries) :
    ((attempts r w t tries i p).1 = true ∧ ∃ level, (∀ l, Works r w t i l ↔ l = level) ∧
      (attempts r w t tries i p).2.types = Function.update p.types t (some level)) ∨
    (attempts r w t tries i p).1 = false ∧ (∀ l, ¬Works r w t i l) ∧ (attempts r w t tries i p).2.types = p.types := by
  induction tries generalizing i p
  case zero => exact .inr ⟨rfl, fun l => not_works_of_le (by omega), rfl⟩
  case succ tries hi =>
    rw [attempts]
    rcases ha : w.attempt t i with e | obs | -
    case ok.working =>
      refine .inl ⟨rfl, obs.level, fun l => ?_, rfl⟩
      rw [works_of_working ha, eq_comm]
      exact and_iff_right (by omega)
    case ok.invalid => exact .inr ⟨rfl, fun l => not_works_of_invalid ha, rfl⟩
    case error =>
      dsimp only
      split_ifs with hm
      case pos =>
        have hw (l : Option AnonLevel) : Works r w t i l ↔ Works r w t (i + 1) l := by
          rw [works_of_error ha, and_iff_right hm.left]
        simp only [hw]
        exact hi (by omega)
      case neg =>
        refine .inr ⟨rfl, fun l hw => hm ?_, rfl⟩
        obtain ⟨he, hw⟩ := (works_of_error ha).mp hw
        exact ⟨he, hw.lt⟩

end Attempts

section Protocols

-- The check of a protocol confirms it.
def Yields (c : Checker) (w : Answers) (t : Proto) (level : Option AnonLevel) : Prop :=
  c.hasProbe t = true ∧ Works c.retry w t 0 level

theorem checkOne_types :
    ((c.checkOne w p t).1 = true ∧ ∃ level, (∀ l, Yields c w t l ↔ l = level) ∧
      (c.checkOne w p t).2.types = Function.update p.types t (some level)) ∨
    (c.checkOne w p t).1 = false ∧ (∀ l, ¬Yields c w t l) ∧ (c.checkOne w p t).2.types = p.types := by
  unfold checkOne Yields
  by_cases h : c.hasProbe t
  case pos => simpa only [h, if_true, true_and] using attempts_types (p := p) (Nat.add_zero _)
  case neg => exact .inr ⟨by rw [if_neg h], fun l hl => h hl.left, by rw [if_neg h]⟩

def checkAll (c : Checker) (w : Answers) (ts : List Proto) (any : Bool) (p : Proxy) : Bool × Proxy :=
  ts.foldl (fun s t => (s.1 || (c.checkOne w s.2 t).1, (c.checkOne w s.2 t).2)) (any, p)

theorem checkAll_types (hn : ts.Nodup) (hp : ∀ t ∈ ts, p.types t = none) :
    ((checkAll c w ts any p).1 = true ↔ any = true ∨ ∃ t ∈ ts, ∃ l, Yields c w t l) ∧
    ∀ t l, (checkAll c w ts any p).2.types t = some l ↔ p.types t = some l ∨ t ∈ ts ∧ Yields c w t l := by
  induction ts generalizing any p
  case nil => simp [checkAll]
  case cons u ts hi =>
    obtain ⟨hu, hn⟩ := List.nodup_cons.mp hn
    rw [checkAll, List.foldl_cons, ← checkAll]
    have hpu := hp u List.mem_cons_self
    rcases checkOne_types (c := c) (w := w) (p := p) (t := u) with ⟨ho, level, hy, ht⟩ | ⟨ho, hy, ht⟩
    case inl =>
      obtain ⟨ha, hs⟩ := @hi (c.checkOne w p u).2 (any || (c.checkOne w p u).1) hn fun t hm => by
        rw [ht, Function.update_of_ne (ne_of_mem_of_not_mem hm hu)]
        exact hp t (List.mem_cons_of_mem _ hm)
      refine ⟨?_, fun t l => ?_⟩
      · rw [ha, ho]
        simp [hy]
      · rw [hs, ht]
        by_cases he : t = u
        case pos =>
          subst he
          simp [hu, hpu, hy, eq_comm]
        case neg => simp [he]
    case inr =>
      obtain ⟨ha, hs⟩ := @hi (c.checkOne w p u).2 (any || (c.checkOne w p u).1) hn fun t hm => by
        rw [ht]
        exact hp t (List.mem_cons_of_mem _ hm)
      refine ⟨?_, fun t l => ?_⟩
      · rw [ha, ho]
        simp [hy]
      · rw [hs, ht]
        by_cases he : t = u
        case pos =>
          subst he
          simp [hu, hy]
        case neg => simp [he]

end Protocols

section Fresh

-- A protocol is requested, and its check confirms it.
def Confirmed (c : Checker) (w : Answers) (t : Proto) (level : Option AnonLevel) : Prop :=
  (∃ s ∈ c.requested, s.proto = t) ∧ Yields c w t level

-- A blocklist lists the proxy.
def Listed (c : Checker) (w : Answers) : Prop :=
  c.dnsbl ≠ [] ∧ w.listed = true

instance : Decidable (Listed c w) :=
  inferInstanceAs (Decidable (_ ∧ _))

theorem exists_of_isWorking : p.isWorking = true ↔ ∃ t l, p.types t = some l := by
  rw [isWorking_iff, ← List.length_pos_iff, List.length_pos_iff_exists_mem]
  simp only [Prod.exists, mem_typeList]

theorem typesPassed_isWorking_iff {requested : List TypeSpec} {strict : Bool} :
    (typesPassed requested strict p).2.isWorking = true ↔
      ∃ t l, p.types t = some l ∧ (strict = true → typeMatches requested true t l = true) := by
  rw [exists_of_isWorking, typesPassed_snd]
  cases strict <;> simp [Option.filter_eq_some_iff]

theorem typesPassed_fst {requested : List TypeSpec} {strict : Bool} (hn : requested ≠ []) :
    (typesPassed requested strict p).1 = true ↔
      ∃ t l, p.types t = some l ∧ typeMatches requested strict t l = true := by
  cases strict
  case true =>
    have hw : (typesPassed requested true p).1 = (typesPassed requested true p).2.isWorking := by
      rw [typesPassed, if_neg hn, if_pos rfl]
    rw [hw, typesPassed_isWorking_iff]
    simp
  case false =>
    rw [typesPassed, if_neg hn, if_neg Bool.false_ne_true]
    simp only [List.any_eq_true, Prod.exists, mem_typeList]

theorem check_eq : c.check w p = if Listed c w then (false, p) else
    if (checkAll c w (c.ngtrs p) false p).1 then typesPassed c.requested c.strict (checkAll c w (c.ngtrs p) false p).2
    else (false, (checkAll c w (c.ngtrs p) false p).2) :=
  rfl

-- The check of a proxy about which nothing is known.
theorem check_fresh (ht : ∀ t, p.types t = none) (he : p.expectedTypes = ∅) :
    ((c.check w p).1 = true ↔
      ¬Listed c w ∧ ∃ t l, Confirmed c w t l ∧ typeMatches c.requested c.strict t l = true) ∧
    ((c.check w p).2.isWorking = true ↔
      ¬Listed c w ∧ ∃ t l, Confirmed c w t l ∧ (c.strict = true → typeMatches c.requested true t l = true)) := by
  have hy (t : Proto) (l : Option AnonLevel) : t ∈ c.ngtrs p ∧ Yields c w t l ↔ Confirmed c w t l := by
    simp [mem_ngtrs, he, Confirmed]
  obtain ⟨ha, hs⟩ := @checkAll_types c w p (c.ngtrs p) false ngtrs_nodup
    fun t _ => ht t
  replace ha : (checkAll c w (c.ngtrs p) false p).1 = true ↔ ∃ t l, Confirmed c w t l := by
    simp only [ha, Bool.false_eq_true, false_or, ← hy, exists_and_left]
  replace hs (t : Proto) (l : Option AnonLevel) :
      (checkAll c w (c.ngtrs p) false p).2.types t = some l ↔ Confirmed c w t l := by
    simp only [hs, ht, reduceCtorEq, false_or, hy]
  rw [check_eq]
  by_cases hl : Listed c w
  case pos =>
    have hw : ¬p.isWorking = true := by simp [exists_of_isWorking, ht]
    simp [hl, hw]
  case neg =>
    rw [if_neg hl]
    by_cases hb : (checkAll c w (c.ngtrs p) false p).1 = true
    case pos =>
      have hn : c.requested ≠ [] := by
        obtain ⟨t, l, ⟨s, hm, -⟩, -⟩ := ha.mp hb
        exact List.ne_nil_of_mem hm
      rw [if_pos hb, typesPassed_fst hn, typesPassed_isWorking_iff]
      simp only [hs, hl, not_false_eq_true, true_and, and_self]
    case neg =>
      have hn (t : Proto) (l : Option AnonLevel) : ¬Confirmed c w t l := fun h => hb (ha.mpr ⟨t, l, h⟩)
      rw [if_neg hb, exists_of_isWorking]
      simp [hs, hn]

end Fresh

end Checker
