import ProxyBroker.Scheduler.Theorems.Identity

open Pool System

-- Nothing is checked or put into the pool.
def Op.IsNeutral : Op → Prop
  | env (.check _) | pool (.push ..) | pool (.add ..) => False
  | _                                                 => True

theorem Op.IsWait.isNeutral {o : Op} (h : o.IsWait) : o.IsNeutral := by
  cases o
  case env o =>
    cases o
    case check => exact (h : False).elim
    all_goals trivial
  all_goals exact (h : False).elim

namespace Scheduler

variable {c : Config} {cfg : RecheckConfig} {s s' : Schedule} {a k : Key} {ph ph' : Phase} {tr : Trace Effects}

section Score

-- The factor of `0.5f64.powf` is not greater than one.
variable (hd : ∀ u, 0 ≤ u → cfg.halving u ≤ 1) {e l : ℚ} {age : Duration}

theorem clamp_nonneg (e : ℚ) : 0 ≤ clamp e :=
  le_max_left ..

theorem asSecs_nonneg (d : Duration) : 0 ≤ asSecs d := by
  unfold asSecs
  positivity

include hd

theorem decayedScore_le_clamp : decayedScore e l age cfg ≤ clamp e := by
  have h₁ : 1 ≤ 1 + max l 0 := le_add_of_nonneg_right (le_max_right ..)
  have hb : 0 ≤ clamp e / (1 + max l 0) := div_nonneg (clamp_nonneg e) (zero_le_one.trans h₁)
  let hl := asSecs cfg.decayHalflife
  have hdecay : (if 0 < hl then cfg.halving (asSecs age / hl) else 1) ≤ 1 := by
    split_ifs
    · exact hd _ (div_nonneg (asSecs_nonneg _) (asSecs_nonneg _))
    · exact le_refl 1
  calc
    _ ≤ clamp e / (1 + max l 0) := mul_le_of_le_one_right hb hdecay
    _ ≤ clamp e                 := div_le_self (clamp_nonneg e) h₁

-- Neither a latency nor an age makes up for a low rate.
theorem evictFloor_le (h : shouldRetry e l age cfg = true) : evictFloor ≤ e := by
  have hc : evictFloor ≤ clamp e := (of_decide_eq_true h).trans (decayedScore_le_clamp hd)
  have hf : (0 : ℚ) < evictFloor := by norm_num [evictFloor]
  rcases le_max_iff.mp hc with hc | hc
  · exact absurd hc (not_le_of_gt hf)
  · exact hc.trans (min_le_right ..)

end Score

theorem le_ten {v : ℚ} {m : Nat} (hv : v ≤ (7 / 10) ^ m) (hf : evictFloor ≤ v) : m ≤ 10 := by
  by_contra hm
  have hp : (7 / 10 : ℚ) ^ m ≤ (7 / 10) ^ 11 := pow_le_pow_of_le_one (by norm_num) (by norm_num) (by omega)
  have he : (7 / 10 : ℚ) ^ 11 < evictFloor := by norm_num [evictFloor]
  exact absurd (hf.trans (hv.trans hp)) (not_le_of_gt he)

-- What has been found out by the checks.
abbrev findings (tr : Trace Effects) : List (Key × Checked) :=
  tr.filterMap Event.checked

namespace Phase

-- The loop only checks the address of its job, at most once, and only adds an address that has just worked.
def Asks (ph : Phase) (tr : Trace Effects) (o : Op) : Prop :=
  (∀ p, o = .env (.check p) → ph.subject = some p.key ∧ findings tr = []) ∧
  ∀ a, o.Admits a → ∃ r, (a, r) ∈ findings tr ∧ r.working = true

end Phase

-- How a job ends. Whether an address is retried depends on its new rate.
inductive Verdict (s : Schedule) (k : Key) (found : List (Key × Checked)) (s' : Schedule) : Prop
  | dropped : s'.ewma k = none → Verdict s k found s'
  | working {r : Checked} : (k, r) ∈ found → r.working = true → Verdict s k found s'
  | retried {r : Checked} :
    (k, r) ∈ found → s'.ewma k = some (s.fold k false).1 → evictFloor ≤ (s.fold k false).1 → Verdict s k found s'

def Phase.Judges (ph : Phase) (ph' : Option Phase) (tr : Trace Effects) : Prop :=
  ∀ s k, ph = .job s k → ∃ s', ph' = some (.head s') ∧ Verdict s k (findings tr) s'

theorem Phase.judges_of_subject {next : Option Phase} (h : ph.subject = none) : ph.Judges next tr := by
  rintro s k rfl
  cases h

section Contract

variable {o : Op}

theorem Phase.Asks.of_isNeutral (h : o.IsNeutral) : ph.Asks tr o := by
  constructor
  · rintro p rfl
    exact (h : False).elim
  · intro a ha
    cases o
    case pool o =>
      cases o
      case push | add => exact (h : False).elim
      all_goals exact (ha : False).elim
    all_goals exact (ha : False).elim

variable (hd : ∀ u, 0 ≤ u → cfg.halving u ≤ 1)

theorem mem_findings_snoc {e : Event Effects} {b : Key × Checked} :
    b ∈ findings (tr ++ [e]) ↔ b ∈ findings tr ∨ e.checked = some b := by
  simp [findings, List.filterMap_append]

include hd in
theorem recheck_judged (h : findings tr = []) :
    (recheck cfg s k).Sat (.history (Phase.job s k).Asks) (fun s' tr' => Verdict s k (findings tr') s') tr := by
  unfold recheck
  simp only [Prog.sat_bind, Async.sat_env]
  refine ⟨⟨?_, fun _ => False.elim⟩, fun (r : Checked) => ?_⟩
  · rintro p ⟨⟩
    exact ⟨rfl, h⟩
  refine ⟨.of_isNeutral trivial, fun u => ?_⟩
  refine ⟨.of_isNeutral trivial, fun now => ⟨.of_isNeutral trivial, fun j => ?_⟩⟩
  simp only [Monitor.history_next]
  generalize hf : tr ++ [_] ++ [_] ++ [_] ++ [_] = tr'
  have hr : (k, r) ∈ findings tr' := by
    simp [← hf, findings, List.filterMap_append, Event.checked, Proxy.new, Proxy.key]
  split
  case isTrue hw =>
    refine ⟨⟨?_, ?_⟩, fun _ => ?_⟩
    · rintro p ⟨⟩
    · rintro a rfl
      exact ⟨r, hr, hw⟩
    · exact .working (mem_findings_snoc.mpr (.inl hr)) hw
  case isFalse hw =>
    rw [Bool.eq_false_iff.mpr hw]
    simp only [Pool.remove, Prog.sat_bind, Async.sat_pool]
    refine ⟨.of_isNeutral trivial, fun removed => ?_⟩
    split
    case isTrue hs => exact .retried (mem_findings_snoc.mpr (.inl hr)) (Function.update_self ..) (evictFloor_le hd hs)
    case isFalse   => exact .dropped (Function.update_self ..)

include hd in
theorem treat_judged (s : Schedule) (k : Key) :
    (treat cfg s k).Sat (.history (Phase.job s k).Asks) (Phase.job s k).Judges [] := by
  have judged {tr : Trace Effects} {s' : Schedule} (h : Verdict s k (findings tr) s') :
      (Phase.job s k).Judges (some (.head s')) tr := by
    rintro _ _ ⟨⟩
    exact ⟨s', rfl, h⟩
  have recheck (tr : Trace Effects) (h : findings tr = []) :
      (recheck cfg s k >>= fun s => pure (some (Phase.head s))).Sat (.history (Phase.job s k).Asks)
        (Phase.job s k).Judges tr :=
    (Prog.sat_bind ..).mpr <| (recheck_judged hd h).mono fun _ _ => judged
  unfold treat isTracked
  split
  case isTrue => exact recheck [] rfl
  case isFalse =>
    simp only [Prog.sat_bind, Async.sat_pool]
    refine ⟨.of_isNeutral trivial, fun (ks : List Key) => ?_⟩
    by_cases hk : k ∈ ks
    · simp only [hk, decide_true, Prog.pure_eq_ret, Prog.sat_ret, if_true]
      exact recheck [listed ks] rfl
    · simp only [hk, decide_false, Prog.pure_eq_ret, Prog.sat_ret, Bool.false_eq_true, if_false]
      exact judged (.dropped (Function.update_self ..))

include hd in
theorem begin_judged (ph : Phase) : (Iteration.begin (Phase.body cfg) ph).Sound Phase.Asks Phase.Judges := by
  show (ph.body cfg).Sat _ _ _
  cases ph
  case start => exact ⟨.of_isNeutral trivial, fun _ => Phase.judges_of_subject rfl⟩
  case head s =>
    show (enrolment cfg s).Sat _ _ _
    unfold enrolment
    simp only [Prog.sat_bind, Async.sat_env, Async.sat_pool]
    refine ⟨.of_isNeutral trivial, fun now => ⟨.of_isNeutral trivial, fun ks => ?_⟩⟩
    exact (enroll_spec now ks s fun _ _ => .of_isNeutral trivial).mono fun _ _ _ =>
      Phase.judges_of_subject rfl
  case enrolled s =>
    refine ((await_next s).mono fun _ _ _ => ?_).weaken rfl fun _ _ h => .of_isNeutral h.isNeutral
    exact Phase.judges_of_subject rfl
  case job s k => exact treat_judged hd s k

end Contract

section Runs

variable {x y z : Attendance} {e : Event Effects} {r : Checked} {l : Attended.Label Effects}
variable {ls : List (Attended.Label Effects)} {n : Nat}

theorem Phase.Asks.checked (h : ph.Asks tr e.op) (he : e.checked = some (a, r)) :
    ph.subject = some a ∧ findings tr = [] := by
  obtain ⟨o, r'⟩ := e
  cases o
  case env o =>
    cases o
    case check p =>
      cases he
      exact h.left p rfl
    all_goals cases he
  all_goals cases he

-- In addition, an iteration has only found out something about the address of its job.
structure Judged (x : Attendance) : Prop where
  sane    : Sane x
  sound   : ∀ i, x.actor = some i → i.Sound Phase.Asks Phase.Judges
  subject : ∀ i, x.actor = some i → ∀ a r, (a, r) ∈ findings i.done → i.state.subject = some a

-- How an event of the loop is related to what it has done before and is going to do.
inductive Continues (i : Iteration Effects Phase) (e : Event Effects) : Option (Iteration Effects Phase) → Prop
  | same {j : Iteration Effects Phase} : j.state = i.state → j.done = i.done ++ [e] → Continues i e (some j)
  | left : i.state.Judges none (i.done ++ [e]) → Continues i e none
  | next {j : Iteration Effects Phase} :
    j.done = [] → i.state.Leads (some j.state) (i.done ++ [e]) → i.state.Judges (some j.state) (i.done ++ [e]) →
    Continues i e (some j)

theorem Judged.own (hx : Judged x) (h : AttendStep c cfg x (.own e) y) :
    ∃ i, x.actor = some i ∧ i.state.Asks i.done e.op ∧ Continues i e y.actor := by
  cases h
  case own u u' hm ha =>
    cases u
    case none   => cases hm
    case some i =>
      obtain ⟨_, hp⟩ := (hx.sane.sound i rfl).move hm
      obtain ⟨ho, hj⟩ := (hx.sound i rfl).move hm
      refine ⟨i, rfl, ho, ?_⟩
      rcases hj with ⟨j, rfl, _, hs, hd, _⟩ | ⟨rfl, hj⟩ | ⟨ph, rfl, hj⟩
      · exact .same hs hd
      · exact .left hj
      · rcases hp with ⟨_, he, _, _, hd, _⟩ | ⟨he, _⟩ | ⟨_, he, hl⟩
        · cases he
          exact absurd hd (by simp [Iteration.begin])
        · cases he
        · cases congrArg Iteration.state (Option.some.inj he)
          exact .next rfl hl hj

theorem Judged.initial (hd : ∀ u, 0 ≤ u → cfg.halving u ≤ 1) (s₀ : State) : Judged (attended cfg s₀) where
  sane := .initial s₀
  sound _ h := by
    cases h
    exact begin_judged hd .start
  subject _ h _ _ hr := by
    cases h
    cases hr

theorem Judged.step (hd : ∀ u, 0 ≤ u → cfg.halving u ≤ 1) (hx : Judged x) (h : AttendStep c cfg x l y) : Judged y := by
  have hy := hx.sane.step h
  cases l
  case spawn =>
    cases h
    exact ⟨hy, hx.sound, hx.subject⟩
  case other =>
    cases h
    exact ⟨hy, hx.sound, hx.subject⟩
  case own e =>
    obtain ⟨i, hi, ha, hc⟩ := hx.own h
    refine ⟨hy, ?sound, ?subject⟩
    case sound =>
      cases h
      case own hm _ =>
        cases hi
        exact (hx.sound i rfl).moves (begin_judged hd) hm
    case subject =>
      intro j hj a r hr
      rw [hj] at hc
      cases hc
      case same hs hd =>
        rw [hd] at hr
        rw [hs]
        rcases mem_findings_snoc.mp hr with hr | hr
        · exact hx.subject i hi a r hr
        · exact (ha.checked hr).left
      case next hd _ _ =>
        rw [hd] at hr
        cases hr

-- There is nothing left of an address.
structure Dropped (a : Key) (s : Schedule) : Prop where
  heap     : a ∉ s.keys
  ewma     : s.ewma a = none
  lastOk   : s.lastOk a = none
  retrying : s.retrying a = false

theorem Dropped.of_kept (h : Kept s.keys s) (ha : s.ewma a = none) : Dropped a s where
  heap     := fun hm => (h.ewma a).mp hm ha
  ewma     := ha
  lastOk   := by
    by_contra hl
    exact (h.ewma a).mp ((h.lastOk a).mpr hl) ha
  retrying := by
    by_contra hr
    exact (h.ewma a).mp (h.retrying a (Bool.eq_true_of_not_eq_false hr)) ha

-- From now on, every check of the address fails.
def Fails (a : Key) (_ : Attendance) : Attended.Label Effects → Prop
  | .own e => ∀ r, e.checked = some (a, r) → r.working = false
  | _      => True

theorem Fails.of_eq_none (h : e.checked = none) : Fails a x (.own e) := by
  intro r hr
  rw [h] at hr
  cases hr

-- The address that the loop has checked.
def subjectOf : Attended.Label Effects → Option Key
  | .own e => e.checked.map Prod.fst
  | _      => none

-- How often the loop has checked the address.
def checks (a : Key) (ls : List (Attended.Label Effects)) : Nat :=
  (ls.filterMap subjectOf).count a

theorem checks_append (a : Key) (u v : List (Attended.Label Effects)) :
    checks a (u ++ v) = checks a u + checks a v := by
  rw [checks, List.filterMap_append, List.count_append]
  rfl

theorem checks_snoc (h : subjectOf l = some a) : checks a (ls ++ [l]) = checks a ls + 1 := by
  simp [checks, h]

theorem checks_snoc_of_ne (h : subjectOf l ≠ some a) : checks a (ls ++ [l]) = checks a ls := by
  rw [checks_append, checks, checks, Nat.add_eq_left, List.count_eq_zero]
  simpa using h

theorem checks_spawn : checks a (ls ++ [.spawn]) = checks a ls :=
  checks_snoc_of_ne (Option.some_ne_none a).symm

theorem checks_other : checks a (ls ++ [.other e]) = checks a ls :=
  checks_snoc_of_ne (Option.some_ne_none a).symm

theorem subjectOf_eq_some : subjectOf (.own e) = some a ↔ ∃ r, e.checked = some (a, r) := by
  simp [subjectOf]

-- All checks of the address have failed in the current iteration.
def Clean (a : Key) (tr : Trace Effects) : Prop :=
  ∀ r, (a, r) ∈ findings tr → r.working = false

def Answered (a : Key) (tr : Trace Effects) : Prop :=
  ∃ r, (a, r) ∈ findings tr

-- The rate of an address `n` consecutive checks of which have failed. The last one of them may not have been
-- folded into the rate yet, and the ones before it have not made the loop give up the address.
structure Failing (a : Key) (n : Nat) (ph : Phase) (tr : Trace Effects) : Prop where
  clean : Clean a tr
  rate  : ∃ v m, ph.ewma a = some v ∧ v ≤ (7 / 10) ^ m ∧ (m = 0 ∨ evictFloor ≤ v) ∧
    (Answered a tr ∧ n = m + 1 ∨ ¬Answered a tr ∧ n = m)

namespace Failing

theorem le (h : Failing a n ph tr) : n ≤ 10 ∨ n = 11 ∧ Answered a tr := by
  obtain ⟨v, m, _, hv, hm, hn⟩ := h.rate
  have hm : m ≤ 10 := by
    rcases hm with rfl | hf
    · exact Nat.zero_le _
    · exact le_ten hv hf
  rcases hn with ⟨ha, rfl⟩ | ⟨_, rfl⟩
  · rcases Nat.lt_or_eq_of_le hm with hm | rfl
    · exact .inl hm
    · exact .inr ⟨rfl, ha⟩
  · exact .inl hm

-- The first check that fails.
theorem first {tr : Trace Effects} (hk : ph.Kept) (hs : ph.subject = some a) (hf : findings tr = [(a, r)])
    (hr : r.working = false) : Failing a 1 ph tr where
  clean _ h := by
    rw [hf] at h
    cases List.mem_singleton.mp h
    exact hr
  rate      := by
    cases ph
    case job s k =>
      cases hs
      obtain ⟨v, hv⟩ := Option.ne_none_iff_exists'.mp ((Scheduler.Kept.ewma hk a).mp List.mem_cons_self)
      refine ⟨v, 0, hv, (Scheduler.Kept.rate hk a v hv).right.trans (by norm_num), .inl rfl, .inl ⟨⟨r, ?_⟩, rfl⟩⟩
      exact hf ▸ List.mem_singleton_self _
    all_goals cases hs

theorem again {tr' : Trace Effects} (h : Failing a n ph tr) (ht : findings tr = []) (hf : findings tr' = [(a, r)])
    (hr : r.working = false) : Failing a (n + 1) ph tr' where
  clean _ h := by
    rw [hf] at h
    cases List.mem_singleton.mp h
    exact hr
  rate      := by
    obtain ⟨v, m, hw, hv, hm, hn⟩ := h.rate
    have ha : ¬Answered a tr := fun ⟨_, h⟩ => by simp [ht] at h
    obtain ⟨_, rfl⟩ := hn.resolve_left fun h => ha h.left
    exact ⟨v, n, hw, hv, hm, .inl ⟨⟨r, hf ▸ List.mem_singleton_self _⟩, rfl⟩⟩

theorem congr {tr' : Trace Effects} (h : Failing a n ph tr) (ht : ∀ r, (a, r) ∈ findings tr' ↔ (a, r) ∈ findings tr) :
    Failing a n ph tr' where
  clean r hr := h.clean r ((ht r).mp hr)
  rate       := by
    have ha : Answered a tr' ↔ Answered a tr := exists_congr ht
    simpa only [ha] using h.rate

-- Unless the loop drops the address, the last failure is part of the rate by the next phase.
theorem next (h : Failing a n ph tr) (hs : ∀ r, (a, r) ∈ findings tr → ph.subject = some a)
    (hl : ph.Leads (some ph') tr) (hj : ph.Judges (some ph') tr) (hk : ph'.Kept) :
    Failing a n ph' [] ∨ ∃ s, ph' = .head s ∧ Dropped a s := by
  have hc : Clean a [] := fun _ h => nomatch h
  have hn : ¬Answered a [] := fun ⟨_, h⟩ => nomatch h
  obtain ⟨v, m, hw, hv, hm, hr⟩ := h.rate
  by_cases hsub : ph.subject = some a
  case neg =>
    have ha : ¬Answered a tr := fun ⟨r, h⟩ => hsub (hs r h)
    obtain ⟨_, rfl⟩ := hr.resolve_left fun h => ha h.left
    exact .inl ⟨hc, v, n, hl.ewma hsub hw, hv, hm, .inr ⟨hn, rfl⟩⟩
  case pos =>
    cases ph
    case start | head | enrolled => cases hsub
    case job s k =>
      cases hsub
      obtain ⟨s', ⟨⟩, hv'⟩ := hj s a rfl
      cases hv'
      case dropped he       => exact .inr ⟨s', rfl, .of_kept hk he⟩
      case working r hf hw' => exact absurd ((h.clean r hf).symm.trans hw') Bool.false_ne_true
      case retried r hf he hfloor =>
        obtain ⟨_, rfl⟩ := hr.resolve_right fun h => h.left ⟨r, hf⟩
        have hfold : (s.fold a false).1 = 7 / 10 * v := by
          have hw : s.ewma a = some v := hw
          simp [Schedule.fold, hw]
        refine .inl ⟨hc, _, m + 1, he, ?_, .inr hfloor, .inr ⟨hn, rfl⟩⟩
        rw [hfold, pow_succ, mul_comm ((7 / 10 : ℚ) ^ m)]
        exact mul_le_mul_of_nonneg_left hv (by norm_num)

end Failing

variable {u v : List (Attended.Label Effects)}

-- The run has come to a point at which the loop has dropped the address, after at least one and at most eleven
-- checks.
def GivesUp (c : Config) (cfg : RecheckConfig) (a : Key) (x : Attendance) (ls : List (Attended.Label Effects))
    (y : Attendance) : Prop :=
  ∃ u v z i s, ls = u ++ v ∧ Attends c cfg (Fails a) x u z ∧ Attends c cfg (Fails a) z v y ∧
    z.actor = some i ∧ i.state = .head s ∧ Dropped a s ∧ 0 < checks a u ∧ checks a u ≤ 11

theorem GivesUp.step (h : GivesUp c cfg a x ls y) (hf : Fails a y l) (hs : AttendStep c cfg y l z) :
    GivesUp c cfg a x (ls ++ [l]) z := by
  obtain ⟨u, v, w, i, s, rfl, hu, hv, h⟩ := h
  exact ⟨u, v ++ [l], w, i, s, List.append_assoc .., hu, hv.step hf hs, h⟩

-- What becomes of an address all checks of which fail.
def Course (c : Config) (cfg : RecheckConfig) (a : Key) (x : Attendance) (ls : List (Attended.Label Effects))
    (y : Attendance) : Prop :=
  GivesUp c cfg a x ls y ∨ checks a ls = 0 ∨
    (∀ i, y.actor = some i → Failing a (checks a ls) i.state i.done) ∧ (y.actor = none → checks a ls ≤ 10)

theorem Course.own (hx : Judged y) (hz : Judged z) (hr : Attends c cfg (Fails a) x ls y) (h : Course c cfg a x ls y)
    (hf : Fails a y (.own e)) (hs' : AttendStep c cfg y (.own e) z) : Course c cfg a x (ls ++ [.own e]) z := by
  rcases h with h | h
  · exact .inl (h.step hf hs')
  obtain ⟨i, hi, ha, hc⟩ := hx.own hs'
  have hsub (r : Checked) (hm : (a, r) ∈ findings (i.done ++ [e])) : i.state.subject = some a := by
    rcases mem_findings_snoc.mp hm with hm | hm
    · exact hx.subject i hi a r hm
    · exact (ha.checked hm).left
  -- How the event itself is accounted for.
  have hfail : checks a (ls ++ [.own e]) = 0 ∨ Failing a (checks a (ls ++ [.own e])) i.state (i.done ++ [e]) := by
    by_cases he : subjectOf (.own e) = some a
    case neg =>
      rw [checks_snoc_of_ne he]
      refine h.imp_right fun h => (h.left i hi).congr fun r => ?_
      rw [mem_findings_snoc, or_iff_left]
      exact fun hr => he (subjectOf_eq_some.mpr ⟨r, hr⟩)
    case pos =>
      obtain ⟨r, hr⟩ := subjectOf_eq_some.mp he
      obtain ⟨hs, hd⟩ := ha.checked hr
      have hd' : findings (i.done ++ [e]) = [(a, r)] := by simp [findings, List.filterMap_append, hd, hr]
      rw [checks_snoc he]
      rcases h with h | h
      · rw [h]
        exact .inr (.first (hx.sane.kept i hi) hs hd' (hf r hr))
      · exact .inr ((h.left i hi).again hd hd' (hf r hr))
  rcases Nat.eq_zero_or_pos (checks a (ls ++ [.own e])) with h0 | h0
  · exact .inr (.inl h0)
  replace hfail := hfail.resolve_left h0.ne'
  generalize hw : z.actor = w at hc
  cases hc
  case same j hs hd =>
    refine .inr (.inr ⟨fun j' hj => ?_, fun hn => nomatch hw.symm.trans hn⟩)
    cases hw.symm.trans hj
    rwa [hs, hd]
  case left hj =>
    refine .inr (.inr ⟨fun j hj => absurd (hw.symm.trans hj) nofun, fun _ => hfail.le.resolve_right ?_⟩)
    -- The loop is not left while it treats a job.
    rintro ⟨-, r, hr⟩
    generalize i.state = ph at hj hsub
    cases ph
    case job s k =>
      obtain ⟨_, hn, _⟩ := hj s k rfl
      cases hn
    all_goals cases hsub r hr
  case next j hd hl hj =>
    rcases hfail.next hsub hl hj (hz.sane.kept j hw) with hfail | ⟨s, hs, hdrop⟩
    · refine .inr (.inr ⟨fun j' hj => ?_, fun hn => nomatch hw.symm.trans hn⟩)
      cases hw.symm.trans hj
      rwa [hd]
    · refine .inl ⟨_, [], z, j, s, (List.append_nil _).symm, hr.step hf hs', .refl, hw, hs, hdrop, h0, ?_⟩
      rcases hfail.le with hn | ⟨hn, -⟩
      · exact hn.trans (by decide)
      · exact hn.le

theorem Course.step (hx : Judged y) (hz : Judged z) (hr : Attends c cfg (Fails a) x ls y) (h : Course c cfg a x ls y)
    (hf : Fails a y l) (hs : AttendStep c cfg y l z) : Course c cfg a x (ls ++ [l]) z := by
  cases l
  case own e => exact h.own hx hz hr hf hs
  case spawn =>
    refine h.imp (·.step hf hs) fun h => ?_
    cases hs
    rwa [checks_spawn]
  case other e =>
    refine h.imp (·.step hf hs) fun h => ?_
    cases hs
    rwa [checks_other]

-- The loop does not add an address of which a check has failed.
structure Spared (a : Key) (ls : List (Attended.Label Effects)) (y : Attendance) : Prop where
  clean  : 0 < checks a ls → ∀ i, y.actor = some i → Clean a i.done
  silent : ∀ u v, ls = u ++ v → 0 < checks a u → ∀ e, .own e ∈ v → ¬e.op.Admits a

theorem Spared.snoc (h : Spared a ls y) (hc : 0 < checks a (ls ++ [l]) → ∀ i, z.actor = some i → Clean a i.done)
    (hl : 0 < checks a ls → ∀ e, l = .own e → ¬e.op.Admits a) : Spared a (ls ++ [l]) z where
  clean := hc
  silent u v huv hp e he := by
    rcases List.eq_nil_or_concat v with rfl | ⟨v, l', rfl⟩
    case inl => cases he
    case inr =>
      rw [List.concat_eq_append] at he huv
      rw [← List.append_assoc] at huv
      obtain ⟨rfl, hl'⟩ := List.append_inj' huv rfl
      rcases List.mem_append.mp he with he | he
      · exact h.silent u v rfl hp e he
      · refine hl (checks_append a u v ▸ Nat.add_pos_left hp _) e ?_
        exact (List.singleton_inj.mp hl').trans (List.mem_singleton.mp he).symm

theorem Spared.own (hx : Judged y) (h : Spared a ls y) (hf : Fails a y (.own e))
    (hs : AttendStep c cfg y (.own e) z) : Spared a (ls ++ [.own e]) z := by
  obtain ⟨i, hi, ha, hc⟩ := hx.own hs
  refine h.snoc ?clean ?last
  case clean =>
    intro hp j hj r hr
    rw [hj] at hc
    cases hc
    case next hd _ _ =>
      rw [hd] at hr
      cases hr
    case same _ hd =>
      rw [hd] at hr
      rcases mem_findings_snoc.mp hr with hr | hr
      case inr => exact hf r hr
      case inl =>
        by_cases he : subjectOf (.own e) = some a
        case neg => exact h.clean (checks_snoc_of_ne he ▸ hp) i hi r hr
        case pos =>
          obtain ⟨r', hr'⟩ := subjectOf_eq_some.mp he
          rw [(ha.checked hr').right] at hr
          cases hr
  case last =>
    rintro hp _ ⟨⟩ hm
    obtain ⟨r, hr, hw⟩ := ha.right a hm
    exact absurd ((h.clean hp i hi r hr).symm.trans hw) Bool.false_ne_true

theorem Spared.step (hx : Judged y) (h : Spared a ls y) (hf : Fails a y l) (hs : AttendStep c cfg y l z) :
    Spared a (ls ++ [l]) z := by
  cases l
  case own e => exact h.own hx hf hs
  case spawn =>
    refine h.snoc ?_ fun _ _ => nofun
    rw [checks_spawn]
    cases hs
    exact h.clean
  case other e =>
    refine h.snoc ?_ fun _ _ => nofun
    rw [checks_other]
    cases hs
    exact h.clean

-- If all checks of an address fail from some point on, the loop does not add the address after the first one of
-- them, and drops it after at most eleven of them: either it has done so, or it has not performed that many, or
-- it is about to act on the last one.
theorem evicted {s₀ : State} {tr₁ tr₂ : List (Attended.Label Effects)} (hd : ∀ u, 0 ≤ u → cfg.halving u ≤ 1)
    (h₁ : Attends c cfg (fun _ _ => True) (attended cfg s₀) tr₁ x) (h₂ : Attends c cfg (Fails a) x tr₂ y) :
    (∀ u v, tr₂ = u ++ v → 0 < checks a u → ∀ e, .own e ∈ v → ¬e.op.Admits a) ∧
    ((∃ u v z i s, tr₂ = u ++ v ∧ Attends c cfg (Fails a) x u z ∧ Attends c cfg (Fails a) z v y ∧
        z.actor = some i ∧ i.state = .head s ∧ Dropped a s ∧ 0 < checks a u ∧ checks a u ≤ 11) ∨
      checks a tr₂ ≤ 10 ∨ checks a tr₂ = 11 ∧ ∃ i, y.actor = some i ∧ Answered a i.done) := by
  have hx : Judged x := by
    refine h₁.invariant (I := fun _ => Judged) (.initial hd s₀) ?_
    exact fun _ _ _ _ hx _ hs => hx.step hd hs
  have key := h₂.invariant (I := fun tr y => Attends c cfg (Fails a) x tr y ∧ Judged y ∧ Spared a tr y ∧
    Course c cfg a x tr y) ⟨.refl, hx, ⟨nofun, ?_⟩, .inr (.inl rfl)⟩ ?_
  · obtain ⟨_, _, hs, hc⟩ := key
    refine ⟨hs.silent, hc.imp_right fun hc => ?_⟩
    rcases hc with hc | ⟨hf, hn⟩
    · exact .inl (hc.le.trans (Nat.zero_le _))
    · cases ha : y.actor
      case none   => exact .inl (hn ha)
      case some i => exact (hf i ha).le.imp_right fun h => ⟨h.left, i, rfl, h.right⟩
  · intro u v huv hp
    cases (List.append_eq_nil_iff.mp huv.symm).left
    exact absurd hp (lt_irrefl 0)
  · rintro tr z l w ⟨hr, hz, hp, hc⟩ hf hs
    exact ⟨hr.step hf hs, hz.step hd hs, hp.step hz hf hs, hc.step hz (hz.step hd hs) hr hf hs⟩

end Runs

namespace RecheckExample

theorem eager_halving (u : ℚ) (_ : 0 ≤ u) : eager.halving u ≤ 1 :=
  le_refl 1

end RecheckExample

open RecheckExample LeaseExample in
-- The first check of a proxy fails.
theorem evicted_once :
    ∃ tr x, Attends .default eager (Fails addr) (atJob pool) tr x ∧ checks addr tr = 1 ∧
      addr ∉ x.system.shared.addrs ∧ ∀ e, .own e ∈ tr.drop 2 → ¬e.op.Admits addr := by
  have hf (r : Checked) (h : some (addr, failing) = some (addr, r)) : r.working = false := by
    cases h
    rfl
  have h := (popping_attends pool rfl).continue (Fails addr)
  have h := h.loop [addr] ⟨rfl, rfl⟩ (.of_eq_none rfl)
  have h := h.loop failing rfl hf
  have h := h.loop () rfl (.of_eq_none rfl)
  have h := h.loop (20 : Instant) rfl (.of_eq_none rfl)
  have h := h.loop (5 : Duration) rfl (.of_eq_none rfl)
  have h := h.loop true ⟨rfl, rfl⟩ (.of_eq_none rfl)
  refine ⟨_, _, h, ?_, List.not_mem_nil, ?_⟩
  · exact List.count_singleton_self
  · refine (evicted eager_halving (popping_attends pool rfl) h).left [_, _] _ rfl ?_
    exact List.count_pos_iff.mpr (List.mem_singleton_self addr)

end Scheduler
