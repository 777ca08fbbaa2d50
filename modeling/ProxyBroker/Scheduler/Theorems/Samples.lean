import ProxyBroker.Checker.Theorems.Confirmation
import ProxyBroker.Persist.Backends
import ProxyBroker.Scheduler.Theorems.Bookkeeping

open Checker

-- The canonical way in which a sample is folded into a rolling average.
def foldEwma (prev sample alpha : ℚ) : ℚ :=
  alpha * sample + (1 - alpha) * prev

namespace Persist.Backend

variable {S : Serde}

-- The success rate that a store remembers of an address.
def ewma : (b : Backend) → b.State → Key → Option ℚ
  | sqlite, (s : SqliteStore), k => (s.lookup (SqliteStore.rowKey k)).map Row.ewmaSuccess
  | memory, (s : MemoryStore), k => (s.lookup k).map Record.ewmaSuccess
  | redis, (s : RedisStore), k   => (s.hashes.lookup (RedisStore.proxyKey k)).map Hash.ewmaSuccess

theorem ewma_upsert (b : Backend) (s : b.State) (p : Proxy) :
    b.ewma (b.upsert S s p) p.key = some ((b.ewma s p.key).elim (sample p) (foldEwma · (sample p) (3 / 10))) := by
  have hf (v : ℚ) : 3 / 10 * sample p + 7 / 10 * v = foldEwma v (sample p) (3 / 10) := by
    rw [foldEwma]
    ring
  let g (v : Option ℚ) : ℚ := v.elim (sample p) (foldEwma · (sample p) (3 / 10))
  cases b
  case sqlite =>
    refine Table.map_lookup_absorb (fun p => SqliteStore.rowKey p.key) (SqliteStore.insertRow S) (s) Row.ewmaSuccess g fun r => ?_
    cases r
    case none   => rfl
    case some r => exact hf r.ewmaSuccess
  case memory =>
    refine Table.map_lookup_absorb (Proxy.key) (MemoryStore.entry) (s) Record.ewmaSuccess g fun r => ?_
    cases r
    case none   => rfl
    case some r => exact hf r.ewmaSuccess
  case redis  =>
    refine Table.map_lookup_absorb (fun p => RedisStore.proxyKey p.key) (RedisStore.invoke S) (RedisStore.hashes s) Hash.ewmaSuccess g fun r => ?_
    cases r
    case none   => rfl
    case some r => exact hf r.ewmaSuccess

end Persist.Backend

namespace Scheduler

open Persist

variable {c : Checker} {w : Answers} {p q : Proxy} {k : Key}

-- What is left of a check, apart from what it does not touch.
def outcome (working : Bool) (p : Proxy) : Checked where
  working       := working
  types         := p.types
  requests      := p.requests
  errors        := p.errors
  runtimes      := p.runtimes
  probeRuntimes := p.probeRuntimes
  caps          := p.caps
  trust         := p.trust

-- How a checker answers the loop.
def checked (c : Checker) (w : Answers) (p : Proxy) : Checked :=
  outcome (c.check w p).1 (c.check w p).2

section Untouched

-- Nothing else about a proxy was changed.
def Touched (p q : Proxy) : Prop :=
  afterCheck p (outcome true q) = q

theorem Touched.withTypes (h : Touched p q) (ts : Types) : Touched p { q with types := ts } := by
  have ht := congrArg (fun q : Proxy => ({ q with types := ts } : Proxy)) h
  exact ht

theorem touched_attempts {r : RetryPolicy} {t : Proto} {tries i : Nat} (h : Touched p q) :
    Touched p (attempts r w t tries i q).2 := by
  induction tries generalizing i q
  case zero => exact h
  case succ tries hi =>
    have he (rt : Option ℚ) (e : Option ProxyError) : Touched p (q.recordAttempt rt e) :=
      congrArg (Proxy.recordAttempt · rt e) h
    rw [attempts]
    rcases w.attempt t i with e | obs | -
    case error =>
      dsimp only
      split_ifs
      · exact hi (he none (some e))
      · exact he none (some e)
    case ok.working =>
      exact congrArg (fun q : Proxy => (((q.recordAttempt (some (w.rtt t i)) none).recordProbeLatency (w.rtt t i)).addType t
        obs.level).recordCaps obs.caps |>.recordTrust obs.trust) h
    case ok.invalid => exact he none (some .badResponse)

theorem touched_checkAll {ts : List Proto} {any : Bool} (h : Touched p q) : Touched p (checkAll c w ts any q).2 := by
  induction ts generalizing any q
  case nil          => exact h
  case cons t ts hi =>
    refine hi ?_
    show Touched p (c.checkOne w q t).2
    unfold checkOne
    split_ifs
    · exact touched_attempts h
    · exact h

theorem touched_check : Touched p (c.check w p).2 := by
  have ha : Touched p (checkAll c w (c.ngtrs p) false p).2 := touched_checkAll rfl
  rw [check_eq]
  split_ifs
  · exact rfl
  · rw [typesPassed_snd]
    exact ha.withTypes _
  · exact ha

-- What the loop passes on to the store is the proxy that was checked.
theorem afterCheck_checked : afterCheck p (checked c w p) = (c.check w p).2 :=
  touched_check

end Untouched

section Samples

variable {cfg : RecheckConfig} {s s' : Schedule} {tr : Trace Effects}

-- A proxy that is checked again.
def unchecked (k : Key) : Proxy :=
  .new k.host k.port ∅

-- The sample that the loop folds into its rates.
def loopSample (r : Checked) : ℚ :=
  if r.working then 1 else 0

theorem fold_rate (r : Checked) :
    (s.fold k r.working).2.ewma k = some (foldEwma ((s.ewma k).getD 1) (loopSample r) (3 / 10)) := by
  refine (Function.update_self ..).trans (congrArg some ?_)
  rw [foldEwma, loopSample]
  norm_num

-- A re-check stores what its only check leaves behind, and folds the outcome unless it forgets the address.
structure Rechecked (s : Schedule) (k : Key) (tr : Trace Effects) (r : Checked) (s' : Schedule) : Prop where
  check  : tr.filterMap Event.checked = [(k, r)]
  upsert : ⟨.env (.upsert (afterCheck (unchecked k) r)), ()⟩ ∈ tr
  rate   : s'.ewma k = none ∨ s'.ewma k = some (foldEwma ((s.ewma k).getD 1) (loopSample r) (3 / 10))

theorem recheck_rechecked (h : (recheck cfg s k).Runs tr (.ret s')) : ∃ r, Rechecked s k tr r s' := by
  have key : (recheck cfg s k).Sat (.history fun _ _ => True) (fun s' tr => ∃ r, Rechecked s k tr r s') [] := by
    unfold recheck
    simp only [Prog.sat_bind, Async.sat_env]
    refine ⟨trivial, fun (r : Checked) => ⟨trivial, fun (u : Unit) => ⟨trivial, fun now => ⟨trivial, fun j => ?_⟩⟩⟩⟩
    cases u
    have hr := fold_rate (s := s) (k := k) r
    split
    case isTrue hw =>
      exact ⟨trivial, fun _ => ⟨r, rfl, by simp [unchecked], .inr hr⟩⟩
    case isFalse hw =>
      simp only [Pool.remove, Prog.sat_bind, Async.sat_pool]
      refine ⟨trivial, fun removed => ?_⟩
      split
      · exact ⟨r, rfl, by simp [unchecked], .inr hr⟩
      · exact ⟨r, rfl, by simp [unchecked], .inl (Function.update_self ..)⟩
  simpa [Monitor.history_after] using key.result h

theorem recheck_runs {r : Checked} (cfg : RecheckConfig) (s : Schedule) (k : Key) (h : r.working = true) :
    ∃ tr s', (recheck cfg s k).Runs tr (.ret s') ∧ tr.filterMap Event.checked = [(k, r)] := by
  obtain ⟨working, types, requests, errors, runtimes, probeRuntimes, caps, trust⟩ := r
  obtain rfl : working = true := h
  let r : Checked := ⟨true, types, requests, errors, runtimes, probeRuntimes, caps, trust⟩
  let tr : Trace Effects := [
    ⟨.env (.check (unchecked k)), r⟩,
    ⟨.env (.upsert (afterCheck (unchecked k) r)), ()⟩,
    ⟨.env .now, (0 : Instant)⟩,
    ⟨.env (.jitter cfg.minInterval), (0 : Duration)⟩,
    ⟨.pool (.add .outsider (afterCheck (unchecked k) r)), ()⟩]
  exact ⟨tr, _, .call (.call (.call (.call (.call .refl)))), rfl⟩

theorem indicator_eq_iff {P Q : Prop} [Decidable P] [Decidable Q] :
    (if P then (1 : ℚ) else 0) = (if Q then 1 else 0) ↔ (P ↔ Q) := by
  by_cases hp : P <;> by_cases hq : Q <;> simp [hp, hq]

-- The loop and the store learn the same from a check, unless it confirms protocols none of which is of a kind that is
-- requested, and does not drop them.
theorem samples_eq_iff (c : Checker) (w : Answers) (k : Key) :
    loopSample (checked c w (unchecked k)) = sample (afterCheck (unchecked k) (checked c w (unchecked k))) ↔
      c.strict = true ∨ Listed c w ∨
      ((∃ t l, Confirmed c w t l) → ∃ t l, Confirmed c w t l ∧ typeMatches c.requested false t l = true) := by
  obtain ⟨hw, hp⟩ := check_fresh (c := c) (w := w) (p := unchecked k) (fun _ => rfl) rfl
  rw [afterCheck_checked, sample]
  show (if (c.check w (unchecked k)).1 = true then (1 : ℚ) else 0) = _ ↔ _
  rw [indicator_eq_iff, hw, hp]
  by_cases hs : c.strict = true
  case pos => simp [hs]
  case neg =>
    rw [Bool.not_eq_true] at hs
    simp only [hs, Bool.false_eq_true, false_imp_iff, and_true, false_or]
    have hm : (∃ t l, Confirmed c w t l ∧ typeMatches c.requested false t l = true) → ∃ t l, Confirmed c w t l :=
      fun ⟨t, l, hc, _⟩ => ⟨t, l, hc⟩
    by_cases hl : Listed c w
    case pos => simp [hl]
    case neg =>
      simp only [hl, not_false_eq_true, true_and, false_or]
      exact ⟨Iff.mpr, fun h => ⟨hm, h⟩⟩

theorem samples_agree_iff (h : (recheck cfg s k).Runs tr (.ret s')) : ∃ r,
    tr.filterMap Event.checked = [(k, r)] ∧ ⟨.env (.upsert (afterCheck (unchecked k) r)), ()⟩ ∈ tr ∧
    (s'.ewma k = none ∨ s'.ewma k = some (foldEwma ((s.ewma k).getD 1) (loopSample r) (3 / 10))) ∧
    (∀ (S : Serde) (b : Backend) (store : b.State), b.ewma (b.upsert S store (afterCheck (unchecked k) r)) k =
      some ((b.ewma store k).elim (sample (afterCheck (unchecked k) r))
        (foldEwma · (sample (afterCheck (unchecked k) r)) (3 / 10)))) ∧
    ∀ c w, r = checked c w (unchecked k) → (loopSample r = sample (afterCheck (unchecked k) r) ↔
      c.strict = true ∨ Listed c w ∨
      ((∃ t l, Confirmed c w t l) → ∃ t l, Confirmed c w t l ∧ typeMatches c.requested false t l = true)) := by
  obtain ⟨r, hc, hu, hr⟩ := recheck_rechecked h
  refine ⟨r, hc, hu, hr, fun S b store => b.ewma_upsert store (afterCheck (unchecked k) r), ?_⟩
  rintro c w rfl
  exact samples_eq_iff c w k

end Samples

namespace RecheckExample

-- A checker that is asked for anonymous proxies, and a proxy that works but is transparent.
def asking : Checker where
  requested := [⟨.http, some [.high]⟩]
  strict    := false
  dnsbl     := []
  mode      := .liveness
  retry     := ⟨1, ∅⟩

def transparent : Answers where
  listed      := false
  attempt _ _ := .ok (.working ⟨some .transparent, ⟨false, false⟩, []⟩)
  rtt _ _     := 1

def anonymous : Answers where
  listed      := false
  attempt _ _ := .ok (.working ⟨some .high, ⟨false, false⟩, []⟩)
  rtt _ _     := 1

end RecheckExample

open RecheckExample in
-- A proxy that is of the kind that is asked for.
theorem samples_agree_anonymous : ∃ tr s', (recheck eager (.start 0) addr).Runs tr (.ret s') ∧
    tr.filterMap Event.checked = [(addr, checked asking anonymous (unchecked addr))] ∧
    (loopSample (checked asking anonymous (unchecked addr)) =
      sample (afterCheck (unchecked addr) (checked asking anonymous (unchecked addr))) ↔
      asking.strict = true ∨ Listed asking anonymous ∨ ((∃ t l, Confirmed asking anonymous t l) →
        ∃ t l, Confirmed asking anonymous t l ∧ typeMatches asking.requested false t l = true)) := by
  have hw : (checked asking anonymous (unchecked addr)).working = true := by decide +kernel
  obtain ⟨tr, s', h, he⟩ := recheck_runs eager (.start 0) addr hw
  obtain ⟨r, hc, -, -, -, ha⟩ := samples_agree_iff h
  obtain ⟨-, rfl⟩ := Prod.mk.inj (List.cons.inj (he.symm.trans hc)).left
  exact ⟨tr, s', h, hc, ha asking anonymous rfl⟩

open RecheckExample in
theorem samples_differ : ¬∀ (c : Checker) (w : Answers) (k : Key),
    loopSample (checked c w (unchecked k)) = sample (afterCheck (unchecked k) (checked c w (unchecked k))) := by
  intro h
  have hl : loopSample (checked asking transparent (unchecked addr)) = 0 := by decide +kernel
  have hs : sample (afterCheck (unchecked addr) (checked asking transparent (unchecked addr))) = 1 := by decide +kernel
  exact absurd (hl.symm.trans ((h asking transparent addr).trans hs)) (by norm_num)

end Scheduler
