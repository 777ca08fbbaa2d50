import ProxyBroker.Scheduler.Theorems.Bookkeeping
import ProxyBroker.Objects.Theorems.Statistics
import ProxyBroker.Resumption.Trail
import Mathlib.Data.Nat.Cast.Order.Field

open Prog

-- The jitter that a factor between one half and three halves makes of a duration.
def Scheduler.jitter (base : Duration) (factor : ℚ) : Duration :=
  fromSecs (asSecs base * factor)

-- The passing of time. An operation is issued at one point in time and answered at a later one: the clock shows
-- the latter, and nobody is woken up too early.
def clock : Machine Effects Instant where
  answers t e t' := t ≤ t' ∧
    match e with
    | ⟨.env .now, r⟩                 => r = t'
    | ⟨.env (.sleep due), cancelled⟩ => cancelled = false → due ≤ t'
    | ⟨.env (.jitter base), r⟩       => ∃ f, 1 / 2 ≤ f ∧ f ≤ 3 / 2 ∧ r = Scheduler.jitter base f
    | _                              => True

-- What a task does from a point in time on. It can be delayed before each of its operations, which are listed with
-- the times at which they are issued.
abbrev Timeline {α : Type} (t₀ : Instant) (p : Async α) (l : List (Instant × Event Effects)) : Prop :=
  ∃ t q, clock.Trail (· ≤ ·) t₀ p l t q

def Event.isCheck : Event Effects → Bool
  | ⟨.env (.check _), _⟩ => true
  | _                    => false

namespace Scheduler

-- What paces the loop: when the next check may be started at the earliest, which depends on when the loop has first
-- looked at the clock, and until when the loop has slept.
structure Pace where
  earliest : Option Instant
  slept    : Instant

def Pace.next (gap : Duration) (s : Pace) : Event Effects → Pace
  | ⟨.env .now, r⟩                 => { s with earliest := s.earliest.or (some r) }
  | ⟨.env (.sleep due), cancelled⟩ => cond cancelled s { s with slept := due }
  | ⟨.env (.check _), _⟩           => { s with earliest := some (s.slept + gap) }
  | _                              => s

-- Demands that a check is only started after the loop has slept for long enough.
def pacing (gap : Duration) : Monitor Effects Pace where
  demand s
    | .env (.check _) => ∃ e, s.earliest = some e ∧ e ≤ s.slept
    | _               => True
  next := Pace.next gap

-- The shortest time between two starts.
def RecheckConfig.gap (cfg : RecheckConfig) : Duration :=
  fromSecs (1 / max cfg.ratePerSec (1 / 1000))

-- The next check may be started at a time for which the loop is going to wait.
def Pace.Due (s : Schedule) (σ : Pace) : Prop :=
  ∃ e, σ.earliest = some e ∧ e ≤ s.nextStart

variable {cfg : RecheckConfig} {gap : Duration} {s : Schedule} {σ : Pace} {n : Nat}

theorem Pace.Due.now (h : σ.Due s) (gap : Duration) (r : Instant) : ((pacing gap).next σ ⟨.env .now, r⟩).Due s := by
  obtain ⟨e, he, hs⟩ := h
  exact ⟨e, by simp [pacing, Pace.next, he], hs⟩

theorem Pace.Due.slept (h : σ.Due s) (gap : Duration) (due : Instant) :
    ((pacing gap).next σ ⟨.env (.sleep due), false⟩).Due s :=
  h

theorem enroll_paced {now : Instant} {ks : List Key} :
    (enroll cfg now ks s).Sat (pacing cfg.gap) (fun s' σ' => σ' = σ ∧ s'.nextStart = s.nextStart) σ := by
  induction ks generalizing s
  case nil => exact ⟨rfl, rfl⟩
  case cons k ks hi =>
    unfold enroll
    split
    case h_1 => exact hi
    case h_2 =>
      simp only [sat_bind, Async.sat_env]
      exact ⟨trivial, fun j => hi⟩

theorem isTracked_paced {k : Key} : (isTracked s k).Sat (pacing cfg.gap) (fun _ σ' => σ' = σ) σ := by
  unfold isTracked
  split
  · exact rfl
  · simp only [sat_bind, Async.sat_pool]
    exact ⟨trivial, fun ks => rfl⟩

-- A check reserves the next start.
theorem recheck_paced {k : Key} (he : ∃ e, σ.earliest = some e ∧ e ≤ σ.slept)
    (hs : s.nextStart = σ.slept + cfg.gap) :
    (recheck cfg s k).Sat (pacing cfg.gap) (fun s' σ' => σ'.Due s') σ := by
  unfold recheck
  simp only [sat_bind, Async.sat_env]
  refine ⟨he, fun r => ⟨trivial, fun _ => ⟨trivial, fun now => ⟨trivial, fun j => ?_⟩⟩⟩⟩
  have hd (s' : Schedule) (hs' : s'.nextStart = s.nextStart) :
      ((pacing cfg.gap).next ((pacing cfg.gap).next σ ⟨.env (.check (Proxy.new k.host k.port ∅)), r⟩)
        ⟨.env .now, now⟩).Due s' :=
    Pace.Due.now ⟨_, rfl, by rw [hs', hs]⟩ _ now
  split
  case isTrue =>
    simp only [sat_bind, Async.sat_exec]
    exact ⟨trivial, fun _ => hd _ rfl⟩
  case isFalse =>
    simp only [Pool.remove, sat_bind, Async.sat_pool]
    refine ⟨trivial, fun removed => ?_⟩
    split
    · exact hd _ rfl
    · exact hd _ rfl

theorem recheckLoop_paced (h : σ.Due s) : (recheckLoop cfg n s).Sat (pacing cfg.gap) (fun _ _ => True) σ := by
  induction n generalizing s σ
  case zero => exact ⟨trivial, fun r => r.elim⟩
  case succ n hi =>
    unfold recheckLoop
    simp only [sat_bind, Async.sat_env, Async.sat_pool]
    refine ⟨trivial, fun now => ⟨trivial, fun addrs => ?_⟩⟩
    refine enroll_paced.mono fun s' σ' he => ?_
    obtain ⟨rfl, hs⟩ := he
    have h : ((pacing cfg.gap).next σ ⟨.env .now, now⟩).Due s' := by
      obtain ⟨e, he, hn⟩ := h.now cfg.gap now
      exact ⟨e, he, hs ▸ hn⟩
    split
    case h_1 =>
      simp only [sat_bind, Async.sat_env]
      refine ⟨trivial, fun t => ⟨trivial, fun cancelled => ?_⟩⟩
      cases cancelled
      case true  => trivial
      case false => exact hi ((h.now _ t).slept _ _)
    case h_2 due _ =>
      simp only [sat_bind, Async.sat_env]
      refine ⟨trivial, fun (t : Instant) => ⟨trivial, fun cancelled => ?_⟩⟩
      cases cancelled
      case true => trivial
      simp only [Bool.false_eq_true, if_false, sat_bind, Async.sat_env]
      refine ⟨trivial, fun (t' : Instant) => ?_⟩
      split
      · exact hi (((h.now _ t).slept _ _).now _ t')
      · simp only [sat_bind, Async.sat_env]
        refine ⟨trivial, fun (t'' : Instant) => ⟨trivial, fun cancelled => ?_⟩⟩
        cases cancelled
        case true => trivial
        simp only [Bool.false_eq_true, if_false, sat_bind, Async.sat_env]
        refine ⟨trivial, fun tie => ?_⟩
        have h := ((((h.now cfg.gap t).slept cfg.gap (min due (t + cfg.minInterval))).now cfg.gap t').now cfg.gap t'').slept cfg.gap
          (max s'.nextStart t'')
        obtain ⟨e, he, hn⟩ := h
        have hm : e ≤ max s'.nextStart t'' := hn.trans (le_max_left ..)
        split
        case h_1 => exact ⟨trivial, fun r => r.elim⟩
        case h_2 job s₁ hp =>
          obtain ⟨-, hs₁⟩ := pop_inv hp
          have hn₁ : s₁.nextStart = max s'.nextStart t'' + cfg.gap := by rw [hs₁]; rfl
          rw [sat_bind]
          refine isTracked_paced.mono fun tracked σ' hσ => ?_
          subst hσ
          cases tracked
          case true =>
            rw [if_pos rfl, sat_bind]
            exact (recheck_paced ⟨e, he, hm⟩ hn₁).mono fun _ _ h => hi h
          case false =>
            rw [if_neg Bool.false_ne_true]
            exact hi ⟨e, he, (hm.trans (Nat.le_add_right ..)).trans_eq hn₁.symm⟩

theorem rechecker_paced {since : Instant} :
    (rechecker cfg n).Sat (pacing cfg.gap) (fun _ _ => True) ⟨none, since⟩ :=
  ⟨trivial, fun now => recheckLoop_paced ⟨now, rfl, Nat.le_refl _⟩⟩

-- What the pace says about the current time and the number of checks that have been started.
structure Pace.Timely (t₀ : Instant) (gap : Duration) (l : List (Instant × Event Effects)) (σ : Pace) (t : Instant) :
    Prop where
  since    : t₀ ≤ t
  slept    : σ.slept ≤ t
  first    : σ.earliest = none → l.countP (Event.isCheck ·.2) = 0
  earliest : ∀ e, σ.earliest = some e → t₀ + l.countP (Event.isCheck ·.2) * gap ≤ e

theorem Pace.Timely.mono {t₀ t t' : Instant} {l : List (Instant × Event Effects)} (h : σ.Timely t₀ gap l t) (ht : t ≤ t') :
    σ.Timely t₀ gap l t' :=
  ⟨h.since.trans ht, h.slept.trans ht, h.first, h.earliest⟩

theorem Pace.Timely.next {t₀ t t' : Instant} {e : Event Effects} {l : List (Instant × Event Effects)}
    (h : σ.Timely t₀ gap l t) (hd : (pacing gap).demand σ e.op) (ha : clock.answers t e t') :
    ((pacing gap).next σ e).Timely t₀ gap (l ++ [(t, e)]) t' := by
  obtain ⟨ht, ha⟩ := ha
  obtain ⟨hs, hl, hf, he⟩ := h.mono ht
  have hc : (l ++ [(t, e)]).countP (Event.isCheck ·.2) = l.countP (Event.isCheck ·.2) + if e.isCheck then 1 else 0 := by
    simp [List.countP_append]
  obtain ⟨o, r⟩ := e
  cases o
  case env o =>
    cases o
    case now =>
      cases ha
      refine ⟨hs, hl, fun hn => ?_, fun e hn => ?_⟩
      · replace hn : σ.earliest.or (some t') = none := hn
        simp at hn
      · replace hn : σ.earliest.or (some t') = some e := hn
        rw [hc]
        cases he' : σ.earliest
        case none =>
          rw [he'] at hn
          cases hn
          rw [hf he']
          simpa [Event.isCheck] using hs
        case some => exact he e (by simpa [he'] using hn)
    case sleep due =>
      cases r
      case true  => exact ⟨hs, hl, by rwa [hc], by rwa [hc]⟩
      case false => exact ⟨hs, ha rfl, by rwa [hc], by rwa [hc]⟩
    case check =>
      obtain ⟨e, he', hd⟩ := hd
      refine ⟨hs, hl, nofun, ?_⟩
      rintro _ ⟨⟩
      have := Nat.add_le_add_right ((he e he').trans hd) gap
      simpa [pacing, Pace.next, hc, Event.isCheck, Nat.add_mul, Nat.add_assoc] using this
    all_goals exact ⟨hs, hl, by rwa [hc], by rwa [hc]⟩
  all_goals exact ⟨hs, hl, by rwa [hc], by rwa [hc]⟩

-- The `k`-th check does not start before `k` gaps have passed, no matter how many addresses are due.
theorem rechecker_rate {t₀ : Instant} {l pre suf : List (Instant × Event Effects)} {t : Instant} {p : Proxy} {r : Checked}
    (h : Timeline t₀ (rechecker cfg n) l) (hl : l = pre ++ (t, ⟨.env (.check p), r⟩) :: suf) :
    t₀ + pre.countP (Event.isCheck ·.2) * cfg.gap ≤ t := by
  obtain ⟨t', q, h⟩ := h
  have hs : Pace.Timely t₀ cfg.gap [] ⟨none, t₀⟩ t₀ := ⟨Nat.le_refl _, Nat.le_refl _, fun _ => rfl, nofun⟩
  have mono (l : List (Instant × Event Effects)) (σ : Pace) (s s' : Instant) (h : σ.Timely t₀ cfg.gap l s) (hs : s ≤ s') :
      σ.Timely t₀ cfg.gap l s' :=
    h.mono hs
  obtain ⟨σ, hσ, e, he, hd⟩ := h.monitored mono (fun _ _ _ _ _ => Pace.Timely.next) rechecker_paced hs hl
  exact (hσ.earliest e he).trans (hd.trans hσ.slept)

theorem fromSecs_asSecs (d : Duration) : fromSecs (asSecs d) = d := by
  have h : asSecs d * 10 ^ 9 = ((d : ℤ) : ℚ) := by simp [asSecs]
  rw [fromSecs, h, roundHalfEven_intCast, Int.toNat_natCast]

theorem jitter_one (base : Duration) : jitter base 1 = base := by
  rw [jitter, mul_one, fromSecs_asSecs]

theorem half_le_jitter {base : Duration} {f : ℚ} (h : 1 / 2 ≤ f) : base / 2 ≤ jitter base f := by
  have hb : ((base / 2 : ℕ) : ℚ) ≤ base / 2 := Nat.cast_div_le
  have hf : ((base / 2 : ℕ) : ℚ) ≤ asSecs base * f * 10 ^ 9 := by
    have : (0 : ℚ) ≤ base := Nat.cast_nonneg base
    have he : asSecs base * f * 10 ^ 9 = base * f := by
      unfold asSecs
      ring
    rw [he]
    nlinarith
  have hr : ((base / 2 : ℕ) : ℤ) ≤ roundHalfEven (asSecs base * f * 10 ^ 9) := le_roundHalfEven (by exact_mod_cast hf)
  exact (Int.le_toNat (hr.trans' (Int.natCast_nonneg _))).mpr hr

namespace RecheckExample

-- At most one check a second, and an address is attended to every other second.
def steady : RecheckConfig where
  minInterval   := 2000000000
  maxInterval   := 2000000000
  ratePerSec    := 1
  decayHalflife := 0
  halving       := fun _ => 1

theorem gap_steady : steady.gap = 1000000000 := by
  have h : (1 : ℚ) / max steady.ratePerSec (1 / 1000) = asSecs 1000000000 := by norm_num [steady, asSecs]
  rw [RecheckConfig.gap, h, fromSecs_asSecs]

theorem nextInterval_steady (e : ℚ) : nextInterval e steady = 2000000000 := by
  have h : asSecs steady.minInterval + clamp e * (asSecs steady.maxInterval - asSecs steady.minInterval) =
      asSecs (2000000000) := by simp [steady]
  rw [nextInterval, h, fromSecs_asSecs]

def slow : Checked where
  working       := true
  types         := fun _ => none
  requests      := 1
  errors        := []
  runtimes      := [5]
  probeRuntimes := [5]
  caps          := ⟨false, false⟩
  trust         := []

theorem now_answers {t : Instant} (t' : Instant) (h : t ≤ t') : clock.answers t ⟨.env .now, t'⟩ t' :=
  ⟨h, rfl⟩

theorem sleep_answers {t : Instant} (due : Instant) (h : t ≤ due) : clock.answers t ⟨.env (.sleep due), false⟩ due :=
  ⟨h, fun _ => Nat.le_refl _⟩

theorem jitter_answers (t : Instant) (base : Duration) : clock.answers t ⟨.env (.jitter base), base⟩ t :=
  ⟨Nat.le_refl t, 1, by norm_num, by norm_num, (jitter_one base).symm⟩

-- An address is enrolled at once, and is due two seconds later.
theorem steady_enrols : ∃ l s, clock.Trail (· ≤ ·) 0 (rechecker steady 2) l (2000000000)
    (recheck steady s addr >>= recheckLoop steady 1) ∧ s.heap = [] ∧ l.countP (Event.isCheck ·.2) = 0 := by
  have h : clock.Trail (· ≤ ·) 0 (rechecker steady 2) [] 0 _ := .refl
  have h := h.snoc (Nat.le_refl 0) (now_answers _ (Nat.le_refl 0))
  have h := h.snoc (Nat.le_refl 0) (now_answers _ (Nat.le_refl 0))
  have h := h.snoc (r := [addr]) (Nat.le_refl 0) ⟨Nat.le_refl 0, trivial⟩
  have h := h.snoc (Nat.le_refl 0) (jitter_answers 0 steady.minInterval)
  have h := h.snoc (Nat.le_refl 0) (now_answers _ (Nat.le_refl 0))
  have h := h.snoc (Nat.le_refl 0) (sleep_answers 2000000000 (by decide))
  have h := h.snoc (Nat.le_refl _) (now_answers _ (Nat.le_refl _))
  have h := h.snoc (Nat.le_refl _) (now_answers _ (Nat.le_refl _))
  have h := h.snoc (Nat.le_refl _) (sleep_answers 2000000000 (by decide))
  have h := h.snoc (r := (0 : Nat)) (Nat.le_refl _) ⟨Nat.le_refl _, trivial⟩
  exact ⟨_, _, h.snoc (r := [addr]) (Nat.le_refl _) ⟨Nat.le_refl _, trivial⟩, rfl, rfl⟩

-- It is then checked twice, the second time four seconds after the first one.
theorem steady_timeline : ∃ l mid t₁ t₂, l.countP (Event.isCheck ·.2) = 0 ∧
    mid.countP (Event.isCheck ·.2) = 0 ∧
    Timeline 0 (rechecker steady 2) (l ++ (t₁, ⟨.env (.check (Proxy.new addr.host addr.port ∅)), slow⟩) :: mid ++
      (t₂, ⟨.env (.check (Proxy.new addr.host addr.port ∅)), slow⟩) :: []) := by
  obtain ⟨l, ⟨heap, ewma, lastOk, retrying, start⟩, h, hs, hl⟩ := steady_enrols
  obtain rfl : heap = [] := hs
  have h' : clock.Trail (· ≤ ·) (2000000000)
    (recheck steady ⟨[], ewma, lastOk, retrying, start⟩ addr >>= recheckLoop steady 1) [] (2000000000) _ := .refl
  have h' := h'.snoc (r := slow) (Nat.le_refl _) ⟨Nat.le_refl _, trivial⟩
  have h' := h'.snoc (r := ()) (Nat.le_refl _) ⟨Nat.le_refl _, trivial⟩
  have h' := h'.snoc (Nat.le_refl _) (now_answers _ (Nat.le_refl _))
  have h' := h'.snoc (Nat.le_refl _) (jitter_answers _ steady.minInterval)
  have h' := h'.snoc (r := ()) (Nat.le_refl _) ⟨Nat.le_refl _, trivial⟩
  have h' := h'.snoc (Nat.le_refl _) (now_answers 6000000000 (by decide))
  have h' := h'.snoc (r := [addr]) (Nat.le_refl _) ⟨Nat.le_refl _, trivial⟩
  rw [nextInterval_steady] at h'
  have h' := h'.snoc (Nat.le_refl _) (now_answers _ (Nat.le_refl _))
  have h' := h'.snoc (Nat.le_refl _) (sleep_answers 6000000000 (by decide))
  have h' := h'.snoc (Nat.le_refl _) (now_answers _ (Nat.le_refl _))
  have h' := h'.snoc (Nat.le_refl _) (now_answers _ (Nat.le_refl _))
  have h' := h'.snoc (Nat.le_refl _) (sleep_answers _ (le_max_right start 6000000000))
  have h' := h'.snoc (r := (0 : Nat)) (Nat.le_refl _) ⟨Nat.le_refl _, trivial⟩
  have h' := h'.snoc (r := [addr]) (Nat.le_refl _) ⟨Nat.le_refl _, trivial⟩
  have h' := h'.snoc (r := slow) (Nat.le_refl _) ⟨Nat.le_refl _, trivial⟩
  have ht := h.trans h'
  rw [← List.append_assoc] at ht
  refine ⟨l, _, _, _, hl, ?_, _, _, ht⟩
  rfl

end RecheckExample

open RecheckExample in
-- The second check does not start before one second has passed.
theorem rechecker_rate_second : ∃ pre t p r, pre.countP (Event.isCheck ·.2) = 1 ∧
    Timeline 0 (rechecker steady 2) (pre ++ (t, ⟨.env (.check p), r⟩) :: []) ∧ 1000000000 ≤ t := by
  obtain ⟨l, mid, t₁, t₂, hl, hm, h⟩ := steady_timeline
  have hc : (l ++ (t₁, ⟨.env (.check (Proxy.new addr.host addr.port ∅)), slow⟩) :: mid).countP (Event.isCheck ·.2) = 1 := by
    rw [List.countP_append, hl, List.countP_cons_of_pos rfl, hm]
  have hr := rechecker_rate h rfl
  rw [hc, gap_steady, Nat.zero_add, Nat.one_mul] at hr
  exact ⟨_, t₂, _, _, hc, h, hr⟩

section Spacing

-- Whether an address has been checked, what the clock has shown since its last check, and the least jitter so far.
structure Cadence where
  checked : Bool
  since   : List Instant
  least   : Duration

def Cadence.next (k : Key) (c : Cadence) : Event Effects → Cadence
  | ⟨.env .now, r⟩        => { c with since := r :: c.since }
  | ⟨.env (.jitter _), r⟩ => { c with least := min c.least r }
  | ⟨.env (.check p), _⟩  => if p.key = k then { c with checked := true, since := [] } else c
  | _                     => c

-- After the last check of an address, the clock has been looked at twice, and the jitter lies in between.
def Cadence.Rested (c : Cadence) (due : Instant) : Prop :=
  c.checked → ∃ r ∈ c.since, r + c.least ≤ due

-- Demands that an address is only checked again if it has rested. All jitter is of the same size.
def spacing (base : Duration) (k : Key) : Monitor Effects Cadence where
  demand c
    | .env (.check p)  => p.key = k → ∃ due, c.Rested due ∧ (c.checked → ∃ v ∈ c.since, due ≤ v)
    | .env (.jitter b) => b = base
    | _                => True
  next := Cadence.next k

variable {k a : Key} {c c' : Cadence} {ks : List Key} {due : Instant}

-- The clock has been looked at again, or there has been more jitter.
structure Cadence.Extends (c c' : Cadence) : Prop where
  checked : c'.checked = c.checked
  since   : c.since ⊆ c'.since
  least   : c'.least ≤ c.least

theorem Cadence.Rested.extends (h : c.Rested due) (hc : c.Extends c') : c'.Rested due := by
  intro hk
  obtain ⟨r, hr, hd⟩ := h (hc.checked ▸ hk)
  exact ⟨r, hc.since hr, (Nat.add_le_add_left hc.least r).trans hd⟩

def Rests (k : Key) (s : Schedule) (c : Cadence) : Prop :=
  ∀ e ∈ s.heap, e.key = k → c.Rested e.due

theorem Rests.extends (h : Rests k s c) (hc : c.Extends c') : Rests k s c' :=
  fun e he hk => (h e he hk).extends hc

theorem Rests.now (h : Rests k s c) (base : Duration) (r : Instant) : Rests k s ((spacing base k).next c ⟨.env .now, r⟩) :=
  h.extends ⟨rfl, List.subset_cons_self .., Nat.le_refl _⟩

theorem Rests.jitter (h : Rests k s c) (base r : Duration) : Rests k s ((spacing base k).next c ⟨.env (.jitter base), r⟩) :=
  h.extends ⟨rfl, List.Subset.refl _, min_le_left ..⟩

theorem Rests.push (h : Rests k s c) (hd : a = k → c.Rested due) : Rests k (s.push due a) c := by
  intro e he hk
  rcases List.mem_cons.mp he with rfl | he
  · exact hd hk
  · exact h e he hk

theorem enroll_spaced {now : Instant} (hk : Kept s.keys s) (hs : Rests k s c) (hn : now ∈ c.since) :
    (enroll cfg now ks s).Sat (spacing cfg.minInterval k) (fun s' c' => Kept s'.keys s' ∧ Rests k s' c') c := by
  induction ks generalizing s c
  case nil => exact ⟨hk, hs⟩
  case cons a ks hi =>
    unfold enroll
    split
    case h_1 => exact hi hk hs hn
    case h_2 ha =>
      simp only [sat_bind, Async.sat_env]
      refine ⟨rfl, fun (j : Duration) => ?_⟩
      have ha : a ∉ s.keys := fun hm => (hk.ewma a).mp hm ha
      have hs := hs.jitter cfg.minInterval j
      refine hi ((hk.enrolled ha now).congr ..) (Rests.push hs fun _ _ => ?_) hn
      exact ⟨now, hn, Nat.add_le_add_left (min_le_right ..) now⟩

theorem isTracked_spaced :
    (isTracked s a).Sat (spacing cfg.minInterval k) (fun tracked c' => c' = c ∧ (tracked = false → s.retrying a = false)) c := by
  unfold isTracked
  split
  case isTrue => exact ⟨rfl, nofun⟩
  case isFalse hr =>
    simp only [sat_bind, Async.sat_pool]
    exact ⟨trivial, fun _ => ⟨rfl, fun _ => Bool.eq_false_iff.mpr hr⟩⟩

theorem pop_due {start : Instant} {tie : Nat} {e : Scheduled} {s' : Schedule}
    (hp : { s with nextStart := start }.pop tie = some (e, s')) (hd : s.soonest = some due) : e.due = due := by
  simp only [Schedule.pop, Option.map_eq_some_iff, Prod.mk.injEq] at hp
  obtain ⟨e, he, rfl, -⟩ := hp
  have he := (List.mem_filter.mp (List.mem_of_getElem? he)).right
  exact Option.some.inj ((of_decide_eq_true he).trans hd)

-- A check starts the rest of its address anew, which does not occur in the heap.
theorem Rests.checked (h : Rests k s c) (hk : Kept (a :: s.keys) s) (base : Duration) (p : Proxy) (hp : p.key = a)
    (r : Checked) : Rests k s ((spacing base k).next c ⟨.env (.check p), r⟩) := by
  intro e he hek
  have hn : a ≠ k := by
    rintro rfl
    exact (List.nodup_cons.mp hk.nodup).left (hek ▸ List.mem_map_of_mem he)
  simpa [spacing, Cadence.next, hp, hn] using h e he hek

-- A job whose time is a reading of the clock and some jitter, and more.
theorem Cadence.rested (now j : Nat) (base more : Duration) :
    Cadence.Rested ((spacing base k).next ((spacing base k).next c ⟨.env .now, now⟩) ⟨.env (.jitter base), j⟩) (now + more + j) := by
  refine fun _ => ⟨now, List.mem_cons_self, ?_⟩
  rw [Nat.add_assoc]
  exact Nat.add_le_add_left ((min_le_right _ j).trans (Nat.le_add_left ..)) now

theorem recheck_spaced (hk : Kept (a :: s.keys) s) (hs : Rests k s c)
    (hd : a = k → ∃ due, c.Rested due ∧ (c.checked → ∃ v ∈ c.since, due ≤ v)) :
    (recheck cfg s a).Sat (spacing cfg.minInterval k) (fun s' c' => Kept s'.keys s' ∧ Rests k s' c') c := by
  unfold recheck
  simp only [sat_bind, Async.sat_env]
  refine ⟨hd, fun r => ⟨trivial, fun _ => ⟨trivial, fun (now : Instant) => ⟨rfl, fun (j : Duration) => ?_⟩⟩⟩⟩
  have hm : a ∈ a :: s.keys := List.mem_cons_self
  have hs := ((hs.checked hk cfg.minInterval (Proxy.new a.host a.port ∅) rfl r).now cfg.minInterval now).jitter cfg.minInterval j
  have hj := Cadence.rested (k := k) (c := (spacing cfg.minInterval k).next c ⟨.env (.check (Proxy.new a.host a.port ∅)), r⟩) now j cfg.minInterval
  split
  case isTrue hw =>
    simp only [sat_bind, Async.sat_exec]
    refine ⟨trivial, fun _ => ⟨?_, Rests.push hs fun _ => hj _⟩⟩
    exact (((hk.fold hm _).succeeded hm now).setRetrying hm false).congr ..
  case isFalse hw =>
    simp only [Pool.remove, sat_bind, Async.sat_pool]
    refine ⟨trivial, fun removed => ?_⟩
    split
    · exact ⟨((hk.fold hm _).setRetrying hm true).congr .., Rests.push hs fun _ => hj _⟩
    · exact ⟨((hk.fold hm _).setRetrying hm false).forget (by simp [Schedule.setRetrying]), hs⟩

theorem recheckLoop_spaced (hk : Kept s.keys s) (hs : Rests k s c) :
    (recheckLoop cfg n s).Sat (spacing cfg.minInterval k) (fun _ _ => True) c := by
  induction n generalizing s c
  case zero => exact ⟨trivial, fun r => r.elim⟩
  case succ n hi =>
    unfold recheckLoop
    simp only [sat_bind, Async.sat_env, Async.sat_pool]
    refine ⟨trivial, fun now => ⟨trivial, fun addrs => ?_⟩⟩
    refine (enroll_spaced hk (hs.now cfg.minInterval now) List.mem_cons_self).mono fun s c h => ?_
    obtain ⟨hk, hs⟩ := h
    split
    case h_1 =>
      simp only [sat_bind, Async.sat_env]
      refine ⟨trivial, fun t => ⟨trivial, fun cancelled => ?_⟩⟩
      cases cancelled
      case true  => trivial
      case false => exact hi hk (hs.now cfg.minInterval t)
    case h_2 due hdue =>
      simp only [sat_bind, Async.sat_env]
      refine ⟨trivial, fun t => ⟨trivial, fun cancelled => ?_⟩⟩
      cases cancelled
      case true => trivial
      simp only [Bool.false_eq_true, if_false, sat_bind, Async.sat_env]
      refine ⟨trivial, fun (t' : Instant) => ?_⟩
      have hs := (hs.now cfg.minInterval t).now cfg.minInterval t'
      split
      case isTrue => exact hi hk hs
      case isFalse ht =>
        simp only [sat_bind, Async.sat_env]
        refine ⟨trivial, fun (t'' : Instant) => ⟨trivial, fun cancelled => ?_⟩⟩
        cases cancelled
        case true => trivial
        simp only [Bool.false_eq_true, if_false, sat_bind, Async.sat_env]
        refine ⟨trivial, fun tie => ?_⟩
        have hs := hs.now cfg.minInterval t''
        split
        case h_1 => exact ⟨trivial, fun r => r.elim⟩
        case h_2 job s₁ hp =>
          have hk := hk.pop hp
          obtain ⟨hm, hs₁⟩ := pop_inv hp
          have hrs : Rests k s₁ _ := fun e he hek => hs e (List.mem_of_mem_erase (by rwa [hs₁] at he)) hek
          rw [sat_bind]
          refine isTracked_spaced.mono fun tracked c' h => ?_
          obtain ⟨rfl, hr⟩ := h
          cases tracked
          case true =>
            rw [if_pos rfl, sat_bind]
            refine (recheck_spaced hk hrs fun hj => ?_).mono fun _ _ h => hi h.left h.right
            obtain rfl : job.due = due := pop_due hp hdue
            refine ⟨job.due, hs job hm hj, fun _ => ⟨t', ?_, not_lt.mp ht⟩⟩
            exact List.mem_cons_of_mem _ List.mem_cons_self
          case false =>
            rw [if_neg Bool.false_ne_true]
            exact hi (hk.forget (hr rfl)) hrs

theorem rechecker_spaced {least : Duration} :
    (rechecker cfg n).Sat (spacing cfg.minInterval k) (fun _ _ => True) ⟨false, [], least⟩ :=
  ⟨trivial, fun now => recheckLoop_spaced (.start now) nofun⟩

-- What the cadence says about the current time and the checks of the address.
structure Cadence.Timely (k : Key) (half : Duration) (l : List (Instant × Event Effects)) (c : Cadence) (t : Instant) :
    Prop where
  rested : ∀ u p r, (u, ⟨.env (.check p), r⟩) ∈ l → p.key = k → c.checked ∧ u ≤ t ∧ ∀ v ∈ c.since, u ≤ v
  since  : ∀ v ∈ c.since, v ≤ t
  least  : half ≤ c.least

theorem Cadence.Timely.mono {half : Duration} {l : List (Instant × Event Effects)} {t t' : Instant}
    (h : Timely k half l c t) (ht : t ≤ t') : Timely k half l c t' where
  rested u p r hm hp := (h.rested u p r hm hp).imp_right fun h => ⟨h.left.trans ht, h.right⟩
  since v hv         := (h.since v hv).trans ht
  least              := h.least

-- An event that does not concern the address.
theorem Cadence.Timely.skip {half : Duration} {l : List (Instant × Event Effects)} {t u : Instant} {e : Event Effects}
    (h : Timely k half l c t) (he : ∀ p, e.op = .env (.check p) → p.key ≠ k) : Timely k half (l ++ [(u, e)]) c t where
  since := h.since
  least := h.least
  rested v p r hm hp := by
    rcases List.mem_append.mp hm with hm | hm
    · exact h.rested v p r hm hp
    · obtain ⟨-, rfl⟩ := Prod.mk.inj (List.mem_singleton.mp hm)
      exact absurd hp (he p rfl)

theorem Cadence.Timely.idle {half : Duration} {l : List (Instant × Event Effects)} {t u : Instant} {e : Event Effects}
    (h : Timely k half l c t) (he : e.isCheck = false) : Timely k half (l ++ [(u, e)]) c t := by
  refine h.skip fun p hp => ?_
  obtain ⟨o, r⟩ := e
  subst hp
  cases he

theorem Cadence.Timely.next {base : Duration} {l : List (Instant × Event Effects)} {t t' : Instant} {e : Event Effects}
    (h : Timely k (base / 2) l c t) (hd : (spacing base k).demand c e.op) (ha : clock.answers t e t') :
    Timely k (base / 2) (l ++ [(t, e)]) ((spacing base k).next c e) t' := by
  obtain ⟨ht, ha⟩ := ha
  have hm := h.mono ht
  obtain ⟨o, r⟩ := e
  cases o
  case env o =>
    cases o
    case now =>
      cases ha
      obtain ⟨hr, hs, hl⟩ := hm.idle (u := t) (e := ⟨.env .now, t'⟩) rfl
      refine ⟨fun u p r hm hp => ?_, ?_, hl⟩
      · obtain ⟨hc, hu, hv⟩ := hr u p r hm hp
        exact ⟨hc, hu, List.forall_mem_cons.mpr ⟨hu, hv⟩⟩
      · exact List.forall_mem_cons.mpr ⟨Nat.le_refl _, hs⟩
    case jitter b =>
      obtain rfl : b = base := hd
      obtain ⟨f, hf, -, rfl⟩ := ha
      obtain ⟨hr, hs, hl⟩ := hm.idle (u := t) (e := ⟨.env (.jitter b), jitter b f⟩) rfl
      exact ⟨hr, hs, le_min hl (half_le_jitter hf)⟩
    case check p =>
      by_cases hp : p.key = k
      case neg =>
        have hc : (spacing base k).next c ⟨.env (.check p), r⟩ = c := if_neg hp
        rw [hc]
        refine hm.skip ?_
        rintro _ ⟨⟩
        exact hp
      case pos =>
        have hc : (spacing base k).next c ⟨.env (.check p), r⟩ = { c with checked := true, since := [] } := if_pos hp
        rw [hc]
        have hn (P : Instant → Prop) : ∀ v ∈ ([] : List Instant), P v := by simp
        refine ⟨fun u p' r' hu hp' => ⟨rfl, ?_, hn _⟩, hn _, hm.least⟩
        rcases List.mem_append.mp hu with hu | hu
        · exact (hm.rested u p' r' hu hp').right.left
        · obtain ⟨rfl, -⟩ := Prod.mk.inj (List.mem_singleton.mp hu)
          exact ht
    all_goals exact hm.idle rfl
  all_goals exact hm.idle rfl

-- An address is not checked again before half of the shortest interval has passed, even if it was evicted in between and
-- has returned.
theorem rechecker_spacing {t₀ t₁ t₂ : Instant} {l pre mid suf : List (Instant × Event Effects)} {p₁ p₂ : Proxy}
    {r₁ r₂ : Checked} (h : Timeline t₀ (rechecker cfg n) l)
    (hl : l = pre ++ (t₁, ⟨.env (.check p₁), r₁⟩) :: mid ++ (t₂, ⟨.env (.check p₂), r₂⟩) :: suf) (hp : p₁.key = p₂.key) :
    t₁ + cfg.minInterval / 2 ≤ t₂ := by
  obtain ⟨t', q, h⟩ := h
  have hs : Cadence.Timely p₂.key (cfg.minInterval / 2) [] ⟨false, [], cfg.minInterval / 2⟩ t₀ :=
    ⟨by simp, by simp, Nat.le_refl _⟩
  have mono (l : List (Instant × Event Effects)) (c : Cadence) (s s' : Instant)
      (h : c.Timely p₂.key (cfg.minInterval / 2) l s) (hs : s ≤ s') : c.Timely p₂.key (cfg.minInterval / 2) l s' :=
    h.mono hs
  obtain ⟨c, hc, hd⟩ := h.monitored mono (fun _ _ _ _ _ => Cadence.Timely.next) rechecker_spaced hs hl
  obtain ⟨due, hr, hv⟩ := hd rfl
  obtain ⟨hk, hu, hs⟩ := hc.rested t₁ p₁ r₁ (by simp) hp
  obtain ⟨r, hm, hr⟩ := hr hk
  obtain ⟨v, hv, hd⟩ := hv hk
  calc t₁ + cfg.minInterval / 2
    _ ≤ r + c.least := Nat.add_le_add (hs r hm) hc.least
    _ ≤ due         := hr
    _ ≤ v           := hd
    _ ≤ t₂          := hc.since v hv

end Spacing

open RecheckExample in
-- The second check of the address starts at least one second after the first one.
theorem rechecker_spacing_twice : ∃ l mid t₁ t₂ p r₁ r₂,
    Timeline 0 (rechecker steady 2) (l ++ (t₁, ⟨.env (.check p), r₁⟩) :: mid ++ (t₂, ⟨.env (.check p), r₂⟩) :: []) ∧
    t₁ + 1000000000 ≤ t₂ := by
  obtain ⟨l, mid, t₁, t₂, -, -, h⟩ := steady_timeline
  exact ⟨l, mid, t₁, t₂, _, _, _, h, rechecker_spacing h rfl rfl⟩

end Scheduler
