import ProxyBroker.Objects.Proxy

structure RetryPolicy where
  maxTries : Nat
  retryOn  : Finset ProxyError

inductive CheckMode
  -- For which schemes there is a verified judge.
  | judged (judges : Finset JudgeScheme)
  | liveness

structure Checker where
  requested : List TypeSpec
  strict    : Bool
  dnsbl     : List Str
  mode      : CheckMode
  retry     : RetryPolicy

namespace Checker

-- What a working attempt has observed.
structure Observation where
  level : Option AnonLevel
  caps  : Caps
  trust : List TrustSignal

inductive Attempt
  | working (obs : Observation)
  | invalid

-- What the network answers during a check: whether a blocklist lists the proxy, and for each protocol
-- how its attempts end and how long they take.
structure Answers where
  listed  : Bool
  attempt : Proto → Nat → Except ProxyError Attempt
  rtt     : Proto → Nat → ℚ

-- The last one of several requests for the same protocol counts.
def levels (requested : List TypeSpec) (t : Proto) : Option (Option (List AnonLevel)) :=
  (requested.reverse.find? (·.proto = t)).map TypeSpec.levels

def typeMatches (requested : List TypeSpec) (strict : Bool) (t : Proto) (level : Option AnonLevel) : Bool :=
  match levels requested t with
  | none | some none | some (some []) => true
  | some (some ls)                    => if t.checksAnonLevel then level.any (· ∈ ls) else strict

def typesPassed (requested : List TypeSpec) (strict : Bool) (p : Proxy) : Bool × Proxy :=
  if requested = [] then (true, p)
  else if strict then
    let toRemove := p.typeList.filter fun c => !typeMatches requested strict c.1 c.2
    let p := toRemove.foldl (fun p c => p.removeType c.1) p
    (p.isWorking, p)
  else
    (p.typeList.any fun c => typeMatches requested strict c.1 c.2, p)

def attempts (r : RetryPolicy) (w : Answers) (t : Proto) : Nat → Nat → Proxy → Bool × Proxy
  | 0, _, p        => (false, p)
  | tries + 1, i, p =>
    match w.attempt t i with
    | .ok (.working obs) =>
      let p := (p.recordAttempt (some (w.rtt t i)) none).recordProbeLatency (w.rtt t i)
      (true, (p.addType t obs.level).recordCaps obs.caps |>.recordTrust obs.trust)
    | .ok .invalid => (false, p.recordAttempt none (some .badResponse))
    | .error e     =>
      let p := p.recordAttempt none (some e)
      if e ∈ r.retryOn ∧ i + 1 < r.maxTries then attempts r w t tries (i + 1) p else (false, p)

variable (c : Checker) (w : Answers)

def hasProbe (t : Proto) : Bool :=
  match c.mode with
  | .judged judges => t.judgeScheme ∈ judges
  | .liveness      => true

def checkOne (p : Proxy) (t : Proto) : Bool × Proxy :=
  if c.hasProbe t then attempts c.retry w t c.retry.maxTries 0 p else (false, p)

-- The requested protocols that a proxy is expected to support. It is not known what to expect of a proxy
-- that does not mention any.
def ngtrs (p : Proxy) : List Proto :=
  Proto.all.filter fun t =>
    c.requested.any (·.proto = t) && (p.expectedTypes = ∅ || t ∈ p.expectedTypes)

def check (p : Proxy) : Bool × Proxy :=
  if c.dnsbl ≠ [] ∧ w.listed then (false, p)
  else
    let (any, p) := (c.ngtrs p).foldl (fun (any, p) t =>
      let (ok, p) := c.checkOne w p t
      (any || ok, p)) (false, p)
    if any then typesPassed c.requested c.strict p else (false, p)

variable {c w} {p : Proxy}

theorem isWorking_iff : p.isWorking ↔ p.typeList ≠ [] := by
  simp only [Proxy.isWorking, Proxy.typeList, List.any_eq_true, Proxy.hasType, ne_eq, List.filterMap_eq_nil_iff]
  push Not
  simp [Option.ne_none_iff_isSome]

theorem mem_typeList {a : Proto × Option AnonLevel} : a ∈ p.typeList ↔ p.types a.1 = some a.2 := by
  simp only [Proxy.typeList, List.mem_filterMap, Option.map_eq_some_iff]
  constructor
  case mp =>
    rintro ⟨t, -, l, hl, rfl⟩
    exact hl
  case mpr => exact fun h => ⟨a.1, by cases a.1 <;> simp [Proto.all], a.2, h, rfl⟩

theorem ngtrs_nodup : (c.ngtrs p).Nodup :=
  List.Nodup.filter _ (by decide)

theorem mem_ngtrs {t : Proto} : t ∈ c.ngtrs p ↔
    (∃ s ∈ c.requested, s.proto = t) ∧ (p.expectedTypes = ∅ ∨ t ∈ p.expectedTypes) := by
  have ht : t ∈ Proto.all := by cases t <;> simp [Proto.all]
  simp [ngtrs, ht]

theorem ngtrs_eq_nil (h : c.requested = []) : c.ngtrs p = [] := by
  simp [ngtrs, h]

theorem typesPassed_isWorking {requested : List TypeSpec} {strict : Bool} (hr : requested ≠ [])
    (h : (typesPassed requested strict p).1) : (typesPassed requested strict p).2.isWorking := by
  unfold typesPassed at h ⊢
  rw [if_neg hr] at h ⊢
  cases strict
  case true  => exact h
  case false =>
    obtain ⟨t, ht, _⟩ := List.any_eq_true.mp h
    exact isWorking_iff.mpr (List.ne_nil_of_mem ht)

-- A proxy that passes a check has at least one confirmed protocol.
theorem check_isWorking (h : (c.check w p).1) : (c.check w p).2.isWorking := by
  unfold check at h ⊢
  split_ifs at h ⊢ with hd
  dsimp only at h ⊢
  split_ifs at h ⊢ with ha
  refine typesPassed_isWorking (fun hr => ?_) h
  simp [ngtrs_eq_nil hr] at ha

end Checker
