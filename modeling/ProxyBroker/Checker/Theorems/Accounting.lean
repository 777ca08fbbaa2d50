import ProxyBroker.Checker.Program
import ProxyBroker.Checker.Theorems.Admission
import ProxyBroker.Objects.Theorems.Statistics

namespace ErrorCounts

-- A counter that does not wrap around counts.
theorem bump_sum {h : ErrorCounts} {e : ProxyError} (hs : h.sum + 1 < UInt32.size) : (h.bump e).sum = h.sum + 1 := by
  induction h
  case nil => rfl
  case cons b h hi =>
    simp only [sum, List.map_cons, List.sum_cons] at hs hi ⊢
    unfold bump
    split_ifs
    · simp only [List.map_cons, List.sum_cons, UInt32.toNat_add, UInt32.toNat_one]
      rw [Nat.mod_eq_of_lt (by rw [UInt32.size] at hs; omega)]
      omega
    · simp only [List.map_cons, List.sum_cons]
      have := hi (by omega)
      omega

end ErrorCounts

open Prog

namespace Checker.Network

variable {c : Checker} {p p' : Proxy} {ok : Bool} {tr tr₁ tr₂ : Trace effects} {t : Proto}

abbrev Outcome := Except ProxyError Attempt

-- An attempt with its outcome.
def attempted : Event effects → Option (Proto × Outcome)
  | ⟨.listed, _⟩      => none
  | ⟨.attempt t _, r⟩ => some (t, r.1)

def observation : Outcome → Option Observation
  | .ok (.working obs) => some obs
  | _                  => none

def tried (tr : Trace effects) : List (Proto × Outcome) :=
  tr.filterMap attempted

def outcomes (tr : Trace effects) (t : Proto) : List Outcome :=
  ((tried tr).filter (·.1 = t)).map Prod.snd

-- What the working attempts have observed.
def observed (tr : Trace effects) : List Observation :=
  (tried tr).filterMap fun a => observation a.2

def failed (tr : Trace effects) : Nat :=
  (tried tr).countP fun a => (observation a.2).isNone

-- What an attempt makes of the proxy.
def observe (p : Proxy) : Event effects → Proxy
  | ⟨.listed, _⟩                              => p
  | ⟨.attempt t _, (.ok (.working obs), rtt)⟩ =>
    ((((p.recordAttempt (some rtt) none).recordProbeLatency rtt).addType t obs.level).recordCaps obs.caps).recordTrust
      obs.trust
  | ⟨.attempt _ _, (.ok .invalid, _)⟩         => p.recordAttempt none (some .badResponse)
  | ⟨.attempt _ _, (.error e, _)⟩             => p.recordAttempt none (some e)

section Lists

variable {o : Outcome} {i : Nat} {r : Outcome × ℚ}

@[simp]
theorem tried_nil : tried [] = [] :=
  rfl

@[simp]
theorem tried_listed {b : Bool} : tried (⟨.listed, b⟩ :: tr) = tried tr :=
  rfl

@[simp]
theorem tried_attempt : tried (⟨.attempt t i, r⟩ :: tr) = (t, r.1) :: tried tr :=
  rfl

@[simp]
theorem tried_append : tried (tr₁ ++ tr₂) = tried tr₁ ++ tried tr₂ :=
  List.filterMap_append

@[simp]
theorem observation_error {e : ProxyError} : observation (.error e) = none :=
  rfl

@[simp]
theorem observed_nil : observed [] = [] :=
  rfl

@[simp]
theorem observed_attempt : observed (⟨.attempt t i, r⟩ :: tr) = (observation r.1).toList ++ observed tr := by
  cases h : observation r.1 <;> simp [observed, h]

@[simp]
theorem observed_append : observed (tr₁ ++ tr₂) = observed tr₁ ++ observed tr₂ := by
  simp [observed]

theorem mem_outcomes : o ∈ outcomes tr t ↔ (t, o) ∈ tried tr := by
  simp only [outcomes, List.mem_map, List.mem_filter, decide_eq_true_eq]
  constructor
  case mp =>
    rintro ⟨a, ⟨h, rfl⟩, rfl⟩
    exact h
  case mpr => exact fun h => ⟨_, ⟨h, rfl⟩, rfl⟩

@[simp]
theorem outcomes_append : outcomes (tr₁ ++ tr₂) t = outcomes tr₁ t ++ outcomes tr₂ t := by
  simp [outcomes]

theorem outcomes_eq_nil (h : ∀ a ∈ tried tr, a.1 ≠ t) : outcomes tr t = [] := by
  simpa [outcomes] using h

end Lists

-- How the attempts for a protocol may follow each other.
structure Retried (r : RetryPolicy) (os : List Outcome) : Prop where
  length_le : os.length ≤ r.maxTries
  retryOn   : ∀ o ∈ os.dropLast, ∃ e ∈ r.retryOn, o = .error e

-- The attempts that are made for one protocol.
structure Attempts (r : RetryPolicy) (t : Proto) (tries : Nat) (p : Proxy) (tr : Trace effects) (ok : Bool)
    (p' : Proxy) : Prop where
  eq_foldl  : p' = tr.foldl observe p
  only      : ∀ a ∈ tried tr, a.1 = t
  length_le : (tried tr).length ≤ tries
  retryOn   : ∀ a ∈ (tried tr).dropLast, ∃ e ∈ r.retryOn, a.2 = .error e
  ok_iff    : ok = true ↔ observed tr ≠ []

theorem attempts_runs {r : RetryPolicy} {tries i : Nat} (h : (attempts r t tries i p).Runs tr (.ret (ok, p'))) :
    Attempts r t tries p tr ok p' := by
  induction tries generalizing i p tr
  case zero =>
    obtain ⟨rfl, he⟩ := h.ret_inv
    cases he
    exact ⟨rfl, by simp, by simp, by simp, by simp⟩
  case succ tries hi =>
    cases h
    case call tr a h =>
      obtain ⟨e | obs | -, rtt⟩ := a
      case ok.working =>
        obtain ⟨rfl, he⟩ := Runs.ret_inv h
        cases he
        exact ⟨rfl, by simp, by simp, by simp, by simp [observation]⟩
      case ok.invalid =>
        obtain ⟨rfl, he⟩ := Runs.ret_inv h
        cases he
        exact ⟨rfl, by simp, by simp, by simp, by simp [observation]⟩
      case error =>
        change Runs (if e ∈ r.retryOn ∧ i + 1 < r.maxTries
          then attempts r t tries (i + 1) (p.recordAttempt none (some e))
          else .ret (false, p.recordAttempt none (some e))) tr _ at h
        split_ifs at h with hr
        case pos =>
          have ha := hi h
          refine ⟨ha.eq_foldl, ?only, by simpa using ha.length_le, ?retryOn, by simpa using ha.ok_iff⟩
          case only    => simpa using ha.only
          case retryOn =>
            intro a hm
            rw [tried_attempt] at hm
            by_cases hn : tried tr = []
            case pos => simp [hn] at hm
            case neg =>
              rw [List.dropLast_cons_of_ne_nil hn, List.mem_cons] at hm
              rcases hm with rfl | hm
              · exact ⟨e, hr.left, rfl⟩
              · exact ha.retryOn a hm
        case neg =>
          obtain ⟨rfl, he⟩ := Runs.ret_inv h
          cases he
          exact ⟨rfl, by simp, by simp, by simp, by simp [observation]⟩

theorem checkOne_runs (h : (checkOne c p t).Runs tr (.ret (ok, p'))) : Attempts c.retry t c.retry.maxTries p tr ok p' := by
  unfold checkOne at h
  split_ifs at h
  case pos => exact attempts_runs h
  case neg =>
    obtain ⟨rfl, he⟩ := h.ret_inv
    cases he
    exact ⟨rfl, by simp, by simp, by simp, by simp⟩

-- The attempts that are made for all protocols.
structure AllAttempts (r : RetryPolicy) (ts : List Proto) (any : Bool) (p : Proxy) (tr : Trace effects) (ok : Bool)
    (p' : Proxy) : Prop where
  eq_foldl : p' = tr.foldl observe p
  only     : ∀ a ∈ tried tr, a.1 ∈ ts
  retried  : ∀ t, Retried r (outcomes tr t)
  ok_iff   : ok = true ↔ any = true ∨ observed tr ≠ []

theorem checkAll_runs {ts : List Proto} {any : Bool} (hn : ts.Nodup) (h : (checkAll c ts any p).Runs tr (.ret (ok, p'))) :
    AllAttempts c.retry ts any p tr ok p' := by
  induction ts generalizing any p tr
  case nil =>
    obtain ⟨rfl, he⟩ := Runs.ret_inv h
    cases he
    exact ⟨rfl, by simp, fun t => ⟨by simp [outcomes], by simp [outcomes]⟩, by simp⟩
  case cons t ts hi =>
    obtain ⟨ht, hn⟩ := List.nodup_cons.mp hn
    obtain ⟨⟨b, q⟩, tr₁, tr₂, rfl, h₁, h₂⟩ := Runs.of_bind_ret h
    have h₁ := checkOne_runs h₁
    have h₂ := hi hn h₂
    refine ⟨?eq_foldl, ?only, fun u => ?retried, ?ok_iff⟩
    case eq_foldl => rw [List.foldl_append, ← h₁.eq_foldl, h₂.eq_foldl]
    case only =>
      intro a ha
      rw [tried_append, List.mem_append] at ha
      rcases ha with ha | ha
      · exact h₁.only a ha ▸ List.mem_cons_self
      · exact List.mem_cons_of_mem _ (h₂.only a ha)
    case retried =>
      rw [outcomes_append]
      by_cases hu : u = t
      case pos =>
        subst hu
        rw [outcomes_eq_nil fun a ha (hu : a.1 = u) => ht (hu ▸ h₂.only a ha), List.append_nil, outcomes,
          List.filter_eq_self.mpr fun a ha => by simpa using h₁.only a ha]
        refine ⟨by simpa using h₁.length_le, fun o ho => ?_⟩
        rw [← List.map_dropLast, List.mem_map] at ho
        obtain ⟨a, ha, rfl⟩ := ho
        exact h₁.retryOn a ha
      case neg =>
        rw [outcomes_eq_nil fun a ha (he : a.1 = u) => hu (he ▸ h₁.only a ha), List.nil_append]
        exact h₂.retried u
    case ok_iff =>
      rw [h₂.ok_iff, Bool.or_eq_true, h₁.ok_iff, observed_append, or_assoc]
      simp only [ne_eq, List.append_eq_nil_iff, not_and_or]

section Observing

variable {o : Outcome}

theorem Retried.observation_eq_none {r : RetryPolicy} {os : List Outcome} (h : Retried r os) (ho : o ∈ os.dropLast) :
    observation o = none := by
  obtain ⟨e, -, rfl⟩ := h.retryOn o ho
  rfl

-- Nothing follows a working attempt.
theorem Retried.filterMap_observation {r : RetryPolicy} {os : List Outcome} (h : Retried r os) :
    os.filterMap observation = (os.getLast?.bind observation).toList := by
  rcases List.eq_nil_or_concat os with rfl | ⟨os, o, rfl⟩
  case inl => rfl
  case inr =>
    have hn : os.filterMap observation = [] :=
      List.filterMap_eq_nil_iff.mpr fun o ho => h.observation_eq_none (by simpa using ho)
    rw [List.concat_eq_append, List.filterMap_append, hn, List.getLast?_concat]
    cases ho : observation o <;> simp [ho]

-- The last working attempt decides about the level of a protocol.
theorem foldl_observe_types : (tr.foldl observe p).types t =
    ((outcomes tr t).filterMap observation).getLast?.elim (p.types t) fun obs => some obs.level := by
  induction tr using List.reverseRecOn
  case nil => rfl
  case append_singleton tr a hi =>
    rw [List.foldl_append, outcomes_append, List.filterMap_append]
    obtain ⟨- | ⟨u, i⟩, r⟩ := a
    case listed =>
      have hn : outcomes [⟨.listed, r⟩] t = [] := rfl
      rw [hn, List.filterMap_nil, List.append_nil]
      exact hi
    case attempt =>
      obtain ⟨e | obs | -, rtt⟩ := r
      case error      => by_cases hu : u = t <;> simpa [outcomes, hu, observe] using hi
      case ok.invalid => by_cases hu : u = t <;> simpa [outcomes, hu, observe, observation] using hi
      case ok.working =>
        by_cases hu : u = t
        case pos => simp [outcomes, hu, observe, observation, Proxy.addType, Proxy.recordCaps, Proxy.recordTrust]
        case neg =>
          simpa [outcomes, hu, observe, Proxy.addType, Proxy.recordCaps, Proxy.recordTrust, Proxy.recordProbeLatency,
            Function.update_of_ne (Ne.symm hu)] using hi

theorem foldl_observe_caps : (tr.foldl observe p).caps =
    ⟨p.caps.cookieEcho || (observed tr).any (·.caps.cookieEcho),
      p.caps.refererEcho || (observed tr).any (·.caps.refererEcho)⟩ := by
  induction tr generalizing p
  case nil => simp
  case cons a tr hi =>
    rw [List.foldl_cons, hi]
    obtain ⟨- | ⟨u, i⟩, r⟩ := a
    case listed  => rfl
    case attempt =>
      obtain ⟨e | obs | -, rtt⟩ := r
      case error      => rfl
      case ok.invalid => rfl
      case ok.working =>
        simp [observe, observation, Proxy.recordCaps, Proxy.recordTrust, Proxy.addType, Proxy.recordProbeLatency,
          Proxy.recordAttempt, Bool.or_assoc]

theorem mem_recordTrust {s : TrustSignal} {signals : List TrustSignal} :
    s ∈ (p.recordTrust signals).trust ↔ s ∈ p.trust ∨ s ∈ signals := by
  change s ∈ signals.foldl (fun ts t => if t ∈ ts then ts else ts ++ [t]) p.trust ↔ _
  generalize p.trust = ts
  induction signals generalizing ts
  case nil => simp
  case cons x signals hi =>
    rw [List.foldl_cons, hi]
    split_ifs with hx
    · simp only [List.mem_cons]
      constructor
      · tauto
      · rintro (h | rfl | h)
        · exact .inl h
        · exact .inl hx
        · exact .inr h
    · simp only [List.mem_append, List.mem_cons, List.not_mem_nil, or_false, or_assoc]

theorem mem_foldl_observe_trust {s : TrustSignal} :
    s ∈ (tr.foldl observe p).trust ↔ s ∈ p.trust ∨ ∃ obs ∈ observed tr, s ∈ obs.trust := by
  induction tr generalizing p
  case nil => simp
  case cons a tr hi =>
    rw [List.foldl_cons, hi]
    obtain ⟨- | ⟨u, i⟩, r⟩ := a
    case listed  => rfl
    case attempt =>
      obtain ⟨e | obs | -, rtt⟩ := r
      case error      => rfl
      case ok.invalid => rfl
      case ok.working =>
        change s ∈ (Proxy.recordTrust _ obs.trust).trust ∨ _ ↔ _
        rw [mem_recordTrust, or_assoc]
        simp [observation, Proxy.recordCaps, Proxy.addType, Proxy.recordProbeLatency, Proxy.recordAttempt]

theorem observe_requests {t : Proto} {i : Nat} {r : Outcome × ℚ} :
    (observe p ⟨.attempt t i, r⟩).requests = p.requests + 1 := by
  obtain ⟨e | obs | -, rtt⟩ := r <;> rfl

theorem foldl_observe_requests (h : p.requests.toNat + (tried tr).length < UInt32.size) :
    (tr.foldl observe p).requests.toNat = p.requests.toNat + (tried tr).length := by
  induction tr generalizing p
  case nil => rfl
  case cons a tr hi =>
    obtain ⟨- | ⟨u, i⟩, r⟩ := a
    case listed  => exact hi h
    case attempt =>
      rw [tried_attempt, List.length_cons] at h ⊢
      have hr : (observe p ⟨.attempt u i, r⟩).requests.toNat = p.requests.toNat + 1 := by
        rw [observe_requests, UInt32.toNat_add, UInt32.toNat_one]
        exact Nat.mod_eq_of_lt (by rw [UInt32.size] at h; omega)
      rw [List.foldl_cons, hi (by omega), hr]
      omega

theorem observe_errors {t : Proto} {i : Nat} {r : Outcome × ℚ} (h : p.errors.sum + 1 < UInt32.size) :
    (observe p ⟨.attempt t i, r⟩).errors.sum = p.errors.sum + if (observation r.1).isNone then 1 else 0 := by
  obtain ⟨e | obs | -, rtt⟩ := r
  case error      => exact ErrorCounts.bump_sum h
  case ok.working => rfl
  case ok.invalid => exact ErrorCounts.bump_sum h

theorem foldl_observe_errors (h : p.errors.sum + (tried tr).length < UInt32.size) :
    (tr.foldl observe p).errors.sum = p.errors.sum + failed tr := by
  induction tr generalizing p
  case nil => rfl
  case cons a tr hi =>
    obtain ⟨- | ⟨u, i⟩, r⟩ := a
    case listed  => exact hi h
    case attempt =>
      rw [tried_attempt, List.length_cons] at h
      have he := observe_errors (t := u) (i := i) (r := r) (p := p) (by omega)
      rw [List.foldl_cons, hi (by rw [he]; split_ifs <;> omega), he, failed, failed, tried_attempt, List.countP_cons]
      dsimp only
      omega

end Observing

-- The books that a check keeps about the attempts that it makes, apart from their numbers.
structure Checked (c : Checker) (p : Proxy) (tr : Trace effects) (ok : Bool) (p' : Proxy) : Prop where
  tested   : ∀ a ∈ tried tr,
    (∃ s ∈ c.requested, s.proto = a.1) ∧ (p.expectedTypes = ∅ ∨ a.1 ∈ p.expectedTypes)
  retried  : ∀ t, Retried c.retry (outcomes tr t)
  types    : ∀ t level, p'.types t = some level ↔
    (∃ obs, (t, .ok (.working obs)) ∈ tried tr ∧ obs.level = level) ∧
    (c.strict = true → typeMatches c.requested true t level = true)
  caps     : p'.caps = ⟨(observed tr).any (·.caps.cookieEcho), (observed tr).any (·.caps.refererEcho)⟩
  trust    : ∀ s, s ∈ p'.trust ↔ ∃ obs ∈ observed tr, s ∈ obs.trust
  accepted : ok = true → p'.isWorking = true

structure Tallied (tr : Trace effects) (p' : Proxy) : Prop where
  requests : p'.requests.toNat = (tried tr).length
  errors   : p'.errors.sum = failed tr

structure Fresh (p : Proxy) : Prop where
  types    : p.types = fun _ => none
  requests : p.requests = 0
  errors   : p.errors = []
  caps     : p.caps = ⟨false, false⟩
  trust    : p.trust = []

theorem observation_eq_some {o : Outcome} {obs : Observation} : observation o = some obs ↔ o = .ok (.working obs) := by
  rcases o with e | o | - <;> simp [observation]

-- What the attempts of all protocols make of a fresh proxy.
theorem AllAttempts.types {r : RetryPolicy} {ts : List Proto} {any : Bool} (h : AllAttempts r ts any p tr ok p')
    (hp : p.types = fun _ => none) {level : Option AnonLevel} :
    p'.types t = some level ↔ ∃ obs, (t, .ok (.working obs)) ∈ tried tr ∧ obs.level = level := by
  have hr := (h.retried t).filterMap_observation
  have hm (obs : Observation) : (t, .ok (.working obs)) ∈ tried tr ↔
      ((outcomes tr t).getLast?.bind observation) = some obs := by
    rw [← mem_outcomes, ← Option.mem_toList, ← hr, List.mem_filterMap]
    constructor
    case mp => exact fun h => ⟨_, h, rfl⟩
    case mpr =>
      rintro ⟨o, ho, he⟩
      exact observation_eq_some.mp he ▸ ho
  simp only [hm]
  rw [h.eq_foldl, foldl_observe_types, hr, hp]
  cases (outcomes tr t).getLast?.bind observation <;> simp

theorem inDnsbl_runs {b : Bool} (h : (inDnsbl c).Runs tr (.ret b)) :
    tr = [] ∧ b = false ∨ tr = [⟨.listed, b⟩] := by
  unfold inDnsbl at h
  split_ifs at h
  case pos =>
    cases h
    case call tr r h =>
      obtain ⟨rfl, he⟩ := Runs.ret_inv h
      cases he
      exact .inr rfl
  case neg =>
    obtain ⟨rfl, he⟩ := Runs.ret_inv h
    cases he
    exact .inl ⟨rfl, rfl⟩

theorem AllAttempts.of_listed {r : RetryPolicy} {ts : List Proto} {any b : Bool} (h : AllAttempts r ts any p tr ok p') :
    AllAttempts r ts any p (⟨.listed, b⟩ :: tr) ok p' :=
  ⟨h.eq_foldl, h.only, h.retried, h.ok_iff⟩

theorem check_runs (h : (check c p).Runs tr (.ret (ok, p'))) (hl : ⟨.listed, true⟩ ∉ tr) :
    ∃ any q, AllAttempts c.retry (c.ngtrs p) false p tr any q ∧
      (ok, p') = if any then typesPassed c.requested c.strict q else (false, q) := by
  obtain ⟨b, tr₁, tr₂, rfl, h₁, h₂⟩ := Runs.of_bind_ret h
  have hb : b = false := by
    rcases inDnsbl_runs h₁ with ⟨-, rfl⟩ | rfl
    case inl => rfl
    case inr =>
      cases b
      case false => rfl
      case true  => exact absurd List.mem_cons_self hl
  subst hb
  obtain ⟨⟨any, q⟩, tr₃, tr₄, rfl, h₃, h₄⟩ := Runs.of_bind_ret (p := checkAll c (c.ngtrs p) false p) h₂
  obtain ⟨rfl, he⟩ := Runs.ret_inv h₄
  have ha := checkAll_runs ngtrs_nodup h₃
  rw [List.append_nil]
  refine ⟨any, q, ?_, (Prog.ret.inj he)⟩
  rcases inDnsbl_runs h₁ with ⟨rfl, -⟩ | rfl
  · exact ha
  · exact ha.of_listed

theorem mem_observed {obs : Observation} : obs ∈ observed tr ↔ ∃ t, (t, .ok (.working obs)) ∈ tried tr := by
  simp only [observed, List.mem_filterMap, observation_eq_some]
  constructor
  case mp =>
    rintro ⟨a, ha, he⟩
    exact ⟨a.1, he ▸ ha⟩
  case mpr =>
    rintro ⟨t, ht⟩
    exact ⟨_, ht, rfl⟩

-- If no attempt has been successful, then there is nothing to be removed.
theorem AllAttempts.snd_eq {ts : List Proto} {any : Bool} {q : Proxy} (h : AllAttempts c.retry ts false p tr any q)
    (hp : p.types = fun _ => none) (he : (ok, p') = if any then typesPassed c.requested c.strict q else (false, q)) :
    p' = { q with types := fun t => (q.types t).filter fun l => !c.strict || typeMatches c.requested c.strict t l } := by
  cases any
  case true  => exact (congrArg Prod.snd he).trans typesPassed_snd
  case false =>
    have hn (t : Proto) : q.types t = none := by
      refine Option.eq_none_iff_forall_ne_some.mpr fun level hl => ?_
      obtain ⟨obs, ho, -⟩ := (h.types hp).mp hl
      have := h.ok_iff.mpr (.inr (List.ne_nil_of_mem (mem_observed.mpr ⟨t, ho⟩)))
      contradiction
    have hq : p' = q := congrArg Prod.snd he
    rw [hq, types_filter_eq_self fun t l hl => by simp [hn] at hl]

theorem accepted_isWorking {any : Bool} {q : Proxy} (h : AllAttempts c.retry (c.ngtrs p) false p tr any q)
    (he : (ok, p') = if any then typesPassed c.requested c.strict q else (false, q)) (hk : ok = true) :
    p'.isWorking = true := by
  subst hk
  cases any
  case false => cases he
  case true =>
    obtain ⟨obs, ho⟩ := List.exists_mem_of_ne_nil _ ((h.ok_iff.mp rfl).resolve_left Bool.false_ne_true)
    obtain ⟨t, ht⟩ := mem_observed.mp ho
    have hr : c.requested ≠ [] := by
      rintro hr
      simpa [ngtrs_eq_nil hr] using h.only _ ht
    have hq : p' = (typesPassed c.requested c.strict q).2 := congrArg Prod.snd he
    rw [hq]
    exact typesPassed_isWorking hr (congrArg Prod.fst he).symm

-- Whatever the attempts end with, a check of a fresh proxy keeps correct books about them. The counters are correct
-- as long as they do not overflow.
theorem check_accounted (hp : Fresh p) (h : (check c p).Runs tr (.ret (ok, p'))) (hl : ⟨.listed, true⟩ ∉ tr) :
    Checked c p tr ok p' ∧ (Tallied tr p' ↔ (tried tr).length < 2 ^ 32) := by
  obtain ⟨any, q, ha, he⟩ := check_runs h hl
  obtain rfl := ha.snd_eq hp.types he
  refine ⟨⟨fun a h => mem_ngtrs.mp (ha.only a h), ha.retried, fun t level => ?types, ?caps, fun s => ?trust,
    accepted_isWorking ha he⟩, ?tallied⟩
  case types =>
    dsimp only
    rw [Option.filter_eq_some_iff, ha.types hp.types]
    cases c.strict <;> simp
  case caps =>
    dsimp only
    rw [ha.eq_foldl, foldl_observe_caps, hp.caps, Bool.false_or, Bool.false_or]
  case trust =>
    dsimp only
    rw [ha.eq_foldl, mem_foldl_observe_trust, hp.trust]
    simp
  case tallied =>
    constructor
    case mp  => exact fun ht => ht.requests ▸ UInt32.toNat_lt _
    case mpr =>
      intro hn
      have hr : (tr.foldl observe p).requests.toNat = _ := foldl_observe_requests (by simpa [hp.requests] using hn)
      have hs : (tr.foldl observe p).errors.sum = _ :=
        foldl_observe_errors (by simpa [hp.errors, ErrorCounts.sum] using hn)
      rw [← ha.eq_foldl] at hr hs
      exact ⟨by simpa [hp.requests] using hr, by simpa [hp.errors, ErrorCounts.sum] using hs⟩

def patient (maxTries : Nat) : Checker where
  requested := [⟨.http, none⟩]
  strict    := false
  dnsbl     := []
  mode      := .liveness
  retry     := ⟨maxTries, {.timeout}⟩

def unseen : Proxy := Proxy.new (.v4 10 0 0 1) 80 ∅

theorem unseen_fresh : Fresh unseen :=
  ⟨rfl, rfl, rfl, rfl, rfl⟩

def late : Trace effects :=
  [⟨.attempt .http 0, (.error .timeout, 0)⟩, ⟨.attempt .http 1, (.ok (.working ⟨some .high, ⟨true, false⟩, []⟩), 1)⟩]

theorem check_accounted_late :
    Checked (patient 3) unseen late true (late.foldl observe unseen) ∧
      (Tallied late (late.foldl observe unseen) ↔ (tried late).length < 2 ^ 32) :=
  check_accounted unseen_fresh (.call (.call .refl)) (by simp [late])

def timeouts : Nat → Nat → Trace effects
  | _, 0     => []
  | i, n + 1 => ⟨.attempt .http i, (.error .timeout, 0)⟩ :: timeouts (i + 1) n

theorem length_timeouts (i n : Nat) : (tried (timeouts i n)).length = n := by
  induction n generalizing i
  case zero      => rfl
  case succ n hi => rw [timeouts, tried_attempt, List.length_cons, hi]

theorem attempts_timeouts {i n m : Nat} (h : i + n = m) :
    (attempts ⟨m, {.timeout}⟩ .http n i p).Runs (timeouts i n) (.ret (false, (timeouts i n).foldl observe p)) := by
  induction n generalizing i p
  case zero      => exact .refl
  case succ n hi =>
    refine .call ?_
    change Runs (if ProxyError.timeout ∈ ({.timeout} : Finset ProxyError) ∧ i + 1 < m
      then attempts ⟨m, {.timeout}⟩ .http n (i + 1) (p.recordAttempt none (some .timeout))
      else .ret (false, p.recordAttempt none (some .timeout))) _ _
    split_ifs with hn
    case pos => exact hi (by omega)
    case neg =>
      obtain rfl : n = 0 := by simp at hn; omega
      exact .refl

theorem check_timeouts (n : Nat) :
    (check (patient n) unseen).Runs (timeouts 0 n) (.ret (false, (timeouts 0 n).foldl observe unseen)) := by
  have h := attempts_timeouts (p := unseen) (Nat.zero_add n)
  have h := h.bind_ret (f := fun a => checkAll (patient n) [] (false || a.1) a.2) .refl
  have h := h.bind_ret (f := fun a => .ret (if a.1 then typesPassed [⟨.http, none⟩] false a.2 else (false, a.2))) .refl
  rwa [List.append_nil, List.append_nil] at h

-- The counter of the requests is a `u32`, but the number of the attempts is only bounded by a `usize`.
theorem requests_overflow :
    (check (patient (2 ^ 32)) unseen).Runs (timeouts 0 (2 ^ 32))
      (.ret (false, (timeouts 0 (2 ^ 32)).foldl observe unseen)) ∧
    ¬Tallied (timeouts 0 (2 ^ 32)) ((timeouts 0 (2 ^ 32)).foldl observe unseen) := by
  refine ⟨check_timeouts _, fun h => ?_⟩
  have hr := h.requests
  rw [length_timeouts] at hr
  exact absurd (hr ▸ UInt32.toNat_lt _) (lt_irrefl _)

end Checker.Network
