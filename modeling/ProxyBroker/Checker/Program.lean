import ProxyBroker.Checker
import ProxyBroker.Resumption.Total

namespace Checker.Network

-- What a check asks of the network: whether a blocklist lists the proxy, and for one more attempt at a protocol, of
-- which there have been some before.
inductive Op
  | listed
  | attempt (t : Proto) (i : Nat)

abbrev effects : Signature where
  Op := Op
  Ret
    | .listed     => Bool
    | .attempt .. => Except ProxyError Attempt × ℚ

open Prog

def listed : Prog effects Bool :=
  perform (S := effects) .listed

def attempt (t : Proto) (i : Nat) : Prog effects (Except ProxyError Attempt × ℚ) :=
  perform (S := effects) (.attempt t i)

def attempts (r : RetryPolicy) (t : Proto) : Nat → Nat → Proxy → Prog effects (Bool × Proxy)
  | 0, _, p         => pure (false, p)
  | tries + 1, i, p => do
    match ← attempt t i with
    | (.ok (.working obs), rtt) =>
      let p := (p.recordAttempt (some rtt) none).recordProbeLatency rtt
      pure (true, (p.addType t obs.level).recordCaps obs.caps |>.recordTrust obs.trust)
    | (.ok .invalid, _) => pure (false, p.recordAttempt none (some .badResponse))
    | (.error e, _)     =>
      let p := p.recordAttempt none (some e)
      if e ∈ r.retryOn ∧ i + 1 < r.maxTries then attempts r t tries (i + 1) p else pure (false, p)

variable (c : Checker)

def checkOne (p : Proxy) (t : Proto) : Prog effects (Bool × Proxy) :=
  if c.hasProbe t then attempts c.retry t c.retry.maxTries 0 p else pure (false, p)

def checkAll : List Proto → Bool → Proxy → Prog effects (Bool × Proxy)
  | [], any, p      => pure (any, p)
  | t :: ts, any, p => do
    let (ok, p) ← checkOne c p t
    checkAll ts (any || ok) p

def inDnsbl : Prog effects Bool :=
  if c.dnsbl ≠ [] then listed else pure false

def check (p : Proxy) : Prog effects (Bool × Proxy) := do
  if ← inDnsbl c then pure (false, p)
  else
    let (any, p) ← checkAll c (c.ngtrs p) false p
    pure (if any then typesPassed c.requested c.strict p else (false, p))

-- A network whose answers are known in advance.
def machine (w : Answers) : Machine effects Unit where
  answers
    | _, ⟨.listed, r⟩, _      => r = w.listed
    | _, ⟨.attempt t i, r⟩, _ => r = (w.attempt t i, w.rtt t i)

variable {c} {w : Answers} {p : Proxy}

theorem attempt_total {α : Type} {t : Proto} {i : Nat} {k : Except ProxyError Attempt × ℚ → Prog effects α}
    {post : α → Unit → Prop} :
    (machine w).Total (.call (.attempt t i) k) post () ↔ (machine w).Total (k (w.attempt t i, w.rtt t i)) post () :=
  ⟨fun h => h.right _ () rfl, fun h => ⟨⟨_, (), rfl⟩, fun _ _ ha => by cases ha; exact h⟩⟩

theorem listed_total {post : Bool → Unit → Prop} :
    (machine w).Total listed post () ↔ post w.listed () :=
  ⟨fun h => h.right _ () rfl, fun h => ⟨⟨_, (), rfl⟩, fun _ _ ha => by cases ha; exact h⟩⟩

theorem attempts_total (r : RetryPolicy) (t : Proto) (tries i : Nat) :
    (machine w).Total (attempts r t tries i p) (fun a _ => a = Checker.attempts r w t tries i p) () := by
  induction tries generalizing i p
  case zero => exact rfl
  case succ hi =>
    refine attempt_total.mpr ?_
    unfold Checker.attempts
    rcases w.attempt t i with e | obs | -
    case error =>
      change (machine w).Total (if e ∈ r.retryOn ∧ i + 1 < r.maxTries
        then attempts r t _ (i + 1) (p.recordAttempt none (some e))
        else pure (false, p.recordAttempt none (some e))) _ ()
      dsimp only
      split_ifs
      · exact hi _
      · exact rfl
    case ok.working => exact rfl
    case ok.invalid => exact rfl

theorem checkOne_total (t : Proto) :
    (machine w).Total (checkOne c p t) (fun a _ => a = c.checkOne w p t) () := by
  unfold checkOne Checker.checkOne
  split_ifs
  · exact attempts_total ..
  · exact rfl

theorem checkAll_total (ts : List Proto) (any : Bool) :
    (machine w).Total (checkAll c ts any p) (fun a _ => a = ts.foldl (fun s t =>
      (s.1 || (c.checkOne w s.2 t).1, (c.checkOne w s.2 t).2)) (any, p)) () := by
  induction ts generalizing any p
  case nil => exact rfl
  case cons t ts hi =>
    refine (Machine.total_bind ..).mpr <| (checkOne_total t).mono fun a _ ha => ?_
    subst ha
    exact hi _

-- Against known answers, the program computes the result of a check.
theorem check_total : (machine w).Total (check c p) (fun a _ => a = c.check w p) () := by
  have hd : (machine w).Total (inDnsbl c) (fun b _ => b = (decide (c.dnsbl ≠ []) && w.listed)) () := by
    unfold inDnsbl
    split_ifs with h
    · exact listed_total.mpr (by simp [h])
    · simp [h]
  refine (Machine.total_bind ..).mpr <| hd.mono fun b _ hb => ?_
  subst hb
  unfold Checker.check
  by_cases hl : c.dnsbl ≠ [] ∧ w.listed
  case pos =>
    rw [if_pos hl, if_pos (by simpa using hl)]
    exact rfl
  case neg =>
    rw [if_neg hl, if_neg (by simpa using hl)]
    refine (Machine.total_bind ..).mpr <| (checkAll_total _ _).mono fun a _ ha => ?_
    subst ha
    exact rfl

end Checker.Network
