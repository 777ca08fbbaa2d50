import ProxyBroker.Pool.Theorems.Uses

open Prog Pool

namespace Op

def Pins : Op → Prop
  | pool (.recordSession ..) => True
  | _                        => False

end Op

-- The session that was recorded last.
def Event.session (l : Option (ClientKey × Key)) : Event Effects → Option (ClientKey × Key)
  | ⟨.pool (.recordSession k a), _⟩ => some (k, a)
  | _                               => l

def Trace.lastSession (tr : Trace Effects) : Option (ClientKey × Key) :=
  tr.foldl Event.session none

namespace Pool

variable {c : Config} {scheme : Scheme} {key : ClientKey} {l : Option (ClientKey × Key)} {tr : Trace Effects}

def sessions : Monitor Effects (Option (ClientKey × Key)) where
  demand _ _ := True
  next       := Event.session

theorem sessions_after : sessions.after l tr = tr.foldl Event.session l := by
  induction tr generalizing l
  case nil       => rfl
  case cons e hi => exact hi

-- The client has been pinned to what it is served with.
def Pinned (key : ClientKey) (r : Option Proxy) (l : Option (ClientKey × Key)) : Prop :=
  ∀ p, r = some p → l = some (key, p.key)

theorem unpinned_of_uses {α : Type} {p : Async α} (h : p.Uses fun o => ¬Op.Pins o) :
    Sat sessions p (fun _ l' => l' = l) l := by
  refine h.sat (fun _ _ _ _ => trivial) (fun l' o r hn h => ?_) rfl
  cases o
  case pool o =>
    cases o
    case recordSession => exact absurd trivial hn
    all_goals exact h
  all_goals exact h

theorem trySelect_pins (hs : c.strategy = .sticky) :
    Sat sessions (trySelect c scheme key) (Pinned key) l := by
  unfold trySelect pinned
  rw [if_pos hs]
  simp only [sat_bind]
  refine ⟨trivial, fun pin => ⟨trivial, fun cursor => ⟨trivial, fun now => ⟨trivial, fun r => ?_⟩⟩⟩⟩
  rcases r with _ | chosen
  · rintro _ ⟨⟩
  · simp only [Async.when, hs, reduceCtorEq, if_false, if_true]
    refine ⟨trivial, fun _ => ?_⟩
    rintro _ ⟨⟩
    rfl

theorem getLoop_pins (hs : c.strategy = .sticky) (fuel attempts : Nat) :
    Sat sessions (getLoop c scheme key fuel attempts) (Pinned key) l := by
  induction fuel generalizing attempts l
  case zero => exact (Async.sat_never _).mpr trivial
  case succ hi =>
    unfold getLoop
    simp only [sat_bind]
    refine ⟨trivial, fun _ => (trySelect_pins hs).mono fun r l hr => ?_⟩
    rcases r with _ | proxy
    case none =>
      simp only [sat_bind]
      refine ⟨trivial, fun exhausted => ?_⟩
      cases exhausted
      case false => exact ⟨trivial, fun _ => hi _⟩
      case true  => exact trySelect_pins hs
    case some =>
      have hv : (verifyLive c proxy).Uses fun o => ¬Op.Pins o := by
        refine Negotiator.probeTunnel_uses_of _ _ _ id fun o ho => ?_
        cases o
        case net => exact id
        all_goals exact (ho : False).elim
      have hf : (putFailed c proxy).Uses fun o => ¬Op.Pins o := by
        refine (putFailed_handback ..).mono fun o ho => ?_
        cases o
        case pool o =>
          cases o
          case recordSession => exact (ho : False).elim
          all_goals exact id
        all_goals exact id
      dsimp only
      by_cases hl : c.verifyOnLease.isSome = true
      case neg =>
        rw [if_neg hl]
        exact hr
      case pos =>
        rw [if_pos hl]
        simp only [sat_bind]
        refine (unpinned_of_uses hv).mono fun live _ he => ?_
        obtain rfl := he
        cases live
        case true => exact hr
        case false =>
          simp only [Bool.false_eq_true, if_false, sat_bind]
          refine (unpinned_of_uses hf).mono fun _ _ _ => ?_
          by_cases ha : verifyMaxAttempts ≤ attempts + 1
          · rw [if_pos ha]
            rintro _ ⟨⟩
          · rw [if_neg ha]
            exact hi _

-- Under the sticky strategy, a client is pinned to what it is served with, and to nothing else afterwards.
theorem get_pins (hs : c.strategy = .sticky) {fuel : Nat} {p : Proxy}
    (h : (get c fuel scheme key).Runs tr (.ret (some p))) : tr.lastSession = some (key, p.key) := by
  have := (getLoop_pins (l := none) hs fuel 0).result h p rfl
  rwa [sessions_after] at this

end Pool
