import ProxyBroker.Broker.CheckStream

namespace CheckStream

open Nursery

-- How far the dispatcher has come: the `i`-th proxy of the source is the next one to be taken, or it was
-- the last one that was taken.
inductive Dispatch
  | creating
  | looking (i : Nat)
  | testing (i : Nat) (p : Proxy)
  | counting (i : Nat) (p : Proxy)
  | acquiring (i : Nat) (p : Proxy)
  | spawning (i : Nat) (p : Proxy)
  | draining
  | ended

-- How far the check of a proxy has come. A check that has reserved a slot knows its number.
inductive Stage
  | checking (i : Nat) (p : Proxy)
  | checked (working : Bool) (p : Proxy)
  | recorded (working : Bool) (p : Proxy)
  | observed (working : Bool) (p : Proxy)
  | reserved (n : Nat) (p : Proxy)
  | sent (n : Nat) (p : Proxy)
  | leaving
  | finished

namespace Params

variable (c : Params)

def Reached (n : Nat) : Prop :=
  ∃ l, c.limit = some l ∧ l ≤ n

def Emits (working : Bool) (p : Proxy) : Prop :=
  working = true ∧ c.caps.passes p = true

end Params

inductive Dispatch.Moves (c : Params) : Dispatch → Event Ops → Dispatch → Prop
  | created : Moves c creating ⟨.semaphore c.maxConn, ()⟩ (looking 0)
  | exhausted {i : Nat} : c.source.length ≤ i → Moves c (looking i) ⟨.next, ()⟩ draining
  | candidate {i : Nat} {p : Proxy} : c.source[i]? = some p → Moves c (looking i) ⟨.next, ()⟩ (testing i p)
  | cancelled {i : Nat} {p : Proxy} : Moves c (testing i p) ⟨.isCancelled, true⟩ draining
  | unlimited {i : Nat} {p : Proxy} :
    c.limit = none → Moves c (testing i p) ⟨.isCancelled, false⟩ (acquiring i p)
  | limited {i : Nat} {p : Proxy} :
    c.limit ≠ none → Moves c (testing i p) ⟨.isCancelled, false⟩ (counting i p)
  | reached {i n : Nat} {p : Proxy} : c.Reached n → Moves c (counting i p) ⟨.loadSent, n⟩ draining
  | unreached {i n : Nat} {p : Proxy} : ¬c.Reached n → Moves c (counting i p) ⟨.loadSent, n⟩ (acquiring i p)
  | acquired {i : Nat} {p : Proxy} : Moves c (acquiring i p) ⟨.acquire, ()⟩ (spawning i p)
  | spawned {i : Nat} {p : Proxy} : Moves c (spawning i p) ⟨.spawn i p, ()⟩ (looking (i + 1))
  | drained : Moves c draining ⟨.wait, ()⟩ ended

inductive Stage.Moves (c : Params) : Stage → Event Ops → Stage → Prop
  | aborted {i : Nat} {p : Proxy} : Moves c (checking i p) ⟨.check i p, none⟩ leaving
  | checked {i : Nat} {p q : Proxy} {w : Bool} :
    Moves c (checking i p) ⟨.check i p, some (w, q)⟩ (checked w q)
  | recorded {p : Proxy} {w : Bool} : c.onChecked → Moves c (checked w p) ⟨.record p, ()⟩ (recorded w p)
  | unobserved {p : Proxy} {w : Bool} :
    c.onChecked = false → Moves c (checked w p) ⟨.record p, ()⟩ (observed w p)
  | observed {p : Proxy} {w : Bool} : c.onChecked → Moves c (recorded w p) ⟨.observe p, ()⟩ (observed w p)
  | dismissed {p : Proxy} {w : Bool} : ¬c.Emits w p → Moves c (observed w p) ⟨.release, ()⟩ finished
  | reserved {p : Proxy} {w : Bool} {n : Nat} :
    c.Emits w p → Moves c (observed w p) ⟨.fetchAdd, n⟩ (reserved n p)
  | surplus {p : Proxy} {n : Nat} : c.Reached n → Moves c (reserved n p) ⟨.cancel, ()⟩ leaving
  | sent {p : Proxy} {n : Nat} {b : Bool} : ¬c.Reached n → Moves c (reserved n p) ⟨.send p, b⟩ (sent n p)
  | last {p : Proxy} {n : Nat} : c.Reached (n + 1) → Moves c (sent n p) ⟨.cancel, ()⟩ leaving
  | more {p : Proxy} {n : Nat} : ¬c.Reached (n + 1) → Moves c (sent n p) ⟨.release, ()⟩ finished
  | left : Moves c leaving ⟨.release, ()⟩ finished

def Stage.started : Op → Option Stage
  | .spawn i p => checking i p
  | _          => none

def firstStage : Nursery.Config State Dispatch Stage where
  shared := .initial
  main   := .creating
  tasks  := []

variable (c : Params)

def stages : Nursery Ops State Dispatch Stage where
  machine := ⟨Answers c⟩
  main    := Dispatch.Moves c
  task    := Stage.Moves c
  starts  := Stage.started
  outside := Consumer

-- A run of the pipeline that only tells how far everyone has come.
abbrev Staged :=
  (stages c).Run firstStage

abbrev DispatchFollows (p : Prog Ops Unit) (u : Dispatch) : Prop :=
  p.Follows (Dispatch.Moves c) (· = .ended) u

abbrev CheckFollows (p : Prog Ops Unit) (v : Stage) : Prop :=
  p.Follows (Stage.Moves c) (· = .finished) v

variable {c}

theorem reached_iff (n : Nat) : c.limit.any (· ≤ n) = true ↔ c.Reached n := by
  simp [Params.Reached, Option.any_eq_true]

section

variable {V : Type} {moves : V → Event Ops → V → Prop} {final : V → Prop} {v w : V} {o : Op}

theorem follows_perform {f : o.Ret → Prog Ops Unit} (hn : ¬final v)
    (h : ∀ r, ∃ w, moves v ⟨o, r⟩ w ∧ (f r).Follows moves final w) :
    (perform o >>= f).Follows moves final v :=
  ⟨hn, h⟩

theorem follows_exec {q : Prog Ops Unit} (hn : ¬final v) (h : ∀ r, moves v ⟨o, r⟩ w)
    (hq : q.Follows moves final w) : (exec o >>= fun _ => q).Follows moves final v :=
  ⟨hn, fun r => ⟨w, h r, hq⟩⟩

theorem follows_last (hn : ¬final v) (h : ∀ r, moves v ⟨o, r⟩ w) (hw : final w) :
    (exec o).Follows moves final v :=
  ⟨hn, fun r => ⟨w, h r, hw⟩⟩

end

-- The part of a check that follows its report.
theorem emit_follows (w : Bool) (p : Proxy) :
    CheckFollows c
      (do
        if w && c.caps.passes p then
          let n : Nat ← perform .fetchAdd
          if c.limit.any (· ≤ n) then exec .cancel
          else
            exec (.send p)
            if c.limit.any (· ≤ n + 1) then exec .cancel
        exec .release)
      (.observed w p) := by
  have release : CheckFollows c (exec .release) .leaving := follows_last nofun (fun _ => .left) rfl
  by_cases he : c.Emits w p
  · rw [if_pos (by simpa [Params.Emits] using he)]
    refine follows_perform nofun fun (n : Nat) => ⟨_, .reserved he, ?_⟩
    by_cases hn : c.Reached n
    · rw [if_pos ((reached_iff n).mpr hn)]
      exact follows_exec nofun (fun _ => .surplus hn) release
    · rw [if_neg (mt (reached_iff n).mp hn)]
      refine follows_exec nofun (fun _ => .sent hn) ?_
      by_cases hl : c.Reached (n + 1)
      · rw [if_pos ((reached_iff _).mpr hl)]
        exact follows_exec nofun (fun _ => .last hl) release
      · rw [if_neg (mt (reached_iff _).mp hl)]
        exact follows_last nofun (fun _ => .more hl) rfl
  · rw [if_neg (by simpa [Params.Emits] using he)]
    exact follows_last nofun (fun _ => .dismissed he) rfl

theorem check_follows (i : Nat) (p : Proxy) : CheckFollows c (check c i p) (.checking i p) := by
  refine follows_perform nofun ?_
  rintro (_ | ⟨w, q⟩)
  · exact ⟨_, .aborted, follows_last nofun (fun _ => .left) rfl⟩
  · refine ⟨_, .checked, ?_⟩
    by_cases ho : c.onChecked
    · refine follows_exec nofun (fun _ => .recorded ho) ?_
      rw [if_pos ho]
      exact follows_exec nofun (fun _ => .observed ho) (emit_follows w q)
    · refine follows_exec nofun (fun _ => .unobserved (by simpa using ho)) ?_
      rw [if_neg ho]
      exact emit_follows w q

theorem isLimitReached_follows {i : Nat} {p : Proxy} {f : Bool → Prog Ops Unit}
    (ht : DispatchFollows c (f true) .draining) (hf : DispatchFollows c (f false) (.acquiring i p)) :
    ∃ u, Dispatch.Moves c (.testing i p) ⟨.isCancelled, false⟩ u ∧
      DispatchFollows c (isLimitReached c >>= f) u := by
  unfold isLimitReached
  cases hl : c.limit
  case none => exact ⟨_, .unlimited hl, hf⟩
  case some l =>
    refine ⟨_, .limited (by simp [hl]), nofun, fun (n : Nat) => ?_⟩
    by_cases hn : l ≤ n
    · have : DispatchFollows c (f (decide (l ≤ n))) .draining := by rwa [decide_eq_true hn]
      exact ⟨_, .reached ⟨l, hl, hn⟩, this⟩
    · have : DispatchFollows c (f (decide (l ≤ n))) (.acquiring i p) := by rwa [decide_eq_false hn]
      exact ⟨_, .unreached (by simpa [Params.Reached, hl] using hn), this⟩

theorem dispatch_follows (i : Nat) (source : List Proxy) (h : c.source.drop i = source) :
    DispatchFollows c (dispatch c i source) (.looking i) := by
  have wait : DispatchFollows c (exec .wait) .draining := follows_last nofun (fun _ => .drained) rfl
  induction source generalizing i
  case nil => exact follows_exec nofun (fun _ => .exhausted (List.drop_eq_nil_iff.mp h)) wait
  case cons p source hi =>
    have hp : c.source[i]? = some p := by
      rw [← List.head?_drop, h]
      rfl
    have hs : c.source.drop (i + 1) = source := by
      rw [← List.tail_drop, h]
      rfl
    have spawn : DispatchFollows c (exec .acquire >>= fun _ => exec (.spawn i p) >>= fun _ =>
        dispatch c (i + 1) source) (.acquiring i p) :=
      follows_exec nofun (fun _ => .acquired) (follows_exec nofun (fun _ => .spawned) (hi (i + 1) hs))
    refine follows_exec nofun (fun _ => .candidate hp) (follows_perform nofun ?_)
    rintro (_ | _)
    · exact isLimitReached_follows wait spawn
    · exact ⟨_, .cancelled, wait⟩

theorem checkStream_follows : DispatchFollows c (checkStream c) .creating :=
  follows_exec nofun (fun _ => .created) (dispatch_follows 0 c.source rfl)

variable (c) in
theorem simulation : Simulation (nursery c) (stages c) (DispatchFollows c) (CheckFollows c) where
  machine := rfl
  outside := rfl
  task _ _ _ _ h hp := h.performs hp
  main _ _ e _ h hp := by
    refine ⟨?_, h.performs hp⟩
    obtain ⟨o, r⟩ := e
    cases o
    case spawn i p => exact .some (check_follows i p)
    all_goals exact .none

-- Every run of the pipeline is also a run of its stages.
theorem Run.staged {log : Log Ops} {x : Config State (Prog Ops Unit) (Prog Ops Unit)} (h : Run c log x) :
    ∃ y, Staged c log y ∧ Related (DispatchFollows c) (CheckFollows c) x y :=
  (simulation c).run h ⟨rfl, checkStream_follows, .nil⟩

end CheckStream
