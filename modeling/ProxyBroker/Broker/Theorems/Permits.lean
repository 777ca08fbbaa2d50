import ProxyBroker.Broker.Theorems.Stages

namespace CheckStream

open Nursery

-- The dispatcher takes the proxies of the source in order, and spawns a task for each of them.
def Dispatch.Spawned (c : Params) (n : Nat) : Dispatch → Prop
  | creating                                                  => n = 0
  | looking i                                                 => i = n
  | testing i p | counting i p | acquiring i p | spawning i p => i = n ∧ c.source[i]? = some p
  | draining | ended                                          => True

-- The permits that the dispatcher has acquired but has not moved into a task yet.
def Dispatch.held : Dispatch → Nat
  | spawning .. => 1
  | _           => 0

-- The permits that the semaphore has been created with.
def Dispatch.created (c : Params) : Dispatch → Nat
  | creating => 0
  | _        => c.maxConn

def Dispatch.IsDone : Dispatch → Prop
  | draining | ended => True
  | _                => False

def Stage.isBusy : Stage → Bool
  | finished => false
  | _    => true

-- The tasks that have not completed yet are those that the tracker counts and those that hold permits. The
-- dispatcher only stops early if it is told to.
structure Tidy (c : Params) (x : Config State Dispatch Stage) : Prop where
  le      : x.tasks.length ≤ c.source.length
  spawned : x.main.Spawned c x.tasks.length
  running : x.shared.running = x.tasks.countP Stage.isBusy
  permits : x.shared.permits + x.shared.running + x.main.held = x.main.created c
  stopped : x.main.IsDone → x.tasks.length = c.source.length ∨ x.shared.cancelled ∨ c.Reached x.shared.sent
  ended   : x.main = .ended → x.shared.running = 0

-- The flags of a state are never reset, and its counter never decreases.
structure State.Grows (s s' : State) : Prop where
  cancelled : s.cancelled → s'.cancelled
  closed    : s.closed → s'.closed
  sent      : s.sent ≤ s'.sent

variable {c : Params} {s s' : State} {u u' : Dispatch} {v v' : Stage} {vs : List Stage} {i : Nat} {e : Event Ops}
variable {log : Log Ops} {x y : Config State Dispatch Stage}

theorem Answers.grows (h : Answers c s e s') : s.Grows s' := by
  cases h
  case fetchAdd h => exact ⟨id, id, by simp [h]⟩
  case cancel     => exact ⟨fun _ => rfl, id, Nat.le_refl _⟩
  all_goals exact ⟨id, id, Nat.le_refl _⟩

theorem Consumer.grows (h : Consumer s s') : s.Grows s' := by
  cases h
  case receive => exact ⟨id, id, Nat.le_refl _⟩
  case drop    => exact ⟨id, fun _ => rfl, Nat.le_refl _⟩
  case cancel  => exact ⟨fun _ => rfl, id, Nat.le_refl _⟩

theorem Params.Reached.mono {n m : Nat} (h : c.Reached n) (hn : n ≤ m) : c.Reached m := by
  obtain ⟨l, hl, h⟩ := h
  exact ⟨l, hl, Nat.le_trans h hn⟩

theorem Stage.Moves.isBusy (h : Stage.Moves c v e v') : v.isBusy := by
  cases h <;> rfl

theorem countP_set {p : Stage → Bool} (h : vs[i]? = some v) (hv : p v) (v' : Stage) :
    vs.countP p = (vs.set i v').countP p + if p v' then 0 else 1 := by
  obtain ⟨hi, rfl⟩ := List.getElem?_eq_some_iff.mp h
  rw [List.countP_set hi]
  have := List.countP_pos_iff.mpr ⟨_, List.getElem_mem hi, hv⟩
  split_ifs <;> omega

theorem Tidy.first : Tidy c firstStage where
  le      := Nat.zero_le _
  spawned := rfl
  running := rfl
  permits := rfl
  stopped := nofun
  ended   := nofun

-- The dispatcher makes progress without touching permits or tasks.
theorem Tidy.advance (h : Tidy c ⟨s, u, vs⟩) (u' : Dispatch) (hs : u'.Spawned c vs.length) (hh : u'.held = u.held)
    (hp : u'.created c = u.created c)
    (hd : u'.IsDone → vs.length = c.source.length ∨ s.cancelled ∨ c.Reached s.sent)
    (he : u' = .ended → s.running = 0) : Tidy c ⟨s, u', vs⟩ where
  le      := h.le
  spawned := hs
  running := h.running
  permits := by rw [hh, hp]; exact h.permits
  stopped := hd
  ended   := he

theorem Tidy.main (h : Tidy c ⟨s, u, vs⟩) (hm : Dispatch.Moves c u e u') (ha : Answers c s e s') :
    Tidy c ⟨s', u', vs ++ (Stage.started e.op).toList⟩ := by
  have hs : u.Spawned c vs.length := h.spawned
  have hv : vs ++ [] = vs := List.append_nil vs
  cases hm
  case created =>
    cases ha
    have hr : s.running = vs.countP Stage.isBusy := h.running
    have hp : s.permits + s.running + 0 = 0 := h.permits
    have hp : c.maxConn + s.running + 0 = c.maxConn := by omega
    exact hv.symm ▸ ⟨h.le, hs.symm, hr, hp, nofun, nofun⟩
  case exhausted hi =>
    cases ha
    cases hs
    have hl := Nat.le_antisymm h.le hi
    exact hv.symm ▸ h.advance .draining trivial rfl rfl (fun _ => .inl hl) nofun
  case candidate i p hp =>
    cases ha
    exact hv.symm ▸ h.advance (.testing i p) ⟨hs, hp⟩ rfl rfl nofun nofun
  case cancelled =>
    cases ha
    case isCancelled hc => exact hv.symm ▸ h.advance .draining trivial rfl rfl (fun _ => .inr (.inl hc)) nofun
  case limited i p _ =>
    cases ha
    exact hv.symm ▸ h.advance (.counting i p) hs rfl rfl nofun nofun
  case unlimited i p _ | unreached i _ p _ =>
    cases ha
    exact hv.symm ▸ h.advance (.acquiring i p) hs rfl rfl nofun nofun
  case reached hr =>
    cases ha
    case loadSent hn => exact hv.symm ▸ h.advance .draining trivial rfl rfl (fun _ => .inr (.inr (hn ▸ hr))) nofun
  case drained =>
    cases ha
    case wait hw => exact hv.symm ▸ h.advance .ended trivial rfl rfl (fun _ => h.stopped trivial) (fun _ => hw)
  case acquired =>
    cases ha
    case acquire n hn =>
      have hp : s.permits + s.running + 0 = c.maxConn := h.permits
      have hp : n + s.running + 1 = c.maxConn := by omega
      exact hv.symm ▸ ⟨h.le, hs, h.running, hp, nofun, nofun⟩
  case spawned i p =>
    cases ha
    obtain ⟨hi, hp⟩ := hs
    have hr : s.running = vs.countP Stage.isBusy := h.running
    have hn : s.permits + s.running + 1 = c.maxConn := h.permits
    have hl := (List.getElem?_eq_some_iff.mp hp).1
    refine ⟨?_, ?_, ?_, ?_, nofun, nofun⟩
    · simpa [Stage.started, ← hi, Nat.succ_le_iff] using hl
    · simp [Stage.started, Dispatch.Spawned, hi]
    · simpa [Stage.started, Stage.isBusy] using hr
    · simp only [Dispatch.held, Dispatch.created]
      omega

-- A task only counts as running until it releases its permit.
theorem Stage.Moves.running (hm : Stage.Moves c v e v') (ha : Answers c s e s') (hr : 0 < s.running) :
    s'.running + (if v'.isBusy then 0 else 1) = s.running ∧ s'.permits + s'.running = s.permits + s.running := by
  cases hm
  case dismissed | more | left =>
    cases ha
    exact ⟨Nat.sub_add_cancel hr, by dsimp only; omega⟩
  all_goals
    cases ha <;> exact ⟨rfl, rfl⟩

theorem Tidy.task (h : Tidy c ⟨s, u, vs⟩) (hv : vs[i]? = some v) (hm : Stage.Moves c v e v')
    (ha : Answers c s e s') : Tidy c ⟨s', u, vs.set i v'⟩ := by
  have hr : s.running = vs.countP Stage.isBusy := h.running
  have hn : s.permits + s.running + u.held = u.created c := h.permits
  have hp : 0 < s.running := hr ▸ List.countP_pos_iff.mpr ⟨v, List.mem_of_getElem? hv, hm.isBusy⟩
  have hb := countP_set hv hm.isBusy v'
  have hg := ha.grows
  obtain ⟨hr', hp'⟩ := hm.running ha hp
  refine ⟨by simpa using h.le, by simpa using h.spawned, ?_, ?_, ?_, ?_⟩
  · exact Nat.add_right_cancel (hr'.trans (hr.trans hb))
  · rwa [hp']
  · intro hu
    simpa using (h.stopped hu).imp_right (Or.imp hg.cancelled (·.mono hg.sent))
  · intro hu
    exact absurd (h.ended hu) (Nat.ne_of_gt hp)

theorem Tidy.consumer (h : Tidy c ⟨s, u, vs⟩) (hc : Consumer s s') : Tidy c ⟨s', u, vs⟩ := by
  have hg := hc.grows
  have hs (hu : u.IsDone) := (h.stopped hu).imp_right (Or.imp hg.cancelled (·.mono hg.sent))
  cases hc <;> exact ⟨h.le, h.spawned, h.running, h.permits, hs, h.ended⟩

theorem Staged.tidy (h : Staged c log x) : Tidy c x := by
  induction h
  case refl => exact .first
  case step hr hs hi =>
    cases hs
    case main hm ha    => exact hi.main hm ha
    case task hv hm ha => exact hi.task hv hm ha
    case outside hc    => exact hi.consumer hc

-- No task is left when the dispatcher has ended.
theorem Tidy.finished (h : Tidy c x) (hx : x.main = .ended) : ∀ v ∈ x.tasks, v = .finished := by
  intro v hv
  have hr := (h.running.symm.trans (h.ended hx))
  have hb := List.countP_eq_zero.mp hr v hv
  cases v
  case finished => rfl
  all_goals simp [Stage.isBusy] at hb

end CheckStream
