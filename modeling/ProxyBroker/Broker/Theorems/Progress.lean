import ProxyBroker.Broker.Theorems.Emission

namespace CheckStream

open Nursery

variable (c : Params)

-- The dispatcher or some task can do something.
def CanStep (x : Config State (Prog Ops Unit) (Prog Ops Unit)) : Prop :=
  ∃ e y, (nursery c).Step x (some e) y

-- The dispatcher has returned, or it has panicked.
def IsOver (x : Config State (Prog Ops Unit) (Prog Ops Unit)) : Prop :=
  x.main = .ret () ∨ ∃ k, x.main = .call (S := Ops) (.semaphore c.maxConn) k ∧ maxPermits < c.maxConn

-- Somebody can do something, or somebody waits for room in the channel and can go on with whatever the
-- consumer does next.
def CanProceed (x : Config State (Prog Ops Unit) (Prog Ops Unit)) : Prop :=
  CanStep c x ∨ x.shared.queue ≠ [] ∧ ∀ s, Consumer x.shared s → CanStep c { x with shared := s }

variable {c} {s s' : State} {u u' : Dispatch} {v v' : Stage} {i : Nat} {o : Op} {r : o.Ret} {e : Event Ops}
variable {log : Log Ops} {x : Config State (Prog Ops Unit) (Prog Ops Unit)} {z : Config State Dispatch Stage}

theorem Op.nonempty_ret (o : Op) : Nonempty o.Ret := by
  cases o <;> exact ⟨by first | exact () | exact false | exact (0 : Nat) | exact (none : Option (Bool × Proxy))⟩

-- A program that has not returned issues an operation that the automaton knows.
theorem exists_move {V : Type} {moves : V → Event Ops → V → Prop} {final : V → Prop} {v : V} {p : Prog Ops Unit}
    (h : p.Follows moves final v) (hv : ¬final v) :
    ∃ o k r w, p = .call (S := Ops) o k ∧ moves v ⟨o, r⟩ w := by
  cases p
  case ret    => exact absurd h hv
  case call o k =>
    obtain ⟨r⟩ := Op.nonempty_ret o
    obtain ⟨w, hw, _⟩ := h.right r
    exact ⟨o, k, r, w, rfl, hw⟩

-- Only a task that sends can be made to wait.
theorem Stage.Moves.answered (h : Stage.Moves c v ⟨o, r⟩ v') (s : State) :
    (∃ r' s', Answers c s ⟨o, r'⟩ s') ∨ ∃ q, o = .send q := by
  cases h
  case aborted | checked => exact .inl ⟨_, _, .checked rfl⟩
  case recorded | unobserved => exact .inl ⟨_, _, .record⟩
  case observed => exact .inl ⟨_, _, .observe⟩
  case dismissed | more | left => exact .inl ⟨_, _, .release⟩
  case reserved => exact .inl ⟨_, _, .fetchAdd rfl⟩
  case surplus | last => exact .inl ⟨_, _, .cancel⟩
  case sent q _ _ _ => exact .inr ⟨_, rfl⟩

theorem canStep_task {k : o.Ret → Prog Ops Unit} (hi : x.tasks[i]? = some (.call (S := Ops) o k))
    (ha : Answers c x.shared ⟨o, r⟩ s') : CanStep c x :=
  ⟨_, _, .task hi .call ha⟩

theorem canStep_main {k : o.Ret → Prog Ops Unit} (hm : x.main = .call (S := Ops) o k)
    (ha : Answers c x.shared ⟨o, r⟩ s') : CanStep c x := by
  obtain ⟨s, u, ts⟩ := x
  cases hm
  exact ⟨_, _, .main .call ha⟩

-- The channel never holds more than it can.
theorem Run.queue_le (h : Run c log x) : x.shared.queue.length ≤ channelCapacity := by
  have answers {s s' : State} {e : Event Ops} (h : s.queue.length ≤ channelCapacity) (ha : Answers c s e s') :
      s'.queue.length ≤ channelCapacity := by
    cases ha
    case sent hq => simpa [Nat.succ_le_iff] using hq
    all_goals exact h
  induction h
  case refl => simp [start, State.initial]
  case step hr hs hi =>
    cases hs
    case main ha   => exact answers hi ha
    case task ha   => exact answers hi ha
    case outside s s' _ _ hc =>
      have hi : s.queue.length ≤ channelCapacity := hi
      cases hc
      case receive hq =>
        rw [hq] at hi
        exact Nat.le_of_succ_le hi
      case drop       => exact Nat.zero_le _
      case cancel     => exact hi

-- A task that sends only waits as long as the channel is full.
theorem send_proceeds (h : Run c log x) {q : Proxy} {k : Bool → Prog Ops Unit}
    (hi : x.tasks[i]? = some (.call (S := Ops) (.send q) k)) : CanProceed c x := by
  by_cases hc : x.shared.closed
  · exact .inl (canStep_task hi (.unsent hc))
  by_cases hq : x.shared.queue.length < channelCapacity
  · exact .inl (canStep_task hi (.sent (by simpa using hc) hq))
  refine .inr ⟨fun h => hq (by simp [h, channelCapacity]), fun s hs => ?_⟩
  cases hs
  case receive p ps hf hp =>
    have hl := h.queue_le
    rw [hp] at hl
    exact canStep_task (x := { x with shared := _ }) hi (.sent hf hl)
  case drop     => exact canStep_task (x := { x with shared := _ }) hi (.unsent rfl)
  case cancel h => exact absurd h hc

theorem task_proceeds (h : Run c log x) {t : Prog Ops Unit} (hi : x.tasks[i]? = some t)
    (hf : CheckFollows c t v) (hv : v ≠ .finished) : CanProceed c x := by
  obtain ⟨o, k, r, w, rfl, hm⟩ := exists_move hf hv
  rcases hm.answered x.shared with ⟨r', s', ha⟩ | ⟨q, rfl⟩
  · exact .inl (canStep_task hi ha)
  · exact send_proceeds h hi

-- As long as a task is running, somebody can do something.
theorem running_proceeds (h : Run c log x) (hr : Related (DispatchFollows c) (CheckFollows c) x z)
    (ht : Tidy c z) (hn : 0 < z.shared.running) : CanProceed c x := by
  rw [ht.running] at hn
  obtain ⟨v, hv, hb⟩ := List.countP_pos_iff.mp hn
  obtain ⟨i, hi⟩ := List.getElem?_of_mem hv
  obtain ⟨t, ht, hf⟩ := forall₂_getElem? hr.tasks.flip hi
  refine task_proceeds h ht hf ?_
  rintro rfl
  cases hb

-- No permit is asked for if nothing may be emitted.
def Dispatch.Wants (c : Params) : Dispatch → Prop
  | acquiring .. | spawning .. => c.limit ≠ some 0
  | _                          => True

theorem Dispatch.Moves.wants (h : Dispatch.Moves c u e u') (hu : u.Wants c) : u'.Wants c := by
  cases h
  case unlimited hl => simp [Wants, hl]
  case unreached hn =>
    intro hl
    exact hn ⟨0, hl, Nat.zero_le _⟩
  case acquired => exact hu
  all_goals trivial

theorem Staged.wants (h : Staged c log z) : z.main.Wants c := by
  induction h
  case refl => trivial
  case step hr hs hi =>
    cases hs
    case main hm _ => exact hm.wants hi
    case task      => exact hi
    case outside   => exact hi

-- The dispatcher waits for permits only if there are any.
theorem Tidy.running_pos (h : Tidy c z) (hw : z.main.Wants c) (hc : 0 < c.maxConn ∨ c.source = [] ∨ c.limit = some 0)
    {i : Nat} {p : Proxy} (hz : z.main = .acquiring i p) (hp : z.shared.permits = 0) : 0 < z.shared.running := by
  have hs := h.spawned
  have hn := h.permits
  rw [hz] at hw hs hn
  rcases hc with hc | hc | hc
  · simp only [hp, Dispatch.held, Dispatch.created] at hn
    omega
  · have hs := hs.right
    simp [hc] at hs
  · exact absurd hc hw

theorem Run.proceeds (h : Run c log x) (hc : 0 < c.maxConn ∨ c.source = [] ∨ c.limit = some 0)
    (hx : ¬IsOver c x) : CanProceed c x := by
  obtain ⟨⟨s, u, vs⟩, hz, hr⟩ := h.staged
  have ht := hz.tidy
  by_cases hm : u = .ended
  · exact absurd (.inl (hr.main.ret_of_final hm)) hx
  obtain ⟨o, k, r, w, hxm, hmv⟩ := exists_move hr.main hm
  cases hmv
  case created =>
    refine .inl (canStep_main hxm (.semaphore ?_))
    by_contra hn
    exact hx (.inr ⟨k, hxm, Nat.lt_of_not_le hn⟩)
  case exhausted | candidate            => exact .inl (canStep_main hxm .next)
  case cancelled | unlimited | limited  => exact .inl (canStep_main hxm (.isCancelled rfl))
  case reached | unreached              => exact .inl (canStep_main hxm (.loadSent rfl))
  case spawned                          => exact .inl (canStep_main hxm .spawn)
  case acquired =>
    cases hp : x.shared.permits
    case zero   => exact running_proceeds h hr ht (ht.running_pos hz.wants hc rfl (hr.shared ▸ hp))
    case succ n => exact .inl (canStep_main hxm (.acquire hp))
  case drained =>
    by_cases hw : x.shared.running = 0
    · exact .inl (canStep_main hxm (.wait hw))
    · exact running_proceeds h hr ht (Nat.pos_of_ne_zero (hr.shared ▸ hw))

-- A dispatcher that waits for a permit is stuck if there is neither a permit nor a task.
theorem stuck_at_acquire {k : Unit → Prog Ops Unit} (hp : s.permits = 0) (hq : s.queue = []) :
    ¬IsOver c ⟨s, .call (S := Ops) .acquire k, []⟩ ∧ ¬CanProceed c ⟨s, .call (S := Ops) .acquire k, []⟩ := by
  constructor
  · rintro (h | ⟨k', h, _⟩) <;> cases h
  · rintro (⟨e, y, h⟩ | ⟨h, _⟩)
    · cases h
      case main ha hm =>
        cases hm
        cases ha
        case acquire h => simp [hp] at h
      case task hv => simp at hv
    · exact h hq

-- Without permits, the dispatcher waits forever for the first one.
theorem waits_forever (hn : c.maxConn = 0) {p : Proxy} {source : List Proxy} (hs : c.source = p :: source)
    (hl : c.limit ≠ some 0) : ∃ log x, Run c log x ∧ ¬IsOver c x ∧ ¬CanProceed c x := by
  obtain ⟨_, checker, _, limit, caps, onChecked, world⟩ := c
  cases hn
  cases hs
  have h₀ : Run _ [] (start ⟨p :: source, checker, 0, limit, caps, onChecked, world⟩) := .refl
  have h₁ := h₀.main (.semaphore (Nat.zero_le _))
  have h₂ := h₁.main .next
  have h := h₂.main (.isCancelled rfl)
  cases limit
  case none => exact ⟨_, _, h, stuck_at_acquire rfl rfl⟩
  case some l =>
    cases l
    case zero   => exact absurd rfl hl
    case succ l =>
      have h := h.main (.loadSent rfl)
      exact ⟨_, _, h, stuck_at_acquire rfl rfl⟩

-- A query for a single proxy with `max_conn = 0`.
theorem stuck_without_permits :
    ∃ log x, Run { sample with maxConn := 0 } log x ∧ ¬IsOver { sample with maxConn := 0 } x ∧
      ¬CanProceed { sample with maxConn := 0 } x :=
  waits_forever rfl rfl (by decide)

-- The pipeline can get stuck if and only if there are no permits, but a proxy to be checked and emitted.
theorem never_stuck_iff (c : Params) :
    (∀ log x, Run c log x → ¬IsOver c x → CanProceed c x) ↔
    0 < c.maxConn ∨ c.source = [] ∨ c.limit = some 0 := by
  constructor
  · intro h
    by_contra hc
    push Not at hc
    obtain ⟨hn, hs, hl⟩ := hc
    obtain ⟨p, source, hs⟩ := List.exists_cons_of_ne_nil hs
    obtain ⟨log, x, hr, hx, hp⟩ := waits_forever (Nat.le_zero.mp hn) hs hl
    exact hp (h log x hr hx)
  · exact fun hc log x h hx => h.proceeds hc hx

end CheckStream
