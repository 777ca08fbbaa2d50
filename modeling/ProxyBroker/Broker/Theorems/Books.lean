import ProxyBroker.Broker.Theorems.Ledger

namespace CheckStream

open Nursery

-- What the shared state tells about the past: slots are numbered in the order in which they are reserved,
-- the collector has seen what was recorded, and the channel has transported what was emitted.
structure Books (log : Log Ops) (s : State) : Prop where
  slots : (log.tally slot).map Prod.snd = List.range s.sent
  stats : s.stats = .recordAll ((log.tally recording).map Prod.snd)
  queue : s.closed = false → s.received ++ s.queue = (log.tally emission).map Prod.snd

variable {c : Params} {s s' : State} {u u' : Dispatch} {v v' : Stage} {i : Nat} {e : Event Ops}
variable {log : Log Ops} {x : Config State Dispatch Stage}

theorem Answers.sent_eq (h : Answers c s e s') : List.range s'.sent = List.range s.sent ++ (slot e).toList := by
  cases h
  case fetchAdd n hn =>
    cases hn
    exact List.range_succ
  all_goals exact (List.append_nil _).symm

theorem Answers.stats_eq (h : Answers c s e s') : s'.stats = (recording e).toList.foldl .record s.stats := by
  cases h <;> rfl

theorem Answers.queue_eq (h : Answers c s e s') :
    s'.closed = s.closed ∧ s'.received ++ s'.queue = s.received ++ s.queue ++ (emission e).toList := by
  cases h
  case sent => exact ⟨rfl, (List.append_assoc _ _ _).symm⟩
  all_goals exact ⟨rfl, (List.append_nil _).symm⟩

-- The dispatcher does not do what is recorded in the books.
theorem Dispatch.Moves.picks (h : Dispatch.Moves c u e u') :
    slot e = none ∧ recording e = none ∧ emission e = none := by
  cases h <;> exact ⟨rfl, rfl, rfl⟩

theorem Books.main (h : Books log s) (hm : Dispatch.Moves c u e u') (ha : Answers c s e s') :
    Books (log ++ [(.main, e)]) s' := by
  obtain ⟨h₁, h₂, h₃⟩ := hm.picks
  have hs := ha.sent_eq
  have ht := ha.stats_eq
  obtain ⟨hc, hq⟩ := ha.queue_eq
  simp only [h₁, h₂, h₃, Option.toList_none, List.append_nil, List.foldl_nil] at hs ht hq
  constructor
  case slots => rw [Log.tally_snoc_main, hs, h.slots]
  case stats => rw [Log.tally_snoc_main, ht, h.stats]
  case queue =>
    intro h'
    rw [Log.tally_snoc_main, hq, h.queue (hc ▸ h')]

theorem Books.task (h : Books log s) (ha : Answers c s e s') : Books (log ++ [(.task i, e)]) s' := by
  constructor
  case slots => rw [Log.map_tally_snoc_task, h.slots, ha.sent_eq]
  case stats =>
    rw [Log.map_tally_snoc_task, ha.stats_eq, h.stats, StatsCollector.recordAll, StatsCollector.recordAll,
      List.foldl_append]
  case queue =>
    obtain ⟨hc, hq⟩ := ha.queue_eq
    intro h'
    rw [Log.map_tally_snoc_task, hq, h.queue (hc ▸ h')]

theorem Books.consumer (h : Books log s) (hc : Consumer s s') : Books log s' := by
  cases hc
  case receive hf hq =>
    refine ⟨h.slots, h.stats, fun _ => ?_⟩
    have := h.queue hf
    simpa [hq] using this
  case drop   => exact ⟨h.slots, h.stats, nofun⟩
  case cancel => exact ⟨h.slots, h.stats, h.queue⟩

theorem Staged.books (h : Staged c log x) : Books log x.shared := by
  induction h
  case refl => exact ⟨rfl, rfl, fun _ => rfl⟩
  case step hr hs hi =>
    cases hs
    case main hm ha   => exact hi.main hm ha
    case task _ _ ha  => exact hi.task ha
    case outside hc   => simpa using hi.consumer hc

-- The number of a slot that a task has reserved.
theorem Books.slot_lt {n : Nat} (h : Books log s) (hn : n ∈ (ledger (log.of (.task i))).slots) : n < s.sent := by
  have hm : (i, n) ∈ log.tally slot := Log.mem_tally.mpr hn
  have := List.mem_map_of_mem (f := Prod.snd) hm
  rwa [h.slots, List.mem_range] at this

theorem Answers.cancelled_of (h : Answers c s e s') (hc : s'.cancelled) : s.cancelled ∨ e = ⟨.cancel, ()⟩ := by
  cases h
  case cancel => exact .inr rfl
  all_goals exact .inl hc

theorem Stage.Moves.reached (hm : Stage.Moves c v ⟨.cancel, ()⟩ v') {p : Proxy} {l : Ledger}
    (hp : Past c s i p v l) : ∃ n ∈ l.slots, c.Reached (n + 1) := by
  cases hm
  case surplus n hn =>
    cases hp
    case reserved => exact ⟨n, List.mem_singleton_self n, hn.mono (Nat.le_succ n)⟩
  case last n hn =>
    cases hp
    case sent _ hl => exact ⟨n, hl ▸ List.mem_singleton_self n, hn⟩

-- A token is only cancelled by the consumer or by a task that knows that the limit is reached.
theorem Staged.cancelled (h : Staged c log x) (hc : x.shared.cancelled) :
    x.shared.closed ∨ c.Reached x.shared.sent := by
  induction h
  case refl => cases hc
  case step hr hs hi =>
    cases hs
    case main hm ha =>
      rcases ha.cancelled_of hc with hc | rfl
      · exact (hi hc).imp ha.grows.closed (·.mono ha.grows.sent)
      · cases hm
    case task hv hm ha =>
      rcases ha.cancelled_of hc with hc | rfl
      · exact (hi hc).imp ha.grows.closed (·.mono ha.grows.sent)
      · obtain ⟨p, _, hp⟩ := (Staged.told hr).past _ _ hv
        obtain ⟨n, hn, hr'⟩ := hm.reached hp
        have := (Staged.books hr).slot_lt hn
        exact .inr (hr'.mono (Nat.le_trans this ha.grows.sent))
    case outside ho =>
      cases ho
      case receive   => exact hi hc
      case drop      => exact .inl rfl
      case cancel ho => exact .inl ho

end CheckStream
