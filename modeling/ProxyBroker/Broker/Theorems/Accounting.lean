import ProxyBroker.Broker.Theorems.Emission

namespace CheckStream

open Nursery

variable {c : Params} {s : State} {i : Nat} {p q : Proxy} {v : Stage} {l : Ledger}
variable {log log₁ log₂ : Log Ops} {x : Config State Dispatch Stage}

section Past

theorem Params.observed_subset (q : Proxy) : c.observed q ⊆ [q] := by
  unfold observed
  split <;> simp

-- Only completed checks are recorded, and only recorded proxies are shown to the observer.
theorem Final.subset (h : Final c s i p l) : l.recorded ⊆ l.completed ∧ l.observed ⊆ l.recorded := by
  cases h <;> simp [Ledger.empty, Params.observed_subset]

theorem Past.subset (h : Past c s i p v l) : l.recorded ⊆ l.completed ∧ l.observed ⊆ l.recorded := by
  cases h
  case sent _ h | leaving h | finished h => exact h.subset
  all_goals simp [Ledger.empty, Params.observed_subset]

theorem Final.of_completed (h : Final c s i p l) (hq : q ∈ l.completed) :
    q ∈ l.recorded ∧ (c.onChecked → q ∈ l.observed) := by
  have ho (q : Proxy) (h : c.onChecked) : q ∈ c.observed q := by simp [Params.observed, h]
  cases h
  case aborted => simp [Ledger.empty] at hq
  all_goals
    cases List.mem_singleton.mp hq
    exact ⟨List.mem_singleton_self q, ho q⟩

-- Unless something is cancelled, every check completes.
theorem Final.exists_recorded (h : Final c s i p l) (hc : ¬s.cancelled) : ∃ q, q ∈ l.recorded := by
  cases h
  case aborted h => exact absurd h hc
  case dismissed q _ _ | unsent q _ _ _ | sent q _ _ _ => exact ⟨q, List.mem_singleton_self q⟩

theorem Final.emitted_subset (h : Final c s i p l) : l.emitted ⊆ l.recorded := by
  cases h <;> simp [Ledger.empty]

theorem Past.emitted_subset (h : Past c s i p v l) : l.emitted ⊆ l.recorded := by
  cases h
  case sent _ h | leaving h | finished h => exact h.emitted_subset
  all_goals simp [Ledger.empty]

theorem Past.of_reserved {n : Nat} (h : Past c s i p (.reserved n q) l) :
    q ∈ l.recorded ∧ (c.onChecked → q ∈ l.observed) ∧ c.Yields i p q := by
  cases h
  case reserved h => exact ⟨List.mem_singleton_self q, fun ho => by simp [Params.observed, ho], h⟩

end Past

section Tallies

theorem Told.small (h : Told c log x) (i : Nat) : (ledger (log.of (.task i))).Small := by
  rcases h.cases i with hi | ⟨p, v, _, _, hv⟩
  · rw [hi]
    constructor <;> simp [ledger]
  · exact hv.small

theorem Told.subset (h : Told c log x) :
    log.tally recording ⊆ log.tally completion ∧ log.tally observation ⊆ log.tally recording := by
  have hs (i : Nat) : (ledger (log.of (.task i))).recorded ⊆ (ledger (log.of (.task i))).completed ∧
      (ledger (log.of (.task i))).observed ⊆ (ledger (log.of (.task i))).recorded := by
    rcases h.cases i with hi | ⟨p, v, _, _, hv⟩
    · simp [hi, ledger]
    · exact hv.subset
  exact ⟨fun q hq => Log.mem_tally.mpr ((hs q.1).left (Log.mem_tally.mp hq)),
    fun q hq => Log.mem_tally.mpr ((hs q.1).right (Log.mem_tally.mp hq))⟩

-- The task of a check that has ended has left nothing to be done.
theorem Told.of_completion (h : Told c log x) (hv : x.tasks[i]? = some .finished)
    (hq : (i, q) ∈ log.tally completion) :
    (i, q) ∈ log.tally recording ∧ (c.onChecked → (i, q) ∈ log.tally observation) := by
  obtain ⟨p, hp, hf⟩ := h.past i .finished hv
  cases hf
  case finished hf =>
    obtain ⟨hr, ho⟩ := hf.of_completed (Log.mem_tally.mp hq)
    exact ⟨Log.mem_tally.mpr hr, fun hc => Log.mem_tally.mpr (ho hc)⟩

-- By the time a proxy is sent, it was recorded and shown to the observer.
theorem Staged.before_send {b : Bool} (h : Staged c (log₁ ++ (.task i, ⟨.send q, b⟩) :: log₂) x) :
    (i, q) ∈ log₁.tally recording ∧ (c.onChecked → (i, q) ∈ log₁.tally observation) ∧ (i, q) ∈ yields c := by
  obtain ⟨y, z, hr, hs, -⟩ := Run.before h
  cases hs
  case task hv hm _ =>
    obtain ⟨p, hp, hl⟩ := (Staged.told hr).past _ _ hv
    cases hm
    case sent =>
      obtain ⟨hr, ho, hy⟩ := hl.of_reserved
      exact ⟨Log.mem_tally.mpr hr, fun hc => Log.mem_tally.mpr (ho hc), mem_yields.mpr ⟨p, hp, hy⟩⟩

theorem isWorking_of_mem_yields (h : (i, q) ∈ yields c) : q.isWorking := by
  obtain ⟨p, _, ho, _⟩ := mem_yields.mp h
  have hw : (outcome c i p).2.isWorking := Checker.check_isWorking (by rw [← outcome, ho])
  rwa [ho] at hw

theorem Told.of_emission_recorded (h : Told c log x) (hq : (i, q) ∈ log.tally emission) :
    (i, q) ∈ log.tally recording := by
  have hq := Log.mem_tally.mp hq
  rcases h.cases i with hi | ⟨p, v, _, _, hv⟩
  · simp [hi] at hq
  · exact Log.mem_tally.mpr (hv.emitted_subset hq)

end Tallies

section Ended

variable (h : Staged c log x) (hx : x.main = .ended)

include h hx

-- Unless there is a limit or the stream is dropped, all proxies of the source are recorded.
theorem Staged.recordings_length (hl : c.limit = none) (hc : x.shared.closed = false) :
    (log.tally recording).length = c.source.length := by
  have hr : ¬c.Reached x.shared.sent := by simp [Params.Reached, hl]
  have hn : ¬x.shared.cancelled := by
    intro h'
    simpa [hc, hr] using h.cancelled h'
  have ht : x.tasks.length = c.source.length := by
    simpa [hn, hr] using h.tidy.stopped (hx ▸ trivial)
  have hd : ((log.tally recording).map Prod.fst).Nodup := Log.tally_nodup fun i => (h.told.small i).recorded
  refine Nat.le_antisymm ?_ ?_
  · have hs : (log.tally recording).map Prod.fst ⊆ List.range c.source.length := by
      intro i hi
      obtain ⟨⟨i, q⟩, hq, rfl⟩ := List.mem_map.mp hi
      have hq := Log.mem_tally.mp hq
      rcases h.told.cases i with hi | ⟨p, v, hp, _, _⟩
      · simp [hi] at hq
      · exact List.mem_range.mpr (List.getElem?_eq_some_iff.mp hp).1
    simpa using (hd.subperm hs).length_le
  · have hs : List.range c.source.length ⊆ (log.tally recording).map Prod.fst := by
      intro i hi
      have hi : i < x.tasks.length := ht ▸ List.mem_range.mp hi
      obtain ⟨p, _, hf⟩ := h.final hx (List.getElem?_eq_getElem hi)
      obtain ⟨q, hq⟩ := hf.exists_recorded hn
      exact List.mem_map.mpr ⟨(i, q), Log.mem_tally.mpr hq, rfl⟩
    simpa using (List.nodup_range.subperm hs).length_le

end Ended

section Run

variable {x y : Config State (Prog Ops Unit) (Prog Ops Unit)} {z : Config State Dispatch Stage}

theorem Related.finished (h : Related (DispatchFollows c) (CheckFollows c) x z) {i : Nat}
    (hi : x.tasks[i]? = some (.ret ())) : z.tasks[i]? = some .finished := by
  obtain ⟨v, hv, hf⟩ := forall₂_getElem? h.tasks hi
  rwa [← show v = .finished from hf]

-- When the dispatcher has returned, everyone else has returned as well.
theorem Run.all_ret (h : Run c log x) (hx : x.main = .ret ()) : ∀ t ∈ x.tasks, t = .ret () := by
  intro t ht
  obtain ⟨z, hz, hr⟩ := h.staged
  have hm := hr.main
  rw [hx] at hm
  obtain ⟨i, hi⟩ := List.getElem?_of_mem ht
  obtain ⟨v, hv, hf⟩ := forall₂_getElem? hr.tasks hi
  exact hf.ret_of_final (hz.tidy.finished hm v (List.mem_of_getElem? hv))

-- Nothing happens after everyone has returned, except that the consumer goes on.
theorem quiet (hx : x.main = .ret ()) (ht : ∀ t ∈ x.tasks, t = .ret ()) (h : (nursery c).Run x log y) :
    log = [] ∧ y.shared.stats = x.shared.stats ∧ y.main = x.main ∧ y.tasks = x.tasks := by
  induction h
  case refl => exact ⟨rfl, rfl, rfl, rfl⟩
  case step hr hs hi =>
    obtain ⟨rfl, hs', hm, hts⟩ := hi
    cases hs
    case main hp _ =>
      cases hp
      cases hm.trans hx
    case task hv hp _ =>
      have hv := ht _ (hts ▸ List.mem_of_getElem? (l := Config.tasks _) hv)
      cases hp
      cases hv
    case outside hc => exact ⟨rfl, by cases hc <;> exact hs', hm, hts⟩

end Run

-- Everything that completes is accounted for: it is recorded and shown to the observer exactly once, which
-- happens before it is emitted. The collector counts what was recorded, and nothing is left to be recorded when
-- the dispatcher has returned.
theorem accounts {c : Params} {log : Log Ops} {x : Config State (Prog Ops Unit) (Prog Ops Unit)}
    (h : Run c log x) :
    -- Nothing is recorded or shown twice, or without being completed.
    (((log.tally completion).map Prod.fst).Nodup ∧ ((log.tally recording).map Prod.fst).Nodup ∧
      ((log.tally observation).map Prod.fst).Nodup ∧ log.tally recording ⊆ log.tally completion ∧
      log.tally observation ⊆ log.tally recording) ∧
    -- The task of a completed check does not return before the proxy is recorded and shown.
    (∀ i q, (i, q) ∈ log.tally completion → x.tasks[i]? = some (.ret ()) →
      (i, q) ∈ log.tally recording ∧ (c.onChecked → (i, q) ∈ log.tally observation)) ∧
    (∀ (log₁ log₂ : Log Ops) i q b, log = log₁ ++ (.task i, ⟨.send q, b⟩) :: log₂ →
      (i, q) ∈ log₁.tally recording ∧ (c.onChecked → (i, q) ∈ log₁.tally observation)) ∧
    -- The collector counts what is recorded, and what is emitted is counted as working.
    (x.shared.stats = .recordAll ((log.tally recording).map Prod.snd) ∧
      x.shared.stats.working = (log.tally recording).countP (·.2.isWorking) ∧
      ∀ i q, (i, q) ∈ log.tally emission → (i, q) ∈ log.tally recording ∧ q.isWorking) ∧
    -- Nothing is left to be done when the dispatcher has returned.
    (x.main = .ret () → (∀ t ∈ x.tasks, t = .ret ()) ∧
      (∀ log' y, (nursery c).Run x log' y → log' = [] ∧ y.shared.stats = x.shared.stats) ∧
      (c.limit = none → x.shared.closed = false → x.shared.stats.total = c.source.length)) := by
  obtain ⟨z, hz, hr⟩ := h.staged
  have hb := hz.books.stats
  rw [hr.shared] at hb
  refine ⟨⟨?_, ?_, ?_, hz.told.subset⟩, ?_, ?_, ⟨hb, ?_, ?_⟩, fun hx => ⟨h.all_ret hx, ?_, ?_⟩⟩
  · exact Log.tally_nodup fun i => (hz.told.small i).completed
  · exact Log.tally_nodup fun i => (hz.told.small i).recorded
  · exact Log.tally_nodup fun i => (hz.told.small i).observed
  · exact fun i q hq hi => hz.told.of_completion (Related.finished hr hi) hq
  · rintro log₁ log₂ i q b rfl
    have hs := hz.before_send
    exact ⟨hs.left, hs.right.left⟩
  · rw [hb, StatsCollector.recordAll_working, List.countP_map]
    rfl
  · exact fun i q hq => ⟨hz.told.of_emission_recorded hq, isWorking_of_mem_yields (hz.told.of_emission hq).left⟩
  · intro log' y hy
    have hq := quiet hx (h.all_ret hx) hy
    exact ⟨hq.left, hq.right.left⟩
  · intro hl hc
    have hm := hr.main
    rw [hx] at hm
    rw [hb, StatsCollector.recordAll_total, List.length_map]
    exact hz.recordings_length hm hl (hr.shared ▸ hc)

-- Without a limit, both proxies are checked, of which the first one works.
theorem pair_unlimited : ∃ log x, Run (pair [0] none) log x ∧ x.main = .ret () ∧ x.shared.closed = false := by
  have h : Run (pair [0] none) [] (start _) := .refl
  have h := h.main (.semaphore (by decide))
  have h := h.main .next
  have h := h.main (.isCancelled rfl)
  have h := h.main (.acquire rfl)
  have h := h.main .spawn
  have h := h.task 0 rfl (.checked rfl)
  have h := h.main .next
  have h := h.main (.isCancelled rfl)
  have h := h.main (.acquire rfl)
  have h := h.task 0 rfl .record
  have h := h.main .spawn
  have h := h.task 1 rfl (.checked rfl)
  have h := h.task 1 rfl .record
  have h := h.task 0 rfl .observe
  have h := h.task 1 rfl .observe
  have h := h.task 0 rfl (.fetchAdd rfl)
  have h := h.task 0 rfl (.sent rfl (by decide))
  have h := h.task 1 rfl .release
  have h := h.task 0 rfl .release
  have h := h.main .next
  have h := h.main (.wait rfl)
  exact ⟨_, _, h, rfl, rfl⟩

theorem accounts_both : ∃ log x, Run (pair [0] none) log x ∧ (∀ t ∈ x.tasks, t = .ret ()) ∧
    x.shared.stats.total = 2 ∧ ∀ i q, (i, q) ∈ log.tally emission → (i, q) ∈ log.tally recording ∧ q.isWorking := by
  obtain ⟨log, x, h, hx, hc⟩ := pair_unlimited
  obtain ⟨-, -, -, hs, hr⟩ := accounts h
  exact ⟨log, x, h, (hr hx).left, (hr hx).right.right rfl hc, hs.right.right⟩

end CheckStream
