import ProxyBroker.Broker.Theorems.Books

namespace CheckStream

open Nursery

variable {c : Params} {s : State} {i n : Nat} {p q : Proxy} {v : Stage} {l : Ledger}
variable {log : Log Ops} {x : Config State Dispatch Stage}

section Yields

theorem mem_yields : (i, q) ∈ yields c ↔ ∃ p, c.source[i]? = some p ∧ c.Yields i p q := by
  unfold yields Params.Yields
  simp only [List.mem_filterMap, Prod.exists, List.mem_zipIdx_iff_getElem?]
  constructor
  · rintro ⟨p, j, hp, h⟩
    split_ifs at h with hw
    cases h
    refine ⟨p, hp, ?_⟩
    obtain ⟨h₁, h₂⟩ := Bool.and_eq_true_iff.mp hw
    exact ⟨Prod.ext h₁ rfl, h₂⟩
  · rintro ⟨p, hp, ho, hq⟩
    exact ⟨p, i, hp, by simp [ho, hq]⟩

theorem yields_nodup : ((yields c).map Prod.fst).Nodup := by
  have hl (ps : List (Proxy × Nat)) (f : Proxy × Nat → Option (Nat × Proxy))
      (hf : ∀ x y, f x = some y → y.1 = x.2) : ((ps.filterMap f).map Prod.fst).Sublist (ps.map Prod.snd) := by
    induction ps
    case nil => exact .slnil
    case cons x ps hi =>
      cases h : f x
      case none   => simpa [h] using hi.cons x.2
      case some y => simpa [h, hf x y h] using hi.cons_cons x.2
  refine (hl _ _ fun x y h => ?_).nodup ?_
  · dsimp only at h
    split_ifs at h
    cases h
    rfl
  · simp [List.zipIdx_map_snd, List.nodup_range']

end Yields

section Past

-- Slots are only reserved for proxies that are worth emitting.
theorem Final.of_slot (h : Final c s i p l) (hn : n ∈ l.slots) : ∃ q, c.Yields i p q := by
  cases h
  case unsent q _ h _ | sent q _ h _ => exact ⟨q, h⟩
  all_goals simp [Ledger.empty] at hn

theorem Past.of_slot (h : Past c s i p v l) (hn : n ∈ l.slots) : ∃ q, c.Yields i p q := by
  cases h
  case sent _ h | leaving h | finished h => exact h.of_slot hn
  case reserved q _ h                => exact ⟨q, h⟩
  all_goals simp [Ledger.empty] at hn

-- Only those that hold a slot below the limit emit their proxy.
theorem Final.of_emitted (h : Final c s i p l) (hq : q ∈ l.emitted) :
    c.Yields i p q ∧ ∃ n ∈ l.slots, ¬c.Reached n := by
  cases h
  case sent q' n h hn =>
    cases List.mem_singleton.mp hq
    exact ⟨h, n, List.mem_singleton_self n, hn⟩
  all_goals simp [Ledger.empty] at hq

theorem Past.of_emitted (h : Past c s i p v l) (hq : q ∈ l.emitted) :
    c.Yields i p q ∧ ∃ n ∈ l.slots, ¬c.Reached n := by
  cases h
  case sent _ h | leaving h | finished h => exact h.of_emitted hq
  all_goals simp [Ledger.empty] at hq

-- As long as the stream is not dropped, a slot below the limit is used eventually.
theorem Final.exists_emitted (h : Final c s i p l) (hc : s.closed = false) (hn : n ∈ l.slots)
    (hr : ¬c.Reached n) : ∃ q, q ∈ l.emitted := by
  cases h
  case unsent h =>
    cases List.mem_singleton.mp hn
    simp [hr, hc] at h
  case sent q _ _ _ => exact ⟨q, List.mem_singleton_self q⟩
  all_goals simp [Ledger.empty] at hn

-- As long as nothing is cancelled, all proxies that are worth it get a slot eventually.
theorem Final.exists_slot (h : Final c s i p l) (hc : ¬s.cancelled) (hy : c.Yields i p q) :
    ∃ n, n ∈ l.slots := by
  cases h
  case aborted h => exact absurd h hc
  case dismissed w q' ho he =>
    rw [hy.left] at ho
    cases ho
    exact absurd ⟨rfl, hy.right⟩ he
  case unsent n _ _ | sent n _ _ => exact ⟨n, List.mem_singleton_self n⟩

end Past

section Tallies

theorem Told.cases (h : Told c log x) (i : Nat) : log.of (.task i) = [] ∨
    ∃ p v, c.source[i]? = some p ∧ x.tasks[i]? = some v ∧ Past c x.shared i p v (ledger (log.of (.task i))) := by
  by_cases hi : i < x.tasks.length
  · obtain ⟨p, hp, hv⟩ := h.past i x.tasks[i] (List.getElem?_eq_getElem hi)
    exact .inr ⟨p, _, hp, List.getElem?_eq_getElem hi, hv⟩
  · exact .inl (h.absent i (Nat.le_of_not_lt hi))

theorem Told.slots_nodup (h : Told c log x) : ((log.tally slot).map Prod.fst).Nodup := by
  refine Log.tally_nodup fun i => ?_
  rcases h.cases i with hi | ⟨p, v, _, _, hv⟩
  · simp [hi]
  · exact hv.small.slots

theorem Told.emissions_nodup (h : Told c log x) : ((log.tally emission).map Prod.fst).Nodup := by
  refine Log.tally_nodup fun i => ?_
  rcases h.cases i with hi | ⟨p, v, _, _, hv⟩
  · simp [hi]
  · exact hv.small.emitted

theorem Told.of_slot (h : Told c log x) (hn : (i, n) ∈ log.tally slot) : ∃ q, (i, q) ∈ yields c := by
  have hn := Log.mem_tally.mp hn
  rcases h.cases i with hi | ⟨p, v, hp, _, hv⟩
  · simp [hi] at hn
  · obtain ⟨q, hq⟩ := hv.of_slot hn
    exact ⟨q, mem_yields.mpr ⟨p, hp, hq⟩⟩

theorem Told.of_emission (h : Told c log x) (hq : (i, q) ∈ log.tally emission) :
    (i, q) ∈ yields c ∧ ∃ n, (i, n) ∈ log.tally slot ∧ ¬c.Reached n := by
  have hq := Log.mem_tally.mp hq
  rcases h.cases i with hi | ⟨p, v, hp, _, hv⟩
  · simp [hi] at hq
  · obtain ⟨hy, n, hn, hr⟩ := hv.of_emitted hq
    exact ⟨mem_yields.mpr ⟨p, hp, hy⟩, n, Log.mem_tally.mpr hn, hr⟩

end Tallies

section Counting

-- The slots below the limit among the first ones.
def Params.capped (c : Params) (n : Nat) : Nat :=
  c.limit.elim n (min · n)

theorem countP_range [DecidablePred c.Reached] (n : Nat) :
    (List.range n).countP (fun k => ¬c.Reached k) = c.capped n := by
  induction n
  case zero => cases h : c.limit <;> simp [Params.capped, h]
  case succ n hi =>
    rw [List.range_succ, List.countP_append, hi]
    cases h : c.limit
    case none   => simp [Params.capped, Params.Reached, h]
    case some l =>
      have hc (k : Nat) : c.capped k = min l k := by simp [Params.capped, h]
      have hr : c.Reached n ↔ l ≤ n := by simp [Params.Reached, h]
      by_cases hl : l ≤ n
      · simp only [hc, List.countP_singleton, hr, hl, not_true_eq_false, decide_false]
        simp
        omega
      · simp only [hc, List.countP_singleton, hr, hl, not_false_eq_true, decide_true]
        simp
        omega

variable (h : Staged c log x)

include h

theorem Staged.slots_length : (log.tally slot).length = x.shared.sent := by
  have hs := congrArg List.length h.books.slots
  simpa using hs

-- No more slots are reserved than there are proxies that are worth it.
theorem Staged.sent_le : x.shared.sent ≤ (yields c).length := by
  have hs : (log.tally slot).map Prod.fst ⊆ (yields c).map Prod.fst := by
    intro i hi
    obtain ⟨⟨i, n⟩, hn, rfl⟩ := List.mem_map.mp hi
    obtain ⟨q, hq⟩ := h.told.of_slot hn
    exact List.mem_map_of_mem hq
  simpa [h.slots_length] using (h.told.slots_nodup.subperm hs).length_le

open Classical in
theorem Staged.usable_length :
    ((log.tally slot).filter fun s => ¬c.Reached s.2).length = c.capped x.shared.sent := by
  rw [← countP_range, ← h.books.slots, List.countP_map, List.countP_eq_length_filter]
  rfl

open Classical in
theorem Staged.emissions_subset :
    (log.tally emission).map Prod.fst ⊆ ((log.tally slot).filter fun s => ¬c.Reached s.2).map Prod.fst := by
  intro i hi
  obtain ⟨⟨i, q⟩, hq, rfl⟩ := List.mem_map.mp hi
  obtain ⟨_, n, hn, hr⟩ := h.told.of_emission hq
  exact List.mem_map.mpr ⟨(i, n), by simpa using ⟨hn, hr⟩, rfl⟩

theorem Staged.emissions_length_le : (log.tally emission).length ≤ c.capped x.shared.sent := by
  have := (h.told.emissions_nodup.subperm h.emissions_subset).length_le
  rwa [List.length_map, List.length_map, h.usable_length] at this

omit h in
theorem Params.Reached.capped_eq {m : Nat} (h : c.Reached n) (hm : n ≤ m) : c.capped m = c.capped n := by
  obtain ⟨l, hl, h⟩ := h
  simp only [Params.capped, hl, Option.elim_some]
  omega

section Ended

variable (hx : x.main = .ended)

include hx

theorem Staged.final {i : Nat} {v : Stage} (hv : x.tasks[i]? = some v) :
    ∃ p, c.source[i]? = some p ∧ Final c x.shared i p (ledger (log.of (.task i))) := by
  obtain ⟨p, hp, hf⟩ := h.told.past i v hv
  cases h.tidy.finished hx v (List.mem_of_getElem? hv)
  cases hf
  case finished hf => exact ⟨p, hp, hf⟩

variable (hc : x.shared.closed = false)

include hc

open Classical in
theorem Staged.usable_subset :
    ((log.tally slot).filter fun s => ¬c.Reached s.2).map Prod.fst ⊆ (log.tally emission).map Prod.fst := by
  intro i hi
  obtain ⟨⟨i, n⟩, hn, rfl⟩ := List.mem_map.mp hi
  obtain ⟨hn, hr⟩ : (i, n) ∈ log.tally slot ∧ ¬c.Reached n := by simpa using hn
  have hn := Log.mem_tally.mp hn
  rcases h.told.cases i with hi | ⟨_, v, _, hv, _⟩
  · simp [hi] at hn
  · obtain ⟨p, _, hf⟩ := h.final hx hv
    obtain ⟨q, hq⟩ := hf.exists_emitted hc hn hr
    exact List.mem_map.mpr ⟨(i, q), Log.mem_tally.mpr hq, rfl⟩

theorem Staged.emissions_length : (log.tally emission).length = c.capped x.shared.sent := by
  refine Nat.le_antisymm h.emissions_length_le ?_
  have hn := (h.told.slots_nodup.sublist (List.filter_sublist.map Prod.fst)).subperm (h.usable_subset hx hc)
  have := hn.length_le
  rwa [List.length_map, List.length_map, h.usable_length] at this

-- Either the limit is reached, or all proxies that are worth it have got a slot.
theorem Staged.reached_or : c.Reached x.shared.sent ∨ x.shared.sent = (yields c).length := by
  by_cases hr : c.Reached x.shared.sent
  · exact .inl hr
  have hn : ¬x.shared.cancelled := by
    intro h'
    rcases h.cancelled h' with h' | h'
    · simp [hc] at h'
    · exact hr h'
  have hl : x.tasks.length = c.source.length := by
    rcases h.tidy.stopped (hx ▸ trivial) with hl | h' | h'
    · exact hl
    · exact absurd h' hn
    · exact absurd h' hr
  have hs : (yields c).map Prod.fst ⊆ (log.tally slot).map Prod.fst := by
    intro i hi
    obtain ⟨⟨i, q⟩, hq, rfl⟩ := List.mem_map.mp hi
    obtain ⟨p, hp, hy⟩ := mem_yields.mp hq
    have hi : i < x.tasks.length := hl ▸ (List.getElem?_eq_some_iff.mp hp).1
    obtain ⟨p', hp', hf⟩ := h.final hx (List.getElem?_eq_getElem hi)
    cases hp.symm.trans hp'
    obtain ⟨n, hn⟩ := hf.exists_slot hn hy
    exact List.mem_map.mpr ⟨(i, n), Log.mem_tally.mpr hn, rfl⟩
  have := (yields_nodup.subperm hs).length_le
  rw [List.length_map, List.length_map, h.slots_length] at this
  exact .inr (Nat.le_antisymm h.sent_le this)

theorem Staged.emissions_exact : (log.tally emission).length = c.capped (yields c).length := by
  rw [h.emissions_length hx hc]
  rcases h.reached_or hx hc with hr | hs
  · exact (hr.capped_eq h.sent_le).symm
  · rw [hs]

end Ended
end Counting

-- Whatever the pipeline has emitted so far is worth it and was emitted once, and the limit is not exceeded.
-- When the dispatcher has returned and the stream was not dropped, as much as possible was emitted, and
-- this is what the consumer has received or will find in the channel.
theorem emits_exactly {c : Params} {log : Log Ops} {x : Config State (Prog Ops Unit) (Prog Ops Unit)}
    (h : Run c log x) :
    log.tally emission ⊆ yields c ∧ ((log.tally emission).map Prod.fst).Nodup ∧
    (∀ l, c.limit = some l → (log.tally emission).length ≤ l) ∧
    (x.main = .ret () → x.shared.closed = false →
      (log.tally emission).length = c.limit.elim (yields c).length (min · (yields c).length) ∧
      x.shared.received ++ x.shared.queue = (log.tally emission).map Prod.snd) := by
  obtain ⟨y, hy, hr⟩ := h.staged
  refine ⟨fun ⟨i, q⟩ hq => (hy.told.of_emission hq).left, hy.told.emissions_nodup, fun l hl => ?_, fun hx hc => ?_⟩
  · refine Nat.le_trans hy.emissions_length_le ?_
    simp [Params.capped, hl]
  · have hm := hr.main
    rw [hx] at hm
    rw [← hr.shared] at hc ⊢
    exact ⟨hy.emissions_exact hm hc, hy.books.queue hc⟩

section

variable {c : Params} {log : Log Ops} {s s' : State} {p : Prog Ops Unit} {ts : List (Prog Ops Unit)} {o : Op}
variable {r : o.Ret} {k : o.Ret → Prog Ops Unit}

theorem Run.main (h : Run c log ⟨s, .call (S := Ops) o k, ts⟩) (ha : Answers c s ⟨o, r⟩ s') :
    Run c (log ++ [(.main, ⟨o, r⟩)]) ⟨s', k r, ts ++ (spawned c o).toList⟩ :=
  h.step (.main .call ha)

theorem Run.task (h : Run c log ⟨s, p, ts⟩) (i : Nat) (hi : ts[i]? = some (.call (S := Ops) o k))
    (ha : Answers c s ⟨o, r⟩ s') : Run c (log ++ [(.task i, ⟨o, r⟩)]) ⟨s', p, ts.set i (k r)⟩ :=
  h.step (.task hi .call ha)

end

-- A single proxy that works, and a limit of one.
def sample : Params where
  source    := [Proxy.new (.v4 1 2 3 4) 80 ∅]
  checker   := { requested := [⟨.http, none⟩], strict := false, dnsbl := [], mode := .liveness, retry := ⟨1, ∅⟩ }
  maxConn   := 1
  limit     := some 1
  caps      := ⟨false, false, false, false⟩
  onChecked := false
  world _   := ⟨false, fun _ _ => .ok (.working ⟨none, ⟨false, false⟩, []⟩), fun _ _ => 1⟩

theorem sample_run : ∃ log x, Run sample log x ∧ x.main = .ret () ∧ x.shared.closed = false ∧
    x.shared.received = [] ∧ x.shared.queue = [(outcome sample 0 (.new (.v4 1 2 3 4) 80 ∅)).2] := by
  have h : Run sample [] (start sample) := .refl
  have h := h.main (.semaphore (by decide))
  have h := h.main .next
  have h := h.main (.isCancelled rfl)
  have h := h.main (.loadSent rfl)
  have h := h.main (.acquire rfl)
  have h := h.main .spawn
  have h := h.task 0 rfl (.checked rfl)
  have h := h.task 0 rfl .record
  have h := h.task 0 rfl (.fetchAdd rfl)
  have h := h.task 0 rfl (.sent rfl (by decide))
  have h := h.task 0 rfl .cancel
  have h := h.task 0 rfl .release
  have h := h.main .next
  have h := h.main (.wait rfl)
  exact ⟨_, _, h, rfl, rfl, rfl, rfl⟩

-- Two proxies, of which those work that are listed.
def pair (works : List Nat) (limit : Option Nat) : Params where
  source    := [.new (.v4 1 2 3 4) 80 ∅, .new (.v4 5 6 7 8) 80 ∅]
  checker   := { requested := [⟨.http, none⟩], strict := false, dnsbl := [], mode := .liveness, retry := ⟨1, ∅⟩ }
  maxConn   := 2
  limit     := limit
  caps      := ⟨false, false, false, false⟩
  onChecked := true
  world i   := ⟨false, fun _ _ => if i ∈ works then .ok (.working ⟨none, ⟨false, false⟩, []⟩) else .error .timeout, fun _ _ => 1⟩

-- Both of them work, but only one is to be emitted. The second one is faster.
theorem pair_limited : ∃ log x, Run (pair [0, 1] (some 1)) log x ∧ x.main = .ret () ∧ x.shared.closed = false ∧
    x.shared.received = [] ∧ x.shared.queue = [(outcome (pair [0, 1] (some 1)) 1 (.new (.v4 5 6 7 8) 80 ∅)).2] := by
  have h : Run (pair [0, 1] (some 1)) [] (start _) := .refl
  have h := h.main (.semaphore (by decide))
  have h := h.main .next
  have h := h.main (.isCancelled rfl)
  have h := h.main (.loadSent rfl)
  have h := h.main (.acquire rfl)
  have h := h.main .spawn
  have h := h.main .next
  have h := h.main (.isCancelled rfl)
  have h := h.main (.loadSent rfl)
  have h := h.main (.acquire rfl)
  have h := h.main .spawn
  have h := h.task 1 rfl (.checked rfl)
  have h := h.task 0 rfl (.checked rfl)
  have h := h.task 0 rfl .record
  have h := h.task 1 rfl .record
  have h := h.task 1 rfl .observe
  have h := h.task 1 rfl (.fetchAdd rfl)
  have h := h.task 0 rfl .observe
  have h := h.task 0 rfl (.fetchAdd rfl)
  have h := h.task 1 rfl (.sent rfl (by decide))
  have h := h.task 0 rfl .cancel
  have h := h.task 1 rfl .cancel
  have h := h.task 0 rfl .release
  have h := h.task 1 rfl .release
  have h := h.main .next
  have h := h.main (.wait rfl)
  exact ⟨_, _, h, rfl, rfl, rfl, rfl⟩

theorem emits_exactly_one : ∃ log x, Run (pair [0, 1] (some 1)) log x ∧
    (yields (pair [0, 1] (some 1))).length = 2 ∧ (log.tally emission).length = 1 := by
  obtain ⟨log, x, h, hx, hc, -⟩ := pair_limited
  have hy : (yields (pair [0, 1] (some 1))).length = 2 := rfl
  have he := ((emits_exactly h).right.right.right hx hc).left
  exact ⟨log, x, h, hy, by rw [he, hy]; rfl⟩

end CheckStream
