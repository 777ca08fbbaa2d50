import ProxyBroker.Scheduler.Theorems.Contract

namespace Scheduler

def Schedule.keys (s : Schedule) : List Key :=
  s.heap.map Scheduled.key

-- The bookkeeping is about the given addresses, each of which occurs once.
structure Kept (ks : List Key) (s : Schedule) : Prop where
  nodup    : ks.Nodup
  ewma     : ∀ k, k ∈ ks ↔ s.ewma k ≠ none
  lastOk   : ∀ k, k ∈ ks ↔ s.lastOk k ≠ none
  retrying : ∀ k, s.retrying k = true → k ∈ ks
  rate     : ∀ k v, s.ewma k = some v → 0 < v ∧ v ≤ 1

namespace Kept

variable {s s' : Schedule} {ks ks' : List Key} {k : Key} {tr : Trace Effects}

theorem start (now : Instant) : Kept [] (.start now) where
  nodup        := .nil
  ewma _       := by simp [Schedule.start]
  lastOk _     := by simp [Schedule.start]
  retrying _ h := nomatch h
  rate _ _ h   := nomatch h

theorem perm (h : Kept ks s) (hp : ks.Perm ks') : Kept ks' s where
  nodup        := hp.nodup h.nodup
  ewma k       := by rw [← hp.mem_iff, h.ewma]
  lastOk k     := by rw [← hp.mem_iff, h.lastOk]
  retrying k r := hp.mem_iff.mp (h.retrying k r)
  rate         := h.rate

-- The heap and the time of the next start do not matter.
theorem congr (h : Kept ks s) (heap : List Scheduled) (start : Instant) :
    Kept ks { s with heap := heap, nextStart := start } :=
  ⟨h.nodup, h.ewma, h.lastOk, h.retrying, h.rate⟩

theorem enrolled (h : Kept ks s) (hk : k ∉ ks) (now : Instant) : Kept (k :: ks) (s.enrolled now k) where
  nodup        := List.nodup_cons.mpr ⟨hk, h.nodup⟩
  ewma k'      := by
    by_cases hk' : k' = k
    · simp [Schedule.enrolled, hk']
    · simp [Schedule.enrolled, hk', h.ewma]
  lastOk k'    := by
    by_cases hk' : k' = k
    · simp [Schedule.enrolled, hk']
    · simp [Schedule.enrolled, hk', h.lastOk]
  retrying k' r := List.mem_cons_of_mem _ (h.retrying k' r)
  rate k' v hv  := by
    by_cases hk' : k' = k
    · simp only [Schedule.enrolled, hk', Function.update_self, Option.some.injEq] at hv
      norm_num [← hv]
    · exact h.rate k' v (by simpa [Schedule.enrolled, hk'] using hv)

theorem forget (h : Kept (k :: ks) s) (hr : s.retrying k = false) : Kept ks (s.forget k) := by
  have ⟨hk, hn⟩ := List.nodup_cons.mp h.nodup
  constructor
  case nodup => exact hn
  case ewma =>
    intro k'
    by_cases hk' : k' = k
    · simp [Schedule.forget, hk', hk]
    · simp [Schedule.forget, hk', ← h.ewma]
  case lastOk =>
    intro k'
    by_cases hk' : k' = k
    · simp [Schedule.forget, hk', hk]
    · simp [Schedule.forget, hk', ← h.lastOk]
  case retrying =>
    intro k' r
    rcases List.mem_cons.mp (h.retrying k' r) with rfl | hm
    · exact absurd (hr.symm.trans r) Bool.false_ne_true
    · exact hm
  case rate =>
    intro k' v hv
    by_cases hk' : k' = k
    · simp [Schedule.forget, hk'] at hv
    · exact h.rate k' v (by simpa [Schedule.forget, hk'] using hv)

theorem fold (h : Kept ks s) (hk : k ∈ ks) (working : Bool) : Kept ks (s.fold k working).2 := by
  constructor
  case nodup    => exact h.nodup
  case lastOk   => exact h.lastOk
  case retrying => exact h.retrying
  case ewma =>
    intro k'
    by_cases hk' : k' = k
    · simp [Schedule.fold, hk', hk]
    · simp [Schedule.fold, hk', h.ewma]
  case rate =>
    intro k' v hv
    by_cases hk' : k' = k
    case neg => exact h.rate k' v (by simpa [Schedule.fold, hk'] using hv)
    -- The new rate is a convex combination of the sample and the old one.
    obtain ⟨w, hw⟩ := Option.ne_none_iff_exists'.mp ((h.ewma k).mp hk)
    obtain ⟨h₀, h₁⟩ := h.rate k w hw
    simp only [Schedule.fold, hk', hw, Function.update_self, Option.getD_some, Option.some.injEq] at hv
    subst hv
    split <;> constructor <;> linarith

theorem setRetrying (h : Kept ks s) (hk : k ∈ ks) (b : Bool) : Kept ks (s.setRetrying k b) where
  nodup         := h.nodup
  ewma          := h.ewma
  lastOk        := h.lastOk
  rate          := h.rate
  retrying k' r := by
    by_cases hk' : k' = k
    · exact hk' ▸ hk
    · exact h.retrying k' (by simpa [Schedule.setRetrying, hk'] using r)

theorem succeeded (h : Kept ks s) (hk : k ∈ ks) (now : Instant) :
    Kept ks { s with lastOk := Function.update s.lastOk k (some now) } where
  nodup     := h.nodup
  ewma      := h.ewma
  retrying  := h.retrying
  rate      := h.rate
  lastOk k' := by
    by_cases hk' : k' = k
    · simp [hk', hk]
    · simp [hk', h.lastOk]

theorem enrols (h : Kept s.keys s) (he : Enrols ks s s') :
    Kept s'.keys s' ∧ s.keys ⊆ s'.keys ∧ ks ⊆ s'.keys := by
  induction he
  case nil => exact ⟨h, List.Subset.refl _, List.nil_subset _⟩
  case known k ks s s' hk _ hi =>
    have ⟨h', hs, hks⟩ := hi h
    exact ⟨h', hs, List.cons_subset.mpr ⟨hs ((h.ewma k).mpr hk), hks⟩⟩
  case new k ks s s' now due hk _ hi =>
    have hn : k ∉ s.keys := fun hm => (h.ewma k).mp hm hk
    have ⟨h', hs, hks⟩ := hi ((h.enrolled hn now).congr ..)
    have ⟨hk, hs⟩ := List.cons_subset.mp hs
    exact ⟨h', hs, List.cons_subset.mpr ⟨hk, hks⟩⟩

theorem pop {start : Instant} {tie : Nat} {e : Scheduled} (h : Kept s.keys s)
    (hp : { s with nextStart := start }.pop tie = some (e, s')) : Kept (e.key :: s'.keys) s' := by
  obtain ⟨he, rfl⟩ := pop_inv hp
  exact (h.perm ((List.perm_cons_erase he).map Scheduled.key)).congr ..

theorem treated (h : Kept (k :: s.keys) s) (ht : Treated s k tr s') : Kept s'.keys s' := by
  have hk : k ∈ k :: s.keys := List.mem_cons_self
  cases ht
  case dropped hr _ => exact h.forget hr
  case working now due _ =>
    exact (((h.fold hk true).succeeded hk now).setRetrying hk false).congr ..
  case retried => exact ((h.fold hk false).setRetrying hk true).congr ..
  case evicted => exact ((h.fold hk false).setRetrying hk false).forget (by simp [Schedule.setRetrying])

end Kept

-- In between two phases, all addresses are accounted for.
def Phase.Kept : Phase → Prop
  | start         => True
  | head s        => Scheduler.Kept s.keys s
  | enrolled ks s => Scheduler.Kept s.keys s ∧ ks ⊆ s.keys
  | job s k       => Scheduler.Kept (k :: s.keys) s

theorem Phase.Kept.leads {ph ph' : Phase} {tr : Trace Effects} (h : ph.Kept) (hl : ph.Leads (some ph') tr) :
    ph'.Kept := by
  cases ph
  case start =>
    obtain ⟨now, ⟨⟩⟩ := hl
    exact .start now
  case head =>
    obtain ⟨ks, s, ⟨⟩, -, he⟩ := hl
    have ⟨h', _, hks⟩ := Scheduler.Kept.enrols h he
    exact ⟨h', hks⟩
  case enrolled =>
    cases hl
    case head   => exact h.left
    case job hp => exact h.left.pop hp
  case job =>
    obtain ⟨s, ⟨⟩, ht⟩ := hl
    exact Scheduler.Kept.treated h ht

-- At the head of every iteration, the schedule is about the addresses in the heap, and these include the
-- ones that were just found in the pool.
theorem schedule_kept {cfg : RecheckConfig} {tr : Trace Effects} {i : Iteration Effects Phase} {ks : List Key}
    {s : Schedule} (h : Iteration.Runs (Phase.body cfg) .start tr (some i)) (hi : i.state = .enrolled ks s) :
    Kept s.keys s ∧ ks ⊆ s.keys := by
  have := h.invariant Phase.body_spec trivial (fun _ _ _ hk hl => Phase.Kept.leads hk hl) i rfl
  rwa [hi] at this

namespace RecheckExample

def eager : RecheckConfig where
  minInterval   := 0
  maxInterval   := 0
  ratePerSec    := 1
  decayHalflife := 0
  halving       := fun _ => 1

def addr : Key where
  host := .v4 10 0 0 1
  port := 8080

end RecheckExample

open RecheckExample in
theorem schedule_kept_single :
    ∃ tr i ks s, Iteration.Runs (Phase.body eager) .start tr (some i) ∧ i.state = .enrolled ks s ∧
      s.keys = [addr] ∧ Kept s.keys s ∧ ks ⊆ s.keys := by
  have h : Iteration.Runs (Phase.body eager) .start [] _ := .refl
  have h := h.event (0 : Instant)
  have h := h.event (0 : Instant)
  have h := h.event [addr]
  have h := h.event (5 : Duration)
  exact ⟨_, _, _, _, h, rfl, rfl, schedule_kept h rfl⟩

end Scheduler
