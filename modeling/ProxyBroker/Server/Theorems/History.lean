import ProxyBroker.Server.History
import ProxyBroker.Pool.Theorems.Sessions
import ProxyBroker.Pool.Theorems.Frame

open Pool

-- The value that a trace has recorded last for a key.
def Trace.lastRecord (k : Str) (tr : Trace Effects) : Option Str :=
  tr.foldl (fun v e => match e with
    | ⟨.history (.record k' v'), _⟩ => if k' = k then some v' else v
    | _                             => v) none

namespace Trace

variable {k k' v : Str} {tr : Trace Effects} {e : Event Effects}

theorem lastRecord_record (r : Effects.Ret (.history (.record k' v))) :
    lastRecord k (tr ++ [⟨.history (.record k' v), r⟩]) = if k' = k then some v else lastRecord k tr := by
  simp [lastRecord]

theorem lastRecord_of_not_record (h : ∀ k v, e.op ≠ .history (.record k v)) :
    lastRecord k (tr ++ [e]) = lastRecord k tr := by
  rw [lastRecord, List.foldl_append, List.foldl_cons, List.foldl_nil, ← lastRecord]
  obtain ⟨o, r⟩ := e
  cases o
  case history o =>
    cases o
    case record k v => exact absurd rfl (h k v)
    case get        => rfl
  all_goals rfl

end Trace

namespace Server

variable {c : Config} {k k' v : Str} {h : History} {s s₀ s' : Shared} {tr : Trace Effects} {e : Event Effects}

namespace History

theorem record_length_le (hl : h.map.keys.length ≤ cap) : (h.record k v).map.keys.length ≤ cap := by
  rw [record]
  dsimp only
  split_ifs with hc
  · rw [Table.length_insert, if_neg (AList.notMem_empty k)]
    decide
  · rw [Table.length_insert]
    split_ifs with hk
    · exact hl
    · simp only [not_and, not_not] at hc
      exact Nat.lt_of_not_le fun hn => hk (hc hn)

@[simp]
theorem get_record : (h.record k v).get k = some v :=
  AList.lookup_insert _

-- Another entry is kept, or the map has been cleared.
theorem get_record_of_ne (hk : k' ≠ k) : (h.record k v).get k' = none ∨ (h.record k v).get k' = h.get k' := by
  rw [get, record, AList.lookup_insert_ne hk]
  split_ifs
  · exact .inl rfl
  · exact .inr rfl

end History

-- What the tasks of a server share after they have performed the events of `tr`.
structure Shared.Keeps (c : Config) (tr : Trace Effects) (s : Shared) : Prop where
  sessions : s.pool.sessions.length ≤ max 1 c.maxSessions
  pinned   : ∀ tr' k a r, tr = tr' ++ [⟨.pool (.recordSession k a), r⟩] → s.pool.pin k = some a
  bounded  : s.history.map.keys.length ≤ History.cap
  faithful : ∀ k, s.history.get k = none ∨ s.history.get k = tr.lastRecord k

theorem Shared.Starts.keeps (h : s.Starts c) : s.Keeps c [] := by
  cases h <;> exact ⟨Nat.zero_le _, by simp, Nat.zero_le _, fun _ => .inl rfl⟩

theorem Shared.answers_pool (h : Shared.answers c s e s') : (Pool.machine c).answers s.pool e s'.pool := by
  obtain ⟨o, r⟩ := e
  cases o
  case history => exact h.left
  all_goals exact h.left

theorem Shared.answers_history {o : Op} {r : o.Ret} (h : Shared.answers c s ⟨o, r⟩ s') (hn : ∀ k v, o ≠ .history (.record k v)) :
    s'.history = s.history := by
  cases o
  case history o =>
    cases o
    case record k v => exact absurd rfl (hn k v)
    case get        => exact h.right.right
  all_goals exact h.right

theorem Shared.Keeps.answers (hk : s.Keeps c tr) (h : Shared.answers c s e s') : s'.Keeps c (tr ++ [e]) := by
  obtain ⟨o, r⟩ := e
  have hp := answers_pool h
  have hs : s'.pool.sessions.length ≤ max 1 c.maxSessions ∧
      ∀ k a, o = .pool (.recordSession k a) → s'.pool.pin k = some a := by
    by_cases ho : ∃ k a, o = .pool (.recordSession k a)
    case pos =>
      obtain ⟨k, a, rfl⟩ := ho
      obtain ⟨victim, hv⟩ : ∃ victim, s'.pool = s.pool.recordSession c k a victim := hp
      rw [hv]
      refine ⟨State.recordSession_length_le hk.sessions, ?_⟩
      rintro _ _ ⟨⟩
      exact State.pin_recordSession
    case neg =>
      push Not at ho
      rw [(answers_frame hp).sessions ho]
      exact ⟨hk.sessions, fun k a h => absurd h (ho k a)⟩
  have hh : s'.history.map.keys.length ≤ History.cap ∧
      ∀ k, s'.history.get k = none ∨ s'.history.get k = Trace.lastRecord k (tr ++ [⟨o, r⟩]) := by
    by_cases ho : ∃ k v, o = .history (.record k v)
    case pos =>
      obtain ⟨k, v, rfl⟩ := ho
      rw [(h.right : s'.history = s.history.record k v)]
      refine ⟨History.record_length_le hk.bounded, fun k' => ?_⟩
      rw [Trace.lastRecord_record]
      split_ifs with he
      · exact .inr (he ▸ History.get_record)
      · rcases History.get_record_of_ne (Ne.symm he) with h | h <;> rw [h]
        · exact .inl rfl
        · exact hk.faithful k'
    case neg =>
      push Not at ho
      rw [answers_history h ho]
      refine ⟨hk.bounded, fun k => ?_⟩
      rw [Trace.lastRecord_of_not_record (e := ⟨o, r⟩) ho]
      exact hk.faithful k
  refine ⟨hs.left, fun tr' k a r' ht => ?_, hh.left, hh.right⟩
  obtain ⟨-, he⟩ := List.append_inj' ht rfl
  cases he
  exact hs.right k a rfl

-- No matter who performs the events.
theorem keeps (hs : s₀.Starts c) (h : (Shared.machine c).Takes s₀ tr s) : s.Keeps c tr :=
  h.invariant hs.keeps fun _ _ _ _ => Shared.Keeps.answers

-- What is read is what was recorded last, unless it has been forgotten.
theorem get_faithful {pre suf : Trace Effects} {r : Option Str} (hs : s₀.Starts c)
    (h : (Shared.machine c).Takes s₀ (pre ++ ⟨.history (.get k), r⟩ :: suf) s) : r = none ∨ r = pre.lastRecord k := by
  obtain ⟨s₁, s₂, h₁, ha⟩ := h.around
  obtain ⟨-, rfl, -⟩ : _ ∧ r = s₁.history.get k ∧ _ := ha
  exact (keeps hs h₁).faithful k

end Server
