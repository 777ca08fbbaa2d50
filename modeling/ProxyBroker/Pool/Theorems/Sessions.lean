import ProxyBroker.Pool.State

namespace Pool.State

variable {c : Config} {s : State} {k k' : ClientKey} {a : Key} {victim : Nat}

-- The clients that are pinned to a proxy.
def clients (s : State) : List ClientKey :=
  s.sessions.map Prod.fst

-- The sessions that remain if there has to be room for another client.
def kept (s : State) (c : Config) (k : ClientKey) (victim : Nat) : List (ClientKey × Key) :=
  if c.maxSessions ≤ s.sessions.length && (s.pin k).isNone
  then s.sessions.eraseIdx (victim % s.sessions.length)
  else s.sessions

theorem recordSession_sessions :
    (s.recordSession c k a victim).sessions = (k, a) :: (s.kept c k victim).filter (·.1 ≠ k) :=
  rfl

theorem pin_isSome_iff : (s.pin k).isSome ↔ k ∈ s.clients := by
  rw [pin, List.lookup_isSome_iff, clients, List.mem_map]
  simp only [beq_iff_eq]
  exact exists_congr fun e => and_congr_right fun _ => eq_comm

theorem kept_sublist : (s.kept c k victim).Sublist s.sessions := by
  unfold kept
  split_ifs
  · exact List.eraseIdx_sublist _ _
  · exact List.Sublist.refl _

theorem kept_of_room (h : k ∈ s.clients ∨ s.sessions.length < c.maxSessions) : s.kept c k victim = s.sessions := by
  refine if_neg fun hb => ?_
  rw [Bool.and_eq_true, decide_eq_true_eq, Option.isNone_iff_eq_none] at hb
  rcases h with h | h
  · rw [← pin_isSome_iff, hb.right] at h
    cases h
  · omega

-- The client that has just been served is pinned.
@[simp]
theorem pin_recordSession : (s.recordSession c k a victim).pin k = some a := by
  simp [pin, recordSession_sessions]

theorem lookup_filter_ne {l : List (ClientKey × Key)} (h : k' ≠ k) : (l.filter (·.1 ≠ k)).lookup k' = l.lookup k' := by
  induction l
  case nil => rfl
  case cons e l hi =>
    by_cases he : e.1 = k
    · have hb : (k' == e.1) = false := by simpa [he] using h
      rw [List.filter_cons_of_neg (by simpa using he), hi, List.lookup_cons, hb]
    · rw [List.filter_cons_of_pos (by simpa using he), List.lookup_cons, List.lookup_cons, hi]

-- As long as there is room for everyone, the other clients keep their pins.
theorem pin_recordSession_of_ne (h : k' ≠ k) (hr : k ∈ s.clients ∨ s.sessions.length < c.maxSessions) :
    (s.recordSession c k a victim).pin k' = s.pin k' := by
  have hb : (k' == k) = false := by simpa using h
  rw [pin, recordSession_sessions, kept_of_room hr, List.lookup_cons, hb, lookup_filter_ne h, pin]

theorem recordSession_clients_subset : (s.recordSession c k a victim).clients ⊆ k :: s.clients := by
  rw [clients, recordSession_sessions, List.map_cons]
  exact List.cons_subset_cons k <| ((List.filter_sublist.trans kept_sublist).map _).subset

theorem recordSession_clients_nodup (h : s.clients.Nodup) : (s.recordSession c k a victim).clients.Nodup := by
  rw [clients, recordSession_sessions, List.map_cons, List.nodup_cons]
  refine ⟨by simp, h.sublist <| (List.filter_sublist.trans kept_sublist).map _⟩

-- The bound on the number of sessions is kept, but at least one session is.
theorem recordSession_length_le (h : s.sessions.length ≤ max 1 c.maxSessions) :
    (s.recordSession c k a victim).sessions.length ≤ max 1 c.maxSessions := by
  rw [recordSession_sessions, List.length_cons]
  have hl := List.length_filter_le (·.1 ≠ k) (s.kept c k victim)
  by_cases hk : k ∈ s.clients
  case pos =>
    rw [kept_of_room (.inl hk)] at hl ⊢
    obtain ⟨e, he, hek⟩ := List.mem_map.mp hk
    have : (s.sessions.filter (·.1 ≠ k)).length < s.sessions.length :=
      List.length_filter_lt_length_iff_exists.mpr ⟨e, he, by simpa using hek⟩
    omega
  case neg =>
    by_cases hr : s.sessions.length < c.maxSessions
    case pos =>
      rw [kept_of_room (.inr hr)] at hl ⊢
      omega
    case neg =>
      have hn : s.pin k = none := by rwa [← pin_isSome_iff, Option.not_isSome_iff_eq_none] at hk
      have he : s.kept c k victim = s.sessions.eraseIdx (victim % s.sessions.length) :=
        if_pos (by simpa using ⟨not_lt.mp hr, hn⟩)
      rw [he] at hl ⊢
      rcases Nat.eq_zero_or_pos s.sessions.length with h₀ | h₀
      · have := List.length_eraseIdx_le s.sessions (victim % s.sessions.length)
        omega
      · have := List.length_eraseIdx_of_lt (Nat.mod_lt victim h₀)
        omega

end Pool.State
