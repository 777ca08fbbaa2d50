import ProxyBroker.Pool.Machine

namespace Pool

section Selection

variable {pool : List Pooled} {ctx : SelectCtx} {i : Nat}

-- The entries of `pool` that can be chosen, given which of them are ready.
theorem mem_tierOf {ready : Bool} :
    i ∈ tierOf pool ctx ready ↔
    ∃ e, pool[i]? = some e ∧ eligible ctx.scheme e = true ∧ isReady ctx.now e = ready := by
  simp only [tierOf, List.mem_map, List.mem_filter, decide_eq_true_eq, Prod.exists,
    List.mk_mem_zipIdx_iff_getElem?]
  constructor
  · rintro ⟨e, _, ⟨⟨he, hs⟩, hr⟩, rfl⟩
    exact ⟨e, he, hs, hr⟩
  · rintro ⟨e, he, hs, hr⟩
    exact ⟨e, i, ⟨⟨he, hs⟩, hr⟩, rfl⟩

theorem minBy_mem {α : Type} {compare : α → α → Ordering} {l : List α} {a : α}
    (h : minBy compare l = some a) : a ∈ l := by
  have fold (l : List α) (m : α) :
      l.foldl (fun m b => if compare m b = .gt then b else m) m ∈ m :: l := by
    induction l generalizing m
    case nil => simp
    case cons b l hi =>
      have := hi (if compare m b = .gt then b else m)
      simp only [List.foldl_cons, List.mem_cons] at this ⊢
      split_ifs at this ⊢ <;> tauto
  cases l
  case nil       => simp [minBy] at h
  case cons b bs =>
    cases h
    exact fold bs b

theorem connectBiased_subset {tier : List Nat} {prefer : Bool} :
    connectBiased pool tier prefer ⊆ tier := by
  unfold connectBiased
  split_ifs
  · exact List.Subset.refl _
  · dsimp only
    split_ifs
    · exact List.Subset.refl _
    · exact List.filter_subset_self _

-- Whatever the strategy is, the chosen entry is ready unless none is.
theorem bestFor_mem {rand : Nat → Nat} (h : bestFor pool ctx rand = some i) :
    ∃ ready, i ∈ tierOf pool ctx ready := by
  unfold bestFor at h
  dsimp only at h
  set tier := if tierOf pool ctx true = [] then tierOf pool ctx false else tierOf pool ctx true with ht
  have key : i ∈ tier := by
    split_ifs at h with hn
    split at h
    · exact minBy_mem h
    · exact connectBiased_subset <| List.mem_of_getElem? h
    · exact connectBiased_subset <| List.mem_of_getElem? h
    · simp only [Option.orElse_eq_or, Option.or_eq_some_iff, Option.bind_eq_some_iff] at h
      rcases h with ⟨k, -, h⟩ | ⟨-, h⟩
      · exact List.mem_of_find?_eq_some h
      · exact minBy_mem h
  rw [ht] at key
  split_ifs at key
  · exact ⟨false, key⟩
  · exact ⟨true, key⟩

theorem bestFor_spec {rand : Nat → Nat} (h : bestFor pool ctx rand = some i) :
    ∃ e, pool[i]? = some e ∧ eligible ctx.scheme e = true := by
  obtain ⟨ready, h⟩ := bestFor_mem h
  obtain ⟨e, he, hs, -⟩ := mem_tierOf.mp h
  exact ⟨e, he, hs⟩

end Selection

theorem swapRemove_perm {α : Type} {l : List α} {i : Nat} {x : α} (h : l[i]? = some x) :
    (x :: swapRemove l i).Perm l := by
  obtain ⟨hi, rfl⟩ := List.getElem?_eq_some_iff.mp h
  cases l using List.reverseRecOn
  case nil => simp at hi
  case append_singleton l z _ =>
    have hs : swapRemove (l ++ [z]) i = ((l ++ [z]).set i z).dropLast := by simp [swapRemove]
    rw [hs]
    by_cases hn : i < l.length
    · rw [List.set_append_left _ _ hn, List.dropLast_concat, List.getElem_append_left hn]
      calc l[i] :: l.set i z
        _ |>.Perm (l[i] :: z :: l.eraseIdx i) := (List.set_perm_cons_eraseIdx hn z).cons _
        _ |>.Perm (z :: l[i] :: l.eraseIdx i) := .swap ..
        _ |>.Perm (z :: l)                    := (List.getElem_cons_eraseIdx_perm hn).cons _
        _ |>.Perm (l ++ [z])                  := (List.perm_append_singleton z l).symm
    · have hn : i = l.length := by simp at hi; omega
      subst hn
      simpa using (List.perm_append_singleton z l).symm

namespace State

variable {c : Config} {s s' : State}

def proxies (s : State) : List Proxy :=
  s.state.map (·.proxy)

-- A proxy that is selected is taken out of the pool, and nothing else happens to the pool.
theorem select_perm {ctx : SelectCtx} {r : Option Proxy} (h : (r, s') = s.select ctx) :
    (s'.proxies ++ r.toList).Perm s.proxies ∧ s'.evictions = s.evictions := by
  unfold select at h
  split at h
  · cases h
    simp
  case h_2 i hb =>
    obtain ⟨e, he, -⟩ := bestFor_spec hb
    cases h
    simp only [he, Option.map_some, Option.toList_some, proxies, and_true]
    refine (List.perm_append_singleton _ _).trans ?_
    simpa using (swapRemove_perm he).map Pooled.proxy

theorem tryGet_perm {scheme : Scheme} {cc : Option Str} {r : Option Proxy}
    (h : (r, s') = s.tryGet c scheme cc) :
    (s'.proxies ++ r.toList).Perm s.proxies ∧ s'.evictions = s.evictions := by
  unfold tryGet at h
  dsimp only at h
  split at h
  · cases h
    simp
  case h_2 i hb =>
    obtain ⟨e, he⟩ : ∃ e, s.state[i]? = some e := by
      have := minBy_mem hb
      simp only [List.mem_map, List.mem_filter, Prod.exists, List.mk_mem_zipIdx_iff_getElem?] at this
      obtain ⟨e, _, ⟨⟨he, -⟩, -⟩, rfl⟩ := this
      exact ⟨e, he⟩
    cases h
    simp only [he, Option.map_some, Option.toList_some, proxies, and_true]
    obtain ⟨hi, rfl⟩ := List.getElem?_eq_some_iff.mp he
    refine (List.perm_append_singleton _ _).trans ?_
    simpa using (List.getElem_cons_eraseIdx_perm hi).map Pooled.proxy

end State

-- The proxies that an operation puts into the pool.
def entering (s : State) : Op → List Proxy
  | .pool (.push _ e) => [e.proxy]
  | .pool (.add _ p)  => if s.state.any (·.proxy.key = p.key) then [] else [p]
  | _                 => []

-- The proxies that an operation deletes from the pool.
def deleting (s : State) : Op → List Proxy
  | .pool (.remove k) => s.proxies.filter (·.key = k)
  | _                 => []

-- The proxies that an operation drops instead of returning them to the pool.
def evicting : Op → List Proxy
  | .pool (.evict p) => [p]
  | _                => []

variable {c : Config} {s s' : State} {e : Event Effects}

-- The contents of a pool only change by what is leased, deleted, or put into it.
theorem answers_perm (h : (machine c).answers s e s') :
    (s'.proxies ++ (e.leases.toList ++ deleting s e.op)).Perm (s.proxies ++ entering s e.op) := by
  obtain ⟨o, r⟩ := e
  cases o
  case pool o =>
    cases o
    case select ctx =>
      have h : (r, s') = s.select ctx := h
      simpa [deleting, entering, Event.leases, PoolOp.leases] using (State.select_perm h).left
    case tryGet scheme cc =>
      have h : (r, s') = s.tryGet c scheme cc := h
      simpa [deleting, entering, Event.leases, PoolOp.leases] using (State.tryGet_perm h).left
    case push g e =>
      cases h
      simp [deleting, entering, Event.leases, PoolOp.leases, State.proxies, State.push]
    case add g p =>
      cases h
      simp only [deleting, entering, Event.leases, PoolOp.leases, State.proxies, State.add]
      split_ifs <;> simp [State.push]
    case remove k =>
      cases h.right
      have hf : (s.remove k).proxies = s.proxies.filter (·.key ≠ k) := by
        simp [State.proxies, State.remove, List.filter_map, Function.comp_def]
      simp only [hf, deleting, entering, Event.leases, PoolOp.leases, Option.toList_none, List.nil_append, List.append_nil]
      refine List.perm_append_comm.trans ?_
      simpa using List.filter_append_perm (fun p : Proxy => decide (p.key = k)) s.proxies
    case recordSession =>
      obtain ⟨victim, rfl⟩ := h
      simp [deleting, entering, Event.leases, PoolOp.leases, State.proxies, State.recordSession]
    case pin | loadExhausted | loadCursor | len | addrs =>
      cases h.right
      simp [deleting, entering, Event.leases, PoolOp.leases]
    all_goals
      cases h
      simp [deleting, entering, Event.leases, PoolOp.leases, State.proxies]
  all_goals
    cases h
    simp [deleting, entering, Event.leases]

-- Only evictions are counted as such.
theorem answers_evictions (h : (machine c).answers s e s') :
    s'.evictions = s.evictions + (evicting e.op).length := by
  obtain ⟨o, r⟩ := e
  cases o
  case pool o =>
    cases o
    case select ctx =>
      have h : (r, s') = s.select ctx := h
      simpa [evicting] using (State.select_perm h).right
    case tryGet scheme cc =>
      have h : (r, s') = s.tryGet c scheme cc := h
      simpa [evicting] using (State.tryGet_perm h).right
    case add g p =>
      cases h
      simp only [evicting, State.add]
      split_ifs <;> simp [State.push]
    case recordSession =>
      obtain ⟨victim, rfl⟩ := h
      simp [evicting, State.recordSession]
    case pin | loadExhausted | loadCursor | len | addrs =>
      cases h.right
      simp [evicting]
    case remove =>
      cases h.right
      simp [evicting, State.remove]
    all_goals
      cases h
      simp [evicting, State.push]
  all_goals
    cases h
    simp [evicting]

end Pool
