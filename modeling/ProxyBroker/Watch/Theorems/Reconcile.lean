import ProxyBroker.Keyed.Reconcile
import ProxyBroker.Pool.Theorems.State
import ProxyBroker.Pool.Theorems.Total
import ProxyBroker.Watch.Reload

open Pool

namespace Watch

variable {c : Config} {s : State} {want current ks : List Key} {desired : List Proxy}

theorem removeStale_total : (machine c).Total (removeStale want ks)
    (fun _ s' => s' = { s with state := s.state.filter fun e => e.proxy.key ∈ ks → e.proxy.key ∈ want }) s := by
  induction ks generalizing s
  case nil => simp [removeStale]
  case cons k ks hi =>
    unfold removeStale
    rw [Machine.total_bind, when_total]
    by_cases hk : k ∈ want
    case pos =>
      have he : (s.state.filter fun e => e.proxy.key ∈ k :: ks → e.proxy.key ∈ want) =
          s.state.filter fun e => e.proxy.key ∈ ks → e.proxy.key ∈ want := by
        refine List.filter_congr fun e _ => decide_eq_decide.mpr ?_
        rw [List.mem_cons]
        exact ⟨fun h he => h (.inr he), fun h he => he.elim (fun he => he ▸ hk) h⟩
      rw [if_neg (not_not.mpr hk), he]
      exact hi
    case neg =>
      have he : (s.state.filter fun e => e.proxy.key ∈ k :: ks → e.proxy.key ∈ want) =
          (s.remove k).state.filter fun e => e.proxy.key ∈ ks → e.proxy.key ∈ want := by
        rw [State.remove, List.filter_filter]
        refine List.filter_congr fun e _ => ?_
        rw [← Bool.decide_and, decide_eq_decide, List.mem_cons]
        have hn : e.proxy.key = k → e.proxy.key ∉ want := fun h => h ▸ hk
        tauto
      rw [if_pos hk, Machine.total_bind, remove_total, Machine.total_pure, he]
      exact hi (s := s.remove k)

-- The addresses that are known are those that the pool has had, and those that were added to it since.
theorem addMissing_total (known : List Key) (hk : ∀ k, k ∈ known ↔ k ∈ current ∨ ∃ e ∈ s.state, e.proxy.key = k) :
    (machine c).Total (addMissing current desired)
      (fun _ s' => s' = { s with state := s.state ++ (List.firsts Proxy.key known desired).map (⟨·, none⟩) }) s := by
  induction desired generalizing s known
  case nil => simp [addMissing, List.firsts]
  case cons p ps hi =>
    unfold addMissing
    rw [Machine.total_bind, when_total, List.firsts]
    by_cases hc : p.key ∈ current
    case pos =>
      rw [if_neg (not_not.mpr hc), if_pos ((hk _).mpr (.inl hc))]
      exact hi known hk
    case neg =>
      rw [if_pos hc, add_total, State.add]
      have ha : s.state.any (·.proxy.key = p.key) = true ↔ p.key ∈ known := by simp [hk, hc]
      by_cases hp : p.key ∈ known
      case pos =>
        rw [if_pos hp, if_pos (ha.mpr hp)]
        exact hi known hk
      case neg =>
        rw [if_neg hp, if_neg (mt ha.mp hp)]
        have hk' : ∀ k, k ∈ p.key :: known ↔ k ∈ current ∨ ∃ e ∈ (s.push ⟨p, none⟩).state, e.proxy.key = k := by
          intro k
          simp only [List.mem_cons, hk, State.push, List.mem_append, List.not_mem_nil, or_false, or_and_right, exists_or,
            exists_eq_left, eq_comm (a := k)]
          rw [or_comm, or_assoc]
        refine (hi _ hk').mono fun _ s' h => h.trans ?_
        simp [State.push]

-- The pool after it was reconciled.
def reconciled (s : State) (desired : List Proxy) : State :=
  { s with state := List.reconcile Proxy.key (·.proxy.key) (⟨·, none⟩) s.state desired }

theorem reconcile_total (s : State) :
    (machine c).Total (reconcile desired) (fun _ s' => s' = reconciled s desired) s := by
  have hs : (s.state.filter fun e => e.proxy.key ∈ s.addrs → e.proxy.key ∈ desired.map Proxy.key) =
      s.state.filter (·.proxy.key ∈ desired.map Proxy.key) := by
    refine List.filter_congr fun e he => decide_eq_decide.mpr ?_
    exact ⟨fun h => h (State.mem_addrs.mpr (List.mem_map_of_mem he)), fun h _ => h⟩
  unfold reconcile
  rw [Machine.total_bind]
  refine addrs_total.mpr ?_
  rw [Machine.total_bind]
  refine removeStale_total.mono ?_
  rintro _ _ rfl
  rw [hs]
  refine (addMissing_total (s.state.map fun e : Pooled => e.proxy.key) fun k => ?_).mono fun _ _ h => h
  simp only [State.mem_addrs, List.mem_map, List.mem_filter]
  constructor
  · exact .inl
  · rintro (h | ⟨e, ⟨he, -⟩, h⟩)
    · exact h
    · exact ⟨e, he, h⟩

-- What is expected of a pool after it was reconciled, and what nothing else changes about it.
structure Reconciled (c : Config) (desired : List Proxy) (s s' : State) : Prop where
  addrs : ∀ k, k ∈ s'.addrs ↔ k ∈ desired.map Proxy.key
  kept  : s'.state.filter (·.proxy.key ∈ s.addrs) = s.state.filter (·.proxy.key ∈ desired.map Proxy.key)
  added : ∀ k ∉ s.addrs, s'.state.filter (·.proxy.key = k) = (desired.find? (·.key = k)).toList.map (⟨·, none⟩)
  frame : s' = { s with state := s'.state }
  again : (machine c).Total (reconcile desired) (fun _ s'' => s'' = s') s'

theorem Reconciled.of_reconciled (s : State) : Reconciled c desired s (reconciled s desired) where
  addrs k := State.mem_addrs.trans (List.mem_map_reconcile fun _ => rfl)
  kept    := by
    simp only [State.mem_addrs]
    exact List.filter_reconcile_old fun _ => rfl
  added k hk := List.filter_reconcile_new (fun _ => rfl) (mt State.mem_addrs.mpr hk)
  frame   := rfl
  again   := by
    have hs : (reconciled (reconciled s desired) desired).state = (reconciled s desired).state :=
      List.reconcile_reconcile fun _ => rfl
    have hr : reconciled (reconciled s desired) desired = reconciled s desired :=
      congrArg (fun es => { s with state := es }) hs
    have ht : (machine c).Total (reconcile desired) (fun _ s' => s' = reconciled (reconciled s desired) desired) _ :=
      reconcile_total (reconciled s desired)
    rwa [hr] at ht

-- The watcher brings the pool up to date with its file, unless the file cannot be read.
theorem reconcile_reconciles (c : Config) (s : State) :
    (∀ desired, (machine c).Total (reconcile desired) (fun _ s' => Reconciled c desired s s') s) ∧
    ∀ S file, (machine c).Total (onChange S file)
      (fun _ s' => (reload S file).elim (s' = s) fun desired => Reconciled c desired s s') s := by
  have hr (desired : List Proxy) : (machine c).Total (reconcile desired) (fun _ s' => Reconciled c desired s s') s :=
    (reconcile_total s).mono fun _ _ h => h ▸ .of_reconciled s
  refine ⟨hr, fun S file => ?_⟩
  unfold onChange
  cases reload S file
  case none         => rfl
  case some desired => exact hr desired

end Watch
