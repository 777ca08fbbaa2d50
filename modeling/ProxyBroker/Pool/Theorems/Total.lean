import ProxyBroker.Pool.Machine
import ProxyBroker.Resumption.Total

-- What the operations on a pool do while no other task works on it.
namespace Pool

variable {c : Config} {s : State} {k : Key} {p : Proxy} {b : Prop} [Decidable b]

theorem when_total {q : Async Unit} {post : Unit → State → Prop} :
    (machine c).Total (Async.when b q) post s ↔ if b then (machine c).Total q post s else post () s := by
  unfold Async.when
  split_ifs <;> rfl

theorem remove_total {post : Bool → State → Prop} : (machine c).Total (Pool.remove k) post s ↔
    post (decide (s.state.length ≠ (s.remove k).state.length)) (s.remove k) :=
  Machine.Total.iff_of_eq <| .step ⟨rfl, rfl⟩ (fun _ _ h => h) ⟨rfl, rfl⟩

theorem add_total {g : Giver} {post : Unit → State → Prop} :
    (machine c).Total (Async.exec (.add g p)) post s ↔ post () (s.add p) :=
  Machine.Total.iff_of_eq <| .step (r := ()) rfl (fun _ _ h => ⟨rfl, h⟩) ⟨rfl, rfl⟩

theorem addrs_total {post : List Key → State → Prop} :
    (machine c).Total (Async.pool .addrs) post s ↔ post s.addrs s :=
  Machine.Total.iff_of_eq <| .step ⟨rfl, rfl⟩ (fun _ _ h => h) ⟨rfl, rfl⟩

theorem State.mem_addrs : k ∈ s.addrs ↔ k ∈ s.state.map (·.proxy.key) := by
  simp [addrs]

-- If the pool has shrunk, then there was an entry with the address.
theorem length_remove_iff : s.state.length ≠ (s.remove k).state.length ↔ ∃ e ∈ s.state, e.proxy.key = k := by
  rw [Ne, eq_comm, State.remove, List.length_filter_eq_length_iff]
  simp

end Pool
