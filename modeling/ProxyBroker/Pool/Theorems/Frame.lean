import ProxyBroker.Pool.Theorems.TryGet

namespace Pool

-- The sessions and the rotations change only by the operations that are meant for it.
structure Frame (o : Op) (s s' : State) : Prop where
  sessions  : (∀ k a, o ≠ .pool (.recordSession k a)) → s'.sessions = s.sessions
  rotations : o ≠ .pool .bumpRotations → s'.rotations = s.rotations

variable {c : Config} {s s' : State} {o : Op} {r : o.Ret}

theorem Frame.refl : Frame o s s :=
  ⟨fun _ => rfl, fun _ => rfl⟩

theorem answers_frame (h : (machine c).answers s ⟨o, r⟩ s') : Frame o s s' := by
  cases o
  case pool o =>
    cases o
    case bumpRotations =>
      cases (h : _ = _)
      exact ⟨fun _ => rfl, fun h => absurd rfl h⟩
    case recordSession k a =>
      obtain ⟨victim, rfl⟩ := h
      exact ⟨fun h => absurd rfl (h k a), fun _ => rfl⟩
    case select ctx =>
      rcases State.select_cases (h : (r, s') = s.select ctx) with ⟨-, rfl, -⟩ | ⟨_, _, _, -, -, -, rfl⟩ <;>
        exact ⟨fun _ => rfl, fun _ => rfl⟩
    case tryGet scheme cc =>
      rcases State.tryGet_cases (h : (r, s') = s.tryGet c scheme cc) with ⟨-, rfl, -⟩ | ⟨_, _, -, -, -, rfl⟩ <;>
        exact ⟨fun _ => rfl, fun _ => rfl⟩
    case add p =>
      cases h
      unfold State.add
      split_ifs <;> exact ⟨fun _ => rfl, fun _ => rfl⟩
    case pin | loadExhausted | loadCursor | remove | len | addrs =>
      obtain ⟨-, rfl⟩ := h
      exact ⟨fun _ => rfl, fun _ => rfl⟩
    all_goals cases (h : _ = _); exact ⟨fun _ => rfl, fun _ => rfl⟩
  all_goals cases (h : _ = _); exact .refl

end Pool
