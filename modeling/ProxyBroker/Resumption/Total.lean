import ProxyBroker.Resumption.System

variable {S : Signature} {σ α β : Type}

namespace Machine

open Prog

-- `m.Total p post s` means that `p` never gets stuck if it is the only program that the machine answers to from the
-- state `s` on, and that `post` holds for its result and the final state, no matter which of the possible answers
-- are given.
def Total (m : Machine S σ) : Prog S α → (α → σ → Prop) → σ → Prop
  | ret a,    post, s => post a s
  | call o k, post, s =>
    (∃ r s', m.answers s ⟨o, r⟩ s') ∧ ∀ r s', m.answers s ⟨o, r⟩ s' → Total m (k r) post s'

variable {m : Machine S σ} {p q : Prog S α} {post post' : α → σ → Prop} {s s' : σ} {tr : Trace S}

@[simp]
theorem total_ret (a : α) : m.Total (ret a) post s ↔ post a s :=
  Iff.rfl

@[simp]
theorem total_pure (a : α) : m.Total (pure a) post s ↔ post a s :=
  Iff.rfl

theorem total_call (o : S.Op) (k : S.Ret o → Prog S α) : m.Total (call o k) post s ↔
    (∃ r s', m.answers s ⟨o, r⟩ s') ∧ ∀ r s', m.answers s ⟨o, r⟩ s' → m.Total (k r) post s' :=
  Iff.rfl

@[simp]
theorem total_bind (f : α → Prog S β) (post : β → σ → Prop) :
    m.Total (p >>= f) post s ↔ m.Total p (fun a s => m.Total (f a) post s) s := by
  induction p generalizing s
  case ret a       => rfl
  case call o k hi => simp only [call_bind, total_call, hi]

namespace Total

theorem mono (h : m.Total p post s) (hp : ∀ a s, post a s → post' a s) : m.Total p post' s := by
  induction p generalizing s
  case ret a       => exact hp a s h
  case call o k hi => exact ⟨h.left, fun r s' ha => hi r <| h.right r s' ha⟩

-- An operation that is answered in a single way.
theorem step {o : S.Op} {k : S.Ret o → Prog S α} {r : S.Ret o} (ha : m.answers s ⟨o, r⟩ s')
    (hu : ∀ r' t, m.answers s ⟨o, r'⟩ t → r' = r ∧ t = s') (h : m.Total (k r) post s') : m.Total (.call o k) post s := by
  refine ⟨⟨r, s', ha⟩, fun r' t ha' => ?_⟩
  obtain ⟨rfl, rfl⟩ := hu r' t ha'
  exact h

theorem exec (h : m.Total p post s) (he : m.Exec s p tr s' q) : m.Total q post s' := by
  induction he
  case refl         => exact h
  case call ha _ hi => exact hi <| h.right _ _ ha

-- What every run that completes ends with.
theorem result {a : α} (h : m.Total p post s) (he : m.Exec s p tr s' (.ret a)) : post a s' :=
  h.exec he

-- There is a run that completes.
theorem completes (h : m.Total p post s) : ∃ tr s' a, m.Exec s p tr s' (.ret a) ∧ post a s' := by
  induction p generalizing s
  case ret a => exact ⟨[], s, a, .refl, h⟩
  case call o k hi =>
    obtain ⟨⟨r, s', ha⟩, hk⟩ := h
    obtain ⟨tr, s'', a, he, hp⟩ := hi r (hk r s' ha)
    exact ⟨_, s'', a, .call ha he, hp⟩

-- If there is only one way to complete, then it decides about everything.
theorem iff_of_eq {a : α} (h : m.Total p (fun b t => b = a ∧ t = s') s) : m.Total p post s ↔ post a s' := by
  constructor
  · intro hp
    obtain ⟨tr, t, b, he, rfl, rfl⟩ := h.completes
    exact hp.result he
  · intro hp
    refine h.mono ?_
    rintro _ _ ⟨rfl, rfl⟩
    exact hp

end Total
end Machine
