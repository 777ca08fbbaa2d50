import ProxyBroker.Resumption.Basic

variable {S : Signature} {α β : Type}

-- An operation together with the answer it received.
structure Event (S : Signature) where
  op  : S.Op
  ret : S.Ret op

abbrev Trace (S : Signature) :=
  List (Event S)

namespace Prog

-- `p.Runs tr q` means that `p` can perform exactly the events `tr` and is then left with `q`. A run
-- may stop anywhere: `q` is `ret _` for a run that completed, and `call o _` for one that is
-- suspended at `o` (which is where the future of an `async` function can be dropped).
inductive Runs : Prog S α → Trace S → Prog S α → Prop
  | refl {p : Prog S α} : Runs p [] p
  | call {o : S.Op} {k : S.Ret o → Prog S α} {r : S.Ret o} {tr : Trace S} {q : Prog S α} :
    Runs (k r) tr q → Runs (.call o k) (⟨o, r⟩ :: tr) q

namespace Runs

theorem trans {p q s : Prog S α} {tr₁ tr₂ : Trace S} (h₁ : p.Runs tr₁ q) (h₂ : q.Runs tr₂ s) :
    p.Runs (tr₁ ++ tr₂) s := by
  induction h₁
  case refl    => exact h₂
  case call hi => exact .call (hi h₂)

theorem snoc {p : Prog S α} {o : S.Op} {k : S.Ret o → Prog S α} {tr : Trace S}
    (h : p.Runs tr (.call o k)) (r : S.Ret o) : p.Runs (tr ++ [⟨o, r⟩]) (k r) :=
  h.trans (.call .refl)

-- The events of a run determine the program that it leaves.
theorem of_append {p q s : Prog S α} {tr₁ tr₂ : Trace S}
    (h₁ : p.Runs tr₁ q) (h : p.Runs (tr₁ ++ tr₂) s) : q.Runs tr₂ s := by
  induction h₁
  case refl => exact h
  case call hi =>
    cases h
    case call h => exact hi h

theorem bind {p q : Prog S α} {tr : Trace S} (h : p.Runs tr q) (f : α → Prog S β) :
    (p >>= f).Runs tr (q >>= f) := by
  induction h
  case refl    => exact .refl
  case call hi => exact .call hi

theorem bind_ret {p : Prog S α} {a : α} {f : α → Prog S β} {q : Prog S β} {tr₁ tr₂ : Trace S}
    (h₁ : p.Runs tr₁ (.ret a)) (h₂ : (f a).Runs tr₂ q) : (p >>= f).Runs (tr₁ ++ tr₂) q :=
  (h₁.bind f).trans h₂

-- A run of `p >>= f` either stops inside of `p`, or completes `p` and continues with `f`.
theorem of_bind {p : Prog S α} {f : α → Prog S β} {tr : Trace S} {q : Prog S β}
    (h : (p >>= f).Runs tr q) :
    (∃ p', p.Runs tr p' ∧ q = p' >>= f) ∨
    (∃ a tr₁ tr₂, tr = tr₁ ++ tr₂ ∧ p.Runs tr₁ (.ret a) ∧ (f a).Runs tr₂ q) := by
  induction p generalizing tr
  case ret a => exact .inr ⟨a, [], tr, rfl, .refl, h⟩
  case call o k hi =>
    cases h
    case refl => exact .inl ⟨_, .refl, rfl⟩
    case call tr r h =>
      rcases hi r h with ⟨p', h', rfl⟩ | ⟨a, tr₁, tr₂, rfl, h₁, h₂⟩
      · exact .inl ⟨p', .call h', rfl⟩
      · exact .inr ⟨a, _, tr₂, rfl, .call h₁, h₂⟩

-- A run that completes `p >>= f` completes `p` first.
theorem of_bind_ret {p : Prog S α} {f : α → Prog S β} {tr : Trace S} {b : β} (h : (p >>= f).Runs tr (.ret b)) :
    ∃ a tr₁ tr₂, tr = tr₁ ++ tr₂ ∧ p.Runs tr₁ (.ret a) ∧ (f a).Runs tr₂ (.ret b) := by
  induction p generalizing tr
  case ret a => exact ⟨a, [], tr, rfl, .refl, h⟩
  case call o k hi =>
    cases h
    case call h =>
      obtain ⟨a, tr₁, tr₂, rfl, h₁, h₂⟩ := hi _ h
      exact ⟨a, _, tr₂, rfl, .call h₁, h₂⟩

theorem ret_inv {a : α} {tr : Trace S} {q : Prog S α} (h : (Prog.ret a).Runs tr q) :
    tr = [] ∧ q = .ret a := by
  cases h
  exact ⟨rfl, rfl⟩

end Runs
end Prog
