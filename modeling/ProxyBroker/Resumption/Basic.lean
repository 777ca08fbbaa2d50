import Mathlib.Logic.Basic
import Mathlib.Data.List.Basic

-- A signature lists the operations that a program can ask its surroundings to perform, together
-- with the type of answers to each of them.
structure Signature where
  Op  : Type
  Ret : Op → Type

-- A program that is suspended at its operations: it has either returned, or it has issued an
-- operation and continues with whatever the answer to that operation will be. This is what an
-- `async` function is between two polls.
inductive Prog (S : Signature) (α : Type) : Type
  | ret (a : α)
  | call (o : S.Op) (k : S.Ret o → Prog S α)

namespace Prog

variable {S : Signature} {α β γ : Type}

def bind : Prog S α → (α → Prog S β) → Prog S β
  | ret a,    f => f a
  | call o k, f => call o fun r => (k r).bind f

instance : Monad (Prog S) where
  pure := ret
  bind := bind

-- The program that performs a single operation and returns its answer.
def perform (o : S.Op) : Prog S (S.Ret o) :=
  call o ret

@[simp]
theorem pure_eq_ret (a : α) : (pure a : Prog S α) = ret a :=
  rfl

@[simp]
theorem ret_bind (a : α) (f : α → Prog S β) : (ret a : Prog S α) >>= f = f a :=
  rfl

@[simp]
theorem call_bind (o : S.Op) (k : S.Ret o → Prog S α) (f : α → Prog S β) :
    (call o k) >>= f = call o fun r => k r >>= f :=
  rfl

@[simp]
theorem perform_bind (o : S.Op) (f : S.Ret o → Prog S β) : perform o >>= f = call o f :=
  rfl

theorem bind_bind (p : Prog S α) (f : α → Prog S β) (g : β → Prog S γ) :
    (p >>= f) >>= g = p >>= fun a => f a >>= g := by
  induction p
  case ret a => rfl
  case call o k hi =>
    simp only [call_bind]
    exact congrArg (call o) (funext hi)

end Prog
