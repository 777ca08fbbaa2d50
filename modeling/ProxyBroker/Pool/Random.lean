import ProxyBroker.Pool.State
import ProxyBroker.Resumption.System

-- The `STATE` of `next_rand` is shared by all pools of the process. Its accesses are atomic, but the
-- step from one value to the next is not.
namespace Pool.Random

inductive Op
  | load
  | store (x : UInt64)
  | index (n i : Nat) -- What the caller continues with.

def Op.Ret : Op → Type
  | .load     => UInt64
  | .store _  => Unit
  | .index .. => Unit

def accesses : Signature where
  Op  := Op
  Ret := Op.Ret

def nextRand (n : Nat) : Prog accesses Nat := do
  let x : UInt64 := ← Prog.perform (S := accesses) .load
  let x := xorshift x
  let _ : Unit := ← Prog.perform (S := accesses) (.store x)
  return x.toNat % max n 1

def seed : UInt64 :=
  0x9E3779B97F4A7C15

def answers (x : UInt64) : Event accesses → UInt64 → Prop
  | ⟨.load, r⟩, x'     => r = x ∧ x' = x
  | ⟨.store y, _⟩, x'  => x' = y
  | ⟨.index .., _⟩, x' => x' = x

def machine : Machine accesses UInt64 where
  answers := answers

-- A task that needs an index into `n` candidates.
def Caller (p : Prog accesses Unit) : Prop :=
  ∃ n, p = do
    let i ← nextRand n
    Prog.perform (S := accesses) (.index n i)

end Pool.Random
