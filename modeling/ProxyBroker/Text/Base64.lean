import ProxyBroker.Text.Str

-- The decoding of base 64 as RFC 4648 defines it, for the standard alphabet and with padding.
namespace Base64

def value (c : Char) : Option Nat :=
  if 'A' ≤ c ∧ c ≤ 'Z' then some (c.toNat - 65)
  else if 'a' ≤ c ∧ c ≤ 'z' then some (c.toNat - 97 + 26)
  else if '0' ≤ c ∧ c ≤ '9' then some (c.toNat - 48 + 52)
  else if c = '+' then some 62
  else if c = '/' then some 63
  else none

-- The 24 bits of four values, and their three octets.
def group (s₀ s₁ s₂ s₃ : Nat) : Nat :=
  s₀ * 2 ^ 18 + s₁ * 2 ^ 12 + s₂ * 2 ^ 6 + s₃

def octets (n : Nat) : List UInt8 :=
  [UInt8.ofNat (n / 2 ^ 16), UInt8.ofNat (n / 2 ^ 8), UInt8.ofNat n]

def quantum (a b c d : Char) : Option (List UInt8) := do
  return octets (group (← value a) (← value b) (← value c) (← value d))

-- The first octets. The bits that are left over must be zero.
def leading (n k : Nat) : Option (List UInt8) :=
  if n % 2 ^ (24 - 8 * k) = 0 then some ((octets n).take k) else none

-- Only the last quantum can be padded.
def lastQuantum (a b c d : Char) : Option (List UInt8) :=
  if d ≠ '=' then quantum a b c d
  else if c ≠ '=' then do leading (group (← value a) (← value b) (← value c) 0) 2
  else do leading (group (← value a) (← value b) 0 0) 1

def decode : Str → Option (List UInt8)
  | []                     => some []
  | [a, b, c, d]           => lastQuantum a b c d
  | a :: b :: c :: d :: cs => do return (← quantum a b c d) ++ (← decode cs)
  | _                      => none

example : decode "Zm9vYmE=".toList = some [102, 111, 111, 98, 97] := by decide

-- The function is a variable here, so that checking the proof does not compute with its value.
theorem bind₂_some {f : Nat → Nat → Option (List UInt8)} {x y : Option Nat} {m n : Nat} (hx : x = some m)
    (hy : y = some n) : (do f (← x) (← y)) = f m n := by
  subst hx hy
  rfl

theorem bind₃_some {f : Nat → Nat → Nat → Option (List UInt8)} {x y z : Option Nat} {m n k : Nat} (hx : x = some m)
    (hy : y = some n) (hz : z = some k) : (do f (← x) (← y) (← z)) = f m n k := by
  subst hx hy hz
  rfl

section Quanta

-- The values of the characters are the sextets of `n`.
variable {a b c d : Char} {n : Nat} (hn : n < 2 ^ 24)
variable (ha : value a = some (n / 2 ^ 18 % 64)) (hb : value b = some (n / 2 ^ 12 % 64))
include hn ha hb

theorem quantum_eq (hc : value c = some (n / 2 ^ 6 % 64)) (hd : value d = some (n % 64)) :
    quantum a b c d = some (octets n) := by
  have hg : group (n / 2 ^ 18 % 64) (n / 2 ^ 12 % 64) (n / 2 ^ 6 % 64) (n % 64) = n := by
    rw [group]
    omega
  rw [quantum, ha, hb, hc, hd]
  exact congrArg (fun n => some (octets n)) hg

theorem lastQuantum_two (hc : value c = some (n / 2 ^ 6 % 64)) (h₀ : n % 2 ^ 8 = 0) :
    lastQuantum a b c '=' = some ((octets n).take 2) := by
  have hg : group (n / 2 ^ 18 % 64) (n / 2 ^ 12 % 64) (n / 2 ^ 6 % 64) 0 = n := by
    rw [group]
    omega
  have hne : c ≠ '=' := by
    rintro rfl
    exact absurd hc.symm (Option.some_ne_none _)
  have hl : lastQuantum a b c '=' = leading n 2 := by
    rw [lastQuantum, if_neg (not_not.mpr rfl), if_pos hne,
      bind₃_some (f := fun s₀ s₁ s₂ => leading (group s₀ s₁ s₂ 0) 2) ha hb hc, hg]
  rw [hl, leading, if_pos h₀]

theorem lastQuantum_one (h₀ : n % 2 ^ 16 = 0) : lastQuantum a b '=' '=' = some ((octets n).take 1) := by
  have hg : group (n / 2 ^ 18 % 64) (n / 2 ^ 12 % 64) 0 0 = n := by
    rw [group]
    omega
  have hl : lastQuantum a b '=' '=' = leading n 1 := by
    rw [lastQuantum, if_neg (not_not.mpr rfl), if_neg (not_not.mpr rfl),
      bind₂_some (f := fun s₀ s₁ => leading (group s₀ s₁ 0 0) 1) ha hb, hg]
  rw [hl, leading, if_pos h₀]

end Quanta

-- A quantum without padding is decoded on its own, wherever it stands.
theorem decode_quantum {a b c d : Char} (h : d ≠ '=') (cs : Str) :
    decode (a :: b :: c :: d :: cs) = (quantum a b c d).bind fun bs => (decode cs).map (bs ++ ·) := by
  cases cs
  case nil  => cases hq : quantum a b c d <;> simp [decode, lastQuantum, h, hq]
  case cons => cases hq : quantum a b c d <;> simp [decode, hq, Option.map_eq_bind]

end Base64
