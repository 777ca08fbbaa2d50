import Mathlib.Data.List.Basic
import Mathlib.Data.UInt

-- A decoder of streams in the format DEFLATE that consist of a single block with fixed codes.
namespace Deflate

abbrev Bits := List Bool

-- Numbers begin with their least significant bit.
def takeBits : Nat → Bits → Option (Nat × Bits)
  | 0, bs          => some (0, bs)
  | _ + 1, []      => none
  | n + 1, b :: bs => (takeBits n bs).map fun (x, bs) => (b.toNat + 2 * x, bs)

-- Codes begin with their most significant bit. The ones before are given.
def takeCode : Nat → Nat → Bits → Option (Nat × Bits)
  | 0, c, bs          => some (c, bs)
  | _ + 1, _, []      => none
  | n + 1, c, b :: bs => takeCode n (2 * c + b.toNat) bs

-- A code for a literal or a length has seven, eight or nine bits.
def symbol (bs : Bits) : Option (Nat × Bits) := do
  let (c, bs) ← takeCode 7 0 bs
  if c < 24 then return (256 + c, bs)
  else
    let (c, bs) ← takeCode 1 c bs
    if c < 192 then return (c - 48, bs)
    else if c < 200 then return (280 + (c - 192), bs)
    else
      let (c, bs) ← takeCode 1 c bs
      return (144 + (c - 400), bs)

-- The length of a match, whose symbol is followed by extra bits.
def matchLength (s : Nat) (bs : Bits) : Option (Nat × Bits) :=
  if s < 265 then some (s - 254, bs)
  else if s < 285 then
    let extra := (s - 261) / 4
    (takeBits extra bs).map fun (x, bs) => (3 + (4 + (s - 265) % 4) * 2 ^ extra + x, bs)
  else if s = 285 then some (258, bs)
  else none

def matchDistance (s : Nat) (bs : Bits) : Option (Nat × Bits) :=
  if s < 4 then some (s + 1, bs)
  else if s < 30 then
    let extra := s / 2 - 1
    (takeBits extra bs).map fun (x, bs) => (1 + (2 + s % 2) * 2 ^ extra + x, bs)
  else none

-- A match repeats what came before, which can include its own first bytes. The latest byte is the first one.
def copy : Nat → Nat → List UInt8 → Option (List UInt8)
  | 0, _, out     => some out
  | n + 1, d, out => do
    let b ← out[d - 1]?
    copy n d (b :: out)

-- Every symbol takes some bits, so their number is enough fuel.
def block : Nat → Bits → List UInt8 → Option (List UInt8)
  | 0, _, _         => none
  | n + 1, bs, out => do
    let (s, bs) ← symbol bs
    if s < 256 then block n bs (UInt8.ofNat s :: out)
    else if s = 256 then return out.reverse
    else
      let (len, bs) ← matchLength s bs
      let (d, bs) ← takeCode 5 0 bs
      let (dist, bs) ← matchDistance d bs
      let out ← copy len dist out
      block n bs out

def bitsOf (b : UInt8) : Bits :=
  (List.range 8).map b.toNat.testBit

-- A stream begins with a mark of its last block, and with the kind of the block.
def inflate (stream : List UInt8) : Option (List UInt8) := do
  let (kind, bs) ← takeBits 3 (stream.flatMap bitsOf)
  if kind = 3 then block bs.length bs [] else none

def byteOf (b₀ b₁ b₂ b₃ b₄ b₅ b₆ b₇ : Bool) : UInt8 :=
  UInt8.ofNat <| [b₀, b₁, b₂, b₃, b₄, b₅, b₆, b₇].foldr (fun b x => b.toNat + 2 * x) 0

def pack : Bits → List UInt8
  | b₀ :: b₁ :: b₂ :: b₃ :: b₄ :: b₅ :: b₆ :: b₇ :: bs => byteOf b₀ b₁ b₂ b₃ b₄ b₅ b₆ b₇ :: pack bs
  | _                                                  => []

theorem bitsOf_byteOf (b₀ b₁ b₂ b₃ b₄ b₅ b₆ b₇ : Bool) :
    bitsOf (byteOf b₀ b₁ b₂ b₃ b₄ b₅ b₆ b₇) = [b₀, b₁, b₂, b₃, b₄, b₅, b₆, b₇] := by
  revert b₀ b₁ b₂ b₃ b₄ b₅ b₆ b₇
  decide +kernel

theorem flatMap_pack {bs : Bits} (h : 8 ∣ bs.length) : (pack bs).flatMap bitsOf = bs := by
  fun_induction pack bs
  case case1 hi =>
    rw [List.flatMap_cons, hi ((Nat.dvd_add_left (dvd_refl 8)).mp h), bitsOf_byteOf]
    rfl
  case case2 bs hn =>
    rcases bs with _ | ⟨b₀, _ | ⟨b₁, _ | ⟨b₂, _ | ⟨b₃, _ | ⟨b₄, _ | ⟨b₅, _ | ⟨b₆, _ | ⟨b₇, bs⟩⟩⟩⟩⟩⟩⟩⟩
    case nil => rfl
    case cons.cons.cons.cons.cons.cons.cons.cons => exact (hn _ _ _ _ _ _ _ _ bs rfl).elim
    all_goals exact absurd (Nat.le_of_dvd (Nat.succ_pos _) h) (by simp)

theorem length_flatMap_bitsOf (stream : List UInt8) : (stream.flatMap bitsOf).length = 8 * stream.length := by
  simp [List.length_flatMap, bitsOf, Nat.mul_comm]

-- The code of a match of the greatest length that repeats the latest byte.
def repeated : Bits :=
  [true, true, false, false, false, true, false, true, false, false, false, false, false]

-- A number of such matches, and the end of a block.
def repeats : Nat → Bits
  | 0     => List.replicate 7 false
  | n + 1 => repeated ++ repeats n

-- A block that begins with the letter `a`.
def runBlock (n : Nat) : Bits :=
  [true, false, false, true, false, false, false, true] ++ repeats n

def run (n : Nat) : Bits :=
  [true, true, false] ++ runBlock n

theorem length_repeats (n : Nat) : (repeats n).length = 7 + 13 * n := by
  induction n
  case zero      => rfl
  case succ n hi =>
    rw [repeats, List.length_append, hi, repeated]
    simp only [List.length_cons, List.length_nil]
    omega

theorem length_runBlock (n : Nat) : (runBlock n).length = 15 + 13 * n := by
  simp only [runBlock, List.length_append, List.length_cons, List.length_nil, length_repeats]
  omega

theorem length_run (n : Nat) : (run n).length = 18 + 13 * n := by
  simp only [run, List.length_append, List.length_cons, List.length_nil, length_runBlock]
  omega

section Contents

variable {m n fuel : Nat} {b : UInt8}

theorem copy_one (out : List UInt8) : copy n 1 (b :: out) = some (List.replicate n b ++ b :: out) := by
  induction n generalizing out
  case zero      => rfl
  case succ n hi =>
    show copy n 1 (b :: b :: out) = _
    rw [hi, List.replicate_succ', List.append_assoc]
    rfl

theorem copy_replicate : copy n 1 (List.replicate (m + 1) b) = some (List.replicate (m + 1 + n) b) := by
  rw [List.replicate_succ, copy_one, ← List.replicate_succ, ← List.replicate_add, Nat.add_comm n]

theorem block_repeated (bs : Bits) :
    block (n + 1) (repeated ++ bs) (List.replicate (m + 1) b) = block n bs (List.replicate (m + 1 + 258) b) := by
  have hs : symbol (repeated ++ bs) = some (285, List.replicate 5 false ++ bs) := rfl
  have hl : matchLength 285 (List.replicate 5 false ++ bs) = some (258, List.replicate 5 false ++ bs) := rfl
  have hd : takeCode 5 0 (List.replicate 5 false ++ bs) = some (0, bs) := rfl
  have hm : matchDistance 0 bs = some (1, bs) := rfl
  simp only [block, hs, hl, hd, hm, copy_replicate, Option.bind_eq_bind, Option.bind_some, Nat.reduceLT,
    Nat.reduceEqDiff, if_false, -List.reduceReplicate]

theorem block_repeats (h : n < fuel) :
    block fuel (repeats n) (List.replicate (m + 1) b) = some (List.replicate (m + 1 + 258 * n) b) := by
  obtain ⟨fuel, rfl⟩ := Nat.exists_eq_add_of_lt h
  clear h
  induction n generalizing m
  case zero =>
    have hs : symbol (repeats 0) = some (256, []) := rfl
    rw [block, hs]
    exact congrArg some List.reverse_replicate
  case succ n hi =>
    have hf : n + 1 + fuel + 1 = n + fuel + 1 + 1 := by omega
    have hm : m + 1 + 258 = m + 258 + 1 := by omega
    rw [repeats, hf, block_repeated, hm, hi]
    congr 2
    omega

theorem block_runBlock (h : n < fuel) :
    block (fuel + 1) (runBlock n) [] = some (List.replicate (1 + 258 * n) 97) := by
  have hs : symbol (runBlock n) = some (97, repeats n) := rfl
  have hb : [UInt8.ofNat 97] = List.replicate (0 + 1) 97 := rfl
  simp only [block, hs, Option.bind_eq_bind, Option.bind_some, Nat.reduceLT, if_true]
  rw [hb, block_repeats h, Nat.zero_add]

theorem inflate_of_takeBits {stream : List UInt8} {bs : Bits} (h : takeBits 3 (stream.flatMap bitsOf) = some (3, bs)) :
    inflate stream = block bs.length bs [] := by
  simp only [inflate, h, Option.bind_eq_bind, Option.bind_some, if_true]

-- Every thirteen bits of such a stream stand for 258 bytes.
theorem inflate_run (h : 8 ∣ 18 + 13 * n) : inflate (pack (run n)) = some (List.replicate (1 + 258 * n) 97) := by
  have hp : (pack (run n)).flatMap bitsOf = run n := flatMap_pack (length_run n ▸ h)
  have hk : takeBits 3 (run n) = some (3, runBlock n) := rfl
  have hl : (runBlock n).length = 14 + 13 * n + 1 := (length_runBlock n).trans (by omega)
  rw [inflate_of_takeBits (hp ▸ hk), hl, block_runBlock (by omega)]

theorem length_pack_run (h : 8 ∣ 18 + 13 * n) : 8 * (pack (run n)).length = 18 + 13 * n := by
  rw [← length_flatMap_bitsOf, flatMap_pack (length_run n ▸ h), length_run]

end Contents
end Deflate
