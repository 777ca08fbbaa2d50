import Mathlib.Data.List.Basic
import Mathlib.Data.UInt
import Mathlib.Data.Char

-- Text is a list of Unicode scalar values, and a buffer is a list of bytes.
abbrev Str := List Char
abbrev Bytes := List UInt8

namespace Utf8

def encode (s : Str) : Bytes :=
  s.flatMap String.utf8EncodeChar

def IsAscii (b : UInt8) : Prop :=
  b < 0x80

instance : DecidablePred IsAscii :=
  fun b => inferInstanceAs (Decidable (b < 0x80))

-- The scalar value of a single-byte sequence.
def ofAscii (b : UInt8) : Char :=
  Char.ofNat b.toNat

def replacement : Char :=
  Char.ofNat 0xFFFD

def isCont (b : UInt8) : Bool :=
  0x80 ≤ b && b ≤ 0xBF

-- The second byte of a three-byte sequence must rule out overlong forms and surrogates.
def isSecond3 (b₀ b₁ : UInt8) : Bool :=
  if b₀ = 0xE0 then 0xA0 ≤ b₁ && b₁ ≤ 0xBF
  else if b₀ = 0xED then 0x80 ≤ b₁ && b₁ ≤ 0x9F
  else isCont b₁

-- The second byte of a four-byte sequence must rule out overlong forms and values past U+10FFFF.
def isSecond4 (b₀ b₁ : UInt8) : Bool :=
  if b₀ = 0xF0 then 0x90 ≤ b₁ && b₁ ≤ 0xBF
  else if b₀ = 0xF4 then 0x80 ≤ b₁ && b₁ ≤ 0x8F
  else isCont b₁

def ofBytes2 (b₀ b₁ : UInt8) : Char :=
  Char.ofNat ((b₀.toNat - 0xC0) * 0x40 + (b₁.toNat - 0x80))

def ofBytes3 (b₀ b₁ b₂ : UInt8) : Char :=
  Char.ofNat (((b₀.toNat - 0xE0) * 0x40 + (b₁.toNat - 0x80)) * 0x40 + (b₂.toNat - 0x80))

def ofBytes4 (b₀ b₁ b₂ b₃ : UInt8) : Char :=
  Char.ofNat <|
    (((b₀.toNat - 0xF0) * 0x40 + (b₁.toNat - 0x80)) * 0x40 + (b₂.toNat - 0x80)) * 0x40 +
      (b₃.toNat - 0x80)

-- How the bytes following a lead byte continue its sequence: the scalar value that the sequence
-- encodes (or the replacement character if it breaks off), and the bytes that remain to be decoded.
-- A sequence that breaks off is replaced as a whole, and decoding resumes at the offending byte.
def tail2 (b₀ : UInt8) : Bytes → Char × Bytes
  | b₁ :: bs => if isCont b₁ then (ofBytes2 b₀ b₁, bs) else (replacement, b₁ :: bs)
  | []       => (replacement, [])

def tail3 (b₀ : UInt8) : Bytes → Char × Bytes
  | b₁ :: b₂ :: bs =>
    if isSecond3 b₀ b₁ then
      if isCont b₂ then (ofBytes3 b₀ b₁ b₂, bs) else (replacement, b₂ :: bs)
    else (replacement, b₁ :: b₂ :: bs)
  | [b₁] => if isSecond3 b₀ b₁ then (replacement, []) else (replacement, [b₁])
  | []   => (replacement, [])

def tail4 (b₀ : UInt8) : Bytes → Char × Bytes
  | b₁ :: b₂ :: b₃ :: bs =>
    if isSecond4 b₀ b₁ then
      if isCont b₂ then
        if isCont b₃ then (ofBytes4 b₀ b₁ b₂ b₃, bs) else (replacement, b₃ :: bs)
      else (replacement, b₂ :: b₃ :: bs)
    else (replacement, b₁ :: b₂ :: b₃ :: bs)
  | [b₁, b₂] =>
    if isSecond4 b₀ b₁ then
      if isCont b₂ then (replacement, []) else (replacement, [b₂])
    else (replacement, [b₁, b₂])
  | [b₁] => if isSecond4 b₀ b₁ then (replacement, []) else (replacement, [b₁])
  | []   => (replacement, [])

-- The scalar value that a nonempty buffer starts with, and the bytes after it.
def next (b₀ : UInt8) (bs : Bytes) : Char × Bytes :=
  if b₀ < 0x80 then (ofAscii b₀, bs)
  else if 0xC2 ≤ b₀ && b₀ ≤ 0xDF then tail2 b₀ bs
  else if 0xE0 ≤ b₀ && b₀ ≤ 0xEF then tail3 b₀ bs
  else if 0xF0 ≤ b₀ && b₀ ≤ 0xF4 then tail4 b₀ bs
  else (replacement, bs)

-- `String::from_utf8_lossy`. Each step consumes at least one byte, so the length of the buffer is
-- enough fuel (`lossy_cons`).
def lossyAux : Nat → Bytes → Str
  | 0, _            => []
  | _, []           => []
  | n + 1, b₀ :: bs => (next b₀ bs).1 :: lossyAux n (next b₀ bs).2

def lossy (bs : Bytes) : Str :=
  lossyAux bs.length bs

example : lossy [0x41, 0xC3, 0xA9, 0xFF, 0xE2, 0x82, 0x42] = "Aé\uFFFD\uFFFDB".toList := by decide

theorem isCont_of_ascii {a : UInt8} (h : IsAscii a) : isCont a = false := by
  simp only [IsAscii, UInt8.lt_iff_toNat_lt, UInt8.reduceToNat] at h
  simp [isCont, UInt8.le_iff_toNat_le]
  omega

theorem isSecond3_of_ascii {a : UInt8} (b₀ : UInt8) (h : IsAscii a) : isSecond3 b₀ a = false := by
  simp only [isSecond3, isCont_of_ascii h]
  simp only [IsAscii, UInt8.lt_iff_toNat_lt, UInt8.reduceToNat] at h
  split_ifs <;> simp [UInt8.le_iff_toNat_le] <;> omega

theorem isSecond4_of_ascii {a : UInt8} (b₀ : UInt8) (h : IsAscii a) : isSecond4 b₀ a = false := by
  simp only [isSecond4, isCont_of_ascii h]
  simp only [IsAscii, UInt8.lt_iff_toNat_lt, UInt8.reduceToNat] at h
  split_ifs <;> simp [UInt8.le_iff_toNat_le] <;> omega

theorem next_ascii {b : UInt8} (h : IsAscii b) (bs : Bytes) : next b bs = (ofAscii b, bs) := by
  simp only [IsAscii] at h
  simp [next, h]

theorem next_suffix (b : UInt8) (bs : Bytes) : (next b bs).2 <:+ bs := by
  unfold next
  split_ifs
  · exact List.suffix_rfl
  · unfold tail2
    split <;> (try split_ifs) <;> simp [List.suffix_cons]
  · unfold tail3
    split <;> (try split_ifs) <;> simp [List.suffix_cons]
    exact (List.suffix_cons ..).trans (List.suffix_cons ..)
  · unfold tail4
    split <;> (try split_ifs) <;> simp [List.suffix_cons]
    · exact ((List.suffix_cons ..).trans (List.suffix_cons ..)).trans (List.suffix_cons ..)
    · exact (List.suffix_cons ..).trans (List.suffix_cons ..)
  · exact List.suffix_rfl

theorem next_length_le (b : UInt8) (bs : Bytes) : (next b bs).2.length ≤ bs.length :=
  (next_suffix b bs).length_le

theorem lossyAux_fuel {n : Nat} {bs : Bytes} (h : bs.length ≤ n) : lossyAux n bs = lossy bs := by
  suffices ∀ m n bs, bs.length ≤ m → bs.length ≤ n → lossyAux m bs = lossyAux n bs from
    this n bs.length bs h le_rfl
  intro m
  induction m
  case zero =>
    intro n bs hm _
    cases bs <;> cases n <;> simp_all [lossyAux]
  case succ m hi =>
    intro n bs hm hn
    cases bs <;> cases n
    case nil.zero | nil.succ => rfl
    case cons.zero => simp at hn
    case cons.succ b bs n =>
      have hl := next_length_le b bs
      simp only [List.length_cons] at hm hn
      simp only [lossyAux, hi n (next b bs).2 (by omega) (by omega)]

@[simp]
theorem lossy_nil : lossy [] = [] :=
  rfl

theorem lossy_cons (b : UInt8) (bs : Bytes) :
    lossy (b :: bs) = (next b bs).1 :: lossy (next b bs).2 := by
  rw [← lossyAux_fuel (next_length_le b bs)]
  rfl

theorem lossy_cons_ascii {b : UInt8} (h : IsAscii b) (bs : Bytes) :
    lossy (b :: bs) = ofAscii b :: lossy bs := by
  rw [lossy_cons, next_ascii h]

-- A byte sequence never extends across an ASCII byte, so decoding commutes with splitting there.
theorem next_append_ascii {a : UInt8} (h : IsAscii a) (b : UInt8) (bs cs : Bytes) :
    next b (bs ++ a :: cs) = ((next b bs).1, (next b bs).2 ++ a :: cs) := by
  have h₁ := isCont_of_ascii h
  have h₃ := isSecond3_of_ascii b h
  have h₄ := isSecond4_of_ascii b h
  unfold next
  split_ifs
  · rfl
  · rcases bs with _ | ⟨b₁, bs⟩
    · simp [tail2, h₁]
    · simp only [tail2, List.cons_append]; split_ifs <;> simp
  · rcases bs with _ | ⟨b₁, _ | ⟨b₂, bs⟩⟩
    · cases cs <;> simp [tail3, h₃]
    · simp only [tail3, List.cons_append, List.nil_append, h₁]; split_ifs <;> simp_all
    · simp only [tail3, List.cons_append]; split_ifs <;> simp
  · rcases bs with _ | ⟨b₁, _ | ⟨b₂, _ | ⟨b₃, bs⟩⟩⟩
    · rcases cs with _ | ⟨c₁, _ | ⟨c₂, cs⟩⟩ <;> simp [tail4, h₄]
    · cases cs <;> simp only [tail4, List.cons_append, List.nil_append, h₁] <;> split_ifs <;> simp_all
    · simp only [tail4, List.cons_append, List.nil_append, h₁]; split_ifs <;> simp_all
    · simp only [tail4, List.cons_append]; split_ifs <;> simp
  · rfl

theorem lossy_append_ascii {a : UInt8} (h : IsAscii a) (xs ys : Bytes) :
    lossy (xs ++ a :: ys) = lossy xs ++ ofAscii a :: lossy ys := by
  induction hn : xs.length using Nat.strong_induction_on generalizing xs
  case h n hi =>
    cases xs
    case nil => simp [lossy_cons_ascii h]
    case cons b bs =>
      have hl := next_length_le b bs
      simp only [List.length_cons] at hn
      rw [List.cons_append, lossy_cons, next_append_ascii h, hi _ (by omega) _ rfl, lossy_cons]
      rfl

theorem toNat_ofNat {n : Nat} (h : n.isValidChar) : (Char.ofNat n).toNat = n := by
  rw [Char.ofNat, dif_pos h]
  rfl

theorem toNat_ofAscii (b : UInt8) : (ofAscii b).toNat = b.toNat := by
  have := b.toNat_lt
  exact toNat_ofNat (.inl (by omega))

theorem ofAscii_injective : Function.Injective ofAscii := by
  intro a b h
  apply UInt8.toNat_inj.mp
  rw [← toNat_ofAscii a, ← toNat_ofAscii b, h]

theorem toNat_replacement : 0x80 ≤ replacement.toNat := by
  decide

theorem isCont_iff {b : UInt8} : isCont b ↔ 0x80 ≤ b.toNat ∧ b.toNat ≤ 0xBF := by
  simp [isCont, UInt8.le_iff_toNat_le]

theorem isSecond3_bounds {b₀ b₁ : UInt8} (h : isSecond3 b₀ b₁) :
    0x80 ≤ b₁.toNat ∧ b₁.toNat ≤ 0xBF ∧
    (b₀.toNat = 0xE0 → 0xA0 ≤ b₁.toNat) ∧ (b₀.toNat = 0xED → b₁.toNat ≤ 0x9F) := by
  simp only [isSecond3, ← UInt8.toNat_inj, UInt8.reduceToNat] at h
  split_ifs at h <;> simp [isCont_iff, UInt8.le_iff_toNat_le] at h <;> omega

theorem isSecond4_bounds {b₀ b₁ : UInt8} (h : isSecond4 b₀ b₁) :
    0x80 ≤ b₁.toNat ∧ b₁.toNat ≤ 0xBF ∧
    (b₀.toNat = 0xF0 → 0x90 ≤ b₁.toNat) ∧ (b₀.toNat = 0xF4 → b₁.toNat ≤ 0x8F) := by
  simp only [isSecond4, ← UInt8.toNat_inj, UInt8.reduceToNat] at h
  split_ifs at h <;> simp [isCont_iff, UInt8.le_iff_toNat_le] at h <;> omega

theorem isSecond3_of_bounds {b₀ b₁ : UInt8} (h : 0x80 ≤ b₁.toNat ∧ b₁.toNat ≤ 0xBF)
    (h₁ : b₀.toNat = 0xE0 → 0xA0 ≤ b₁.toNat) (h₂ : b₀.toNat = 0xED → b₁.toNat ≤ 0x9F) : isSecond3 b₀ b₁ := by
  simp only [isSecond3, ← UInt8.toNat_inj, UInt8.reduceToNat]
  split_ifs <;> simp [isCont_iff, UInt8.le_iff_toNat_le] <;> omega

theorem isSecond4_of_bounds {b₀ b₁ : UInt8} (h : 0x80 ≤ b₁.toNat ∧ b₁.toNat ≤ 0xBF)
    (h₁ : b₀.toNat = 0xF0 → 0x90 ≤ b₁.toNat) (h₂ : b₀.toNat = 0xF4 → b₁.toNat ≤ 0x8F) : isSecond4 b₀ b₁ := by
  simp only [isSecond4, ← UInt8.toNat_inj, UInt8.reduceToNat]
  split_ifs <;> simp [isCont_iff, UInt8.le_iff_toNat_le] <;> omega

theorem toNat_ofBytes2 {b₀ b₁ : UInt8} (h₀ : 0xC2 ≤ b₀.toNat ∧ b₀.toNat ≤ 0xDF) (h₁ : isCont b₁) :
    0x80 ≤ (ofBytes2 b₀ b₁).toNat := by
  have := isCont_iff.mp h₁
  rw [ofBytes2, toNat_ofNat (.inl (by omega))]
  omega

theorem toNat_ofBytes3 {b₀ b₁ b₂ : UInt8} (h₀ : 0xE0 ≤ b₀.toNat ∧ b₀.toNat ≤ 0xEF)
    (h₁ : isSecond3 b₀ b₁) (h₂ : isCont b₂) : 0x80 ≤ (ofBytes3 b₀ b₁ b₂).toNat := by
  have := isSecond3_bounds h₁
  have := isCont_iff.mp h₂
  rw [ofBytes3, toNat_ofNat]
  · omega
  · by_cases b₀.toNat ≤ 0xED
    · exact .inl (by omega)
    · exact .inr ⟨by omega, by omega⟩

theorem toNat_ofBytes4 {b₀ b₁ b₂ b₃ : UInt8} (h₀ : 0xF0 ≤ b₀.toNat ∧ b₀.toNat ≤ 0xF4)
    (h₁ : isSecond4 b₀ b₁) (h₂ : isCont b₂) (h₃ : isCont b₃) :
    0x80 ≤ (ofBytes4 b₀ b₁ b₂ b₃).toNat := by
  have := isSecond4_bounds h₁
  have := isCont_iff.mp h₂
  have := isCont_iff.mp h₃
  rw [ofBytes4, toNat_ofNat (.inr ⟨by omega, by omega⟩)]
  omega

-- A sequence that starts with a non-ASCII byte never decodes to an ASCII character.
theorem next_not_ascii {b : UInt8} (h : ¬IsAscii b) (bs : Bytes) :
    0x80 ≤ (next b bs).1.toNat := by
  have hr := toNat_replacement
  simp only [next, if_neg (show ¬b < 0x80 from h)]
  split_ifs with h₂ h₃ h₄
  · simp only [UInt8.le_iff_toNat_le, Bool.and_eq_true, decide_eq_true_eq] at h₂
    cases bs <;> simp only [tail2]
    case nil  => exact hr
    case cons =>
      split_ifs with h
      · simpa only using toNat_ofBytes2 h₂ h
      · exact hr
  · simp only [UInt8.le_iff_toNat_le, Bool.and_eq_true, decide_eq_true_eq] at h₃
    rcases bs with _ | ⟨b₁, _ | ⟨b₂, bs⟩⟩ <;> simp only [tail3]
    · exact hr
    · split_ifs <;> exact hr
    · split_ifs with h h'
      · simpa only using toNat_ofBytes3 h₃ h h'
      · exact hr
      · exact hr
  · simp only [UInt8.le_iff_toNat_le, Bool.and_eq_true, decide_eq_true_eq] at h₄
    rcases bs with _ | ⟨b₁, _ | ⟨b₂, _ | ⟨b₃, bs⟩⟩⟩ <;> simp only [tail4]
    · exact hr
    · split_ifs <;> exact hr
    · split_ifs <;> exact hr
    · split_ifs with h h' h''
      · simpa only using toNat_ofBytes4 h₄ h h' h''
      · exact hr
      · exact hr
      · exact hr
  · exact hr

-- An ASCII character in decoded text stems from that very byte.
theorem lossy_split {raw : Bytes} {s t : Str} {c : Char} (hc : c.toNat < 0x80)
    (h : lossy raw = s ++ c :: t) :
    ∃ x b y, raw = x ++ b :: y ∧ ofAscii b = c ∧ IsAscii b ∧ lossy x = s ∧ lossy y = t := by
  induction s generalizing raw
  case nil =>
    cases raw
    case nil => simp at h
    case cons b bs =>
      rw [lossy_cons, List.nil_append, List.cons.injEq] at h
      have hb : IsAscii b := by
        by_contra hb
        have := h.left ▸ next_not_ascii hb bs
        omega
      rw [next_ascii hb] at h
      exact ⟨[], b, bs, rfl, h.left, hb, rfl, h.right⟩
  case cons c' s hi =>
    cases raw
    case nil => simp at h
    case cons b bs =>
      rw [lossy_cons, List.cons_append, List.cons.injEq] at h
      have ⟨x, b', y, hn, hb', ha, hx, hy⟩ := hi h.right
      have ⟨u, hu⟩ := next_suffix b bs
      refine ⟨b :: (u ++ x), b', y, ?_, hb', ha, ?_, hy⟩
      · rw [← hu, hn, List.cons_append, List.append_assoc]
      · -- Cutting the buffer at `b'` leaves the first sequence as it was.
        have hs := next_append_ascii ha b (u ++ x) y
        rw [List.append_assoc, ← hn, hu, Prod.ext_iff, hn] at hs
        rw [lossy_cons, ← hs.left, h.left, ← List.append_cancel_right hs.right, hx]

theorem next_tail2 {b₀ b₁ : UInt8} {c : Char} (h₀ : 0xC2 ≤ b₀.toNat ∧ b₀.toNat ≤ 0xDF) (h₁ : isCont b₁)
    (hc : (b₀.toNat - 0xC0) * 0x40 + (b₁.toNat - 0x80) = c.toNat) (bs : Bytes) : next b₀ (b₁ :: bs) = (c, bs) := by
  have hn : ¬b₀ < 0x80 := by simp [UInt8.lt_iff_toNat_lt]; omega
  have h₀ : (0xC2 ≤ b₀ && b₀ ≤ 0xDF) = true := by simpa [UInt8.le_iff_toNat_le] using h₀
  rw [next, if_neg hn, if_pos h₀, tail2, if_pos h₁, ofBytes2, hc, Char.ofNat_toNat]

theorem next_tail3 {b₀ b₁ b₂ : UInt8} {c : Char} (h₀ : 0xE0 ≤ b₀.toNat ∧ b₀.toNat ≤ 0xEF) (h₁ : isSecond3 b₀ b₁)
    (h₂ : isCont b₂) (hc : ((b₀.toNat - 0xE0) * 0x40 + (b₁.toNat - 0x80)) * 0x40 + (b₂.toNat - 0x80) = c.toNat)
    (bs : Bytes) : next b₀ (b₁ :: b₂ :: bs) = (c, bs) := by
  have hn : ¬b₀ < 0x80 := by simp [UInt8.lt_iff_toNat_lt]; omega
  have hn₂ : ¬(0xC2 ≤ b₀ && b₀ ≤ 0xDF) = true := by simp [UInt8.le_iff_toNat_le]; omega
  have h₀ : (0xE0 ≤ b₀ && b₀ ≤ 0xEF) = true := by simpa [UInt8.le_iff_toNat_le] using h₀
  rw [next, if_neg hn, if_neg hn₂, if_pos h₀, tail3, if_pos h₁, if_pos h₂, ofBytes3, hc, Char.ofNat_toNat]

theorem next_tail4 {b₀ b₁ b₂ b₃ : UInt8} {c : Char} (h₀ : 0xF0 ≤ b₀.toNat ∧ b₀.toNat ≤ 0xF4) (h₁ : isSecond4 b₀ b₁)
    (h₂ : isCont b₂) (h₃ : isCont b₃)
    (hc : (((b₀.toNat - 0xF0) * 0x40 + (b₁.toNat - 0x80)) * 0x40 + (b₂.toNat - 0x80)) * 0x40 + (b₃.toNat - 0x80) =
      c.toNat) (bs : Bytes) : next b₀ (b₁ :: b₂ :: b₃ :: bs) = (c, bs) := by
  have hn : ¬b₀ < 0x80 := by simp [UInt8.lt_iff_toNat_lt]; omega
  have hn₂ : ¬(0xC2 ≤ b₀ && b₀ ≤ 0xDF) = true := by simp [UInt8.le_iff_toNat_le]; omega
  have hn₃ : ¬(0xE0 ≤ b₀ && b₀ ≤ 0xEF) = true := by simp [UInt8.le_iff_toNat_le]; omega
  have h₀ : (0xF0 ≤ b₀ && b₀ ≤ 0xF4) = true := by simpa [UInt8.le_iff_toNat_le] using h₀
  rw [next, if_neg hn, if_neg hn₂, if_neg hn₃, if_pos h₀, tail4, if_pos h₁, if_pos h₂, if_pos h₃, ofBytes4, hc,
    Char.ofNat_toNat]

-- The sequence that encodes a character decodes to it.
theorem next_encode (c : Char) (bs : Bytes) :
    ∃ b t, String.utf8EncodeChar c = b :: t ∧ next b (t ++ bs) = (c, bs) := by
  have hb {n : Nat} (h : n < 0x100) : (UInt8.ofNat n).toNat = n := UInt8.toNat_ofNat_of_lt' h
  have hv := c.valid
  fun_cases String.utf8EncodeChar c
  all_goals refine ⟨_, _, rfl, ?_⟩
  case case1 v h =>
    have hn : (UInt8.ofNat v).toNat = c.toNat := hb (by omega)
    have ha : IsAscii (UInt8.ofNat v) := by
      rw [IsAscii, UInt8.lt_iff_toNat_lt, hn]
      exact Nat.lt_succ_of_le h
    rw [next_ascii ha, ofAscii, hn, Char.ofNat_toNat, List.nil_append]
  case case2 v _ _ =>
    have h₀ := hb (n := v / 64 % 32 + 0xC0) (by omega)
    have h₁ := hb (n := v % 64 + 0x80) (by omega)
    refine next_tail2 (by omega) (isCont_iff.mpr (by omega)) ?_ bs
    rw [h₀, h₁]
    show _ = v
    omega
  case case3 v _ _ _ =>
    have hs : v < 0xD800 ∨ 0xDFFF < v := hv.imp id And.left
    have h₀ := hb (n := v / 4096 % 16 + 0xE0) (by omega)
    have h₁ := hb (n := v / 64 % 64 + 0x80) (by omega)
    have h₂ := hb (n := v % 64 + 0x80) (by omega)
    refine next_tail3 (by omega) (isSecond3_of_bounds (by omega) (by omega) (by omega)) (isCont_iff.mpr (by omega)) ?_ bs
    rw [h₀, h₁, h₂]
    show _ = v
    omega
  case case4 v _ _ _ =>
    have hs : v < 0x110000 := hv.elim (fun h => h.trans (by decide)) And.right
    have h₀ := hb (n := v / 262144 % 8 + 0xF0) (by omega)
    have h₁ := hb (n := v / 4096 % 64 + 0x80) (by omega)
    have h₂ := hb (n := v / 64 % 64 + 0x80) (by omega)
    have h₃ := hb (n := v % 64 + 0x80) (by omega)
    refine next_tail4 (by omega) (isSecond4_of_bounds (by omega) (by omega) (by omega)) (isCont_iff.mpr (by omega))
      (isCont_iff.mpr (by omega)) ?_ bs
    rw [h₀, h₁, h₂, h₃]
    show _ = v
    omega

-- Decoding what encodes a text yields the text again.
theorem lossy_encode_append (s : Str) (bs : Bytes) : lossy (encode s ++ bs) = s ++ lossy bs := by
  induction s
  case nil => rfl
  case cons c s hi =>
    obtain ⟨b, t, he, hn⟩ := next_encode c (encode s ++ bs)
    have hl : encode (c :: s) ++ bs = b :: (t ++ (encode s ++ bs)) := by simp [encode, he]
    rw [hl, lossy_cons, hn, hi, List.cons_append]

theorem lossy_encode (s : Str) : lossy (encode s) = s := by
  simpa using lossy_encode_append s []

theorem encode_append (s t : Str) : encode (s ++ t) = encode s ++ encode t :=
  List.flatMap_append

-- A sequence of more than one byte contains no ASCII byte.
theorem ofAscii_of_mem_utf8EncodeChar {b : UInt8} {c : Char} (hb : IsAscii b)
    (h : b ∈ String.utf8EncodeChar c) : ofAscii b = c := by
  have ho {n : Nat} (h₁ : 0x80 ≤ n) (h₂ : n < 0x100) (h : b = UInt8.ofNat n) : ofAscii b = c := by
    rw [IsAscii, UInt8.lt_iff_toNat_lt, h, UInt8.toNat_ofNat_of_lt' h₂] at hb
    exact absurd hb (Nat.not_lt.mpr h₁)
  revert h
  fun_cases String.utf8EncodeChar c
  case case1 v hv =>
    intro h
    rw [List.mem_singleton.mp h]
    apply Char.toNat_inj.mp
    rw [toNat_ofAscii]
    exact UInt8.toNat_ofNat_of_lt' (Nat.lt_of_le_of_lt hv (by decide))
  all_goals simp only [List.mem_cons, List.not_mem_nil, or_false]
  case case2 => rintro (h | h) <;> exact ho (by omega) (by omega) h
  case case3 => rintro (h | h | h) <;> exact ho (by omega) (by omega) h
  case case4 => rintro (h | h | h | h) <;> exact ho (by omega) (by omega) h

theorem mem_of_mem_encode {b : UInt8} {s : Str} (hb : IsAscii b) (h : b ∈ encode s) : ofAscii b ∈ s := by
  obtain ⟨c, hc, h⟩ := List.mem_flatMap.mp h
  rw [ofAscii_of_mem_utf8EncodeChar hb h]
  exact hc

theorem length_utf8EncodeChar (c : Char) : (String.utf8EncodeChar c).length ≤ 4 := by
  fun_cases String.utf8EncodeChar c <;> simp

theorem length_utf8EncodeChar_replacement : (String.utf8EncodeChar replacement).length = 3 := by
  decide

theorem length_utf8EncodeChar_ofAscii {b : UInt8} (h : IsAscii b) : (String.utf8EncodeChar (ofAscii b)).length = 1 := by
  rw [IsAscii, UInt8.lt_iff_toNat_lt] at h
  have hn : (ofAscii b).toNat ≤ 0x7F := by
    rw [toNat_ofAscii]
    exact Nat.le_of_lt_succ h
  rw [String.utf8EncodeChar_eq_singleton (Char.utf8Size_eq_one_iff.mpr ?_)]
  · rfl
  · exact UInt32.le_iff_toNat_le.mpr hn

-- What is neither a single byte nor replaced takes at least two bytes.
theorem next_multibyte (b : UInt8) (bs : Bytes) :
    IsAscii b ∨ (next b bs).1 = replacement ∨ (next b bs).2.length < bs.length := by
  unfold next
  split_ifs with ha
  · exact .inl ha
  · refine .inr ?_
    unfold tail2
    split <;> (try split_ifs) <;> first | (right; simp only [List.length_cons]; omega) | exact .inl rfl
  · refine .inr ?_
    unfold tail3
    split <;> (try split_ifs) <;> first | (right; simp only [List.length_cons]; omega) | exact .inl rfl
  · refine .inr ?_
    unfold tail4
    split <;> (try split_ifs) <;> first | (right; simp only [List.length_cons]; omega) | exact .inl rfl
  · exact .inr (.inl rfl)

theorem next_expands (b : UInt8) (bs : Bytes) :
    (String.utf8EncodeChar (next b bs).1).length + 3 * (next b bs).2.length ≤ 3 * (bs.length + 1) := by
  have hl := next_length_le b bs
  rcases next_multibyte b bs with ha | hr | hm
  · simp only [next_ascii ha, length_utf8EncodeChar_ofAscii ha]
    omega
  · rw [hr, length_utf8EncodeChar_replacement]
    omega
  · have := length_utf8EncodeChar (next b bs).1
    omega

-- At worst, every byte is replaced.
theorem length_encode_lossy (bs : Bytes) : (encode (lossy bs)).length ≤ 3 * bs.length := by
  induction hn : bs.length using Nat.strong_induction_on generalizing bs
  case h n hi =>
    cases bs
    case nil => exact Nat.zero_le _
    case cons b bs =>
      have hl := next_length_le b bs
      have hr := hi (next b bs).2.length (by rw [← hn, List.length_cons]; omega) (next b bs).2 rfl
      have he := next_expands b bs
      rw [lossy_cons, ← List.singleton_append, encode_append, List.length_append, ← hn, List.length_cons]
      have hs : (encode [(next b bs).1]).length = (String.utf8EncodeChar (next b bs).1).length := by simp [encode]
      omega

end Utf8
