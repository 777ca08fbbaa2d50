import ProxyBroker.Objects.Theorems.IpChars

-- Which texts of four numbers are parsed as an IPv4 address.
namespace IpParse

open Str

variable {o t : Str}

-- A run of ASCII digits.
def Run (o : Str) : Prop :=
  o ≠ [] ∧ ∀ c ∈ o, c.isDigit

-- The runs that are read as an octet: they do not have superfluous zeros.
def Strict (o : Str) : Prop :=
  o.length ≤ 3 ∧ valueOf o ≤ 255 ∧ (o.head? = some '0' → o.length = 1)

instance (o : Str) : Decidable (Strict o) :=
  inferInstanceAs (Decidable (_ ∧ _ ∧ _))

theorem digit_of_isDigit {c : Char} (h : c.isDigit) : digit 10 c = digit? c := by
  have hc := Char.isDigit_iff_toNat.mp h
  have hd : digit? c = some (c.toNat - '0'.toNat) := if_pos h
  have hn : '9'.toNat = 57 := rfl
  have hz : '0'.toNat = 48 := rfl
  rw [hd, digit, if_pos h, Option.filter_some, if_pos (by simp only [hz, decide_eq_true_eq]; omega)]

theorem Run.takeWhile (h : Run o) (ht : Stops 10 t) : (o ++ t).takeWhile (digit 10 · |>.isSome) = o := by
  rw [List.takeWhile_append_of_pos, ht.takeWhile_eq_nil, List.append_nil]
  intro c hc
  rw [digit_of_isDigit (h.right c hc), digit?, if_pos (h.right c hc)]
  rfl

theorem Run.readNumber (h : Run o) (ht : Stops 10 t) :
    readNumber 10 (some 3) false 255 (o ++ t) = if Strict o then some (valueOf o, t) else none := by
  have hv : o.foldl (fun n c => 10 * n + (digit 10 c).getD 0) 0 = valueOf o := by
    refine List.foldl_ext _ _ _ fun n c hc => ?_
    rw [digit_of_isDigit (h.right c hc)]
  have hp := List.length_pos_iff.mpr h.left
  simp only [IpParse.readNumber, h.takeWhile ht, hv, List.drop_left, Option.any_some, Bool.or_eq_true, decide_eq_true_eq,
    h.left, or_false, Bool.not_false, Bool.true_and, Bool.and_eq_true]
  by_cases hs : Strict o
  case pos =>
    obtain ⟨hl, hb, hz⟩ := hs
    rw [if_neg (by omega), if_neg fun hn => by have := hz hn.left; omega, if_pos ⟨hl, hb, hz⟩]
  case neg =>
    rw [if_neg hs]
    split_ifs with hb hn
    · rfl
    · rfl
    · refine absurd ⟨by omega, by omega, fun hz => ?_⟩ hs
      by_contra hl
      exact hn ⟨hz, by omega⟩

theorem Run.readOctet_zero (h : Run o) (ht : Stops 10 t) :
    readOctet 0 (o ++ t) = if Strict o then some (UInt8.ofNat (valueOf o), t) else none := by
  rw [readOctet, readSeparator, if_pos rfl, h.readNumber ht]
  split_ifs <;> rfl

theorem Run.readOctet_succ {i : Nat} (h : Run o) (ht : Stops 10 t) :
    readOctet (i + 1) ('.' :: (o ++ t)) = if Strict o then some (UInt8.ofNat (valueOf o), t) else none := by
  rw [← h.readOctet_zero ht]
  simp [readOctet, readSeparator, readChar]

section Dotted

-- Four numbers with dots between them.
def dotted (o₀ o₁ o₂ o₃ : Str) : Str :=
  ['.'].intercalate [o₀, o₁, o₂, o₃]

def ofRuns (o₀ o₁ o₂ o₃ : Str) : IpAddr :=
  .v4 (UInt8.ofNat (valueOf o₀)) (UInt8.ofNat (valueOf o₁)) (UInt8.ofNat (valueOf o₂)) (UInt8.ofNat (valueOf o₃))

variable {o₀ o₁ o₂ o₃ : Str}

theorem dotted_eq : dotted o₀ o₁ o₂ o₃ = o₀ ++ '.' :: (o₁ ++ '.' :: (o₂ ++ '.' :: (o₃ ++ []))) := by
  simp [dotted, List.intercalate]

theorem mem_dotted {c : Char} (ho : o ∈ [o₀, o₁, o₂, o₃]) (hc : c ∈ o) : c ∈ dotted o₀ o₁ o₂ o₃ := by
  rw [dotted_eq]
  simp only [List.mem_cons, List.not_mem_nil, or_false] at ho
  rcases ho with rfl | rfl | rfl | rfl <;> simp [hc]

variable (h : ∀ o ∈ [o₀, o₁, o₂, o₃], Run o)
include h

theorem readIpv4_dotted : readIpv4 (dotted o₀ o₁ o₂ o₃) = if ∀ o ∈ [o₀, o₁, o₂, o₃], Strict o then
    some ((UInt8.ofNat (valueOf o₀), UInt8.ofNat (valueOf o₁), UInt8.ofNat (valueOf o₂), UInt8.ofNat (valueOf o₃)), [])
    else none := by
  simp only [List.forall_mem_cons, List.not_mem_nil, IsEmpty.forall_iff, implies_true, and_true] at h
  obtain ⟨h₀, h₁, h₂, h₃⟩ := h
  have hd (t : Str) : Stops 10 ('.' :: t) := (stops_cons ..).mpr (by decide)
  have h₃ : readOctet 3 ('.' :: o₃) = if Strict o₃ then some (UInt8.ofNat (valueOf o₃), []) else none := by
    simpa using h₃.readOctet_succ (i := 2) (stops_nil 10)
  rw [readIpv4, dotted_eq, h₀.readOctet_zero (hd _)]
  by_cases s₀ : Strict o₀ <;> by_cases s₁ : Strict o₁ <;> by_cases s₂ : Strict o₂ <;> by_cases s₃ : Strict o₃ <;>
    simp [s₀, s₁, s₂, s₃, h₁.readOctet_succ (hd _), h₂.readOctet_succ (hd _), h₃]

theorem not_mem_dotted {c : Char} (hd : c.isDigit = false) (hc : c ≠ '.') : c ∉ dotted o₀ o₁ o₂ o₃ := by
  simp only [List.forall_mem_cons, List.not_mem_nil, IsEmpty.forall_iff, implies_true, and_true] at h
  obtain ⟨h₀, h₁, h₂, h₃⟩ := h
  have hr {o : Str} (h : Run o) : c ∉ o := fun hm => by simp [h.right c hm] at hd
  simp [dotted_eq, hc, hr h₀, hr h₁, hr h₂, hr h₃]

theorem parse_dotted : IpAddr.parse (dotted o₀ o₁ o₂ o₃) =
    if ∀ o ∈ [o₀, o₁, o₂, o₃], Strict o then some (ofRuns o₀ o₁ o₂ o₃) else none := by
  have h₄ := readIpv4_dotted h
  rw [IpAddr.parse, readIp]
  split_ifs at h₄ ⊢ with hs
  · rw [h₄]
    rfl
  · rw [h₄, readIpv6_eq_none h₄ (not_mem_dotted h (by decide) (by decide))]
    rfl

end Dotted
end IpParse
