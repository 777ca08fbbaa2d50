import ProxyBroker.Objects.Theorems.IpText

-- The characters of the texts that are parsed as IP addresses.
namespace IpParse

variable {s t : Str} {radix n bound : Nat} {m : Option Nat} {z : Bool} {c : Char}

theorem readNumber_eq_some (h : readNumber radix m z bound s = some (n, t)) :
    s.takeWhile (digit radix · |>.isSome) ≠ [] ∧ t = s.dropWhile (digit radix · |>.isSome) := by
  simp only [readNumber] at h
  split_ifs at h with hn
  cases h
  simp only [Bool.or_eq_true, decide_eq_true_eq, not_or] at hn
  exact ⟨hn.left.right, drop_takeWhile ..⟩

theorem readChar_eq_some {u : Unit} (h : readChar c s = some (u, t)) : s = c :: t := by
  cases s
  case nil      => cases h
  case cons d s =>
    rw [readChar] at h
    split_ifs at h with hd
    cases h
    rw [hd]

theorem readChar_eq_none (h : c ∉ s) : readChar c s = none := by
  cases s
  case nil      => rfl
  case cons d s => exact if_neg fun hd : d = c => h (hd ▸ List.mem_cons_self)

-- An IPv6 address needs a colon.
theorem readIpv6_eq_none (h₄ : readIpv4 s = none) (hc : ':' ∉ s) : readIpv6 s = none := by
  have hg : ∃ gs t, readGroups 8 8 0 s = (gs, false, t) ∧ gs.length ≤ 1 ∧ ':' ∉ t := by
    cases hn : readNumber 16 (some 4) true 65535 s
    case none => exact ⟨[], s, by simp [readGroups, readSeparator, h₄, hn], by simp, hc⟩
    case some a =>
      obtain ⟨n, t⟩ := a
      have ht : ':' ∉ t := fun hm => hc <| (List.dropWhile_sublist _).subset <| (readNumber_eq_some hn).right ▸ hm
      exact ⟨[UInt16.ofNat n], t, by simp [readGroups, readSeparator, h₄, hn, readChar_eq_none ht], by simp, ht⟩
  obtain ⟨gs, t, hg, hl, ht⟩ := hg
  rw [readIpv6, hg]
  dsimp only
  rw [if_neg (by omega), if_neg Bool.false_ne_true, readChar_eq_none ht]
  rfl

section Consumed

variable {P Q : Char → Prop} {v : Str}

-- What a parser has read consists of certain characters, and it does not end with a dot.
def Reads (P : Char → Prop) (s t : Str) : Prop :=
  ∃ u, s = u ++ t ∧ (∀ c ∈ u, P c) ∧ u.getLast? ≠ some '.'

namespace Reads

theorem refl : Reads P s s :=
  ⟨[], rfl, by simp, by simp⟩

theorem trans (h : Reads P s t) (h' : Reads P t v) : Reads P s v := by
  obtain ⟨u, rfl, hu, hl⟩ := h
  obtain ⟨w, rfl, hw, hl'⟩ := h'
  refine ⟨u ++ w, (List.append_assoc ..).symm, List.forall_mem_append.mpr ⟨hu, hw⟩, ?_⟩
  rw [List.getLast?_append]
  cases hg : w.getLast? <;> simp_all

theorem mono (h : Reads P s t) (hq : ∀ c, P c → Q c) : Reads Q s t := by
  obtain ⟨u, hs, hu, hl⟩ := h
  exact ⟨u, hs, fun c hc => hq c (hu c hc), hl⟩

end Reads

theorem getLast?_takeWhile_ne : (s.takeWhile (digit radix · |>.isSome)).getLast? ≠ some '.' := by
  intro hl
  have := List.mem_takeWhile_imp (List.mem_of_getLast? hl)
  simp [digit] at this

theorem reads_readNumber (h : readNumber radix m z bound s = some (n, t)) : Reads (digit radix · |>.isSome) s t := by
  obtain ⟨-, rfl⟩ := readNumber_eq_some h
  exact ⟨_, List.takeWhile_append_dropWhile.symm, fun c => List.mem_takeWhile_imp, getLast?_takeWhile_ne⟩

-- The characters of IPv4 addresses.
def IsV4Char (c : Char) : Prop :=
  (digit 10 c).isSome ∨ c = '.'

theorem reads_readOctet {i : Nat} {a : UInt8} (h : readOctet i s = some (a, t)) : Reads IsV4Char s t := by
  obtain ⟨⟨n, t'⟩, hn, he⟩ := Option.map_eq_some_iff.mp h
  cases he
  unfold readSeparator at hn
  split_ifs at hn
  case pos => exact (reads_readNumber hn).mono fun _ => .inl
  case neg =>
    obtain ⟨⟨⟨⟩, s'⟩, hs, hn⟩ := Option.bind_eq_some_iff.mp hn
    obtain rfl := readChar_eq_some hs
    obtain ⟨hne, rfl⟩ := readNumber_eq_some hn
    refine ⟨'.' :: s'.takeWhile (digit 10 · |>.isSome), by simp, ?_, ?_⟩
    · exact List.forall_mem_cons.mpr ⟨.inr rfl, fun c hc => .inl (List.mem_takeWhile_imp (p := (digit 10 · |>.isSome)) hc)⟩
    · rw [List.getLast?_cons_of_ne_nil hne]
      exact getLast?_takeWhile_ne

theorem reads_readIpv4 {a : UInt8 × UInt8 × UInt8 × UInt8} (h : readIpv4 s = some (a, t)) : Reads IsV4Char s t := by
  simp only [readIpv4, Option.bind_eq_bind, Option.bind_eq_some_iff] at h
  obtain ⟨⟨a₀, s₁⟩, h₀, ⟨a₁, s₂⟩, h₁, ⟨a₂, s₃⟩, h₂, ⟨a₃, s₄⟩, h₃, he⟩ := h
  cases he
  exact (((reads_readOctet h₀).trans (reads_readOctet h₁)).trans (reads_readOctet h₂)).trans (reads_readOctet h₃)

-- The characters of IPv6 addresses.
def IsV6Char (c : Char) : Prop :=
  (digit 16 c).isSome ∨ c = ':' ∨ c = '.'

theorem isSome_digit (h : (digit 10 c).isSome) : (digit 16 c).isSome := by
  obtain ⟨n, hn⟩ := Option.isSome_iff_exists.mp h
  obtain ⟨hn, hl⟩ := Option.filter_eq_some_iff.mp hn
  have hl : n < 10 := by simpa using hl
  have hd : digit 16 c = some n := Option.filter_eq_some_iff.mpr ⟨hn, by simpa using by omega⟩
  rw [hd]
  rfl

theorem IsV4Char.isV6Char (h : IsV4Char c) : IsV6Char c :=
  h.imp isSome_digit .inr

theorem reads_colon : Reads IsV6Char (':' :: s) s :=
  ⟨[':'], rfl, by simp [IsV6Char], by simp⟩

theorem reads_readSeparator {α : Type} {i : Nat} {inner : Str → Option (α × Str)} {a : α}
    (hi : ∀ s a t, inner s = some (a, t) → Reads IsV6Char s t) (h : readSeparator ':' i inner s = some (a, t)) :
    Reads IsV6Char s t := by
  unfold readSeparator at h
  split_ifs at h
  case pos => exact hi _ _ _ h
  case neg =>
    obtain ⟨⟨⟨⟩, s'⟩, hs, hn⟩ := Option.bind_eq_some_iff.mp h
    obtain rfl := readChar_eq_some hs
    exact reads_colon.trans (hi _ _ _ hn)

theorem reads_readGroups (limit fuel i : Nat) (s : Str) : Reads IsV6Char s (readGroups limit fuel i s).2.2 := by
  induction fuel generalizing i s
  case zero => exact .refl
  case succ fuel hi =>
    have hn (s t : Str) (n : Nat) (h : readNumber 16 (some 4) true 65535 s = some (n, t)) : Reads IsV6Char s t :=
      (reads_readNumber h).mono fun _ => .inl
    rw [readGroups]
    dsimp only
    cases h₄ : if i + 1 < limit then readSeparator ':' i readIpv4 s else none
    case some a =>
      split_ifs at h₄
      exact reads_readSeparator (fun _ _ _ h => (reads_readIpv4 h).mono fun _ => IsV4Char.isV6Char) h₄
    case none =>
      cases hg : readSeparator ':' i (readNumber 16 (some 4) true 65535) s
      case none   => exact .refl
      case some a => exact (reads_readSeparator (fun s n t => hn s t n) hg).trans (hi ..)

theorem reads_readIpv6 {a : IpAddr} (h : readIpv6 s = some (a, t)) : Reads IsV6Char s t := by
  have hg := reads_readGroups 8 8 0 s
  unfold readIpv6 at h
  dsimp only at h
  split_ifs at h
  case pos =>
    obtain ⟨_, -, he⟩ := Option.map_eq_some_iff.mp h
    cases he
    exact hg
  case neg =>
    simp only [Option.bind_eq_bind, Option.bind_eq_some_iff] at h
    obtain ⟨⟨⟨⟩, s₁⟩, h₁, ⟨⟨⟩, s₂⟩, h₂, h⟩ := h
    obtain ⟨_, -, he⟩ := Option.map_eq_some_iff.mp h
    cases he
    obtain rfl : s₁ = ':' :: s₂ := readChar_eq_some h₂
    rw [readChar_eq_some h₁] at hg
    exact ((hg.trans reads_colon).trans reads_colon).trans (reads_readGroups ..)

end Consumed

theorem ofSegments_ne_v4 {ss : List UInt16} {a₀ a₁ a₂ a₃ : UInt8} : ofSegments ss ≠ some (.v4 a₀ a₁ a₂ a₃) := by
  unfold ofSegments
  split <;> simp

theorem readIpv6_ne_v4 {a₀ a₁ a₂ a₃ : UInt8} : readIpv6 s ≠ some (.v4 a₀ a₁ a₂ a₃, t) := by
  unfold readIpv6
  dsimp only
  split_ifs
  · simp [ofSegments_ne_v4]
  · simp
  · simp [Option.bind_eq_some_iff, ofSegments_ne_v4]

section Lower

open Str

theorem digit_eq (radix : Nat) (c : Char) : digit radix c = Option.filter (· < radix)
    (if 48 ≤ c.toNat ∧ c.toNat ≤ 57 then some (c.toNat - 48)
    else if 97 ≤ c.toNat ∧ c.toNat ≤ 102 then some (c.toNat - 97 + 10)
    else if 65 ≤ c.toNat ∧ c.toNat ≤ 70 then some (c.toNat - 65 + 10)
    else none) := by
  simp only [digit, Char.isDigit_iff_toNat, Char.le_def, UInt32.le_iff_toNat_le]
  rfl

theorem IsV6Char.toNat_lt (h : IsV6Char c) : c.toNat < 128 := by
  rcases h with h | rfl | rfl
  · rw [digit_eq] at h
    split_ifs at h
    case neg => simp at h
    all_goals omega
  all_goals decide

-- The digits of both cases have the same value.
theorem digit_toLower (radix : Nat) (c : Char) : digit radix c.toLower = digit radix c := by
  rw [digit_eq, digit_eq, toNat_toLower]
  congr 1
  split_ifs <;> first | omega | rfl

theorem takeWhile_lower (p : Char → Bool) (hp : ∀ c, p c.toLower = p c) (s : Str) :
    (asciiLower s).takeWhile p = asciiLower (s.takeWhile p) := by
  rw [asciiLower, asciiLower, List.takeWhile_map]
  congr 2
  exact funext hp

-- What a parser leaves over is mapped with the text.
def lowerRest {α : Type} (r : Option (α × Str)) : Option (α × Str) :=
  r.map fun a => (a.1, asciiLower a.2)

theorem lowerRest_bind {α β : Type} {f : α × Str → Option (β × Str)} (h : ∀ a s, f (a, asciiLower s) = lowerRest (f (a, s)))
    (r : Option (α × Str)) : (lowerRest r).bind f = lowerRest (r.bind f) := by
  cases r
  case none   => rfl
  case some r => exact h r.1 r.2

theorem lowerRest_map {α β : Type} (f : α → β) (r : Option (α × Str)) :
    (lowerRest r).map (Prod.map f id) = lowerRest (r.map (Prod.map f id)) := by
  cases r <;> rfl

theorem readNumber_lower : readNumber radix m z bound (asciiLower s) = lowerRest (readNumber radix m z bound s) := by
  have ht : (asciiLower s).takeWhile (digit radix · |>.isSome) = asciiLower (s.takeWhile (digit radix · |>.isSome)) :=
    takeWhile_lower _ (fun c => by rw [digit_toLower]) s
  have hf (ds : Str) (n : Nat) : (asciiLower ds).foldl (fun n c => radix * n + (digit radix c).getD 0) n =
      ds.foldl (fun n c => radix * n + (digit radix c).getD 0) n := by
    simp only [asciiLower, List.foldl_map, digit_toLower]
  have hz (ds : Str) : (asciiLower ds).head? = some '0' ↔ ds.head? = some '0' := by
    cases ds <;> simp [toLower_eq_iff]
  have hn (ds : Str) : asciiLower ds = [] ↔ ds = [] := List.map_eq_nil_iff
  have hl (ds : Str) : (asciiLower ds).length = ds.length := List.length_map ..
  simp only [readNumber, ht, hf, hz, hn, hl]
  simp only [asciiLower, ← List.map_drop]
  split_ifs <;> rfl

theorem readChar_lower (hc : c = ':' ∨ c = '.') : readChar c (asciiLower s) = lowerRest (readChar c s) := by
  cases s
  case nil      => rfl
  case cons d s =>
    have hd : d.toLower = c ↔ d = c := by
      rcases hc with rfl | rfl <;> exact toLower_eq_iff (by decide) (by decide)
    simp only [asciiLower_cons, readChar, hd]
    split_ifs <;> rfl

theorem readSeparator_lower {α : Type} {i : Nat} {inner : Str → Option (α × Str)} (hc : c = ':' ∨ c = '.')
    (hi : ∀ s, inner (asciiLower s) = lowerRest (inner s)) :
    readSeparator c i inner (asciiLower s) = lowerRest (readSeparator c i inner s) := by
  unfold readSeparator
  split_ifs
  · exact hi s
  · rw [readChar_lower hc]
    exact lowerRest_bind (fun _ s => hi s) _

theorem readOctet_lower {i : Nat} : readOctet i (asciiLower s) = lowerRest (readOctet i s) := by
  rw [readOctet, readSeparator_lower (.inr rfl) fun s => readNumber_lower]
  exact lowerRest_map ..

theorem readIpv4_lower : readIpv4 (asciiLower s) = lowerRest (readIpv4 s) := by
  unfold readIpv4
  simp only [Option.bind_eq_bind]
  rw [readOctet_lower]
  refine lowerRest_bind (fun a s => ?_) _
  dsimp only
  rw [readOctet_lower]
  refine lowerRest_bind (fun a s => ?_) _
  dsimp only
  rw [readOctet_lower]
  refine lowerRest_bind (fun a s => ?_) _
  dsimp only
  rw [readOctet_lower]
  exact lowerRest_bind (fun a s => rfl) _

theorem readGroups_lower (limit fuel i : Nat) (s : Str) : readGroups limit fuel i (asciiLower s) =
    ((readGroups limit fuel i s).1, (readGroups limit fuel i s).2.1, asciiLower (readGroups limit fuel i s).2.2) := by
  induction fuel generalizing i s
  case zero => rfl
  case succ fuel hi =>
    have h₄ : (if i + 1 < limit then readSeparator ':' i readIpv4 (asciiLower s) else none) =
        lowerRest (if i + 1 < limit then readSeparator ':' i readIpv4 s else none) := by
      rw [readSeparator_lower (.inl rfl) fun s => readIpv4_lower]
      split_ifs <;> rfl
    have hg := @readSeparator_lower s ':' Nat i (readNumber 16 (some 4) true 65535) (.inl rfl) fun _ => readNumber_lower
    rw [readGroups, readGroups]
    dsimp only
    rw [h₄, hg]
    cases if i + 1 < limit then readSeparator ':' i readIpv4 s else none
    case some a => rfl
    case none =>
      cases readSeparator ':' i (readNumber 16 (some 4) true 65535) s
      case none   => rfl
      case some a => simp [lowerRest, hi]

theorem readIpv6_lower : readIpv6 (asciiLower s) = lowerRest (readIpv6 s) := by
  have hs (ss : List UInt16) (t : Str) :
      (ofSegments ss).map (·, asciiLower t) = lowerRest ((ofSegments ss).map (·, t)) := by
    cases ofSegments ss <;> rfl
  unfold readIpv6
  simp only [readGroups_lower, Option.bind_eq_bind]
  split_ifs
  · exact hs ..
  · rfl
  · rw [readChar_lower (.inl rfl)]
    refine lowerRest_bind (fun _ s => ?_) _
    dsimp only
    rw [readChar_lower (.inl rfl)]
    refine lowerRest_bind (fun _ s => ?_) _
    simp only [readGroups_lower]
    exact hs ..

end Lower

end IpParse

namespace IpAddr

open IpParse

variable {s : Str} {a : IpAddr}

-- An address is read by one of the two parsers.
theorem parse_cases (h : parse s = some a) :
    (∃ a₀ a₁ a₂ a₃, readIpv4 s = some ((a₀, a₁, a₂, a₃), []) ∧ a = v4 a₀ a₁ a₂ a₃) ∨
    readIpv4 s = none ∧ readIpv6 s = some (a, []) := by
  have hc {α : Type} {r : Option (α × Str)} {a : α} (h : complete r = some a) : r = some (a, []) := by
    rcases r with - | ⟨b, - | ⟨c, t⟩⟩
    · cases h
    · cases h
      rfl
    · cases h
  have h := hc h
  rw [readIp] at h
  cases h₄ : readIpv4 s
  case none => exact .inr ⟨rfl, by rwa [h₄] at h⟩
  case some r =>
    obtain ⟨⟨a₀, a₁, a₂, a₃⟩, t⟩ := r
    rw [h₄] at h
    cases h
    exact .inl ⟨a₀, a₁, a₂, a₃, rfl, rfl⟩

theorem isV4Char_displayV4 {a₀ a₁ a₂ a₃ : UInt8} : ∀ c ∈ displayV4 a₀ a₁ a₂ a₃, IsV4Char c := by
  obtain ⟨u, he, hu, -⟩ := reads_readIpv4 (readIpv4_displayV4 (a := a₀) (b := a₁) (c := a₂) (d := a₃) (stops_nil 10))
  rw [List.append_cancel_right he]
  exact hu

theorem exists_v4_of_parse (h : parse s = some a) (hc : ':' ∉ s) : ∃ a₀ a₁ a₂ a₃, a = v4 a₀ a₁ a₂ a₃ := by
  rcases parse_cases h with ⟨a₀, a₁, a₂, a₃, -, rfl⟩ | ⟨h₄, h₆⟩
  · exact ⟨a₀, a₁, a₂, a₃, rfl⟩
  · rw [readIpv6_eq_none h₄ hc] at h₆
    cases h₆

theorem not_mem_of_parse_v4 {a₀ a₁ a₂ a₃ : UInt8} (h : parse s = some (v4 a₀ a₁ a₂ a₃)) : ':' ∉ s := by
  rcases parse_cases h with ⟨_, _, _, _, h₄, -⟩ | ⟨-, h₆⟩
  case inr => exact absurd h₆ readIpv6_ne_v4
  case inl =>
    obtain ⟨u, rfl, hu, -⟩ := reads_readIpv4 h₄
    rw [List.append_nil]
    intro hc
    rcases hu ':' hc with hd | hd
    · simp [digit] at hd
    · cases hd

theorem reads_parse (h : parse s = some a) : Reads IsV6Char s [] := by
  rcases parse_cases h with ⟨a₀, a₁, a₂, a₃, h₄, -⟩ | ⟨-, h₆⟩
  · exact (reads_readIpv4 h₄).mono fun _ => IsV4Char.isV6Char
  · exact reads_readIpv6 h₆

theorem isV6Char_of_parse (h : parse s = some a) : ∀ c ∈ s, IsV6Char c := by
  obtain ⟨u, rfl, hu, -⟩ := reads_parse h
  simpa using hu

theorem getLast?_of_parse (h : parse s = some a) : s.getLast? ≠ some '.' := by
  obtain ⟨u, rfl, -, hl⟩ := reads_parse h
  simpa using hl

theorem head?_of_parse (h : parse s = some a) : s.head? ≠ some '.' := by
  rintro hd
  obtain ⟨t, rfl⟩ := List.head?_eq_some_iff.mp hd
  have hn (radix : Nat) (m : Option Nat) (z : Bool) (n : Nat) : readNumber radix m z n ('.' :: t) = none :=
    readNumber_stops (by simp [digit]) m z n
  have h₄ : readIpv4 ('.' :: t) = none := by simp [readIpv4, readOctet, readSeparator, hn]
  have hg : readGroups 8 8 0 ('.' :: t) = ([], false, '.' :: t) := by simp [readGroups, readSeparator, hn, h₄]
  have h₆ : readIpv6 ('.' :: t) = none := by
    rw [readIpv6, hg]
    rfl
  rw [parse, readIp, h₄, h₆] at h
  cases h

-- Letters may be of either case.
theorem parse_asciiLower (s : Str) : parse (Str.asciiLower s) = parse s := by
  have hc {α : Type} (r : Option (α × Str)) : complete (lowerRest r) = complete r := by
    rcases r with - | ⟨a, - | ⟨c, t⟩⟩ <;> rfl
  have hr : readIp (Str.asciiLower s) = lowerRest (readIp s) := by
    rw [readIp, readIp, readIpv4_lower, readIpv6_lower]
    cases readIpv4 s <;> rfl
  rw [parse, hr, hc]
  rfl

end IpAddr
