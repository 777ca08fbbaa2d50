import ProxyBroker.Objects.IpParse
import ProxyBroker.Text.Digits
import Mathlib.Data.List.TakeWhile

-- The text of an IP address is parsed as that address.
namespace IpParse

open Str

section Numbers

theorem digit_digitChar {radix d : Nat} (h16 : radix ≤ 16) (hd : d < radix) : digit radix d.digitChar = some d := by
  have h : digit 16 d.digitChar = some d := by
    have : d < 16 := by omega
    interval_cases d <;> decide
  obtain ⟨h, -⟩ := Option.filter_eq_some_iff.mp h
  exact Option.filter_eq_some_iff.mpr ⟨h, by simpa using hd⟩

-- A number ends where a text starts with something else than a digit.
def Stops (radix : Nat) (s : Str) : Prop :=
  ∀ c ∈ s.head?, digit radix c = none

@[simp]
theorem stops_nil (radix : Nat) : Stops radix [] := by
  simp [Stops]

@[simp]
theorem stops_cons (radix : Nat) (c : Char) (s : Str) : Stops radix (c :: s) ↔ digit radix c = none := by
  simp [Stops]

theorem Stops.takeWhile_eq_nil {radix : Nat} {s : Str} (h : Stops radix s) :
    s.takeWhile (digit radix · |>.isSome) = [] := by
  cases s
  case nil      => rfl
  case cons c s => simp [(stops_cons ..).mp h]

theorem takeWhile_toDigits {radix n : Nat} {s : Str} (hr : 1 < radix) (h16 : radix ≤ 16) (hs : Stops radix s) :
    (Nat.toDigits radix n ++ s).takeWhile (digit radix · |>.isSome) = Nat.toDigits radix n := by
  rw [List.takeWhile_append_of_pos, hs.takeWhile_eq_nil, List.append_nil]
  intro c hc
  obtain ⟨d, hd, rfl⟩ := Nat.digitChar_mem_toDigits hr hc
  simp [digit_digitChar h16 hd]

theorem readNumber_toDigits {radix bound n : Nat} {maxDigits : Option Nat} {allowZeroPrefix : Bool} {s : Str}
    (hr : 1 < radix) (h16 : radix ≤ 16) (hn : n ≤ bound)
    (hm : ∀ k, maxDigits = some k → (Nat.toDigits radix n).length ≤ k) (hs : Stops radix s) :
    readNumber radix maxDigits allowZeroPrefix bound (Nat.toDigits radix n ++ s) = some (n, s) := by
  have hv : (Nat.toDigits radix n).foldl (fun n c => radix * n + (digit radix c).getD 0) 0 = n :=
    Nat.ofDigitsWith_toDigits hr (fun c => (digit radix c).getD 0) fun d hd => by
      simp [digit_digitChar h16 hd]
  have ha : maxDigits.any (· < (Nat.toDigits radix n).length) = false := by
    cases maxDigits
    case none   => rfl
    case some k => simpa using hm k rfl
  unfold readNumber
  simp only [takeWhile_toDigits hr h16 hs, hv, ha]
  rw [if_neg (by simp [Nat.not_lt.mpr hn]), if_neg, List.drop_left]
  by_cases h : (Nat.toDigits radix n).head? = some '0'
  · have := Nat.head?_toDigits hr h16 h
    simp [Nat.not_lt.mpr this]
  · simp [h]

end Numbers

section V4

theorem readOctet_zero {a : UInt8} {s : Str} (hs : Stops 10 s) : readOctet 0 (ofNat a.toNat ++ s) = some (a, s) := by
  have hl : (ofNat a.toNat).length ≤ 3 :=
    (Nat.length_toDigits_le_iff (by decide) (by decide)).mpr (by have := a.toNat_lt; omega)
  have hn : a.toNat ≤ 255 := Nat.le_of_lt_succ a.toNat_lt
  rw [readOctet, readSeparator, if_pos rfl, ofNat, readNumber_toDigits (by decide) (by decide) hn ?_ hs]
  · simp
  · rintro k ⟨⟩
    exact hl

theorem readOctet_succ {i : Nat} {a : UInt8} {s : Str} (hs : Stops 10 s) :
    readOctet (i + 1) ('.' :: (ofNat a.toNat ++ s)) = some (a, s) := by
  simpa [readOctet, readSeparator, readChar] using readOctet_zero (a := a) hs

theorem displayV4_append (a b c d : UInt8) (s : Str) :
    IpAddr.displayV4 a b c d ++ s =
    ofNat a.toNat ++ '.' :: (ofNat b.toNat ++ '.' :: (ofNat c.toNat ++ '.' :: (ofNat d.toNat ++ s))) := by
  simp [IpAddr.displayV4, List.intercalate]

theorem readIpv4_displayV4 {a b c d : UInt8} {s : Str} (hs : Stops 10 s) :
    readIpv4 (IpAddr.displayV4 a b c d ++ s) = some ((a, b, c, d), s) := by
  have hd (t : Str) : Stops 10 ('.' :: t) := (stops_cons ..).mpr (by decide)
  simp [readIpv4, displayV4_append, readOctet_zero (hd _), readOctet_succ (hd _), readOctet_succ hs]

theorem drop_takeWhile (p : Char → Bool) (s : Str) : s.drop (s.takeWhile p).length = s.dropWhile p := by
  have h : (s.takeWhile p ++ s.dropWhile p).drop (s.takeWhile p).length = s.dropWhile p := List.drop_left
  rwa [List.takeWhile_append_dropWhile] at h

-- What follows the leading digits of an IPv4 address is a dot.
theorem readIpv4_eq_none {s : Str} (h : ∀ t, s.dropWhile (digit 10 · |>.isSome) ≠ '.' :: t) : readIpv4 s = none := by
  unfold readIpv4
  cases ho : readOctet 0 s
  case none      => rfl
  case some as =>
    obtain ⟨a, t⟩ := as
    have ht : t = s.dropWhile (digit 10 · |>.isSome) := by
      simp only [readOctet, readSeparator, if_true, readNumber, Option.map_eq_some_iff] at ho
      obtain ⟨⟨n, t'⟩, hn, ho⟩ := ho
      cases ho
      split_ifs at hn
      cases hn
      exact drop_takeWhile ..
    have h₁ : readOctet 1 t = none := by
      cases t
      case nil => rfl
      case cons c t =>
        have hc : c ≠ '.' := fun hc => h t (by rw [← ht, hc])
        simp [readOctet, readSeparator, readChar, hc]
    simp [h₁]

-- An IPv4 address does not start with something that ends without having been followed by a dot.
theorem readIpv4_append_eq_none {ds s : Str} (hd : '.' ∉ ds) (hs : Stops 10 s) (hp : s.head? ≠ some '.') :
    readIpv4 (ds ++ s) = none := by
  refine readIpv4_eq_none fun t ht => ?_
  rw [List.dropWhile_append] at ht
  split_ifs at ht with hn
  · cases s
    case nil => cases ht
    case cons c s =>
      rw [List.dropWhile_cons_of_neg (by simp [(stops_cons ..).mp hs])] at ht
      exact hp (congrArg List.head? ht)
  · refine hd ((List.dropWhile_sublist (digit 10 · |>.isSome)).subset ?_)
    cases hd : ds.dropWhile (digit 10 · |>.isSome)
    case nil      => simp [hd] at hn
    case cons c _ =>
      rw [hd] at ht
      cases ht
      exact List.mem_cons_self

end V4

section V6

def hex (s : UInt16) : Str :=
  Nat.toDigits 16 s.toNat

-- The segments that are not the first one.
def sepSegments (ss : List UInt16) : Str :=
  ss.flatMap fun s => ':' :: hex s

theorem displaySegments_cons (s : UInt16) (ss : List UInt16) :
    IpAddr.displaySegments (s :: ss) = hex s ++ sepSegments ss := by
  induction ss generalizing s
  case nil           => simp [IpAddr.displaySegments, sepSegments, hex, List.intercalate]
  case cons s' ss hi =>
    have h : IpAddr.displaySegments (s :: s' :: ss) = hex s ++ ':' :: IpAddr.displaySegments (s' :: ss) := by
      simp [IpAddr.displaySegments, hex, List.intercalate]
    simp [h, hi, sepSegments]

-- What can follow an address: nothing or a bracket.
def Closes (s : Str) : Prop :=
  ∀ c ∈ s.head?, c = ']'

-- Where a group of an IPv6 address ends.
def Breaks (s : Str) : Prop :=
  Closes s ∨ ∃ t, s = ':' :: t

-- Where the groups of an IPv6 address end.
def Ends (s : Str) : Prop :=
  Closes s ∨ ∃ t, s = ':' :: ':' :: t

@[simp]
theorem closes_nil : Closes [] := by
  simp [Closes]

theorem closes_bracket (s : Str) : Closes (']' :: s) := by
  simp [Closes]

theorem Ends.breaks {s : Str} (h : Ends s) : Breaks s :=
  h.imp_right fun ⟨_, h⟩ => ⟨_, h⟩

theorem Breaks.head? {s : Str} (h : Breaks s) : ∀ c ∈ s.head?, c = ']' ∨ c = ':' := by
  rcases h with h | ⟨t, rfl⟩
  · exact fun c hc => .inl (h c hc)
  · simp

theorem Breaks.stops {s : Str} {radix : Nat} (h : Breaks s) (h₁ : digit radix ']' = none) (h₂ : digit radix ':' = none) :
    Stops radix s := by
  intro c hc
  rcases h.head? c hc with rfl | rfl
  · exact h₁
  · exact h₂

theorem readNumber_stops {radix : Nat} {s : Str} (h : Stops radix s) (m : Option Nat) (b : Bool) (n : Nat) :
    readNumber radix m b n s = none := by
  simp [readNumber, h.takeWhile_eq_nil]

theorem readIpv4_breaks {ds s : Str} (hd : '.' ∉ ds) (hs : Breaks s) : readIpv4 (ds ++ s) = none := by
  refine readIpv4_append_eq_none hd (hs.stops (by decide) (by decide)) fun hp => ?_
  rcases hs.head? '.' hp with h | h <;> cases h

theorem readIpv4_hex {g : UInt16} {s : Str} (h : Breaks s) : readIpv4 (hex g ++ s) = none := by
  refine readIpv4_breaks (fun hm => ?_) h
  obtain ⟨d, hd, hc⟩ := Nat.digitChar_mem_toDigits (by decide) hm
  interval_cases d <;> exact absurd hc (by decide)

theorem readGroups_ends {s : Str} (h : Ends s) (limit fuel i : Nat) : readGroups limit fuel i s = ([], false, s) := by
  have h₄ {s : Str} (h : Breaks s) : readIpv4 s = none := readIpv4_breaks List.not_mem_nil h
  have hn {s : Str} (h : Breaks s) : readNumber 16 (some 4) true 65535 s = none :=
    readNumber_stops (h.stops (by decide) (by decide)) ..
  cases fuel
  case zero => rfl
  case succ =>
    cases i
    case zero => simp [readGroups, readSeparator, h₄ h.breaks, hn h.breaks]
    case succ =>
      rcases h with h | ⟨t, rfl⟩
      · have hc : readChar ':' s = none := by
          cases s
          case nil => rfl
          case cons c s =>
            obtain rfl : c = ']' := h c rfl
            rfl
        simp [readGroups, readSeparator, hc]
      · have hb : Breaks (':' :: t) := .inr ⟨t, rfl⟩
        simp [readGroups, readSeparator, readChar, h₄ hb, hn hb]

theorem readNumber_hex {g : UInt16} {s : Str} (hs : Breaks s) :
    readNumber 16 (some 4) true 65535 (hex g ++ s) = some (g.toNat, s) := by
  refine readNumber_toDigits (by decide) (by decide) (Nat.le_of_lt_succ g.toNat_lt) ?_ (hs.stops (by decide) (by decide))
  rintro k ⟨⟩
  exact (Nat.length_toDigits_le_iff (by decide) (by decide)).mpr (by have := g.toNat_lt; omega)

theorem sepSegments_append_breaks (ss : List UInt16) {s : Str} (h : Ends s) : Breaks (sepSegments ss ++ s) := by
  cases ss
  case nil  => exact h.breaks
  case cons => exact .inr ⟨_, rfl⟩

theorem readGroups_sepSegments {ss : List UInt16} {s : Str} (h : Ends s) {limit fuel i : Nat} (hf : ss.length ≤ fuel) :
    readGroups limit fuel (i + 1) (sepSegments ss ++ s) = (ss, false, s) := by
  induction ss generalizing fuel i
  case nil => exact readGroups_ends h ..
  case cons g ss hi =>
    obtain ⟨fuel, rfl⟩ := Nat.exists_eq_succ_of_ne_zero (Nat.ne_of_gt (Nat.lt_of_lt_of_le (Nat.zero_lt_succ _) hf))
    have hs := sepSegments_append_breaks ss h
    have he : sepSegments (g :: ss) ++ s = ':' :: (hex g ++ (sepSegments ss ++ s)) := by simp [sepSegments]
    simp [readGroups, he, readSeparator, readChar, readIpv4_hex hs, readNumber_hex hs, hi (Nat.le_of_succ_le_succ hf)]

theorem readGroups_displaySegments (ss : List UInt16) {s : Str} (h : Ends s) (limit : Nat) {fuel : Nat} (hf : ss.length ≤ fuel) :
    readGroups limit fuel 0 (IpAddr.displaySegments ss ++ s) = (ss, false, s) := by
  cases ss
  case nil => exact readGroups_ends h ..
  case cons g ss =>
    obtain ⟨fuel, rfl⟩ := Nat.exists_eq_succ_of_ne_zero (Nat.ne_of_gt (Nat.lt_of_lt_of_le (Nat.zero_lt_succ _) hf))
    have hs := sepSegments_append_breaks ss h
    simp [readGroups, displaySegments_cons, readSeparator, readIpv4_hex hs, readNumber_hex hs,
      readGroups_sepSegments h (Nat.le_of_succ_le_succ hf)]

theorem readIpv4_displaySegments (ss : List UInt16) {s : Str} (h : Ends s) :
    readIpv4 (IpAddr.displaySegments ss ++ s) = none := by
  cases ss
  case nil => exact readIpv4_breaks List.not_mem_nil h.breaks
  case cons g ss =>
    rw [displaySegments_cons, List.append_assoc]
    exact readIpv4_hex (sepSegments_append_breaks ss h)

end V6

end IpParse

namespace IpAddr

open IpParse

section Zeroes

-- A run of zeroes within some segments, as its start and its length.
def IsRun (ss : List UInt16) (r : Nat × Nat) : Prop :=
  0 < r.2 → ∃ l m, ss = l ++ List.replicate r.2 0 ++ m ∧ l.length = r.1

-- A run of zeroes at the end of some segments.
def IsLastRun (ss : List UInt16) (r : Nat × Nat) : Prop :=
  0 < r.2 → ∃ l, ss = l ++ List.replicate r.2 0 ∧ l.length = r.1

theorem IsLastRun.isRun {ss : List UInt16} {r : Nat × Nat} (h : IsLastRun ss r) : IsRun ss r := by
  intro hr
  obtain ⟨l, hs, hl⟩ := h hr
  exact ⟨l, [], by simp [← hs], hl⟩

theorem IsRun.append {ss ss' : List UInt16} {r : Nat × Nat} (h : IsRun ss r) : IsRun (ss ++ ss') r := by
  intro hr
  obtain ⟨l, m, rfl, hl⟩ := h hr
  exact ⟨l, m ++ ss', by simp, hl⟩

theorem IsLastRun.snoc {pre : List UInt16} {r : Nat × Nat} (h : IsLastRun pre r) :
    IsLastRun (pre ++ [0]) (if r.2 = 0 then pre.length else r.1, r.2 + 1) := by
  rintro -
  rcases Nat.eq_zero_or_pos r.2 with hr | hr
  · exact ⟨pre, by simp [hr], by simp [hr]⟩
  · obtain ⟨l, hp, hl⟩ := h hr
    refine ⟨l, ?_, by simp [hr.ne', hl]⟩
    rw [List.replicate_succ', ← List.append_assoc, ← hp]

theorem zeroes_go_isRun (pre ss : List UInt16) {current longest : Nat × Nat} (hc : IsLastRun pre current)
    (hl : IsRun pre longest) : IsRun (pre ++ ss) (zeroes.go ss pre.length current longest) := by
  induction ss generalizing pre current longest
  case nil => simpa [zeroes.go] using hl
  case cons s ss hi =>
    have he : pre ++ s :: ss = (pre ++ [s]) ++ ss := by simp
    have hn : pre.length + 1 = (pre ++ [s]).length := by simp
    rw [zeroes.go, he, hn]
    by_cases hs : s = 0
    case neg =>
      rw [if_neg hs]
      exact hi _ (fun h => absurd h (by simp)) hl.append
    case pos =>
      subst hs
      rw [if_pos rfl]
      dsimp only
      by_cases hn : longest.2 < current.2 + 1
      · rw [if_pos hn]
        exact hi _ hc.snoc hc.snoc.isRun
      · rw [if_neg hn]
        exact hi _ hc.snoc hl.append

theorem zeroes_isRun (ss : List UInt16) : IsRun ss (zeroes ss) :=
  zeroes_go_isRun [] ss (fun h => absurd h (by simp)) (fun h => absurd h (by simp))

end Zeroes

section Addresses

variable {s : Str}

theorem readIpv6_displaySegments {ss : List UInt16} (hs : Closes s) (hl : ss.length = 8) :
    readIpv6 (displaySegments ss ++ s) = (ofSegments ss).map (·, s) := by
  simp [readIpv6, readGroups_displaySegments ss (.inl hs) 8 hl.le, hl]

theorem readIpv6_compressed {head tail : List UInt16} (hs : Closes s) (hl : head.length + tail.length ≤ 6) :
    readIpv6 (displaySegments head ++ ':' :: ':' :: (displaySegments tail ++ s)) =
    (ofSegments (head ++ List.replicate (8 - head.length - tail.length) 0 ++ tail)).map (·, s) := by
  have hl₁ : head.length ≤ 8 := by omega
  have hl₂ : tail.length ≤ 7 - head.length := by omega
  have hh := readGroups_displaySegments head (.inr ⟨displaySegments tail ++ s, rfl⟩) 8 hl₁
  have ht := readGroups_displaySegments tail (.inl hs) (7 - head.length) hl₂
  have h8 : head.length ≠ 8 := by omega
  simp [readIpv6, hh, ht, h8, readChar]

theorem readIpv6_mapped {a b c d : UInt8} (hs : Closes s) :
    readIpv6 ("::ffff:".toList ++ (displayV4 a b c d ++ s)) =
    some (v6 0 0 0 0 0 0xFFFF (a.toUInt16 * 256 + b.toUInt16) (c.toUInt16 * 256 + d.toUInt16), s) := by
  have he : "::ffff:".toList ++ (displayV4 a b c d ++ s) =
      ':' :: ':' :: (hex 0xFFFF ++ ':' :: (displayV4 a b c d ++ s)) := by
    rw [show "::ffff:".toList = ':' :: ':' :: (hex 0xFFFF ++ [':']) by decide]
    simp
  have hn : readNumber 16 (some 4) true 65535 (hex 0xFFFF ++ ':' :: (displayV4 a b c d ++ s)) = some (65535, _) :=
    readNumber_hex (.inr ⟨_, rfl⟩)
  have h₄ : readIpv4 (hex 0xFFFF ++ ':' :: (displayV4 a b c d ++ s)) = none :=
    readIpv4_hex (.inr ⟨_, rfl⟩)
  have hv : readIpv4 (displayV4 a b c d ++ s) = some ((a, b, c, d), s) :=
    readIpv4_displayV4 (Breaks.stops (.inl hs) (by decide) (by decide))
  rw [he, readIpv6, readGroups_ends (.inr ⟨_, rfl⟩)]
  simp [readChar, readGroups, readSeparator, h₄, hn, hv, ofSegments]

theorem toUInt16_div_mod (n : UInt16) : (n / 256).toUInt8.toUInt16 * 256 + (n % 256).toUInt8.toUInt16 = n := by
  refine UInt16.toNat_inj.mp ?_
  have := n.toNat_lt
  simp
  omega

-- The longest run of zeroes is put back in.
theorem readIpv6_zeroes {ss : List UInt16} (hs : Closes s) (hl : ss.length = 8) (hz : 1 < (zeroes ss).2) :
    ∃ l m, displaySegments (ss.take (zeroes ss).1) ++ "::".toList ++
      displaySegments (ss.drop ((zeroes ss).1 + (zeroes ss).2)) ++ s =
        displaySegments l ++ ':' :: ':' :: (displaySegments m ++ s) ∧
      readIpv6 (displaySegments l ++ ':' :: ':' :: (displaySegments m ++ s)) = (ofSegments ss).map (·, s) := by
  have h := zeroes_isRun ss
  generalize zeroes ss = r at *
  obtain ⟨l, m, rfl, hn⟩ := h (by omega)
  simp only [List.length_append, List.length_replicate] at hl
  have ht : (l ++ List.replicate r.2 0 ++ m).take r.1 = l := by simp [← hn]
  have hd : (l ++ List.replicate r.2 0 ++ m).drop (r.1 + r.2) = m := by simp [← hn]
  have hr : 8 - l.length - m.length = r.2 := by omega
  refine ⟨l, m, by rw [ht, hd]; simp, ?_⟩
  rw [readIpv6_compressed hs (by omega), hr]

-- An IPv6 address is read up to what closes it, and it is not mistaken for an IPv4 address.
theorem read_v6 {s₀ s₁ s₂ s₃ s₄ s₅ s₆ s₇ : UInt16} (hs : Closes s) :
    readIpv4 ((v6 s₀ s₁ s₂ s₃ s₄ s₅ s₆ s₇).display ++ s) = none ∧
    readIpv6 ((v6 s₀ s₁ s₂ s₃ s₄ s₅ s₆ s₇).display ++ s) = some (v6 s₀ s₁ s₂ s₃ s₄ s₅ s₆ s₇, s) := by
  unfold display
  split
  case h_1 h => cases h
  case h_2 hi lo h =>
    rw [h, List.append_assoc]
    refine ⟨@readIpv4_breaks [] _ List.not_mem_nil (.inr ⟨_, rfl⟩), ?_⟩
    rw [readIpv6_mapped hs, toUInt16_div_mod, toUInt16_div_mod]
  case h_3 h =>
    rw [h]
    dsimp only
    split_ifs with hz
    · obtain ⟨l, m, he, hr⟩ := readIpv6_zeroes hs rfl hz
      rw [he]
      exact ⟨readIpv4_displaySegments _ (.inr ⟨_, rfl⟩), hr⟩
    · exact ⟨readIpv4_displaySegments _ (.inl hs), readIpv6_displaySegments hs rfl⟩

theorem display_v4 (a b c d : UInt8) : (v4 a b c d).display = displayV4 a b c d :=
  rfl

theorem readIp_display (a : IpAddr) : readIp a.display = some (a, []) := by
  cases a
  case v4 a b c d =>
    have h := readIpv4_displayV4 (a := a) (b := b) (c := c) (d := d) (stops_nil 10)
    rw [List.append_nil] at h
    rw [display_v4, readIp, h]
  case v6 s₀ s₁ s₂ s₃ s₄ s₅ s₆ s₇ =>
    obtain ⟨h₄, h₆⟩ := @read_v6 [] s₀ s₁ s₂ s₃ s₄ s₅ s₆ s₇ closes_nil
    rw [List.append_nil] at h₄ h₆
    simp [readIp, h₄, h₆]

end Addresses

theorem parse_display (a : IpAddr) : parse a.display = some a := by
  rw [parse, readIp_display, complete]

section Characters

variable {x : Char} (hd : ∀ n < 16, x ≠ n.digitChar)

include hd in
theorem not_mem_toDigits {b : Nat} (hb : 1 < b) (h16 : b ≤ 16) (n : Nat) : x ∉ Nat.toDigits b n := by
  intro h
  obtain ⟨d, hl, he⟩ := Nat.digitChar_mem_toDigits hb h
  exact hd d (by omega) he

include hd in
theorem not_mem_displayV4 (hp : x ≠ '.') (a b c d : UInt8) : x ∉ displayV4 a b c d := by
  have hn (n : UInt8) : x ∉ Str.ofNat n.toNat := not_mem_toDigits hd (by decide) (by decide) n.toNat
  have h := displayV4_append a b c d []
  rw [List.append_nil] at h
  rw [h]
  simp [hn, hp]

include hd in
theorem not_mem_displaySegments (hc : x ≠ ':') (ss : List UInt16) : x ∉ displaySegments ss := by
  have hh (s : UInt16) : x ∉ hex s := not_mem_toDigits hd (by decide) (by decide) s.toNat
  cases ss
  case nil  => simp [displaySegments, List.intercalate]
  case cons => simp [displaySegments_cons, sepSegments, hh, hc]

include hd in
-- Addresses consist of digits, dots and colons.
theorem not_mem_display (hp : x ≠ '.') (hc : x ≠ ':') (a : IpAddr) : x ∉ a.display := by
  have h₄ := not_mem_displayV4 hd hp
  have h₆ := not_mem_displaySegments hd hc
  have hf : x ≠ 'f' := hd 15 (by decide)
  unfold display
  split
  case h_1 => exact h₄ _ _ _ _
  case h_2 => simp [h₄, hc, hf]
  case h_3 =>
    dsimp only
    split_ifs
    · simp [h₆, hc]
    · exact h₆ _

end Characters

theorem display_injective : Function.Injective display := by
  intro a b h
  have := parse_display a
  rw [h, parse_display] at this
  exact (Option.some.inj this).symm

end IpAddr

namespace Key

open Str

-- The last colon precedes the port, even if the host has colons of its own.
theorem rsplitOnce_display (k : Key) : rsplitOnce ':' k.display = some (k.host.display, ofNat k.port.toNat) :=
  rsplitOnce_append (not_mem_ofNat (by decide))

theorem display_injective : Function.Injective display := by
  intro j k h
  have := rsplitOnce_display j
  rw [h, rsplitOnce_display, Option.some_inj, Prod.mk.injEq] at this
  have hp := parseU16_ofNat k.port
  rw [this.right, parseU16_ofNat, Option.some_inj] at hp
  obtain ⟨_, _⟩ := j
  obtain ⟨_, _⟩ := k
  exact congrArg₂ mk (IpAddr.display_injective this.left.symm) hp

section Address

open IpParse

theorem readPort_append (port : UInt16) : readPort (':' :: ofNat port.toNat) = some (port, []) := by
  have h : readNumber 10 none true 65535 (ofNat port.toNat ++ []) = some (port.toNat, []) :=
    readNumber_toDigits (by decide) (by decide) (Nat.le_of_lt_succ port.toNat_lt) (by simp) (stops_nil 10)
  rw [List.append_nil] at h
  simp [readPort, readChar, h]

theorem parse_v4 (a b c d : UInt8) (port : UInt16) :
    parse ((IpAddr.v4 a b c d).display ++ ':' :: ofNat port.toNat) = some ⟨.v4 a b c d, port⟩ := by
  have hs : Stops 10 (':' :: ofNat port.toNat) := (stops_cons ..).mpr (by decide)
  simp [parse, readV4, IpAddr.display_v4, readIpv4_displayV4 hs, readPort_append, complete]

-- The brackets keep the colons of an IPv6 address apart from the one before the port.
theorem parse_v6 (s₀ s₁ s₂ s₃ s₄ s₅ s₆ s₇ : UInt16) (port : UInt16) :
    parse ('[' :: (IpAddr.v6 s₀ s₁ s₂ s₃ s₄ s₅ s₆ s₇).display ++ ']' :: ':' :: ofNat port.toNat) =
    some ⟨.v6 s₀ s₁ s₂ s₃ s₄ s₅ s₆ s₇, port⟩ := by
  obtain ⟨-, h₆⟩ := @IpAddr.read_v6 (']' :: ':' :: ofNat port.toNat) s₀ s₁ s₂ s₃ s₄ s₅ s₆ s₇ (closes_bracket _)
  have h₄ (t : Str) : readIpv4 ('[' :: t) = none :=
    @readIpv4_append_eq_none [] _ List.not_mem_nil ((stops_cons ..).mpr (by decide)) (by simp)
  simp [parse, readV4, readV6, readChar, readScope, h₄, h₆, readPort_append, complete]

end Address

end Key
