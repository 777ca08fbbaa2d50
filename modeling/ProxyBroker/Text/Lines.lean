import ProxyBroker.Text.Str
import Mathlib.Data.List.TakeWhile

open Str Utf8

-- The start of a header line: some ASCII text that cannot extend over the end of a line.
structure IsLineStart (pre : Str) : Prop where
  ne_nil : pre ≠ []
  ascii  : ∀ c ∈ pre, c.toNat < 0x80
  no_cr  : '\r' ∉ pre
  no_lf  : '\n' ∉ pre

-- A buffer that starts, in any case, with the given text.
def StartsWith (pre : Str) (bs : Bytes) : Prop :=
  pre <+: asciiLower (bs.map ofAscii)

instance (pre : Str) (bs : Bytes) : Decidable (StartsWith pre bs) :=
  inferInstanceAs (Decidable (_ <+: _))

@[simp]
theorem StartsWith.nil (bs : Bytes) : StartsWith [] bs :=
  List.nil_prefix

theorem StartsWith.append {pre : Str} {bs : Bytes} (h : StartsWith pre bs) (cs : Bytes) :
    StartsWith pre (bs ++ cs) := by
  rw [StartsWith, List.map_append, asciiLower_append]
  exact h.trans (List.prefix_append ..)

theorem startsWith_cons {c : Char} {pre : Str} {b : UInt8} {bs : Bytes} :
    StartsWith (c :: pre) (b :: bs) ↔ c = (ofAscii b).toLower ∧ StartsWith pre bs := by
  simp [StartsWith, List.cons_prefix_cons]

theorem not_startsWith_nil {c : Char} {pre : Str} : ¬StartsWith (c :: pre) [] := by
  simp [StartsWith]

-- Decoding does not change whether a buffer starts with some ASCII text.
theorem prefix_lossy_iff {pre : Str} (ha : ∀ c ∈ pre, c.toNat < 0x80) (bs : Bytes) :
    pre <+: asciiLower (lossy bs) ↔ StartsWith pre bs := by
  induction pre generalizing bs
  case nil => simp
  case cons c pre hi =>
    have hc := ha c List.mem_cons_self
    cases bs
    case nil => simp [not_startsWith_nil]
    case cons b bs =>
      rw [startsWith_cons]
      by_cases hb : IsAscii b
      case pos =>
        rw [lossy_cons_ascii hb, asciiLower_cons, List.cons_prefix_cons,
          hi fun d hd => ha d (List.mem_cons_of_mem _ hd)]
      case neg =>
        -- Neither the decoded character nor the byte is ASCII, so neither one can match `c`.
        have hn := next_not_ascii hb bs
        have hb : 0x80 ≤ (ofAscii b).toNat := by
          simpa [IsAscii, UInt8.lt_iff_toNat_lt, toNat_ofAscii] using hb
        have h₁ : c ≠ (next b bs).1.toLower := by
          intro h
          rw [h, toNat_toLower] at hc
          split_ifs at hc <;> omega
        have h₂ : c ≠ (ofAscii b).toLower := by
          intro h
          rw [h, toNat_toLower] at hc
          split_ifs at hc <;> omega
        simp [lossy_cons, List.cons_prefix_cons, h₁, h₂]

namespace Str

theorem toLower_eq_lf {c : Char} : c.toLower = '\n' ↔ c = '\n' :=
  toLower_eq_iff (by decide) (by decide)

theorem toLower_eq_cr {c : Char} : c.toLower = '\r' ↔ c = '\r' :=
  toLower_eq_iff (by decide) (by decide)

variable {pre : Str}

-- The first line starts like the text itself.
theorem exists_head_lines_iff (hp : IsLineStart pre) (s : Str) :
    (∃ l ∈ (lines s).head?, pre <+: asciiLower l) ↔ pre <+: asciiLower s := by
  induction s using lines.induct generalizing pre
  case case1 => simp [lines, hp.ne_nil]
  all_goals
    obtain ⟨p, ps, rfl⟩ := List.exists_cons_of_ne_nil hp.ne_nil
    have ⟨hr, hr'⟩ := not_or.mp (mt List.mem_cons.mpr hp.no_cr)
    have ⟨hn, hn'⟩ := not_or.mp (mt List.mem_cons.mpr hp.no_lf)
    have ha := fun c hc => hp.ascii c (List.mem_cons_of_mem p hc)
  case case2 => simp [lines, List.cons_prefix_cons, toLower_eq_lf.mpr, Ne.symm hn]
  case case3 => simp [lines, List.cons_prefix_cons, toLower_eq_cr.mpr, Ne.symm hr]
  -- What is left is a character that does not end the line.
  case case4 hl hi =>
    simp only [lines, hl] at hi ⊢
    by_cases h : ps = []
    case pos => simp [h, List.cons_prefix_cons]
    case neg => simp [List.cons_prefix_cons, ← hi ⟨h, ha, hr', hn'⟩, h]
  case case5 hl hi =>
    simp only [lines, hl] at hi ⊢
    by_cases h : ps = []
    case pos => simp [h, List.cons_prefix_cons]
    case neg => simp [List.cons_prefix_cons, ← hi ⟨h, ha, hr', hn'⟩]

theorem exists_append_cons_iff {α : Type} {P : List α → Prop} {c d : α} {s : List α} :
    (∃ a b, c :: s = a ++ d :: b ∧ P b) ↔ (c = d ∧ P s) ∨ ∃ a b, s = a ++ d :: b ∧ P b := by
  constructor
  case mp =>
    rintro ⟨_ | ⟨_, a⟩, b, h, hb⟩ <;> simp only [List.nil_append, List.cons_append,
      List.cons.injEq] at h
    · exact .inl ⟨h.left, h.right ▸ hb⟩
    · exact .inr ⟨a, b, h.right, hb⟩
  case mpr =>
    rintro (⟨rfl, h⟩ | ⟨a, b, rfl, h⟩)
    · exact ⟨[], s, rfl, h⟩
    · exact ⟨c :: a, b, rfl, h⟩

-- Every other line starts right after a line feed.
theorem exists_tail_lines_iff (hp : IsLineStart pre) (s : Str) :
    (∃ l ∈ (lines s).tail, pre <+: asciiLower l) ↔
    ∃ a b, s = a ++ '\n' :: b ∧ pre <+: asciiLower b := by
  -- A line feed is followed by the first line of what is left, and by its other lines.
  have hs (s : Str) : (∃ l ∈ lines s, pre <+: asciiLower l) ↔
      pre <+: asciiLower s ∨ ∃ l ∈ (lines s).tail, pre <+: asciiLower l := by
    rw [← exists_head_lines_iff hp s]
    cases lines s <;> simp
  induction s using lines.induct
  case case1 => simp [lines]
  case case2 s hi => simp only [lines, List.tail_cons, hs, hi, exists_append_cons_iff, true_and]
  case case3 s hi => simp [lines, List.tail_cons, hs, hi, exists_append_cons_iff]
  case case4 c s hn _ hl hi =>
    simp only [lines, hl] at hi ⊢
    simp only [exists_append_cons_iff, show c ≠ '\n' from hn, false_and, false_or, ← hi]
    simp
  case case5 c s hn _ l ls hl hi =>
    simp only [lines, hl] at hi ⊢
    simp only [exists_append_cons_iff, show c ≠ '\n' from hn, false_and, false_or, ← hi,
      List.tail_cons]

end Str

def lf : UInt8 := 10
def cr : UInt8 := 13
def crlf : Bytes := [cr, lf]

-- The lines of a decoded buffer, other than its first one, are determined by its line feed bytes.
theorem exists_tail_lines_lossy_iff {pre : Str} (hp : IsLineStart pre) (raw : Bytes) :
    (∃ l ∈ (lines (lossy raw)).tail, pre <+: asciiLower l) ↔
    ∃ x y, raw = x ++ lf :: y ∧ StartsWith pre y := by
  rw [exists_tail_lines_iff hp]
  constructor
  case mp =>
    rintro ⟨a, b, h, hb⟩
    obtain ⟨x, c, y, rfl, hc, _, -, rfl⟩ := lossy_split (by decide) h
    obtain rfl : c = lf := ofAscii_injective hc
    exact ⟨x, y, rfl, prefix_lossy_iff hp.ascii y |>.mp hb⟩
  case mpr =>
    rintro ⟨x, y, rfl, hy⟩
    refine ⟨lossy x, lossy y, ?_, prefix_lossy_iff hp.ascii y |>.mpr hy⟩
    exact lossy_append_ascii (by decide) x y

-- A text that cannot extend over a byte is found before that byte, or not at all.
theorem startsWith_append_cons_iff {pre : Str} {b : UInt8} (hb : ∀ c ∈ pre, c ≠ (ofAscii b).toLower)
    {x y : Bytes} : StartsWith pre (x ++ b :: y) ↔ StartsWith pre x := by
  induction pre generalizing x
  case nil => simp
  case cons c pre hi =>
    have ⟨hc, hb⟩ := List.forall_mem_cons.mp hb
    cases x
    case nil         => simp [startsWith_cons, not_startsWith_nil, hc]
    case cons a x    => simp only [List.cons_append, startsWith_cons, hi hb]

namespace IsLineStart

variable {pre : Str} (hp : IsLineStart pre) {x y : Bytes}

include hp

theorem startsWith_append_lf : StartsWith pre (x ++ lf :: y) ↔ StartsWith pre x :=
  startsWith_append_cons_iff fun _ hc h => hp.no_lf (h ▸ hc : (ofAscii lf).toLower ∈ pre)

theorem startsWith_append_cr : StartsWith pre (x ++ cr :: y) ↔ StartsWith pre x :=
  startsWith_append_cons_iff fun _ hc h => hp.no_cr (h ▸ hc : (ofAscii cr).toLower ∈ pre)

end IsLineStart

-- Some line of the buffer starts, in any case, with the given text. The first line does not count.
def HasLine (pre : Str) (bs : Bytes) : Prop :=
  ∃ x y, bs = x ++ lf :: y ∧ StartsWith pre y

theorem HasLine.append {pre : Str} {x : Bytes} (h : HasLine pre x) (y : Bytes) : HasLine pre (x ++ y) := by
  obtain ⟨u, v, rfl, hv⟩ := h
  exact ⟨u, v ++ y, by simp, hv.append y⟩

theorem not_hasLine_nil {pre : Str} : ¬HasLine pre [] := by
  rintro ⟨x, y, h, -⟩
  simp at h

theorem hasLine_cons {pre : Str} {b : UInt8} {bs : Bytes} :
    HasLine pre (b :: bs) ↔ (b = lf ∧ StartsWith pre bs) ∨ HasLine pre bs :=
  Str.exists_append_cons_iff

namespace IsLineStart

variable {pre : Str} (hp : IsLineStart pre) {x y : Bytes}

include hp

theorem hasLine_append_lf :
    HasLine pre (x ++ lf :: y) ↔ HasLine pre x ∨ StartsWith pre y ∨ HasLine pre y := by
  induction x
  case nil         => simp [hasLine_cons, not_hasLine_nil]
  case cons b x hi => simp only [List.cons_append, hasLine_cons, hi, hp.startsWith_append_lf, or_assoc]

theorem hasLine_append_crlf :
    HasLine pre (x ++ cr :: lf :: y) ↔ HasLine pre x ∨ StartsWith pre y ∨ HasLine pre y := by
  have hx : HasLine pre (x ++ [cr]) ↔ HasLine pre x := by
    induction x
    case nil         => simp [hasLine_cons, not_hasLine_nil, show cr ≠ lf by decide]
    case cons b x hi => simp only [List.cons_append, hasLine_cons, hi, hp.startsWith_append_cr]
  rw [← hx, ← hp.hasLine_append_lf, List.append_assoc, List.singleton_append]

end IsLineStart

theorem Str.lines_ne_nil {s : Str} (hs : s ≠ []) : lines s ≠ [] := by
  cases s using lines.fun_cases <;> simp_all [lines]

-- A line feed completes a line.
theorem Str.lines_append (s t : Str) : lines (s ++ '\n' :: t) = lines (s ++ ['\n']) ++ lines t := by
  have step (c : Char) (s : Str) (hn : c ≠ '\n') (hr : ∀ s', c = '\r' → s ≠ '\n' :: s')
      (hi : lines (s ++ '\n' :: t) = lines (s ++ ['\n']) ++ lines t) :
      lines (c :: s ++ '\n' :: t) = lines (c :: s ++ ['\n']) ++ lines t := by
    rcases s with _ | ⟨d, s⟩
    · -- A carriage return belongs to the line feed that is appended.
      by_cases hc : c = '\r'
      · simp [hc, lines]
      · rw [List.cons_append, List.cons_append, lines.eq_4 c _ hn fun _ h => absurd h hc,
          lines.eq_4 c _ hn fun _ h => absurd h hc]
        simp [lines]
    · have hr (u s' : Str) (hc : c = '\r') : d :: s ++ u ≠ '\n' :: s' := by
        have hd : d ≠ '\n' := fun hd => hr s hc (by rw [hd])
        simp [hd]
      have hc (u : Str) := lines.eq_4 c (d :: s ++ u) hn (hr u)
      simp only [List.cons_append] at hc hi ⊢
      rw [hc, hc, hi, ← List.cons_append]
      cases hl : lines (d :: s ++ ['\n'])
      case nil  => exact absurd hl (lines_ne_nil (by simp))
      case cons => rfl
  induction s using lines.induct
  case case1                     => simp [lines]
  case case2 s hi                => simp [lines, hi]
  case case3 s hi                => simp [lines, hi]
  case case4 c s hn hr _ hi      => exact step c s hn hr hi
  case case5 c s hn hr _ _ _ hi  => exact step c s hn hr hi

theorem Str.lines_concat_crlf {s : Str} (hs : '\n' ∉ s) : lines (s ++ ['\r', '\n']) = [s] := by
  induction s
  case nil => rfl
  case cons c s hi =>
    have ⟨hc, hs⟩ := not_or.mp (mt List.mem_cons.mpr hs)
    have hr : ∀ s', c = '\r' → s ++ ['\r', '\n'] ≠ '\n' :: s' := by
      rintro s' - h
      rcases s with _ | ⟨d, s⟩ <;> simp_all
    rw [List.cons_append, lines.eq_4 c _ (Ne.symm hc) hr, hi hs]

theorem Str.lines_cons_lf {s : Str} (hn : '\n' ∉ s) (hr : '\r' ∉ s) (t : Str) : lines (s ++ '\n' :: t) = s :: lines t := by
  induction s
  case nil          => simp [lines]
  case cons c s hi =>
    obtain ⟨hc, hn⟩ := List.ne_and_not_mem_of_not_mem_cons hn
    obtain ⟨hc', hr⟩ := List.ne_and_not_mem_of_not_mem_cons hr
    rw [List.cons_append, lines.eq_4 c _ (Ne.symm hc) fun _ h => absurd h (Ne.symm hc'), hi hn hr]

-- Lines that are put together are taken apart again, if none of them contains a line feed.
theorem Str.lines_flatMap {ls : List Str} (h : ∀ l ∈ ls, '\n' ∉ l) : lines (ls.flatMap (· ++ ['\r', '\n'])) = ls := by
  induction ls
  case nil => rfl
  case cons l ls hi =>
    obtain ⟨hl, hs⟩ := List.forall_mem_cons.mp h
    have he : l ++ ['\r', '\n'] = (l ++ ['\r']) ++ ['\n'] := by simp
    rw [List.flatMap_cons, he, List.append_assoc, List.singleton_append, lines_append, ← he, lines_concat_crlf hl, hi hs,
      List.singleton_append]

section Words

variable {w : Str} (hw : ∀ c ∈ w, Str.isWhitespace c = false) (hn : w ≠ [])
include hw hn

theorem Str.splitWhitespace_word : splitWhitespace w = [w] := by
  rw [splitWhitespace, List.splitOnP_eq_singleton hw]
  simpa using hn

theorem Str.splitWhitespace_cons (s : Str) : splitWhitespace (w ++ ' ' :: s) = w :: splitWhitespace s := by
  rw [splitWhitespace, List.splitOnP_append_cons_of_forall_mem hw _ (by decide),
    List.filter_cons_of_pos (by simpa using hn), splitWhitespace]

end Words

theorem Str.trim_word {w : Str} (hw : ∀ c ∈ w, isWhitespace c = false) : trim w = w := by
  have hd {s : Str} (hs : ∀ c ∈ s, isWhitespace c = false) : s.dropWhile isWhitespace = s := by
    cases s
    case nil  => rfl
    case cons => rw [List.dropWhile_cons_of_neg (by simp [hs])]
  rw [trim, hd hw, hd fun c hc => hw c (List.mem_reverse.mp hc), List.reverse_reverse]

-- There are as many lines as line feeds.
theorem Str.length_lines_concat_lf (s : Str) : (lines (s ++ ['\n'])).length = s.count '\n' + 1 := by
  have step (c : Char) (hn : c ≠ '\n') (t : Str) (ht : t ≠ []) : (lines (c :: t)).length = (lines t).length := by
    by_cases hc : c = '\r' ∧ ∃ u, t = '\n' :: u
    · obtain ⟨rfl, u, rfl⟩ := hc
      simp [lines]
    · rw [lines.eq_4 c t hn fun u hr hu => hc ⟨hr, u, hu⟩]
      cases hl : lines t
      case nil  => exact absurd hl (lines_ne_nil ht)
      case cons => simp
  induction s
  case nil => rfl
  case cons c s hi =>
    by_cases hn : c = '\n'
    · simp [hn, lines, hi]
    · rw [List.cons_append, step c hn _ (by simp), hi, List.count_cons_of_ne hn]

theorem Str.length_lines_flatMap (ls : List Str) :
    (lines (ls.flatMap (· ++ ['\r', '\n']))).length = ls.length + (ls.map (·.count '\n')).sum := by
  induction ls
  case nil => rfl
  case cons l ls hi =>
    have he : l ++ ['\r', '\n'] = (l ++ ['\r']) ++ ['\n'] := by simp
    rw [List.flatMap_cons, he, List.append_assoc, List.singleton_append, lines_append, List.length_append,
      length_lines_concat_lf, hi]
    simp
    omega

theorem Str.trim_ne_nil {s : Str} {c : Char} (hc : c ∈ s) (h : isWhitespace c = false) : trim s ≠ [] := by
  have hd : c ∈ s.dropWhile isWhitespace := by
    rw [← List.takeWhile_append_dropWhile (p := isWhitespace) (l := s)] at hc
    rcases List.mem_append.mp hc with hc | hc
    · simp [List.mem_takeWhile_imp hc] at h
    · exact hc
  intro ht
  rw [trim, List.reverse_eq_nil_iff, List.dropWhile_eq_nil_iff] at ht
  simp [ht c (List.mem_reverse.mpr hd)] at h
