import ProxyBroker.Text.Utf8

-- The functions of Rust's `str` that the code relies on.
namespace Str

def asciiLower (s : Str) : Str :=
  s.map Char.toLower

def eqIgnoreAsciiCase (s t : Str) : Bool :=
  asciiLower s == asciiLower t

-- The Unicode property `White_Space`.
def isWhitespace (c : Char) : Bool :=
  let n := c.toNat
  (0x09 ≤ n && n ≤ 0x0D) || n = 0x20 || n = 0x85 || n = 0xA0 || n = 0x1680 ||
  (0x2000 ≤ n && n ≤ 0x200A) || n = 0x2028 || n = 0x2029 || n = 0x202F || n = 0x205F || n = 0x3000

def trim (s : Str) : Str :=
  ((s.dropWhile isWhitespace).reverse.dropWhile isWhitespace).reverse

def splitWhitespace (s : Str) : List Str :=
  (s.splitOnP isWhitespace).filter (· ≠ [])

def stripPrefix (pre s : Str) : Option Str :=
  if pre.isPrefixOf s then some (s.drop pre.length) else none

def stripSuffix (suf s : Str) : Option Str :=
  if suf.isSuffixOf s then some (s.take (s.length - suf.length)) else none

-- Cuts at the first occurrence of a nonempty separator.
def splitOnce (sep : Str) : Str → Option (Str × Str)
  | []     => none
  | c :: s =>
    match stripPrefix sep (c :: s) with
    | some t => some ([], t)
    | none   => (splitOnce sep s).map fun (l, r) => (c :: l, r)

-- Cuts at the last occurrence of a character.
def rsplitOnce (sep : Char) : Str → Option (Str × Str)
  | []     => none
  | c :: s =>
    match rsplitOnce sep s with
    | some (l, r) => some (c :: l, r)
    | none        => if c = sep then some ([], s) else none

-- Up to `n` pieces between occurrences of a character, where the last one holds all that is left.
def splitN (sep : Char) : Nat → Str → List Str
  | 0, _     => []
  | 1, s     => [s]
  | n + 2, s =>
    match splitOnce [sep] s with
    | some (l, r) => l :: splitN sep (n + 1) r
    | none        => [s]

-- `s.lines()`: the pieces of `s` between line feeds, each without the carriage return that directly
-- precedes its line feed. There is no piece after a trailing line feed.
def lines : Str → List Str
  | []                  => []
  | '\n' :: s           => [] :: lines s
  | '\r' :: '\n' :: s   => [] :: lines s
  | c :: s              =>
    match lines s with
    | []      => [[c]]
    | l :: ls => (c :: l) :: ls

def digit? (c : Char) : Option Nat :=
  if c.isDigit then some (c.toNat - '0'.toNat) else none

-- `s.parse()` for an unsigned integer type with the given largest value.
def parseUnsigned (max : Nat) (s : Str) : Option Nat :=
  match (stripPrefix ['+'] s).getD s with
  | [] => none
  | ds => do
    let ns ← ds.mapM digit?
    let n := ns.foldl (10 * · + ·) 0
    if n ≤ max then some n else none

def parseU16 (s : Str) : Option UInt16 :=
  (parseUnsigned 65535 s).map UInt16.ofNat

-- The decimal representation of a number, as `Display` prints it.
def ofNat (n : Nat) : Str :=
  Nat.toDigits 10 n

example : lines "a\r\nb\n\nc\r".toList = ["a".toList, "b".toList, [], "c\r".toList] := by decide
example : (parseUnsigned 65535 "+080".toList, parseUnsigned 65535 "65536".toList) = (some 80, none) :=
  by decide

theorem toNat_toLower (c : Char) :
    c.toLower.toNat = if 65 ≤ c.toNat ∧ c.toNat ≤ 90 then c.toNat + 32 else c.toNat := by
  have hc : c.toNat = c.val.toNat := rfl
  unfold Char.toLower
  split
  case isTrue h =>
    simp only [ge_iff_le, UInt32.le_iff_toNat_le, Char.reduceVal, UInt32.reduceToNat] at h
    rw [if_pos (by omega)]
    simp only [Char.toNat, UInt32.toNat_add]
    simp
    omega
  case isFalse h =>
    simp only [ge_iff_le, UInt32.le_iff_toNat_le, Char.reduceVal, UInt32.reduceToNat] at h
    rw [if_neg (by omega)]

theorem isAlphanum_iff {c : Char} : c.isAlphanum ↔
    65 ≤ c.toNat ∧ c.toNat ≤ 90 ∨ 97 ≤ c.toNat ∧ c.toNat ≤ 122 ∨ 48 ≤ c.toNat ∧ c.toNat ≤ 57 := by
  have hu : c.isUpper = decide (c.val ≥ 'A'.val ∧ c.val ≤ 'Z'.val) := rfl
  have hl : c.isLower = (decide (c.val ≥ 'a'.val) && decide (c.val ≤ 'z'.val)) := rfl
  have ha : c.isAlphanum = (c.isUpper || c.isLower || c.isDigit) := rfl
  simp only [ha, hu, hl, Bool.or_eq_true, Bool.and_eq_true, decide_eq_true_eq, ge_iff_le, UInt32.le_iff_toNat_le, Char.isDigit_iff_toNat,
    or_assoc]
  rfl

theorem toLower_eq_iff {c d : Char} (h : ¬(97 ≤ d.toNat ∧ d.toNat ≤ 122))
    (h' : ¬(65 ≤ d.toNat ∧ d.toNat ≤ 90)) : c.toLower = d ↔ c = d := by
  simp only [← Char.toNat_inj, toNat_toLower]
  split_ifs <;> omega

@[simp]
theorem asciiLower_nil : asciiLower [] = [] :=
  rfl

@[simp]
theorem asciiLower_cons (c : Char) (s : Str) : asciiLower (c :: s) = c.toLower :: asciiLower s :=
  rfl

@[simp]
theorem asciiLower_append (s t : Str) : asciiLower (s ++ t) = asciiLower s ++ asciiLower t :=
  List.map_append

theorem splitOnce_cons (c d : Char) (s : Str) :
    splitOnce [d] (c :: s) = if c = d then some ([], s) else (splitOnce [d] s).map fun (l, r) => (c :: l, r) := by
  by_cases h : c = d
  · simp [splitOnce, stripPrefix, h]
  · simp [splitOnce, stripPrefix, h, Ne.symm h]

theorem splitOnce_eq_none_iff {d : Char} {s : Str} : splitOnce [d] s = none ↔ d ∉ s := by
  induction s
  case nil => simp [splitOnce]
  case cons c s hi =>
    rw [splitOnce_cons]
    split_ifs with h
    · simp [h]
    · simp [hi, Ne.symm h]

-- The text is cut at the first occurrence.
theorem splitOnce_eq_some {d : Char} {s l r : Str} (h : splitOnce [d] s = some (l, r)) :
    s = l ++ d :: r ∧ d ∉ l := by
  induction s generalizing l
  case nil => simp [splitOnce] at h
  case cons c s hi =>
    rw [splitOnce_cons] at h
    split_ifs at h with hc
    · cases h
      simp [hc]
    · obtain ⟨⟨l, r⟩, hs, h⟩ := Option.map_eq_some_iff.mp h
      cases h
      obtain ⟨rfl, hl⟩ := hi hs
      simp [hl, Ne.symm hc]

end Str
