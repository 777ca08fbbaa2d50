import ProxyBroker.Regex.Search
import Mathlib.Logic.Function.Basic

-- Regular expressions with groups, lookahead and the anchors of lines.
inductive Regex
  | plain (a : Regular)
  | seq (a b : Regex)
  | alt (a b : Regex)
  | group (n : Nat) (a : Regex)
  | ahead (a : Regex)
  | lineStart
  | lineEnd

-- What the groups have matched.
abbrev Groups := Nat → Option (List Char)

namespace Regex

variable (s : List Char)

-- The ends of the matches that a backtracking matcher tries from an index on, in the order in which it tries them.
def run : Regex → Nat × Groups → List (Nat × Groups)
  | plain a, m   => (a.lengths (s.drop m.1)).map fun n => (m.1 + n, m.2)
  | seq a b, m   => (a.run m).flatMap b.run
  | alt a b, m   => a.run m ++ b.run m
  | group n a, m => (a.run m).map fun m' => (m'.1, Function.update m'.2 n (some (slice s m.1 m'.1)))
  | ahead a, m   => (a.run m).head?.toList.map fun m' => (m.1, m'.2)
  | lineStart, m => if m.1 = 0 ∨ s[m.1 - 1]? = some '\n' then [m] else []
  | lineEnd, m   => if s.length ≤ m.1 ∨ s[m.1]? = some '\n' then [m] else []

structure Match where
  start  : Nat
  stop   : Nat
  groups : Groups

variable (a : Regex)

def search (i : Nat) : Option Match :=
  firstFrom (fun j => (a.run s (j, fun _ => none)).head?.map fun m => ⟨j, m.1, m.2⟩) i (s.length + 1 - i)

def findAllFrom : Nat → Nat → List Match
  | 0, _        => []
  | fuel + 1, i =>
    match a.search s i with
    | none   => []
    | some m => m :: findAllFrom fuel (if m.stop = m.start then m.stop + 1 else m.stop)

-- The matches that do not overlap.
def findAll : List Match :=
  a.findAllFrom s (s.length + 1) 0

section Heads

variable {s} {a : Regular} {r : Regex} {m : Nat × Groups}

theorem head?_run_plain : ((seq (plain a) r).run s m).head? =
    (a.lengths (s.drop m.1)).findSome? fun n => (r.run s (m.1 + n, m.2)).head? := by
  simp [run, List.head?_flatMap, List.findSome?_map, Function.comp_def]

theorem head?_run_group {k : Nat} : ((seq (group k (plain a)) r).run s m).head? =
    (a.lengths (s.drop m.1)).findSome? fun n =>
      (r.run s (m.1 + n, Function.update m.2 k (some (slice s m.1 (m.1 + n))))).head? := by
  simp [run, List.head?_flatMap, List.findSome?_map, Function.comp_def]

-- A lazy repetition looks for the first place at which the rest matches.
theorem head?_run_lazy {p : Char → Bool} : ((seq (plain (.star false p)) r).run s m).head? =
    firstFrom (fun j => (r.run s (j, m.2)).head?) m.1 (((s.drop m.1).takeWhile p).length + 1) := by
  rw [head?_run_plain, Regular.lengths]
  exact findSome?_range (f := fun j => (r.run s (j, m.2)).head?)

end Heads

section Search

variable {a : Regex} {s} {i j : Nat} {m : Match}

theorem search_eq_none : a.search s i = none ↔ ∀ j, i ≤ j → j ≤ s.length → a.run s (j, fun _ => none) = [] := by
  simp only [search, firstFrom_eq_none, Option.map_eq_none_iff, List.head?_eq_none_iff]
  exact ⟨fun h j hi hl => h j hi (by omega), fun h j hi hl => h j hi (by omega)⟩

theorem search_eq_none_of_lt (h : s.length < i) : a.search s i = none :=
  search_eq_none.mpr fun j hj hl => by omega

theorem findAllFrom_eq_nil (h : a.search s i = none) (fuel : Nat) : a.findAllFrom s fuel i = [] := by
  cases fuel
  case zero => rfl
  case succ => rw [findAllFrom, h]

theorem findAllFrom_congr (h : a.search s i = a.search s j) (fuel : Nat) :
    a.findAllFrom s fuel i = a.findAllFrom s fuel j := by
  cases fuel
  case zero => rfl
  case succ => rw [findAllFrom, findAllFrom, h]

theorem search_skip (hij : i ≤ j) (hj : j ≤ s.length + 1)
    (h : ∀ k, i ≤ k → k < j → a.run s (k, fun _ => none) = []) : a.search s i = a.search s j := by
  have hn : s.length + 1 - i = (j - i) + (s.length + 1 - j) := by omega
  rw [search, hn, firstFrom_add, firstFrom_eq_none.mpr fun k hk hl => ?_, Option.none_or, Nat.add_sub_cancel' hij, search]
  rw [h k hk (by omega)]
  rfl

theorem search_eq_some (hi : i ≤ m.start) (hl : m.start ≤ s.length)
    (hm : (a.run s (m.start, fun _ => none)).head? = some (m.stop, m.groups))
    (h : ∀ j, i ≤ j → j < m.start → a.run s (j, fun _ => none) = []) : a.search s i = some m :=
  firstFrom_eq_of hi (by omega) (by rw [hm]; rfl) fun k hk hl => by rw [h k hk hl]; rfl

end Search

end Regex
