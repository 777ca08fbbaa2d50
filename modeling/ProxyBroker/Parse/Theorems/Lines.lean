import ProxyBroker.Parse.Theorems.Python

open Regular

namespace Parse

open Python

variable {d : Decimal} {text line t : Str} {i k n : Nat} {g : Groups}

-- The code, line by line.
def scanLine (d : Decimal) (line : Str) : Option (Str × Str) := do
  let ip ← (ipv4Re d).findAt line 0
  let port ← (portRe d).findAt line ip.2
  some (slice line ip.1 ip.2, slice line port.1 port.2)

-- The regular expression, line by line.
def matchLine (d : Decimal) (line : Str) : Option (Str × Str) :=
  (firstFollowed d ((portRe d).findAt line) line 0).map fun m => (slice line m.1 m.2.1, slice line m.2.2.1 m.2.2.2)

-- A line of a text that starts at an index, with what comes after it.
structure AtLine (text : Str) (i : Nat) (line t : Str) : Prop where
  start : i = 0 ∨ text[i - 1]? = some '\n'
  eq    : text.drop i = line ++ t
  line  : '\n' ∉ line
  next  : ∀ c ∈ t.head?, c = '\n'

theorem ipv4Re_newline : (ipv4Re d).All (· ≠ '\n') := by
  refine ipv4Re_all.mono fun c hc he => ?_
  subst he
  simp [d.isDecimal_newline] at hc

theorem portRe_newline : (portRe d).All (· ≠ '\n') := by
  refine portRe_all.mono fun c hc he => ?_
  subst he
  simp [d.isDecimal_newline] at hc

namespace AtLine

variable (h : AtLine text i line t)
include h

theorem drop_eq (hk : k ≤ line.length) : text.drop (i + k) = line.drop k ++ t := by
  rw [← List.drop_drop, h.eq, List.drop_append_of_le_length hk]

theorem lengths_eq {a : Regular} (ha : a.All (· ≠ '\n')) (hk : k ≤ line.length) :
    a.lengths (text.drop (i + k)) = a.lengths (line.drop k) := by
  rw [h.drop_eq hk, lengths_append fun c hc => h.next c hc ▸ ha]

theorem takeWhile_eq (hk : k ≤ line.length) : (text.drop (i + k)).takeWhile (· ≠ '\n') = line.drop k := by
  rw [h.drop_eq hk, takeWhile_append_of_head? (by simpa using h.next), List.takeWhile_eq_self_iff]
  intro c hc
  simpa using fun he : c = '\n' => h.line (he ▸ List.mem_of_mem_drop hc)

theorem slice_eq {j : Nat} (hj : j ≤ line.length) (hk : k ≤ line.length) :
    slice text (i + j) (i + k) = slice line j k := by
  rw [slice, slice, h.drop_eq hj, List.take_append_of_le_length (by simp; omega)]
  congr 1
  omega

-- The rest of the line is skipped.
theorem head?_run_rest (hk : k ≤ line.length) :
    ((Regex.seq (.plain (star true (· ≠ '\n'))) .lineEnd).run text (i + k, g)).head? = some (i + line.length, g) := by
  have hl : text.length ≤ i + line.length ∨ text[i + line.length]? = some '\n' := by
    have hd := h.drop_eq le_rfl
    rw [List.drop_length, List.nil_append] at hd
    cases t
    case nil      => exact .inl (List.drop_eq_nil_iff.mp hd)
    case cons c t =>
      obtain rfl := h.next c rfl
      rw [← List.head?_drop, hd]
      exact .inr rfl
  obtain ⟨ns, hns⟩ := List.head?_eq_some_iff.mp (head?_lengths_star (p := (· ≠ '\n')) (s := text.drop (i + k)))
  rw [Regex.head?_run_plain, hns, List.findSome?_cons, h.takeWhile_eq hk, List.length_drop,
    show i + k + (line.length - k) = i + line.length by omega, Regex.run, if_pos hl]
  rfl

-- Within a line, there is no start of a line.
theorem run_lineRe_eq_nil (hk : 0 < k) (hl : k ≤ line.length) : (lineRe d).run text (i + k, g) = [] := by
  have hc : text[i + k - 1]? = (line)[k - 1]? := by
    rw [← List.head?_drop, Nat.add_sub_assoc hk, h.drop_eq (by omega), List.head?_append_of_ne_nil _ (by simp; omega),
      List.head?_drop]
  have hn : ¬(i + k = 0 ∨ text[i + k - 1]? = some '\n') := by
    rw [hc]
    rintro (he | he)
    · omega
    · exact h.line (List.mem_of_getElem? he)
  rw [lineRe, Regex.run, Regex.run, if_neg hn]
  rfl

-- The port is the first one in the line.
theorem head?_run_port (hk : k ≤ line.length) :
    ((Regex.seq (.plain (star false (· ≠ '\n'))) <| .seq (.group 2 (.plain (portRe d))) <|
      .seq (.plain (star true (· ≠ '\n'))) .lineEnd).run text (i + k, g)).head? =
    ((portRe d).findAt line k).map fun p => (i + line.length, Function.update g 2 (some (slice line p.1 p.2))) := by
  have hn : ((text.drop (i + k)).takeWhile (· ≠ '\n')).length + 1 = line.length + 1 - k := by
    rw [h.takeWhile_eq hk, List.length_drop]
    omega
  rw [Regex.head?_run_lazy, hn, firstFrom_shift, findAt, map_firstFrom]
  refine firstFrom_congr fun j hj hl => ?_
  have hj : j ≤ line.length := by omega
  rw [Regex.head?_run_group, h.lengths_eq portRe_newline hj, Option.map_map]
  have hs (n : Nat) (hn : n ∈ (portRe d).lengths (line.drop j)) :
      ((Regex.seq (.plain (star true (· ≠ '\n'))) .lineEnd).run text
        (i + j + n, Function.update g 2 (some (slice text (i + j) (i + j + n))))).head? =
      some (i + line.length, Function.update g 2 (some (slice line j (j + n)))) := by
    have hl := le_length_of_mem_lengths hn
    rw [List.length_drop] at hl
    rw [Nat.add_assoc, h.head?_run_rest (by omega), h.slice_eq hj (by omega)]
  rw [findSome?_congr hs]
  cases (portRe d).lengths (line.drop j) <;> rfl

theorem head?_run_lineRe : ((lineRe d).run text (i, fun _ => none)).head? = (matchLine d line).map fun p =>
    (i + line.length, Function.update (Function.update (fun _ => none) 1 (some p.1)) 2 (some p.2)) := by
  have hn : ((text.drop i).takeWhile (· ≠ '\n')).length + 1 = line.length + 1 - 0 := by
    rw [← Nat.add_zero i, h.takeWhile_eq (Nat.zero_le _), List.drop_zero]
    rfl
  rw [lineRe, Regex.run, Regex.run, if_pos h.start, List.flatMap_singleton, Regex.head?_run_lazy, hn, ← Nat.add_zero i,
    firstFrom_shift, matchLine, firstFollowed, map_firstFrom, map_firstFrom]
  refine firstFrom_congr fun j _ hl => ?_
  have hj : j ≤ line.length := by omega
  rw [Regex.head?_run_group, h.lengths_eq ipv4Re_newline hj, List.map_findSome?, List.map_findSome?]
  refine findSome?_congr fun n hn => ?_
  have hl := le_length_of_mem_lengths hn
  rw [List.length_drop] at hl
  rw [Nat.add_assoc, h.head?_run_port (by omega), h.slice_eq hj (by omega)]
  simp [Function.comp_def]

theorem le_length : i + line.length ≤ text.length := by
  have hl := congrArg List.length h.eq
  rw [List.length_drop, List.length_append] at hl
  rcases h.start with rfl | hs
  · omega
  · have := (List.getElem?_eq_some_iff.mp hs).1
    omega

theorem search_of_some {p : Str × Str} (hp : matchLine d line = some p) : (lineRe d).search text i =
    some ⟨i, i + line.length, Function.update (Function.update (fun _ => none) 1 (some p.1)) 2 (some p.2)⟩ := by
  have hl := h.le_length
  refine Regex.search_eq_some le_rfl (by dsimp only; omega) ?_ fun j hj hi => by dsimp only at hi; omega
  rw [h.head?_run_lineRe, hp]
  rfl

-- If there is no match in a line, then the search goes on behind it.
theorem search_of_none (hp : matchLine d line = none) :
    (lineRe d).search text i = (lineRe d).search text (i + line.length + 1) := by
  have hl := h.le_length
  refine Regex.search_skip (by omega) (by omega) fun j hj hi => ?_
  obtain ⟨k, rfl⟩ := Nat.exists_eq_add_of_le hj
  rcases Nat.eq_zero_or_pos k with rfl | hk
  · rw [← List.head?_eq_none_iff, Nat.add_zero, h.head?_run_lineRe, hp]
    rfl
  · exact h.run_lineRe_eq_nil hk (by omega)

theorem search_stop (hn : 0 < line.length) :
    (lineRe d).search text (i + line.length) = (lineRe d).search text (i + line.length + 1) := by
  have hl := h.le_length
  refine Regex.search_skip (by omega) (by omega) fun j hj hi => ?_
  obtain rfl : j = i + line.length := by omega
  exact h.run_lineRe_eq_nil hn le_rfl

end AtLine

theorem length_pos_of_matchLine {p : Str × Str} (h : matchLine d line = some p) : 0 < line.length := by
  rcases line with - | ⟨c, line⟩
  case nil  => cases h
  case cons => simp

theorem AtLine.findAllFrom {fuel : Nat} (h : AtLine text i line t) : ((lineRe d).findAllFrom text (fuel + 1) i).map pair =
    (matchLine d line).toList ++ ((lineRe d).findAllFrom text
      (if (matchLine d line).isSome then fuel else fuel + 1) (i + line.length + 1)).map pair := by
  cases hp : matchLine d line
  case none => rw [Regex.findAllFrom_congr (h.search_of_none hp)]; rfl
  case some p =>
    have hl := length_pos_of_matchLine hp
    rw [Regex.findAllFrom, h.search_of_some hp]
    dsimp only
    rw [if_neg (by omega), Regex.findAllFrom_congr (h.search_stop hl)]
    rfl

theorem exists_atLine (hi : i = 0 ∨ text[i - 1]? = some '\n') : ∃ line t, AtLine text i line t := by
  refine ⟨(text.drop i).takeWhile (· ≠ '\n'), (text.drop i).dropWhile (· ≠ '\n'), hi,
    List.takeWhile_append_dropWhile.symm, fun hm => by simpa using List.mem_takeWhile_imp hm, fun c hc => ?_⟩
  have := List.head?_dropWhile_not (· ≠ '\n') (text.drop i)
  rw [Option.mem_def.mp hc] at this
  simpa using this

theorem findAllFrom_lineRe {fuel : Nat} (hi : i = 0 ∨ text[i - 1]? = some '\n') (hf : (text.drop i).length < fuel) :
    ((lineRe d).findAllFrom text fuel i).map pair = ((text.drop i).splitOn '\n').filterMap (matchLine d) := by
  induction hn : (text.drop i).length using Nat.strong_induction_on generalizing i fuel
  case _ n ih =>
    obtain ⟨fuel, rfl⟩ : ∃ n, fuel = n + 1 := ⟨fuel - 1, by omega⟩
    obtain ⟨line, t, h⟩ := exists_atLine hi
    rw [h.findAllFrom]
    cases t
    case nil =>
      have hl : text.length < i + line.length + 1 := by
        have := congrArg List.length h.eq
        simp at this
        omega
      have he : (lineRe d).search text (i + line.length + 1) = none := Regex.search_eq_none_of_lt hl
      have hs : text.drop i = line := by simpa using h.eq
      rw [hs, List.splitOn_eq_singleton h.line, Regex.findAllFrom_eq_nil he]
      cases hm : matchLine d line <;> simp [hm]
    case cons c rest =>
      obtain rfl := h.next c rfl
      have hr : text.drop (i + line.length + 1) = rest := by
        rw [Nat.add_assoc, ← List.drop_drop, h.eq]
        simp
      have hc : text[i + line.length + 1 - 1]? = some '\n' := by
        rw [Nat.add_sub_cancel, ← List.head?_drop, h.drop_eq le_rfl]
        simp
      have hl := congrArg List.length h.eq
      simp only [List.length_append, List.length_cons] at hl
      rw [h.eq, List.splitOn_append_cons_self_of_not_mem h.line, ih rest.length (by omega) (.inr hc) (by rw [hr]; split_ifs <;> omega)
        (by rw [hr]), hr]
      cases hm : matchLine d line <;> simp [hm]

-- Where a line has a match, the code either finds the same one, or none at all.
theorem scanLine_cases : (scanLine d line = matchLine d line ∨ scanLine d line = none) ∧
    (scanLine d line = matchLine d line ↔ ∀ m, (ipv4Re d).findAt line 0 = some m →
      (portRe d).findAt line (cut line m) ≠ none → (portRe d).findAt line m.2 ≠ none) := by
  rw [scanLine, matchLine]
  cases hm : (ipv4Re d).findAt line 0
  case none => simp [firstFollowed_of_none hm]
  case some m =>
    rw [Option.bind_eq_bind, Option.bind_some]
    cases hp : (portRe d).findAt line m.2
    case some p => simp [firstFollowed_of_some hm hp, hp]
    case none =>
      have hn := firstFollowed_eq_none hm (f := (portRe d).findAt line) fun j k hjk hj =>
        (findAt_eq_none portRe_nil).mpr fun i hi => (findAt_eq_none portRe_nil).mp hj i (hjk.trans hi)
      refine ⟨.inr rfl, ?_⟩
      rw [Option.bind_none, eq_comm, Option.map_eq_none_iff, hn]
      simp [hp]

theorem slice_drop (s : Str) (i j k : Nat) : slice (s.drop k) i j = slice s (k + i) (k + j) := by
  rw [slice, slice, List.drop_drop]
  congr 1
  omega

theorem findAddrsLine_eq : findAddrsLine d text = (text.splitOn '\n').filterMap (scanLine d) := by
  refine List.filterMap_congr fun line _ => ?_
  rw [scanLine]
  cases hm : (ipv4Re d).findAt line 0
  case none => rfl
  case some m =>
    obtain ⟨-, hml, ⟨n, hn, he⟩, -⟩ := findAt_eq_some.mp hm
    have hl := le_length_of_mem_lengths (List.mem_of_mem_head? hn)
    have := List.length_drop (i := m.1) (l := line)
    have hk : m.2 ≤ line.length := by omega
    simp only [Option.bind_eq_bind, Option.bind_some, findAt_drop hk, Option.bind_map, Function.comp_def, slice_drop]

-- Two functions of which one gives up earlier make the same of a list only if they agree about all of it.
theorem filterMap_eq_iff {α β : Type} {f g : α → Option β} {as : List α} (h : ∀ a ∈ as, f a = g a ∨ f a = none) :
    as.filterMap f = as.filterMap g ↔ ∀ a ∈ as, f a = g a := by
  have hl {as : List α} (h : ∀ a ∈ as, f a = g a ∨ f a = none) : (as.filterMap f).length ≤ (as.filterMap g).length := by
    induction as
    case nil => rfl
    case cons a as hi =>
      obtain ⟨ha, hs⟩ := List.forall_mem_cons.mp h
      have := hi hs
      rcases ha with ha | ha <;> cases hg : g a <;> simp [ha, hg] <;> omega
  induction as
  case nil => simp
  case cons a as hi =>
    obtain ⟨ha, hs⟩ := List.forall_mem_cons.mp h
    have hi : as.filterMap f = as.filterMap g ↔ ∀ a ∈ as, f a = g a := hi hs
    rw [List.forall_mem_cons, List.filterMap_cons, List.filterMap_cons]
    rcases ha with ha | ha
    · cases hg : g a <;> simp [ha, hg, hi]
    · cases hg : g a
      case none => simp [ha, hi]
      case some b =>
        simp only [ha, reduceCtorEq, false_and, iff_false]
        intro he
        have := congrArg List.length he
        have := hl hs
        simp at *
        omega

theorem findAddrsLine_eq_iff : findAddrsLine d text = findallLine d text ↔ LineTight d text := by
  rw [findAddrsLine_eq, findallLine, Regex.findAll, findAllFrom_lineRe (.inl rfl) (by simp), List.drop_zero,
    filterMap_eq_iff fun line _ => scanLine_cases.left]
  exact forall₂_congr fun line _ => scanLine_cases.right

-- The scanners find what Python finds, unless Python shortens the last octet of an address to make digits of it a port
-- (or the start of another address) where there is nothing else.
theorem scanners_eq_iff (d : Decimal) (text : Str) :
    (findAddrsGlobal d text = findallGlobal d text ↔ GlobalTight d text) ∧
    (findAddrsLine d text = findallLine d text ↔ LineTight d text) :=
  ⟨findAddrsGlobal_eq_iff, findAddrsLine_eq_iff⟩

-- Python finds the address 1.2.3.1 with the port 23 here.
theorem scanners_differ :
    findAddrsGlobal .asciiOnly "1.2.3.123".toList ≠ findallGlobal .asciiOnly "1.2.3.123".toList ∧
    findAddrsLine .asciiOnly "1.2.3.123".toList ≠ findallLine .asciiOnly "1.2.3.123".toList := by
  constructor <;> decide

end Parse
