import ProxyBroker.Parse.Theorems.Octets

open Regular

-- The regular expressions of Python that the scanners stand for.
namespace Parse.Python

open Regex

variable (d : Decimal)

-- `(IP)(?=.*?(?:IP|(\d{2,5})))` with `re.DOTALL`
def globalRe : Regex :=
  seq (group 1 (plain (ipv4Re d))) <|
  ahead (seq (plain (star false fun _ => true)) (alt (plain (ipv4Re d)) (group 2 (plain (portRe d)))))

-- `^.*?(IP).*?(\d{2,5}).*$` with `re.MULTILINE`
def lineRe : Regex :=
  seq lineStart <|
  seq (plain (star false (· ≠ '\n'))) <|
  seq (group 1 (plain (ipv4Re d))) <|
  seq (plain (star false (· ≠ '\n'))) <|
  seq (group 2 (plain (portRe d))) <|
  seq (plain (star true (· ≠ '\n'))) lineEnd

-- The groups of a match. A group that has not matched is an empty text.
def pair (m : Regex.Match) : Str × Str :=
  ((m.groups 1).getD [], (m.groups 2).getD [])

def findallGlobal (text : Str) : List (Str × Str) :=
  ((globalRe d).findAll text).map pair

def findallLine (text : Str) : List (Str × Str) :=
  ((lineRe d).findAll text).map pair

end Parse.Python

namespace Parse

open Python

-- Where a match ends if only the first digit of its last octet belongs to it.
def cut (text : Str) (m : Nat × Nat) : Nat :=
  m.2 - ((slice text m.1 m.2).reverse.takeWhile (· ≠ '.')).length + 1

variable (d : Decimal)

-- There is another address or a port.
def Followed (text : Str) (i : Nat) : Prop :=
  (ipv4Re d).findAt text i ≠ none ∨ (portRe d).findAt text i ≠ none

-- What follows an address if it gives up some digits also follows it if it does not.
def GlobalTight (text : Str) : Prop :=
  ∀ m ∈ (ipv4Re d).findIter text, Followed d text (cut text m) → Followed d text m.2

def LineTight (text : Str) : Prop :=
  ∀ line ∈ text.splitOn '\n', ∀ m, (ipv4Re d).findAt line 0 = some m →
    (portRe d).findAt line (cut line m) ≠ none → (portRe d).findAt line m.2 ≠ none

variable {d} {text s : Str} {i j n : Nat} {m : Nat × Nat} {c : Char}

theorem ipv4Re_nil : (ipv4Re d).lengths [] = [] :=
  rfl

theorem portRe_nil : (portRe d).lengths [] = [] :=
  rfl

theorem followed_iff : Followed d text i ↔
    ∃ j, i ≤ j ∧ ((ipv4Re d).lengths (text.drop j) ≠ [] ∨ (portRe d).lengths (text.drop j) ≠ []) := by
  rw [Followed, Ne, Ne, findAt_eq_none ipv4Re_nil, findAt_eq_none portRe_nil]
  grind

theorem Followed.mono (h : Followed d text j) (hi : i ≤ j) : Followed d text i := by
  obtain ⟨k, hk, h⟩ := followed_iff.mp h
  exact followed_iff.mpr ⟨k, hi.trans hk, h⟩

-- What starts at an index: an address, which has no text here, or a port.
def token (d : Decimal) (text : Str) (j : Nat) : Option (Option Str) :=
  if (ipv4Re d).lengths (text.drop j) ≠ [] then some none
  else ((portRe d).lengths (text.drop j)).head?.map fun n => some (slice text j (j + n))

def nextToken (d : Decimal) (text : Str) (i : Nat) : Option (Option Str) :=
  firstFrom (token d text) i (text.length + 1 - i)

theorem token_eq_none : token d text j = none ↔
    (ipv4Re d).lengths (text.drop j) = [] ∧ (portRe d).lengths (text.drop j) = [] := by
  unfold token
  split_ifs with h
  · simp [h]
  · simp [not_not.mp h]

theorem nextToken_eq_none : nextToken d text i = none ↔ ¬Followed d text i := by
  rw [followed_iff, nextToken, firstFrom_eq_none]
  simp only [token_eq_none, not_exists, not_and, not_or, not_not]
  constructor
  case mp =>
    intro h j hj
    by_cases hl : j < text.length
    case pos => exact h j hj (by omega)
    case neg =>
      rw [List.drop_of_length_le (Nat.le_of_not_lt hl)]
      exact ⟨ipv4Re_nil, portRe_nil⟩
  case mpr => exact fun h j hj _ => h j hj

theorem token_of_address (h : ((ipv4Re d).lengths (text.drop j)).head? = some n) : token d text j = some none :=
  if_pos fun he => by simp [he] at h

theorem token_of_port (ha : (ipv4Re d).lengths (text.drop j) = []) (hp : ((portRe d).lengths (text.drop j)).head? = some n) :
    token d text j = some (some (slice text j (j + n))) := by
  rw [token, if_neg (by simp [ha]), hp]
  rfl

theorem nextToken_eq (hi : i ≤ j) (hl : j ≤ text.length) {t : Option Str} (ht : token d text j = some t)
    (ha : ∀ k, i ≤ k → k < j → (ipv4Re d).lengths (text.drop k) = [])
    (hp : ∀ k, i ≤ k → k < j → (portRe d).lengths (text.drop k) = []) : nextToken d text i = some t :=
  firstFrom_eq_of hi (by omega) ht fun k hk hj => token_eq_none.mpr ⟨ha k hk hj, hp k hk hj⟩

-- The scanner decides about the port of an address as the lookahead does.
theorem portAfter_eq : portAfter d text i = (nextToken d text i).map (·.getD []) := by
  unfold portAfter
  cases hp : (portRe d).findAt text i
  case none =>
    have hp' := (findAt_eq_none portRe_nil).mp hp
    cases ha : (ipv4Re d).findAt text i
    case none => rw [nextToken_eq_none.mpr (by simp [Followed, hp, ha]), Option.map_none]
    case some a =>
      obtain ⟨hi, hl, ⟨n, hn, -⟩, hb⟩ := findAt_eq_some.mp ha
      rw [nextToken_eq hi hl (token_of_address hn) hb fun k hk _ => hp' k hk]
      rfl
  case some p =>
    obtain ⟨hpi, hpl, ⟨n, hn, hpn⟩, hpb⟩ := findAt_eq_some.mp hp
    cases ha : (ipv4Re d).findAt text i
    case none =>
      have ha' := (findAt_eq_none ipv4Re_nil).mp ha
      rw [nextToken_eq hpi hpl (token_of_port (ha' _ hpi) hn) (fun k hk _ => ha' k hk) hpb, ← hpn]
      rfl
    case some a =>
      obtain ⟨hai, hal, ⟨m, hm, -⟩, hab⟩ := findAt_eq_some.mp ha
      dsimp only
      split_ifs with h
      · rw [nextToken_eq hpi hpl (token_of_port (hab _ hpi h) hn) (fun k hk hj => hab k hk (by omega)) hpb, ← hpn]
        rfl
      · rw [nextToken_eq hai hal (token_of_address hm) hab fun k hk hj => hpb k hk (by omega)]
        rfl

theorem lt_of_findAt (h : (ipv4Re d).findAt text i = some m) : m.1 < m.2 := by
  obtain ⟨-, -, ⟨n, hn, he⟩, -⟩ := findAt_eq_some.mp h
  obtain ⟨x, o, t, -, hx⟩ := exists_dotted (List.mem_of_mem_head? hn)
  omega

-- A match ends at the earliest after the first digit of its last octet.
theorem exists_cut (h : (ipv4Re d).findAt text i = some m) : ∃ x o t, Dotted d (text.drop m.1) x o t ∧
    m.2 = m.1 + (x.length + 1 + o.length) ∧ cut text m = m.1 + (x.length + 2) := by
  obtain ⟨-, -, ⟨n, hn, he⟩, -⟩ := findAt_eq_some.mp h
  obtain ⟨x, o, t, hx, rfl⟩ := exists_dotted (List.mem_of_mem_head? hn)
  refine ⟨x, o, t, hx, he, ?_⟩
  have hs : slice text m.1 m.2 = x ++ '.' :: o := by
    have hl : m.2 - m.1 = (x ++ '.' :: o).length := by simp; omega
    have ht : x ++ '.' :: (o ++ t) = (x ++ '.' :: o) ++ t := by simp
    rw [slice, hx.eq, hl, ht, List.take_left]
  have ho : (slice text m.1 m.2).reverse.takeWhile (· ≠ '.') = o.reverse := by
    rw [hs, List.reverse_append, List.reverse_cons, List.append_assoc, List.takeWhile_append_of_pos]
    · simp
    · intro c hc
      have hd := hx.octet c (List.mem_reverse.mp hc)
      by_contra hn
      simp [not_not.mp (by simpa using hn), d.isDecimal_dot] at hd
  rw [cut, ho, List.length_reverse]
  omega

section Following

variable {β : Type} {f : Nat → Option β}

-- The first match of an address after which there is something. A match is tried at each of its ends.
def firstFollowed (d : Decimal) (f : Nat → Option β) (s : Str) (i : Nat) : Option (Nat × Nat × β) :=
  firstFrom (fun j => ((ipv4Re d).lengths (s.drop j)).findSome? fun n => (f (j + n)).map fun b => (j, j + n, b)) i
    (s.length + 1 - i)

theorem firstFollowed_of_none (h : (ipv4Re d).findAt s i = none) : firstFollowed d f s i = none :=
  firstFrom_eq_none.mpr fun j hj _ => by rw [(findAt_eq_none ipv4Re_nil).mp h j hj, List.findSome?_nil]

-- If the address that is found first is followed by something, then the scanner and Python agree about it.
theorem firstFollowed_of_some {b : β} (h : (ipv4Re d).findAt s i = some m) (hf : f m.2 = some b) :
    firstFollowed d f s i = some (m.1, m.2, b) := by
  obtain ⟨hi, hl, ⟨n, hn, he⟩, hb⟩ := findAt_eq_some.mp h
  refine firstFrom_eq_of hi (by omega) ?_ fun k hk hm => by rw [hb k hk hm, List.findSome?_nil]
  obtain ⟨ns, hns⟩ := List.head?_eq_some_iff.mp hn
  rw [hns, List.findSome?_cons, ← he, hf]
  rfl

-- Otherwise, Python finds something if and only if it does when the address gives up digits.
theorem firstFollowed_eq_none (h : (ipv4Re d).findAt s i = some m)
    (hf : ∀ j k, j ≤ k → f j = none → f k = none) : firstFollowed d f s i = none ↔ f (cut s m) = none := by
  obtain ⟨x, o, t, hx, -, hc⟩ := exists_cut h
  obtain ⟨hi, hl, -, hb⟩ := findAt_eq_some.mp h
  simp only [firstFollowed, firstFrom_eq_none, List.findSome?_eq_none_iff, Option.map_eq_none_iff]
  constructor
  case mp => exact fun hs => hc ▸ hs m.1 hi (by omega) _ hx.least
  case mpr =>
    intro hs j hj _ n hn
    rcases Nat.lt_or_ge j m.1 with hjm | hjm
    · simp [hb j hj hjm] at hn
    · obtain ⟨k, rfl⟩ := Nat.exists_eq_add_of_le hjm
      rw [← List.drop_drop] at hn
      have := hx.le_of_later hn
      exact hf _ _ (by omega) hs

end Following

section Global

open Regex in
-- What the lookahead of an address finds.
def following (d : Decimal) : Regex :=
  seq (plain (star false fun _ => true)) (alt (plain (ipv4Re d)) (group 2 (plain (portRe d))))

variable {g : Groups}

theorem run_alt (hg : g 2 = none) :
    (((Regex.alt (.plain (ipv4Re d)) (.group 2 (.plain (portRe d)))).run text (j, g)).head?).map Prod.snd =
      (token d text j).map (Function.update g 2) := by
  simp only [Regex.run, List.head?_append, List.head?_map, token]
  rcases hn : ((ipv4Re d).lengths (text.drop j)).head? with - | n
  case none =>
    rw [if_neg (by simpa using List.head?_eq_none_iff.mp hn)]
    cases ((portRe d).lengths (text.drop j)).head? <;> rfl
  case some =>
    rw [if_pos fun he => by simp [he] at hn]
    exact congrArg some (hg ▸ Function.update_eq_self 2 g).symm

theorem run_ahead (hi : i ≤ text.length) (hg : g 2 = none) :
    (Regex.ahead (following d)).run text (i, g) =
      ((nextToken d text i).map fun t => (i, Function.update g 2 t)).toList := by
  have hl : ((text.drop i).takeWhile fun _ => true).length + 1 = text.length + 1 - i := by
    rw [List.takeWhile_eq_self_iff.mpr fun _ _ => rfl, List.length_drop]
    omega
  have hr : (((following d).run text (i, g)).head?).map Prod.snd = (nextToken d text i).map (Function.update g 2) := by
    rw [following, Regex.head?_run_lazy, map_firstFrom, nextToken, map_firstFrom, hl]
    simp only [run_alt hg]
  rw [Regex.run]
  rcases ho : ((following d).run text (i, g)).head? with - | m
  all_goals rw [ho] at hr
  case none =>
    rw [Option.map_eq_none_iff.mp hr.symm]
    rfl
  case some =>
    obtain ⟨t, ht, he⟩ := Option.map_eq_some_iff.mp hr.symm
    rw [ht]
    simp [he]

-- The match of an address is the first one that is followed by something.
theorem head?_run_globalRe : ((globalRe d).run text (j, fun _ => none)).head? =
    ((ipv4Re d).lengths (text.drop j)).findSome? fun n => (nextToken d text (j + n)).map fun t =>
      (j + n, Function.update (Function.update (fun _ => none) 1 (some (slice text j (j + n)))) 2 t) := by
  have hr (n : Nat) (hn : n ∈ (ipv4Re d).lengths (text.drop j)) (g : Groups) (hg : g 2 = none) :
      ((Regex.ahead (following d)).run text (j + n, g)).head? =
        (nextToken d text (j + n)).map fun t => (j + n, Function.update g 2 t) := by
    have hl : j + n ≤ text.length := by
      obtain ⟨x, o, t, hx, -⟩ := exists_dotted hn
      have := congrArg List.length hx.eq
      have := le_length_of_mem_lengths hn
      simp at *
      omega
    rw [run_ahead hl hg]
    cases nextToken d text (j + n) <;> rfl
  rw [globalRe, Regex.head?_run_group]
  exact findSome?_congr fun n hn => hr n hn _ rfl

theorem search_globalRe : (globalRe d).search text i = (firstFollowed d (nextToken d text) text i).map fun m =>
    ⟨m.1, m.2.1, Function.update (Function.update (fun _ => none) 1 (some (slice text m.1 m.2.1))) 2 m.2.2⟩ := by
  rw [firstFollowed, map_firstFrom, Regex.search]
  congr 1
  funext j
  rw [head?_run_globalRe, List.map_findSome?, List.map_findSome?]
  simp only [Function.comp_def, Option.map_map]

theorem findAddrsGlobalFrom_of_none {fuel : Nat} (h : (ipv4Re d).findAt text i = none) :
    findAddrsGlobalFrom d text fuel i = [] := by
  cases fuel
  case zero => rfl
  case succ => rw [findAddrsGlobalFrom, h]

theorem findIterFrom_of_none {fuel : Nat} (h : (ipv4Re d).findAt text i = none) :
    (ipv4Re d).findIterFrom text fuel i = [] := by
  cases fuel
  case zero => rfl
  case succ => rw [findIterFrom, h]

theorem findAddrsGlobalFrom_eq_iff {fuel : Nat} :
    findAddrsGlobalFrom d text fuel i = ((globalRe d).findAllFrom text fuel i).map pair ↔
      ∀ m ∈ (ipv4Re d).findIterFrom text fuel i, Followed d text (cut text m) → Followed d text m.2 := by
  induction fuel generalizing i
  case zero         => simp [findAddrsGlobalFrom, Regex.findAllFrom, findIterFrom]
  case succ fuel hi =>
    rw [findAddrsGlobalFrom, Regex.findAllFrom, findIterFrom]
    cases hm : (ipv4Re d).findAt text i
    case none => simp [search_globalRe, firstFollowed_of_none hm]
    case some m =>
      have hl := lt_of_findAt hm
      dsimp only
      rw [if_neg hl.ne', portAfter_eq]
      cases ht : nextToken d text m.2
      case some t =>
        have hf : Followed d text m.2 := by
          by_contra hf
          simp [nextToken_eq_none.mpr hf] at ht
        rw [search_globalRe, firstFollowed_of_some hm ht, List.forall_mem_cons, ← hi]
        dsimp only [Option.map_some]
        rw [if_neg hl.ne', List.map_cons, pair]
        simp [hf]
      case none =>
        have hf := nextToken_eq_none.mp ht
        have hn' : (ipv4Re d).findAt text m.2 = none := by_contra fun hn => hf (.inl hn)
        have hn := firstFollowed_eq_none (f := nextToken d text) hm fun j k hjk hj =>
          nextToken_eq_none.mpr fun hk => nextToken_eq_none.mp hj (hk.mono hjk)
        dsimp only [Option.map_none]
        rw [findAddrsGlobalFrom_of_none hn', findIterFrom_of_none hn', List.forall_mem_singleton, imp_iff_not hf,
          ← nextToken_eq_none, ← hn, search_globalRe]
        cases firstFollowed d (nextToken d text) text i <;> simp

theorem findAddrsGlobal_eq_iff : findAddrsGlobal d text = findallGlobal d text ↔ GlobalTight d text :=
  findAddrsGlobalFrom_eq_iff

end Global

end Parse
