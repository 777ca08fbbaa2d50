import ProxyBroker.Json.Basic
import Mathlib.Data.List.TakeWhile

-- A document that is printed can be read again.
namespace Json

section Strings

theorem hexDigit?_digitChar {d : Nat} (hd : d < 16) : hexDigit? d.digitChar = some d := by
  interval_cases d <;> decide

theorem mem_escapes {c e : Char} (h : escapes.lookup c = some e) : (c, e) ∈ escapes := by
  have := List.lookup_eq_some_iff.mp h
  obtain ⟨l₁, l₂, he, -⟩ := this
  simp [he]

theorem readHex_control {c : Char} (h : isControl c) :
    readHex ['0', '0', (c.toNat / 16).digitChar, (c.toNat % 16).digitChar] = some c := by
  have hc : c.toNat < 0x20 := by simpa [isControl] using h
  have hs : ['0', '0', (c.toNat / 16).digitChar, (c.toNat % 16).digitChar].mapM hexDigit? =
      some [0, 0, c.toNat / 16, c.toNat % 16] := by
    simp [show hexDigit? '0' = some 0 by decide, hexDigit?_digitChar (show c.toNat / 16 < 16 by omega),
      hexDigit?_digitChar (show c.toNat % 16 < 16 by omega)]
  have hn : [0, 0, c.toNat / 16, c.toNat % 16].foldl (16 * · + ·) 0 = c.toNat := by
    simp only [List.foldl_cons, List.foldl_nil]
    omega
  have hv : c.toNat.isValidChar := c.valid
  simp only [readHex, hs, Option.bind_eq_bind, Option.bind_some, hn, if_pos hv, Char.ofNat_toNat]

theorem readChars_other {c : Char} (hq : c ≠ '"') (hb : c ≠ '\\') (hc : isControl c = false) (s : Str) :
    readChars (c :: s) = (readChars s).map fun (xs, s) => (c :: xs, s) := by
  rw [readChars.eq_def]
  split <;> simp_all

theorem readChars_escape (c : Char) (s : Str) :
    readChars (escape c ++ s) = (readChars s).map fun (xs, s) => (c :: xs, s) := by
  unfold escape
  split
  case h_1 e he =>
    have := mem_escapes he
    simp only [escapes, List.mem_cons, Prod.mk.injEq, List.not_mem_nil, or_false] at this
    rcases this with h | h | h | h | h | h | h <;> obtain ⟨rfl, rfl⟩ := h
    all_goals simp [readChars, unescape, escapes, Option.map_eq_bind]
  case h_2 hn =>
    split_ifs with hc
    · simp [readChars, readHex_control hc, Option.map_eq_bind]
    · have hm (e : Char) : (c, e) ∉ escapes := fun he => by
        simp only [List.lookup_eq_none_iff, bne_iff_ne] at hn
        exact hn _ he rfl
      refine readChars_other ?_ ?_ (by simpa using hc) s
      · rintro rfl
        exact hm '"' (by decide)
      · rintro rfl
        exact hm '\\' (by decide)

theorem readStr_printStr (s t : Str) : readStr (printStr s ++ t) = some (s, t) := by
  suffices h : readChars (s.flatMap escape ++ '"' :: t) = some (s, t) by simpa [printStr, readStr] using h
  induction s
  case nil         => simp [readChars]
  case cons c s hi => simp [readChars_escape, hi]

end Strings

section Numbers

-- What may follow a number.
def Stops (t : Str) : Prop :=
  ∀ c ∈ t.head?, c.isDigit = false ∧ c ≠ '.'

theorem Stops.cons {c : Char} {t : Str} (hd : c.isDigit = false) (hp : c ≠ '.') : Stops (c :: t) := by
  simp [Stops, hd, hp]

theorem takeWhile_isDigit {ds t : Str} (hd : ∀ c ∈ ds, c.isDigit) (ht : ∀ c ∈ t.head?, c.isDigit = false) :
    (ds ++ t).takeWhile Char.isDigit = ds := by
  have h : t.takeWhile Char.isDigit = [] := by
    cases t
    case nil      => rfl
    case cons c t => simp [ht c rfl]
  rw [List.takeWhile_append_of_pos hd, h, List.append_nil]

theorem digitsValue_ofNat (n : Nat) : digitsValue (Str.ofNat n) = n :=
  Nat.ofDigitsWith_toDigits (by decide) _ fun d hd => by simp [Str.digit?_digitChar hd]

theorem digitsValue_leftpad (n k : Nat) : digitsValue ((Str.ofNat n).leftpad k '0') = n := by
  have h (m : Nat) (ds : Str) : digitsValue (List.replicate m '0' ++ ds) = digitsValue ds := by
    induction m
    case zero      => rfl
    case succ m hi => exact hi
  rw [List.leftpad, h, digitsValue_ofNat]

theorem isDigit_of_mem_leftpad {n k : Nat} {c : Char} (h : c ∈ (Str.ofNat n).leftpad k '0') : c.isDigit := by
  rcases List.mem_append.mp h with h | h
  · rw [List.eq_of_mem_replicate h]
    decide
  · exact Str.isDigit_of_mem_ofNat h

theorem length_leftpad_mod (n k : Nat) (hk : 0 < k) : ((Str.ofNat (n % 10 ^ k)).leftpad k '0').length = k := by
  have h : (Str.ofNat (n % 10 ^ k)).length ≤ k :=
    (Nat.length_toDigits_le_iff (by decide) hk).mpr (Nat.mod_lt _ (by positivity))
  simp only [List.leftpad, List.length_append, List.length_replicate]
  omega

theorem readNat_printNat (n scale : Nat) {t : Str} (ht : Stops t) :
    readNat (printNat n scale ++ t) = some ((n, scale), t) := by
  rcases Nat.eq_zero_or_pos scale with rfl | hk
  case inl =>
    have hw : (Str.ofNat n ++ t).takeWhile Char.isDigit = Str.ofNat n :=
      takeWhile_isDigit (fun c => Str.isDigit_of_mem_ofNat) fun c hc => (ht c hc).left
    simp only [readNat, printNat, hw, if_neg (Str.ofNat_ne_nil n), List.drop_left, digitsValue_ofNat]
    split
    case h_1 h => exact absurd rfl (ht '.' rfl).right
    case h_2   => rfl
  case inr =>
    have he : printNat n scale = Str.ofNat (n / 10 ^ scale) ++ '.' :: (Str.ofNat (n % 10 ^ scale)).leftpad scale '0' := by
      rw [printNat]
      exact hk.ne'
    have hl := length_leftpad_mod n scale hk
    generalize hf : (Str.ofNat (n % 10 ^ scale)).leftpad scale '0' = fs at he hl
    have hv : digitsValue fs = n % 10 ^ scale := hf ▸ digitsValue_leftpad ..
    have hw : (Str.ofNat (n / 10 ^ scale) ++ '.' :: (fs ++ t)).takeWhile Char.isDigit = Str.ofNat (n / 10 ^ scale) :=
      takeWhile_isDigit (fun c => Str.isDigit_of_mem_ofNat) (by simp)
    have hw' : (fs ++ t).takeWhile Char.isDigit = fs :=
      takeWhile_isDigit (fun c hc => isDigit_of_mem_leftpad (hf ▸ hc)) fun c hc => (ht c hc).left
    have hn : fs ≠ [] := List.ne_nil_of_length_pos (by omega)
    rw [he, List.append_assoc, List.cons_append]
    have hd : (fs ++ t).drop scale = t := by rw [← hl, List.drop_left]
    simp only [readNat, hw, if_neg (Str.ofNat_ne_nil _), List.drop_left, hw', if_neg hn, digitsValue_ofNat, hv, hl, hd,
      Nat.div_add_mod']

theorem printNat_head (n scale : Nat) : ∃ c s, printNat n scale = c :: s ∧ c.isDigit := by
  have h (m : Nat) : ∃ c s, Str.ofNat m = c :: s ∧ c.isDigit := by
    obtain ⟨c, s, h⟩ := List.exists_cons_of_ne_nil (Str.ofNat_ne_nil m)
    exact ⟨c, s, h, Str.isDigit_of_mem_ofNat (h ▸ List.mem_cons_self)⟩
  unfold printNat
  split
  · exact h n
  · obtain ⟨c, s, h, hc⟩ := h (n / 10 ^ scale)
    exact ⟨c, _, by rw [h]; rfl, hc⟩

theorem readNum_printNum (m : Int) (scale : Nat) {t : Str} (ht : Stops t) :
    readNum (printNum m scale ++ t) = some (num m scale, t) := by
  unfold printNum
  split_ifs with hm
  · have he : -(m.natAbs : Int) = m := by omega
    simp only [readNum, List.cons_append, readNat_printNat _ _ ht, Option.map_some, he]
  · have he : (m.natAbs : Int) = m := by omega
    obtain ⟨c, s, hp, hc⟩ := printNat_head m.natAbs scale
    have hr := readNat_printNat m.natAbs scale ht
    rw [hp, List.cons_append] at hr ⊢
    rw [readNum.eq_def]
    split
    case h_1 h =>
      cases h
      exact absurd hc (by decide)
    case h_2 => simp [hr, he]

theorem printNum_head (m : Int) (scale : Nat) : ∃ c s, printNum m scale = c :: s ∧ (c = '-' ∨ c.isDigit) := by
  unfold printNum
  split_ifs
  · exact ⟨_, _, rfl, .inl rfl⟩
  · obtain ⟨c, s, h, hc⟩ := printNat_head m.natAbs scale
    exact ⟨c, s, h, .inr hc⟩

end Numbers

section Documents

theorem read_other {c : Char} (hc : c = '-' ∨ c.isDigit) (n : Nat) (s : Str) :
    read (n + 1) (c :: s) = readNum (c :: s) := by
  rw [read.eq_def]
  split <;> simp_all

theorem print_head (v : Json) : ∃ c s, print v = c :: s ∧ c ≠ ']' := by
  cases v
  case bool b    => cases b <;> exact ⟨_, _, rfl, by decide⟩
  case num m k   =>
    obtain ⟨c, s, h, hc⟩ := printNum_head m k
    refine ⟨c, s, h, ?_⟩
    rintro rfl
    exact absurd hc (by decide)
  case arr vs    => cases vs <;> exact ⟨_, _, rfl, by decide⟩
  case obj fs    =>
    rcases fs with _ | ⟨⟨n, v⟩, fs⟩
    · exact ⟨_, _, rfl, by decide⟩
    · exact ⟨_, _, rfl, by decide⟩
  all_goals exact ⟨_, _, rfl, by decide⟩

-- With `n` steps, everything is read of which the text has at most the length `n`.
structure Reads (n : Nat) : Prop where
  value  : ∀ v t, Stops t → (print v).length ≤ n → read n (print v ++ t) = some (v, t)
  items  : ∀ vs t, (printItems vs).length ≤ n → readItems n (printItems vs ++ t) = some (vs, t)
  fields : ∀ fs t, (printFields fs).length ≤ n → readFields n (printFields fs ++ t) = some (fs, t)

theorem stops_printItems (vs : List Json) (t : Str) : Stops (printItems vs ++ t) := by
  cases vs <;> exact .cons (by decide) (by decide)

theorem stops_printFields (fs : List (Str × Json)) (t : Str) : Stops (printFields fs ++ t) := by
  cases fs <;> exact .cons (by decide) (by decide)

namespace Reads

variable {n : Nat} {t : Str}

theorem arr (h : Reads n) {v : Json} {vs : List Json} (hn : (print (.arr (v :: vs))).length ≤ n + 1) :
    read (n + 1) (print (.arr (v :: vs)) ++ t) = some (.arr (v :: vs), t) := by
  simp only [print, List.length_cons, List.length_append] at hn
  obtain ⟨c, s, hp, hc⟩ := print_head v
  have hv := h.value v (printItems vs ++ t) (stops_printItems vs t) (by omega)
  have hs := h.items vs t (by omega)
  have he : print (.arr (v :: vs)) ++ t = '[' :: (print v ++ (printItems vs ++ t)) := by simp [print]
  have hs' : ∀ u, print v ++ (printItems vs ++ t) = ']' :: u → False := by
    intro u hu
    rw [hp] at hu
    exact hc (List.cons.inj hu).left
  rw [he, read]
  · simp [hv, hs]
  · exact hs'

theorem items_cons (h : Reads n) {v : Json} {vs : List Json} (hn : (printItems (v :: vs)).length ≤ n + 1) :
    readItems (n + 1) (printItems (v :: vs) ++ t) = some (v :: vs, t) := by
  simp only [printItems, List.length_cons, List.length_append] at hn
  have hv := h.value v (printItems vs ++ t) (stops_printItems vs t) (by omega)
  have hs := h.items vs t (by omega)
  have he : printItems (v :: vs) ++ t = ',' :: (print v ++ (printItems vs ++ t)) := by simp [printItems]
  rw [he, readItems]
  simp [hv, hs]

theorem obj (h : Reads n) {x : Str} {v : Json} {fs : List (Str × Json)}
    (hn : (print (.obj ((x, v) :: fs))).length ≤ n + 1) :
    read (n + 1) (print (.obj ((x, v) :: fs)) ++ t) = some (.obj ((x, v) :: fs), t) := by
  simp only [print, List.length_cons, List.length_append] at hn
  have hx := readStr_printStr x (':' :: (print v ++ (printFields fs ++ t)))
  have hv := h.value v (printFields fs ++ t) (stops_printFields fs t) (by omega)
  have hs := h.fields fs t (by omega)
  have he : print (.obj ((x, v) :: fs)) ++ t =
      '\x7b' :: (printStr x ++ ':' :: (print v ++ (printFields fs ++ t))) := by simp [print]
  rw [he, read]
  · simp [hx, readChar, hv, hs]
  · exact fun u hu => absurd (List.cons.inj hu).left (by decide)

theorem fields_cons (h : Reads n) {x : Str} {v : Json} {fs : List (Str × Json)}
    (hn : (printFields ((x, v) :: fs)).length ≤ n + 1) :
    readFields (n + 1) (printFields ((x, v) :: fs) ++ t) = some ((x, v) :: fs, t) := by
  simp only [printFields, List.length_cons, List.length_append] at hn
  have hx := readStr_printStr x (':' :: (print v ++ (printFields fs ++ t)))
  have hv := h.value v (printFields fs ++ t) (stops_printFields fs t) (by omega)
  have hs := h.fields fs t (by omega)
  have he : printFields ((x, v) :: fs) ++ t =
      ',' :: (printStr x ++ ':' :: (print v ++ (printFields fs ++ t))) := by simp [printFields]
  rw [he, readFields]
  simp [hx, readChar, hv, hs]

theorem succ (h : Reads n) : Reads (n + 1) := by
  constructor
  case value =>
    intro v t ht hn
    cases v
    case null       => simp [print, read, Str.stripPrefix]
    case bool b     => cases b <;> simp [print, read, Str.stripPrefix]
    case num m k    =>
      obtain ⟨c, s, hp, hc⟩ := printNum_head m k
      have hr := readNum_printNum m k ht
      rw [print]
      rw [hp, List.cons_append] at hr ⊢
      rw [read_other hc, hr]
    case str s      =>
      have hs := readStr_printStr s t
      simp only [print]
      simp only [printStr, List.cons_append] at hs ⊢
      simpa [read, readStr] using hs
    case arr vs     =>
      cases vs
      case nil  => simp [print, read]
      case cons => exact h.arr hn
    case obj fs     =>
      rcases fs with _ | ⟨⟨x, v⟩, fs⟩
      case nil  => simp [print, read]
      case cons => exact h.obj hn
  case items =>
    intro vs t hn
    cases vs
    case nil  => simp [printItems, readItems]
    case cons => exact h.items_cons hn
  case fields =>
    intro fs t hn
    rcases fs with _ | ⟨⟨x, v⟩, fs⟩
    case nil  => simp [printFields, readFields]
    case cons => exact h.fields_cons hn

theorem all (n : Nat) : Reads n := by
  induction n
  case succ hi => exact hi.succ
  case zero =>
    constructor
    case value =>
      intro v t _ hn
      obtain ⟨c, s, hp, -⟩ := print_head v
      simp [hp] at hn
    case items  => intro vs t hn; cases vs <;> simp [printItems] at hn
    case fields => intro fs t hn; cases fs <;> simp [printFields] at hn

end Reads

theorem parse_print (v : Json) : parse (print v) = some v := by
  have h := (Reads.all (print v).length).value v [] (by simp [Stops]) le_rfl
  rw [List.append_nil] at h
  rw [parse, h]

end Documents

section Lines

-- Control characters are escaped, so that a document is printed on a single line.
def Plain (s : Str) : Prop :=
  ∀ c ∈ s, isControl c = false

theorem plain_append {s t : Str} : Plain (s ++ t) ↔ Plain s ∧ Plain t :=
  List.forall_mem_append

theorem plain_cons {c : Char} {s : Str} : Plain (c :: s) ↔ isControl c = false ∧ Plain s :=
  List.forall_mem_cons

theorem plain_nil : Plain [] := by
  simp [Plain]

theorem isControl_digitChar {d : Nat} (hd : d < 16) : isControl d.digitChar = false := by
  interval_cases d <;> decide

theorem plain_ofNat (n : Nat) : Plain (Str.ofNat n) := by
  intro c hc
  obtain ⟨d, hd, rfl⟩ := Str.mem_ofNat hc
  exact isControl_digitChar (by omega)

theorem plain_escape (c : Char) : Plain (escape c) := by
  unfold escape
  split
  case h_1 e he =>
    have := mem_escapes he
    simp only [escapes, List.mem_cons, Prod.mk.injEq, List.not_mem_nil, or_false] at this
    rcases this with h | h | h | h | h | h | h <;> obtain ⟨rfl, rfl⟩ := h
    all_goals simp [Plain, isControl]
  case h_2 =>
    split_ifs with hc
    case neg => exact plain_cons.mpr ⟨by simpa using hc, plain_nil⟩
    case pos =>
      have hc : c.toNat < 0x20 := by simpa [isControl] using hc
      refine plain_append.mpr ⟨by simp [Plain, isControl], plain_cons.mpr ⟨?_, plain_cons.mpr ⟨?_, plain_nil⟩⟩⟩
      · exact isControl_digitChar (by omega)
      · exact isControl_digitChar (by omega)

theorem plain_printStr (s : Str) : Plain (printStr s) := by
  refine plain_append.mpr ⟨plain_cons.mpr ⟨by decide, fun c hc => ?_⟩, by simp [Plain, isControl]⟩
  obtain ⟨d, -, hd⟩ := List.mem_flatMap.mp hc
  exact plain_escape d c hd

theorem plain_printNum (m : Int) (scale : Nat) : Plain (printNum m scale) := by
  have h (n : Nat) : Plain (printNat n scale) := by
    unfold printNat
    split
    · exact plain_ofNat n
    · refine plain_append.mpr ⟨plain_ofNat _, plain_cons.mpr ⟨by decide, fun c hc => ?_⟩⟩
      rcases List.mem_append.mp hc with hc | hc
      · rw [List.eq_of_mem_replicate hc]
        decide
      · exact plain_ofNat _ c hc
  unfold printNum
  split_ifs
  · exact plain_cons.mpr ⟨by decide, h _⟩
  · exact h _

mutual

theorem plain_print : (v : Json) → Plain (print v)
  | null               => by simp [print, Plain, isControl]
  | bool true          => by simp [print, Plain, isControl]
  | bool false         => by simp [print, Plain, isControl]
  | num m scale        => plain_printNum m scale
  | str s              => plain_printStr s
  | arr []             => by simp [print, Plain, isControl]
  | arr (v :: vs)      => plain_append.mpr ⟨plain_cons.mpr ⟨by decide, plain_print v⟩, plain_printItems vs⟩
  | obj []             => by simp [print, Plain, isControl]
  | obj ((x, v) :: fs) =>
    plain_append.mpr ⟨plain_append.mpr ⟨plain_cons.mpr ⟨by decide, plain_printStr x⟩,
      plain_cons.mpr ⟨by decide, plain_print v⟩⟩, plain_printFields fs⟩

theorem plain_printItems : (vs : List Json) → Plain (printItems vs)
  | []      => by simp [printItems, Plain, isControl]
  | v :: vs => plain_append.mpr ⟨plain_cons.mpr ⟨by decide, plain_print v⟩, plain_printItems vs⟩

theorem plain_printFields : (fs : List (Str × Json)) → Plain (printFields fs)
  | []           => by simp [printFields, Plain, isControl]
  | (x, v) :: fs =>
    plain_append.mpr ⟨plain_append.mpr ⟨plain_cons.mpr ⟨by decide, plain_printStr x⟩,
      plain_cons.mpr ⟨by decide, plain_print v⟩⟩, plain_printFields fs⟩

end

end Lines

end Json
