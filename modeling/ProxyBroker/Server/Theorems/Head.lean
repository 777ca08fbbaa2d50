import ProxyBroker.Server.Relay

open Utf8

namespace Server

theorem crlfPos_none_iff {bs : Bytes} : crlfPos bs = none ↔ ∀ x y, bs ≠ x ++ cr :: lf :: y := by
  induction bs using crlfPos.induct
  case case1 => simp [crlfPos]
  case case2 b =>
    simp only [crlfPos, true_iff]
    intro x y h
    have := congrArg List.length h
    simp at this
    omega
  case case3 b c bs hc =>
    simp only [crlfPos, hc, and_self, if_true, reduceCtorEq, false_iff]
    exact fun h => h [] bs rfl
  case case4 b c bs hc hi =>
    simp only [crlfPos, hc, if_false, Option.map_eq_none_iff, hi]
    constructor
    · intro h x y he
      cases x
      case nil => simp_all
      case cons x xs =>
        simp only [List.cons_append, List.cons.injEq] at he
        exact h xs y he.right
    · intro h x y he
      exact h (b :: x) y (by simp [he])

-- The first CRLF splits the bytes in two, and it is really the first.
theorem crlfPos_some_iff {bs : Bytes} {n : Nat} :
    crlfPos bs = some n ↔
    ∃ x y, bs = x ++ cr :: lf :: y ∧ x.length = n ∧ crlfPos (x ++ [cr]) = none := by
  induction bs using crlfPos.induct generalizing n
  case case1 => simp [crlfPos]
  case case2 b =>
    simp only [crlfPos, reduceCtorEq, false_iff, not_exists, not_and]
    intro x y h
    have := congrArg List.length h
    simp at this
    omega
  case case3 b c bs hc =>
    obtain ⟨rfl, rfl⟩ := hc
    simp only [crlfPos, and_self, if_true, Option.some.injEq]
    constructor
    · rintro rfl
      exact ⟨[], bs, rfl, rfl, rfl⟩
    · rintro ⟨x, y, h, rfl, hn⟩
      cases x
      case nil => rfl
      case cons x xs =>
        cases xs
        case nil =>
          simp only [List.cons_append, List.nil_append, List.cons.injEq] at h
          exact absurd h.right.left (by decide)
        case cons x' xs =>
          simp only [List.cons_append, List.cons.injEq] at h
          obtain ⟨rfl, rfl, -⟩ := h
          simp [crlfPos] at hn
  case case4 b c bs hc hi =>
    simp only [crlfPos, hc, if_false, Option.map_eq_some_iff, hi]
    constructor
    · rintro ⟨_, ⟨x, y, h, rfl, hn⟩, rfl⟩
      refine ⟨b :: x, y, by simp [h], rfl, ?_⟩
      cases x
      case nil => simp_all [crlfPos]
      case cons x xs =>
        simp only [List.cons_append, List.cons.injEq] at h
        obtain ⟨rfl, h⟩ := h
        simp only [List.cons_append] at hn
        simp [crlfPos, hc, hn]
    · rintro ⟨x, y, h, rfl, hn⟩
      cases x
      case nil => simp_all
      case cons x xs =>
        simp only [List.cons_append, List.cons.injEq] at h
        obtain ⟨rfl, h⟩ := h
        refine ⟨xs.length, ⟨xs, y, h, rfl, ?_⟩, rfl⟩
        rw [crlfPos_none_iff] at hn ⊢
        exact fun x y he => hn (b :: x) y (by simp [he])

theorem crlfPos_split {x y : Bytes} (h : crlfPos (x ++ [cr]) = none) :
    crlfPos (x ++ cr :: lf :: y) = some x.length :=
  crlfPos_some_iff.mpr ⟨x, y, rfl, rfl, h⟩

theorem length_append_crlf (x y : Bytes) : (x ++ cr :: lf :: y).length = x.length + y.length + 1 + 1 := by
  simp only [List.length_append, List.length_cons]
  omega

-- A buffer is a sequence of lines that end with a CRLF, followed by what is left.
theorem crlf_induction {P : Bytes → Prop} (none : ∀ bs, crlfPos bs = none → P bs)
    (split : ∀ x y, crlfPos (x ++ [cr]) = .none → P y → P (x ++ cr :: lf :: y)) (bs : Bytes) : P bs := by
  induction hn : bs.length using Nat.strong_induction_on generalizing bs
  case h n hi =>
    cases h : crlfPos bs
    case none => exact none bs h
    case some =>
      obtain ⟨x, y, rfl, -, hx⟩ := crlfPos_some_iff.mp h
      refine split x y hx (hi y.length ?_ y rfl)
      rw [← hn, length_append_crlf]
      omega

theorem injectHeader_split {x y l : Bytes} (h : crlfPos (x ++ [cr]) = none) :
    injectHeader (x ++ cr :: lf :: y) l = x ++ cr :: lf :: (l ++ y) := by
  have ht : (x ++ cr :: lf :: y).take (x.length + 2) = x ++ [cr, lf] := by
    rw [List.take_length_add_append]
    rfl
  have hd : (x ++ cr :: lf :: y).drop (x.length + 2) = y := by
    rw [List.drop_length_add_append]
    rfl
  simp [injectHeader, crlfPos_split h, ht, hd]

theorem injectHeader_none {bs l : Bytes} (h : crlfPos bs = none) : injectHeader bs l = bs := by
  simp [injectHeader, h]

end Server
