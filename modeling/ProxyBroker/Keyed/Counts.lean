import Mathlib.Algebra.BigOperators.Group.Finset.Piecewise
import Mathlib.Data.List.Perm.Basic
import Mathlib.Logic.Function.Basic

-- A map from keys to amounts. A key is present once an amount was added to it.
abbrev Counts (α κ : Type) :=
  α → Option κ

namespace Counts

variable {α β κ : Type} [DecidableEq α] [AddCommMonoid κ]

def add (m : Counts α κ) (a : α) (n : κ) : Counts α κ :=
  Function.update m a (some ((m a).getD 0 + n))

def addAll (m : Counts α κ) (es : List (α × κ)) : Counts α κ :=
  es.foldl (fun m e => m.add e.1 e.2) m

variable {m : Counts α κ} {es es' : List (α × κ)} {a b : α} {n k : κ}

theorem getD_add : (m.add a n b).getD 0 = (m b).getD 0 + if b = a then n else 0 := by
  by_cases h : b = a
  · simp [add, h]
  · simp [add, h]

theorem isSome_add : (m.add a n b).isSome ↔ (m b).isSome ∨ a = b := by
  by_cases h : a = b
  · simp [add, h]
  · simp [add, h, Ne.symm h]

theorem add_right_comm : (m.add a n).add b k = (m.add b k).add a n := by
  by_cases h : a = b
  · subst h
    simp [add, add_assoc, add_comm n]
  · simp [add, h, Ne.symm h, Function.update_comm h]

@[simp]
theorem addAll_nil (m : Counts α κ) : m.addAll [] = m :=
  rfl

@[simp]
theorem addAll_cons (m : Counts α κ) (e : α × κ) (es : List (α × κ)) :
    m.addAll (e :: es) = (m.add e.1 e.2).addAll es :=
  rfl

theorem addAll_append (m : Counts α κ) (es es' : List (α × κ)) : m.addAll (es ++ es') = (m.addAll es).addAll es' :=
  List.foldl_append

theorem foldl_add (m : Counts α κ) (f : β → α × κ) (bs : List β) :
    bs.foldl (fun m b => m.add (f b).1 (f b).2) m = m.addAll (bs.map f) := by
  rw [addAll, List.foldl_map]

theorem addAll_perm (h : es.Perm es') : m.addAll es = m.addAll es' :=
  h.foldl_eq' (fun _ _ _ _ _ => add_right_comm) m

-- Every key has what was added to it.
theorem getD_addAll (m : Counts α κ) (es : List (α × κ)) (a : α) :
    (m.addAll es a).getD 0 = (m a).getD 0 + ((es.filter (·.1 = a)).map Prod.snd).sum := by
  induction es generalizing m
  case nil => simp
  case cons e es hi =>
    rw [addAll_cons, hi, getD_add, add_assoc, List.filter_cons]
    by_cases h : e.1 = a
    · simp [h]
    · simp [h, Ne.symm h]

theorem isSome_addAll (m : Counts α κ) (es : List (α × κ)) (a : α) :
    (m.addAll es a).isSome ↔ (m a).isSome ∨ a ∈ es.map Prod.fst := by
  induction es generalizing m
  case nil          => simp
  case cons e es hi => rw [addAll_cons, hi, isSome_add, List.map_cons, List.mem_cons, or_assoc, eq_comm (a := a)]

-- All keys together have what was added.
theorem sum_addAll {s : Finset α} (h : ∀ e ∈ es, e.1 ∈ s) :
    ∑ a ∈ s, (m.addAll es a).getD 0 = ∑ a ∈ s, (m a).getD 0 + (es.map Prod.snd).sum := by
  induction es generalizing m
  case nil => simp
  case cons e es hi =>
    have he := h e List.mem_cons_self
    rw [addAll_cons, hi fun e he => h e (List.mem_cons_of_mem _ he)]
    simp only [getD_add, Finset.sum_add_distrib, Finset.sum_ite_eq', if_pos he, List.map_cons, List.sum_cons, add_assoc]

end Counts
