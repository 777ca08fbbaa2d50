import ProxyBroker.Resumption.System
import Mathlib.Data.List.Forall2
import Mathlib.Data.Option.Basic

variable {S : Signature} {σ U V U' V' α : Type}

-- A main program that starts tasks, which share a state with it. What the main program and the tasks do
-- is given by two automata. The state can also be changed from the outside.
structure Nursery (S : Signature) (σ U V : Type) where
  machine : Machine S σ
  main    : U → Event S → U → Prop
  task    : V → Event S → V → Prop
  starts  : S.Op → Option V
  outside : σ → σ → Prop

namespace Nursery

inductive Actor
  | main
  | task (i : Nat)
  deriving DecidableEq

-- Who has done what.
abbrev Log (S : Signature) :=
  List (Actor × Event S)

-- Tasks are identified by the order in which they are started. They remain after they have completed.
structure Config (σ U V : Type) where
  shared : σ
  main   : U
  tasks  : List V

variable (n : Nursery S σ U V)

inductive Step : Config σ U V → Option (Actor × Event S) → Config σ U V → Prop
  | main {s s' : σ} {u u' : U} {vs : List V} {e : Event S} :
    n.main u e u' → n.machine.answers s e s' →
    Step ⟨s, u, vs⟩ (some (.main, e)) ⟨s', u', vs ++ (n.starts e.op).toList⟩
  | task {s s' : σ} {u : U} {vs : List V} {i : Nat} {v v' : V} {e : Event S} :
    vs[i]? = some v → n.task v e v' → n.machine.answers s e s' →
    Step ⟨s, u, vs⟩ (some (.task i, e)) ⟨s', u, vs.set i v'⟩
  | outside {s s' : σ} {u : U} {vs : List V} :
    n.outside s s' → Step ⟨s, u, vs⟩ none ⟨s', u, vs⟩

inductive Run (x₀ : Config σ U V) : Log S → Config σ U V → Prop
  | refl : Run x₀ [] x₀
  | step {log : Log S} {x y : Config σ U V} {e : Option (Actor × Event S)} :
    Run x₀ log x → n.Step x e y → Run x₀ (log ++ e.toList) y

variable {n} {x₀ x y : Config σ U V} {log log₁ log₂ : Log S}

theorem Run.trans (h₁ : n.Run x₀ log₁ x) (h₂ : n.Run x log₂ y) : n.Run x₀ (log₁ ++ log₂) y := by
  induction h₂
  case refl => simpa using h₁
  case step hs hi =>
    rw [← List.append_assoc]
    exact hi.step hs

-- Every event of a run was performed in some state that the run has reached before, and from which it goes on.
theorem Run.before {e : Actor × Event S} (h : n.Run x₀ (log₁ ++ e :: log₂) x) :
    ∃ y z, n.Run x₀ log₁ y ∧ n.Step y (some e) z ∧ n.Run z log₂ x := by
  generalize hl : log₁ ++ e :: log₂ = log at h
  induction h generalizing log₂
  case refl => simp at hl
  case step log y z e' hr hs hi =>
    cases e'
    case none =>
      obtain ⟨y', z', hr', hs', hc⟩ := hi (by simpa using hl)
      exact ⟨y', z', hr', hs', by simpa using hc.step hs⟩
    case some e' =>
      rcases List.eq_nil_or_concat log₂ with rfl | ⟨log₂, e₂, rfl⟩
      · obtain ⟨rfl, he⟩ := List.append_inj' hl rfl
        cases he
        exact ⟨y, z, hr, hs, .refl⟩
      · have hl : (log₁ ++ e :: log₂) ++ [e₂] = log ++ [e'] := by simpa using hl
        obtain ⟨hp, he⟩ := List.append_inj' hl rfl
        cases he
        obtain ⟨y', z', hr', hs', hc⟩ := hi hp
        exact ⟨y', z', hr', hs', List.concat_eq_append ▸ hc.step hs⟩

-- The events of a single actor.
def Log.of (a : Actor) (log : Log S) : Trace S :=
  log.filterMap fun e => if e.1 = a then some e.2 else none

-- What the tasks have done of a certain kind.
def Log.tally (pick : Event S → Option α) (log : Log S) : List (Nat × α) :=
  log.filterMap fun e =>
    match e.1 with
    | .main   => none
    | .task i => (pick e.2).map (i, ·)

namespace Log

variable {a b : Actor} {e : Event S} {i : Nat} {pick : Event S → Option α}

@[simp]
theorem of_nil : of a ([] : Log S) = [] :=
  rfl

theorem of_append : of a (log₁ ++ log₂) = of a log₁ ++ of a log₂ :=
  List.filterMap_append

@[simp]
theorem of_snoc_self : of a (log ++ [(a, e)]) = of a log ++ [e] := by
  simp [of]

theorem of_snoc_ne (h : b ≠ a) : of a (log ++ [(b, e)]) = of a log := by
  simp [of, h]

@[simp]
theorem tally_nil : tally pick ([] : Log S) = [] :=
  rfl

theorem tally_append : tally pick (log₁ ++ log₂) = tally pick log₁ ++ tally pick log₂ :=
  List.filterMap_append

@[simp]
theorem tally_snoc_main : tally pick (log ++ [(.main, e)]) = tally pick log := by
  simp [tally]

theorem tally_snoc_task : tally pick (log ++ [(.task i, e)]) = tally pick log ++ ((pick e).map (i, ·)).toList := by
  cases h : pick e <;> simp [tally, h]

theorem map_tally_snoc_task :
    (tally pick (log ++ [(.task i, e)])).map Prod.snd = (tally pick log).map Prod.snd ++ (pick e).toList := by
  rw [tally_snoc_task]
  cases pick e <;> simp

theorem tally_of : (tally pick log).filterMap (fun c => if c.1 = i then some c.2 else none) =
    (of (.task i) log).filterMap pick := by
  induction log
  case nil => rfl
  case cons e log hi =>
    rw [← List.singleton_append, tally_append, of_append, List.filterMap_append, List.filterMap_append, hi]
    congr 1
    obtain ⟨a, e⟩ := e
    cases a
    case main => simp [tally, of]
    case task j =>
      by_cases hj : j = i
      · cases h : pick e <;> simp [tally, of, hj, h]
      · cases h : pick e <;> simp [tally, of, hj, h]

theorem mem_tally {x : α} : (i, x) ∈ tally pick log ↔ x ∈ (of (.task i) log).filterMap pick := by
  rw [← tally_of]
  simp only [List.mem_filterMap]
  constructor
  · exact fun h => ⟨_, h, by simp⟩
  · rintro ⟨⟨j, y⟩, h, hj⟩
    split_ifs at hj with hi
    cases hi
    cases hj
    exact h

-- Every task contributes at most once if it has done so at most once itself.
theorem tally_nodup (h : ∀ i, ((of (.task i) log).filterMap pick).length ≤ 1) :
    ((tally pick log).map Prod.fst).Nodup := by
  refine List.nodup_iff_count.mpr fun i => ?_
  refine Nat.le_trans (Nat.le_of_eq ?_) (h i)
  rw [← tally_of, List.count_eq_countP, List.countP_map, List.countP_eq_length_filter]
  induction tally pick log
  case nil => rfl
  case cons c cs hi => by_cases hc : c.1 = i <;> simp [hc, hi]

end Log

section Simulation

-- How two descriptions of the same main program and the same tasks are related.
structure Simulation (n : Nursery S σ U V) (n' : Nursery S σ U' V') (R : U → U' → Prop) (T : V → V' → Prop) :
    Prop where
  machine : n'.machine = n.machine
  outside : n'.outside = n.outside
  main    : ∀ u u' e w, R u u' → n.main u e w →
    Option.Rel T (n.starts e.op) (n'.starts e.op) ∧ ∃ w', n'.main u' e w' ∧ R w w'
  task    : ∀ v v' e w, T v v' → n.task v e w → ∃ w', n'.task v' e w' ∧ T w w'

structure Related (R : U → U' → Prop) (T : V → V' → Prop) (x : Config σ U V) (x' : Config σ U' V') : Prop where
  shared : x'.shared = x.shared
  main   : R x.main x'.main
  tasks  : x.tasks.Forall₂ T x'.tasks

variable {n' : Nursery S σ U' V'} {R : U → U' → Prop} {T : V → V' → Prop} {x₀' x' : Config σ U' V'}

theorem forall₂_getElem? {vs : List V} {vs' : List V'} {i : Nat} {v : V} (h : vs.Forall₂ T vs')
    (hv : vs[i]? = some v) : ∃ v', vs'[i]? = some v' ∧ T v v' := by
  induction h generalizing i
  case nil => simp at hv
  case cons v₁ v₁' vs vs' h₁ _ hi =>
    cases i
    case zero =>
      cases hv
      exact ⟨v₁', rfl, h₁⟩
    case succ i => exact hi hv

theorem forall₂_set {vs : List V} {vs' : List V'} {i : Nat} {v : V} {v' : V'} (h : vs.Forall₂ T vs')
    (hv : T v v') : (vs.set i v).Forall₂ T (vs'.set i v') := by
  induction h generalizing i
  case nil => exact .nil
  case cons h₁ h hi =>
    cases i
    case zero   => exact .cons hv h
    case succ i => exact .cons h₁ hi

theorem forall₂_toList {v : Option V} {v' : Option V'} (h : Option.Rel T v v') :
    v.toList.Forall₂ T v'.toList := by
  cases h
  case some h => exact .cons h .nil
  case none   => exact .nil

theorem Simulation.step (h : Simulation n n' R T) {e : Option (Actor × Event S)} (hs : n.Step x e y)
    (hx : Related R T x x') : ∃ y', n'.Step x' e y' ∧ Related R T y y' := by
  obtain ⟨s, u', vs'⟩ := x'
  cases hs
  case main s' u w vs e hm ha =>
    obtain ⟨rfl, hu, ht⟩ := hx
    obtain ⟨ho, w', hm', hw⟩ := h.main u u' e w hu hm
    exact ⟨_, .main hm' (h.machine ▸ ha), rfl, hw, List.rel_append ht (forall₂_toList ho)⟩
  case task s' u vs i v w e hv hm ha =>
    obtain ⟨rfl, hu, ht⟩ := hx
    obtain ⟨v', hv', hr⟩ := forall₂_getElem? ht hv
    obtain ⟨w', hm', hw⟩ := h.task v v' e w hr hm
    exact ⟨_, .task hv' hm' (h.machine ▸ ha), rfl, hu, forall₂_set ht hw⟩
  case outside s' u vs ho =>
    obtain ⟨rfl, hu, ht⟩ := hx
    exact ⟨_, .outside (h.outside ▸ ho), rfl, hu, ht⟩

theorem Simulation.run (h : Simulation n n' R T) (hr : n.Run x₀ log x) (hx : Related R T x₀ x₀') :
    ∃ x', n'.Run x₀' log x' ∧ Related R T x x' := by
  induction hr
  case refl => exact ⟨x₀', .refl, hx⟩
  case step hs hi =>
    obtain ⟨x', hr, hx⟩ := hi
    obtain ⟨y', hs, hy⟩ := h.step hs hx
    exact ⟨y', hr.step hs, hy⟩

end Simulation
end Nursery

namespace Prog

-- What a program does by itself.
inductive Performs : Prog S Unit → Event S → Prog S Unit → Prop
  | call {o : S.Op} {k : S.Ret o → Prog S Unit} {r : S.Ret o} : Performs (.call o k) ⟨o, r⟩ (k r)

-- An automaton keeps up with a program, whatever the answers to its operations are. It is in a final state
-- when the program has returned, but not before.
def Follows (moves : V → Event S → V → Prop) (final : V → Prop) : Prog S Unit → V → Prop
  | ret _, v    => final v
  | call o k, v => ¬final v ∧ ∀ r, ∃ w, moves v ⟨o, r⟩ w ∧ Follows moves final (k r) w

section

variable {moves : V → Event S → V → Prop} {final : V → Prop} {p q : Prog S Unit} {v : V} {e : Event S}

theorem Follows.performs (h : p.Follows moves final v) (hp : p.Performs e q) :
    ∃ w, moves v e w ∧ q.Follows moves final w := by
  cases hp
  case call r => exact h.right r

theorem Follows.ret_of_final (h : p.Follows moves final v) (hv : final v) : p = .ret () := by
  cases p
  case ret    => rfl
  case call k => exact absurd hv h.left

end
end Prog
