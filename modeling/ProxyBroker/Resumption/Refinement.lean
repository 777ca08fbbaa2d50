import ProxyBroker.Resumption.Run
import Mathlib.Algebra.GroupWithZero.Nat

variable {S T : Signature} {α α' β β' : Type}

-- How a run carries out the events of a more abstract one: each of them stands for a segment of it, and what happens
-- between these segments is silent.
inductive Realizes (E : Event S → Trace T → Prop) (silent : Event T → Prop) : Trace S → Trace T → Prop
  | nil : Realizes E silent [] []
  | event {e : Event S} {seg : Trace T} {es : Trace S} {tr : Trace T} :
    E e seg → Realizes E silent es tr → Realizes E silent (e :: es) (seg ++ tr)
  | silent {e : Event T} {es : Trace S} {tr : Trace T} :
    silent e → Realizes E silent es tr → Realizes E silent es (e :: tr)

namespace Realizes

variable {E : Event S → Trace T → Prop} {silent : Event T → Prop} {es es' : Trace S} {tr tr' seg : Trace T}
variable {e : Event S}

theorem append (h : Realizes E silent es tr) (h' : Realizes E silent es' tr') :
    Realizes E silent (es ++ es') (tr ++ tr') := by
  induction h
  case nil => exact h'
  case event he _ hi =>
    rw [List.append_assoc]
    exact .event he hi
  case silent he _ hi => exact .silent he hi

theorem single (h : E e seg) : Realizes E silent [e] seg :=
  List.append_nil seg ▸ .event h .nil

theorem of_silent (h : ∀ e ∈ tr, silent e) : Realizes E silent [] tr := by
  induction tr
  case nil => exact .nil
  case cons hi =>
    obtain ⟨he, h⟩ := List.forall_mem_cons.mp h
    exact .silent he (hi h)

-- Every abstract event has a segment.
theorem exists_infix (h : Realizes E silent es tr) (he : e ∈ es) : ∃ seg, seg <:+: tr ∧ E e seg := by
  induction h
  case nil => cases he
  case event es tr ha _ hi =>
    rcases List.mem_cons.mp he with rfl | he
    · exact ⟨_, List.infix_append [] _ tr, ha⟩
    · obtain ⟨seg, hs, ha⟩ := hi he
      exact ⟨seg, hs.trans (List.suffix_append ..).isInfix, ha⟩
  case silent hi =>
    obtain ⟨seg, hs, ha⟩ := hi he
    exact ⟨seg, hs.trans (List.suffix_cons ..).isInfix, ha⟩

-- What the segments amount to, if what is silent does not count.
theorem sum_eq {f : Event S → Nat} {m : Trace T → Nat} (h : Realizes E silent es tr) (h₀ : m [] = 0)
    (hm : ∀ tr tr', m (tr ++ tr') = m tr + m tr') (hE : ∀ e seg, E e seg → m seg = f e) (hs : ∀ e, silent e → m [e] = 0) :
    m tr = (es.map f).sum := by
  induction h
  case nil => exact h₀
  case event he _ hi => rw [hm, hE _ _ he, hi, List.map_cons, List.sum_cons]
  case silent he _ hi => rw [← List.singleton_append, hm, hs _ he, hi, Nat.zero_add]

end Realizes

namespace Prog

-- `q.Refines E silent p R` means that whenever `q` completes, it has carried out a run by which `p` completes, with a
-- result that is related by `R`.
def Refines (E : Event S → Trace T → Prop) (silent : Event T → Prop) (q : Prog T β) (p : Prog S α) (R : α → β → Prop) :
    Prop :=
  ∀ tr b, q.Runs tr (.ret b) → ∃ es a, p.Runs es (.ret a) ∧ R a b ∧ Realizes E silent es tr

namespace Refines

variable {E : Event S → Trace T → Prop} {silent : Event T → Prop} {p : Prog S α} {q : Prog T β} {R : α → β → Prop}

theorem ret {a : α} {b : β} (h : R a b) : Refines E silent (.ret b) (.ret a) R := by
  intro tr b' hr
  obtain ⟨rfl, he⟩ := hr.ret_inv
  cases he
  exact ⟨[], a, .refl, h, .nil⟩

theorem bind {f : α → Prog S α'} {g : β → Prog T β'} {R' : α' → β' → Prop} (h : q.Refines E silent p R)
    (hf : ∀ a b, R a b → (g b).Refines E silent (f a) R') : (q >>= g).Refines E silent (p >>= f) R' := by
  intro tr b' hr
  obtain ⟨b, tr₁, tr₂, rfl, h₁, h₂⟩ := hr.of_bind_ret
  obtain ⟨es₁, a, ha, hab, he₁⟩ := h tr₁ b h₁
  obtain ⟨es₂, a', ha', hab', he₂⟩ := hf a b hab tr₂ b' h₂
  exact ⟨es₁ ++ es₂, a', ha.bind_ret ha', hab', he₁.append he₂⟩

-- A program that carries out a single abstract event.
theorem perform {o : S.Op} {R : S.Ret o → β → Prop} (h : ∀ tr b, q.Runs tr (.ret b) → ∃ r, E ⟨o, r⟩ tr ∧ R r b) :
    q.Refines E silent (Prog.perform o) R := by
  intro tr b hr
  obtain ⟨r, he, hb⟩ := h tr b hr
  exact ⟨[⟨o, r⟩], r, .call .refl, hb, .single he⟩

-- What happens before does not matter if it is silent.
theorem of_silent {α₀ : Type} {q₀ : Prog T α₀} {g : α₀ → Prog T β} (hq : ∀ tr b, q₀.Runs tr (.ret b) → ∀ e ∈ tr, silent e)
    (hg : ∀ tr b, q₀.Runs tr (.ret b) → (g b).Refines E silent p R) : (q₀ >>= g).Refines E silent p R := by
  intro tr b' hr
  obtain ⟨b, tr₁, tr₂, rfl, h₁, h₂⟩ := hr.of_bind_ret
  obtain ⟨es, a, ha, hab, he⟩ := hg tr₁ b h₁ tr₂ b' h₂
  exact ⟨es, a, ha, hab, (Realizes.of_silent (hq tr₁ b h₁)).append he⟩

end Refines
end Prog
