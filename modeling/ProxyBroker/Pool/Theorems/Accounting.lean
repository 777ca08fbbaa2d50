import ProxyBroker.Pool.Theorems.Services
import ProxyBroker.Pool.Theorems.State
import Mathlib.Data.Multiset.MapFold
import Mathlib.Tactic.Abel

open Pool Lease

namespace System

variable {σ : Type}

-- The proxies that are leased by the tasks of a system.
def leased (x : System Effects σ) : List Proxy :=
  (x.observations monitor none).filterMap (Option.map Lease.proxy)

variable {c : Config} {m : Machine Effects σ} {service : Async Unit → Prop}
variable {x y : System Effects σ} {e : Event Effects}

abbrev IsLeased (x : System Effects σ) : Prop :=
  x.Disciplined monitor (· = none) none

theorem isLeased_init (s : σ) : (System.mk s [] : System Effects σ).IsLeased := by
  simp [IsLeased, Disciplined]

theorem leased_spawn (h : Step m service x none y) : y.leased = x.leased := by
  simp [leased, observations_spawn h]

-- The proxies that an event leases or hands back are exactly what changes in the hands of all tasks.
-- Here, `f` is anything that the statistics about a proxy's use do not matter for.
theorem leased_event {β : Type} {f : Proxy → β} (hf : ∀ p, f p.ident = f p) (hx : x.IsLeased)
    (h : Step m service x (some e) y) :
    (x.leased.map f : Multiset β) + e.leases.toList.map f = y.leased.map f + e.returns.toList.map f := by
  obtain ⟨os₁, o, os₂, ho, ho', hd, -⟩ := hx.event_inv h
  have hi (h : Option Lease) : (idents h).map f = (h.map Lease.proxy).toList.map f := by
    cases h <;> simp [idents, hf]
  have hb := congrArg (List.map f) (balance_event hd)
  simp only [List.map_append, List.map_map, Function.comp_def, hf, hi] at hb
  have hb := congrArg (fun l : List β => (l : Multiset β)) hb
  simp only [← Multiset.coe_add] at hb
  have hm (os₁ os₂ : List (Option Lease)) (o : Option Lease) :
      (((os₁ ++ o :: os₂).filterMap (Option.map Lease.proxy)).map f : Multiset β) =
      (os₁.filterMap (Option.map Lease.proxy)).map f + (o.map Lease.proxy).toList.map f +
      (os₂.filterMap (Option.map Lease.proxy)).map f := by
    cases o <;> simp [List.filterMap_append, ← Multiset.coe_add, add_assoc]
  simp only [leased, ho, ho', hm]
  generalize (os₁.filterMap (Option.map Lease.proxy)).map f = A
  generalize (os₂.filterMap (Option.map Lease.proxy)).map f = B
  calc (A : Multiset β) + (o.map Lease.proxy).toList.map f + B + e.leases.toList.map f
    _ = A + B + ((o.map Lease.proxy).toList.map f + e.leases.toList.map f)           := by abel
    _ = A + B + (e.returns.toList.map f + ((next o e).map Lease.proxy).toList.map f) := by rw [hb]
    _ = A + ((next o e).map Lease.proxy).toList.map f + B + e.returns.toList.map f   := by abel

end System

namespace Pool

open System

section Answers

variable {β : Type} {c : Config} {s s' : State} {e : Event Effects} (f : Proxy → β)

theorem answers_add (h : (machine c).answers s e s') :
    (s'.proxies.map f : Multiset β) + e.leases.toList.map f + (deleting s e.op).map f =
    s.proxies.map f + (entering s e.op).map f := by
  have := Multiset.coe_eq_coe.mpr <| (answers_perm h).map f
  simpa only [List.map_append, ← Multiset.coe_add, add_assoc] using this

end Answers

variable {σ : Type}

-- A system in which the state of the pool is a part of what is shared.
structure Projects (m : Machine Effects σ) (c : Config) (π : σ → State) : Prop where
  answers {s s' : σ} {e : Event Effects} : m.answers s e s' → (machine c).answers (π s) e (π s')

theorem Projects.refl (c : Config) : Projects (machine c) c id :=
  ⟨id⟩

variable {c : Config} {m : Machine Effects σ} {service : Async Unit → Prop} {π : σ → State}
variable {x y : System Effects σ} {e : Event Effects}

-- Whatever an event does, the proxies which are in the pool or leased only change by those that are
-- handed back, deleted, or put into the pool.
theorem pooled_leased_event {β : Type} {f : Proxy → β} (hf : ∀ p, f p.ident = f p)
    (hm : Projects m c π) (hx : x.IsLeased) (h : Step m service x (some e) y) :
    ((π y.shared).proxies.map f : Multiset β) + y.leased.map f +
      (e.returns.toList.map f + (deleting (π x.shared) e.op).map f) =
    (π x.shared).proxies.map f + x.leased.map f + (entering (π x.shared) e.op).map f := by
  obtain ⟨_, _, _, -, -, -, ha⟩ := hx.event_inv h
  have hp := answers_add f (hm.answers ha)
  have hl := leased_event hf hx h
  apply add_right_cancel (b := (e.leases.toList.map f : Multiset β))
  calc _
    _ = (((π y.shared).proxies.map f : Multiset β) + e.leases.toList.map f +
          (deleting (π x.shared) e.op).map f) + (y.leased.map f + e.returns.toList.map f) := by abel
    _ = ((π x.shared).proxies.map f + (entering (π x.shared) e.op).map f : Multiset β) +
          (x.leased.map f + e.leases.toList.map f) := by rw [hp, hl]
    _ = _ := by abel

-- What is handed back was leased.
theorem returned_mem_leased {β : Type} {f : Proxy → β} {p : Proxy} (hf : ∀ p, f p.ident = f p)
    (hx : x.IsLeased) (h : Step m service x (some e) y) (hr : e.returns = some p) : f p ∈ x.leased.map f := by
  have hl := leased_event hf hx h
  simp only [Lease.returns_leases hr, hr, Option.toList_none, List.map_nil, Multiset.coe_nil, add_zero] at hl
  rw [← Multiset.mem_coe, hl]
  simp

-- What is neither in the pool nor leased stays that way, unless it is put into the pool by someone who
-- has not leased it.
theorem absent_event {β : Type} {f : Proxy → β} {b : β} (hf : ∀ p, f p.ident = f p)
    (hm : Projects m c π) (hx : x.IsLeased)
    (hb : b ∉ ((π x.shared).proxies.map f : Multiset β) + x.leased.map f)
    (h : Step m service x (some e) y)
    (he : ∀ p ∈ entering (π x.shared) e.op, e.returns = some p ∨ f p ≠ b) :
    b ∉ ((π y.shared).proxies.map f : Multiset β) + y.leased.map f := by
  intro hy
  have hs := pooled_leased_event hf hm hx h
  replace hy := hs ▸ Multiset.mem_add.mpr (.inl hy)
  rcases Multiset.mem_add.mp hy with hy | hy
  · exact hb hy
  · obtain ⟨p, hp, rfl⟩ := List.mem_map.mp (Multiset.mem_coe.mp hy)
    rcases he p hp with hr | hn
    · exact hb <| Multiset.mem_add.mpr <| .inr <| returned_mem_leased hf hx h hr
    · exact hn rfl

end Pool
