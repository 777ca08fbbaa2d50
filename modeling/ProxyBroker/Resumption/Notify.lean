import ProxyBroker.Resumption.System
import Mathlib.Logic.Relation

variable {S : Signature} {σ L M : Type}

-- A task with a purpose, and whether the future by which it waits has been notified already. A task has
-- at most one such future at a time.
structure Waiter (S : Signature) (L : Type) where
  label    : L
  code     : Prog S Unit
  notified : Bool

def Waiter.woken (t : Waiter S L) (b : Bool) : Waiter S L :=
  { t with notified := t.notified || b }

-- Tasks that wait for a `Notify`: some operations create a future, some operations await it, and some
-- operations notify all of the futures that exist at that time (no matter if they are awaited yet).
structure Notify (S : Signature) (σ L : Type) where
  machine : Machine S σ
  code    : L → Prog S Unit
  creates : S.Op → Bool
  awaits  : S.Op → Bool
  wakes   : σ → S.Op → Bool

namespace Notify

structure Config (S : Signature) (σ L : Type) where
  shared : σ
  tasks  : List (Waiter S L)

variable (n : Notify S σ L)

-- What becomes of the future of a task by an operation of that task.
def ticket (s : σ) (o : S.Op) (b : Bool) : Bool :=
  b && !n.creates o || n.wakes s o

-- What an event leaves behind, depending on whether it notifies everyone.
def Config.next (s' : σ) (w : Bool) (ts₁ : List (Waiter S L)) (t : Waiter S L) (ts₂ : List (Waiter S L)) :
    Config S σ L :=
  ⟨s', ts₁.map (·.woken w) ++ t :: ts₂.map (·.woken w)⟩

-- Tasks are spawned at any time, they interleave arbitrarily, and they can be dropped while they wait. A
-- task only continues after it has waited if its future was notified.
inductive Step : Config S σ L → Config S σ L → Prop
  | spawn {s : σ} {ts : List (Waiter S L)} (l : L) :
    Step ⟨s, ts⟩ ⟨s, ts ++ [⟨l, n.code l, false⟩]⟩
  | event {s s' : σ} {ts₁ ts₂ : List (Waiter S L)} {l : L} {o : S.Op} {r : S.Ret o}
    {k : S.Ret o → Prog S Unit} {b : Bool} :
    n.machine.answers s ⟨o, r⟩ s' → (n.awaits o → b) →
    Step ⟨s, ts₁ ++ ⟨l, .call o k, b⟩ :: ts₂⟩
      (.next s' (n.wakes s o) ts₁ ⟨l, k r, n.ticket s o b⟩ ts₂)
  | drop {s : σ} {ts₁ ts₂ : List (Waiter S L)} {l : L} {o : S.Op} {k : S.Ret o → Prog S Unit} {b : Bool} :
    n.awaits o → Step ⟨s, ts₁ ++ ⟨l, .call o k, b⟩ :: ts₂⟩ ⟨s, ts₁ ++ ts₂⟩

section

variable {n} {s s' : σ} {ts : List (Waiter S L)} {l : L} (o : S.Op) (r : S.Ret o) {k : S.Ret o → Prog S Unit}
variable {b : Bool}

theorem Step.first (h : n.machine.answers s ⟨o, r⟩ s') (hb : n.awaits o → b) :
    n.Step ⟨s, ⟨l, .call o k, b⟩ :: ts⟩ (.next s' (n.wakes s o) [] ⟨l, k r, n.ticket s o b⟩ ts) :=
  @Step.event S σ L n s s' [] ts l o r k b h hb

theorem Step.second {t : Waiter S L} (h : n.machine.answers s ⟨o, r⟩ s') (hb : n.awaits o → b) :
    n.Step ⟨s, t :: ⟨l, .call o k, b⟩ :: ts⟩ (.next s' (n.wakes s o) [t] ⟨l, k r, n.ticket s o b⟩ ts) :=
  @Step.event S σ L n s s' [t] ts l o r k b h hb

end

def Reachable (s₀ : σ) : Config S σ L → Prop :=
  Relation.ReflTransGen n.Step ⟨s₀, []⟩

-- Some task is about to notify everyone.
def Rousing (x : Config S σ L) : Prop :=
  ∃ t ∈ x.tasks, ∃ o k, t.code = .call o k ∧ ∀ s, n.wakes s o

-- How it can be told that no notification is missed. A monitor keeps track of what a task has found to be
-- missing since it has created its future, and whether the task is obliged to notify everyone next:
-- `reason l v s` means that something is there which was found to be missing.
structure Vigilance (n : Notify S σ L) (mon : L → Monitor S M) (armed : M → Prop)
    (reason : L → M → σ → Prop) : Prop where
  rouses : ∀ l v o, armed v → (mon l).demand v o → ∀ s, n.wakes s o
  fresh  : ∀ l v e s, n.creates e.op → ¬reason l ((mon l).next v e) s
  own    : ∀ l v e s s', (mon l).demand v e.op → n.machine.answers s e s' →
    reason l ((mon l).next v e) s' → armed ((mon l).next v e) ∨ n.wakes s e.op ∨ reason l v s
  others : ∀ l v e s s', (mon l).demand v e.op → n.machine.answers s e s' →
    armed ((mon l).next v e) ∨ n.wakes s e.op ∨ ∀ l' v', reason l' v' s' → reason l' v' s
  idle   : ∀ o, n.awaits o → ∃ s, n.wakes s o = false

variable {n} {mon : L → Monitor S M} {armed : M → Prop} {reason : L → M → σ → Prop} {v₀ : M}
variable {s₀ : σ} {x y : Config S σ L}

variable (n mon armed reason) in
-- What is known about every task.
def Watchful (x : Config S σ L) (t : Waiter S L) : Prop :=
  ∃ v, t.code.Sat (mon t.label) (fun _ v => ¬armed v) v ∧
    (t.notified = false → reason t.label v x.shared → n.Rousing x)

namespace Vigilance

variable (h : Vigilance n mon armed reason)

include h

-- A task that is obliged to notify everyone is about to do so.
theorem rousing {c : Prog S Unit} {l : L} {v : M} {ts₁ ts₂ : List (Waiter S L)} {s : σ} {b : Bool}
    (hc : c.Sat (mon l) (fun _ v => ¬armed v) v) (hv : armed v) :
    n.Rousing ⟨s, ts₁ ++ ⟨l, c, b⟩ :: ts₂⟩ := by
  cases c
  case ret      => exact absurd hv hc
  case call o k => exact ⟨⟨l, .call o k, b⟩, by simp, o, k, rfl, h.rouses l v o hv hc.left⟩

omit h in
-- A task that is about to notify everyone remains so until it does.
theorem rousing_event {s s' : σ} {ts₁ ts₂ : List (Waiter S L)} {l : L} {o : S.Op} {r : S.Ret o}
    {k : S.Ret o → Prog S Unit} {b : Bool} (hr : n.Rousing ⟨s, ts₁ ++ ⟨l, .call o k, b⟩ :: ts₂⟩)
    (hw : n.wakes s o = false) :
    n.Rousing (.next s' (n.wakes s o) ts₁ ⟨l, k r, n.ticket s o b⟩ ts₂) := by
  obtain ⟨t, ht, o', k', hc, ho⟩ := hr
  have hm (ts : List (Waiter S L)) (ht : t ∈ ts) : t.woken (n.wakes s o) ∈ ts.map (·.woken (n.wakes s o)) :=
    List.mem_map_of_mem ht
  simp only [List.mem_append, List.mem_cons] at ht
  rcases ht with ht | rfl | ht
  · exact ⟨_, List.mem_append_left _ (hm _ ht), o', k', hc, ho⟩
  · cases hc
    simp [ho] at hw
  · exact ⟨_, List.mem_append_right _ (List.mem_cons_of_mem _ (hm _ ht)), o', k', hc, ho⟩

theorem step (hs : n.Step x y) (h₀ : ∀ l, (n.code l).Sat (mon l) (fun _ v => ¬armed v) v₀)
    (hv : ∀ l s, ¬reason l v₀ s) (hx : ∀ t ∈ x.tasks, Watchful n mon armed reason x t) :
    ∀ t ∈ y.tasks, Watchful n mon armed reason y t := by
  intro t ht
  cases hs
  case spawn s ts l =>
    rcases List.mem_append.mp ht with ht | ht
    · obtain ⟨v, hc, hn⟩ := hx t ht
      refine ⟨v, hc, fun hb hr => ?_⟩
      obtain ⟨u, hu, hr⟩ := hn hb hr
      exact ⟨u, List.mem_append_left _ hu, hr⟩
    · cases List.mem_singleton.mp ht
      exact ⟨v₀, h₀ l, fun _ hr => absurd hr (hv l _)⟩
  case drop s ts₁ ts₂ l o k b ho =>
    obtain ⟨v, hc, hn⟩ := hx t (by simp at ht ⊢; tauto)
    refine ⟨v, hc, fun hb hr => ?_⟩
    obtain ⟨u, hu, o', k', hc, hw⟩ := hn hb hr
    refine ⟨u, ?_, o', k', hc, hw⟩
    simp only [List.mem_append, List.mem_cons] at hu ⊢
    rcases hu with hu | rfl | hu
    · exact .inl hu
    · cases hc
      obtain ⟨s, hs⟩ := h.idle _ ho
      simp [hw] at hs
    · exact .inr hu
  case event s s' ts₁ ts₂ l o r k b ha hb =>
    -- The task that performs the event.
    obtain ⟨v, hc, hn⟩ := hx ⟨l, .call o k, b⟩ (by simp)
    have hd : (mon l).demand v o := hc.left
    have hk := hc.right r
    -- The tasks that do not perform it.
    have other (u : Waiter S L) (hu : u ∈ ts₁ ++ ⟨l, .call o k, b⟩ :: ts₂) :
        Watchful n mon armed reason (.next s' (n.wakes s o) ts₁ ⟨l, k r, n.ticket s o b⟩ ts₂)
          (u.woken (n.wakes s o)) := by
      obtain ⟨vᵤ, hcᵤ, hnᵤ⟩ := hx u hu
      refine ⟨vᵤ, hcᵤ, fun hf hr => ?_⟩
      obtain ⟨hf, hw⟩ := Bool.or_eq_false_iff.mp hf
      rcases h.others l v ⟨o, r⟩ s s' hd ha with hv | hw' | ho
      · exact h.rousing hk hv
      · simp [hw] at hw'
      · exact rousing_event (hnᵤ hf (ho _ _ hr)) hw
    simp only [Config.next, List.mem_append, List.mem_cons, List.mem_map] at ht
    rcases ht with ⟨u, hu, rfl⟩ | rfl | ⟨u, hu, rfl⟩
    · exact other u (by simp [hu])
    · refine ⟨_, hk, fun hf hr => ?_⟩
      obtain ⟨hf, hw⟩ := Bool.or_eq_false_iff.mp hf
      have hcr : n.creates o = false := by
        by_contra hcr
        exact h.fresh l v ⟨o, r⟩ s' (by simpa using hcr) hr
      rcases h.own l v ⟨o, r⟩ s s' hd ha hr with hv | hw' | hr
      · exact h.rousing hk hv
      · simp [hw] at hw'
      · exact rousing_event (hn (by simpa [hcr] using hf) hr) hw
    · exact other u (by simp [hu])

theorem watchful (hs : n.Reachable s₀ x) (h₀ : ∀ l, (n.code l).Sat (mon l) (fun _ v => ¬armed v) v₀)
    (hv : ∀ l s, ¬reason l v₀ s) : ∀ t ∈ x.tasks, Watchful n mon armed reason x t := by
  induction hs
  case refl         => simp
  case tail _ hs hi => exact h.step hs h₀ hv hi

-- In every reachable state: if there is a reason for a task to be notified while it waits, then it was
-- notified, or everyone is about to be.
theorem rousing_of_waiting (hs : n.Reachable s₀ x)
    (h₀ : ∀ l, (n.code l).Sat (mon l) (fun _ v => ¬armed v) v₀) (hv : ∀ l s, ¬reason l v₀ s)
    {t : Waiter S L} (ht : t ∈ x.tasks) {o : S.Op} {k : S.Ret o → Prog S Unit} (hc : t.code = .call o k)
    (hn : t.notified = false) :
    ∃ v, (mon t.label).demand v o ∧ (reason t.label v x.shared → n.Rousing x) := by
  obtain ⟨v, hs, hr⟩ := h.watchful hs h₀ hv t ht
  rw [hc] at hs
  exact ⟨v, hs.left, hr hn⟩

end Vigilance

end Notify
