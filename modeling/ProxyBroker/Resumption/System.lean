import ProxyBroker.Resumption.Monitor

variable {S : Signature} {σ α M : Type}

-- How a shared state answers the operations of programs: `answers s e s'` means that the operation of
-- `e` can be answered as in `e` when the state is `s`, and that the state is `s'` afterwards.
structure Machine (S : Signature) (σ : Type) where
  answers : σ → Event S → σ → Prop

-- `m.Exec s p tr s' q` means that `p` can perform the events `tr` when it is the only program that
-- the machine answers to.
inductive Machine.Exec (m : Machine S σ) : σ → Prog S α → Trace S → σ → Prog S α → Prop
  | refl {s : σ} {p : Prog S α} : Exec m s p [] s p
  | call {s s' s'' : σ} {o : S.Op} {k : S.Ret o → Prog S α} {r : S.Ret o} {tr : Trace S}
    {q : Prog S α} :
    m.answers s ⟨o, r⟩ s' → Exec m s' (k r) tr s'' q → Exec m s (.call o k) (⟨o, r⟩ :: tr) s'' q

namespace Machine.Exec

variable {m : Machine S σ} {β : Type} {s s' s'' : σ} {p q : Prog S α} {tr tr₁ tr₂ : Trace S}

theorem runs (h : m.Exec s p tr s' q) : p.Runs tr q := by
  induction h
  case refl        => exact .refl
  case call _ _ hi => exact .call hi

theorem trans {q' : Prog S α} (h₁ : m.Exec s p tr₁ s' q) (h₂ : m.Exec s' q tr₂ s'' q') :
    m.Exec s p (tr₁ ++ tr₂) s'' q' := by
  induction h₁
  case refl        => exact h₂
  case call h _ hi => exact .call h (hi h₂)

theorem bind (h : m.Exec s p tr s' q) (f : α → Prog S β) : m.Exec s (p >>= f) tr s' (q >>= f) := by
  induction h
  case refl        => exact .refl
  case call h _ hi => exact .call h hi

theorem bind_ret {a : α} {f : α → Prog S β} {q : Prog S β} (h₁ : m.Exec s p tr₁ s' (.ret a))
    (h₂ : m.Exec s' (f a) tr₂ s'' q) : m.Exec s (p >>= f) (tr₁ ++ tr₂) s'' q :=
  (h₁.bind f).trans h₂

-- A run that completes `p >>= f` completes `p` first.
theorem of_bind {f : α → Prog S β} {b : β} (h : m.Exec s (p >>= f) tr s'' (.ret b)) :
    ∃ a tr₁ tr₂ s', tr = tr₁ ++ tr₂ ∧ m.Exec s p tr₁ s' (.ret a) ∧ m.Exec s' (f a) tr₂ s'' (.ret b) := by
  induction p generalizing s tr
  case ret a => exact ⟨a, [], tr, s, rfl, .refl, h⟩
  case call o k hi =>
    cases h
    case call ha h =>
      obtain ⟨a, tr₁, tr₂, s', rfl, h₁, h₂⟩ := hi _ h
      exact ⟨a, _, tr₂, s', rfl, .call ha h₁, h₂⟩

theorem of_ret {a : α} (h : m.Exec s (.ret a) tr s' q) : tr = [] ∧ s' = s ∧ q = .ret a := by
  cases h
  exact ⟨rfl, rfl, rfl⟩

-- A machine that has a single answer to every operation.
theorem unique {a b : α} (hm : ∀ {s o r₁ r₂ s₁ s₂}, m.answers s ⟨o, r₁⟩ s₁ → m.answers s ⟨o, r₂⟩ s₂ → r₁ = r₂ ∧ s₁ = s₂)
    (h₁ : m.Exec s p tr₁ s' (.ret a)) (h₂ : m.Exec s p tr₂ s'' (.ret b)) : a = b := by
  induction p generalizing s tr₁ tr₂
  case ret =>
    cases h₁
    cases h₂
    rfl
  case call o k hi =>
    cases h₁
    case call ha₁ h₁ =>
      cases h₂
      case call ha₂ h₂ =>
        obtain ⟨rfl, rfl⟩ := hm ha₁ ha₂
        exact hi _ h₁ h₂

-- A run whose events do not concern the machine.
theorem of_runs (h : p.Runs tr q) (ha : ∀ e ∈ tr, m.answers s e s) : m.Exec s p tr s q := by
  induction h
  case refl    => exact .refl
  case call hi => exact .call (ha _ List.mem_cons_self) (hi fun e he => ha e (List.mem_cons_of_mem _ he))

-- A property of the machine's state that all of the operations of `p` preserve is preserved by `p`.
theorem preserves {P : S.Op → Prop} {Φ : σ → Prop} (h : m.Exec s p tr s' q) (hp : p.Uses P)
    (hs : Φ s) (ha : ∀ s o r s', P o → Φ s → m.answers s ⟨o, r⟩ s' → Φ s') : Φ s' := by
  induction h
  case refl => exact hs
  case call h _ hi => exact hi (hp.right _) (ha _ _ _ _ hp.left hs h)

end Machine.Exec

-- What happens to the state of a machine, no matter who performs the events.
inductive Machine.Takes (m : Machine S σ) (s₀ : σ) : Trace S → σ → Prop
  | refl : Takes m s₀ [] s₀
  | step {tr : Trace S} {s s' : σ} {e : Event S} :
    Takes m s₀ tr s → m.answers s e s' → Takes m s₀ (tr ++ [e]) s'

namespace Machine.Takes

variable {m : Machine S σ} {s₀ s : σ} {tr pre suf : Trace S} {e : Event S}

-- An invariant may be about what has happened so far.
theorem invariant {I : Trace S → σ → Prop} (h : m.Takes s₀ tr s) (h₀ : I [] s₀)
    (hs : ∀ tr s e s', I tr s → m.answers s e s' → I (tr ++ [e]) s') : I tr s := by
  induction h
  case refl         => exact h₀
  case step _ ha hi => exact hs _ _ _ _ hi ha

-- The states before and after an event.
theorem around (h : m.Takes s₀ (pre ++ e :: suf) s) : ∃ s₁ s₂, m.Takes s₀ pre s₁ ∧ m.answers s₁ e s₂ := by
  generalize ht : pre ++ e :: suf = tr at h
  induction h generalizing suf
  case refl => simp at ht
  case step s₁ s₂ e' h ha hi =>
    rcases suf.eq_nil_or_concat with rfl | ⟨suf, e'', rfl⟩
    · obtain ⟨rfl, he⟩ := List.append_inj' ht rfl
      cases he
      exact ⟨s₁, s₂, h, ha⟩
    · rw [List.concat_eq_append, ← List.cons_append, ← List.append_assoc] at ht
      exact hi (List.append_inj' ht rfl).left

end Machine.Takes

-- A program that is being executed, and what it has done so far.
structure Thread (S : Signature) where
  trace : Trace S
  code  : Prog S Unit

structure System (S : Signature) (σ : Type) where
  shared : σ
  threads  : List (Thread S)

namespace System

variable (m : Machine S σ) (service : Prog S Unit → Prop)

-- Either a new task is spawned, or one of the threads performs an event. Any task can be next, so the
-- steps of the threads interleave arbitrarily.
inductive Step : System S σ → Option (Event S) → System S σ → Prop
  | spawn {s : σ} {ts : List (Thread S)} {p : Prog S Unit} :
    service p → Step ⟨s, ts⟩ none ⟨s, ts ++ [⟨[], p⟩]⟩
  | event {s s' : σ} {ts₁ ts₂ : List (Thread S)} {tr : Trace S} {o : S.Op} {r : S.Ret o}
    {k : S.Ret o → Prog S Unit} :
    m.answers s ⟨o, r⟩ s' →
    Step ⟨s, ts₁ ++ ⟨tr, .call o k⟩ :: ts₂⟩ (some ⟨o, r⟩) ⟨s', ts₁ ++ ⟨tr ++ [⟨o, r⟩], k r⟩ :: ts₂⟩

-- A run all of whose events comply with the given guard.
inductive Run (guard : System S σ → Event S → Prop) : System S σ → Trace S → System S σ → Prop
  | refl {x : System S σ} : Run guard x [] x
  | spawn {x y z : System S σ} {tr : Trace S} :
    Step m service x none y → Run guard y tr z → Run guard x tr z
  | event {x y z : System S σ} {e : Event S} {tr : Trace S} :
    Step m service x (some e) y → guard x e → Run guard y tr z → Run guard x (e :: tr) z

-- Arbitrary runs.
abbrev Runs : System S σ → Trace S → System S σ → Prop :=
  Run m service fun _ _ => True

section

variable {m service} {s s' : σ} {t : Thread S} {ts : List (Thread S)} {tr : Trace S} {o : S.Op}
variable {r : S.Ret o} {k : S.Ret o → Prog S Unit}

theorem Step.first (h : m.answers s ⟨o, r⟩ s') :
    Step m service ⟨s, ⟨tr, .call o k⟩ :: ts⟩ (some ⟨o, r⟩) ⟨s', ⟨tr ++ [⟨o, r⟩], k r⟩ :: ts⟩ :=
  @Step.event S σ m service s s' [] ts tr o r k h

theorem Step.second (h : m.answers s ⟨o, r⟩ s') :
    Step m service ⟨s, t :: ⟨tr, .call o k⟩ :: ts⟩ (some ⟨o, r⟩)
      ⟨s', t :: ⟨tr ++ [⟨o, r⟩], k r⟩ :: ts⟩ :=
  @Step.event S σ m service s s' [t] ts tr o r k h

end

variable {m service} {guard : System S σ → Event S → Prop} {x y z : System S σ} {tr : Trace S}

theorem Step.shared_spawn (h : Step m service x none y) : y.shared = x.shared := by
  cases h
  rfl

theorem Step.answers {e : Event S} (h : Step m service x (some e) y) : m.answers x.shared e y.shared := by
  cases h
  assumption

theorem Run.invariant {I : System S σ → Prop} (h : Run m service guard x tr y) (hx : I x)
    (hs : ∀ x y, I x → Step m service x none y → I y)
    (he : ∀ x e y, I x → guard x e → Step m service x (some e) y → I y) : I y := by
  induction h
  case refl            => exact hx
  case spawn h _ hi    => exact hi <| hs _ _ hx h
  case event h hg _ hi => exact hi <| he _ _ _ hx hg h

theorem Run.trans {tr' : Trace S} (h₁ : Run m service guard x tr y) (h₂ : Run m service guard y tr' z) :
    Run m service guard x (tr ++ tr') z := by
  induction h₁
  case refl             => exact h₂
  case spawn hs _ hi    => exact .spawn hs (hi h₂)
  case event hs hg _ hi => exact .event hs hg (hi h₂)

theorem Run.takes {s₀ : σ} {tr₀ : Trace S} (h : Run m service guard x tr y) (h₀ : m.Takes s₀ tr₀ x.shared) :
    m.Takes s₀ (tr₀ ++ tr) y.shared := by
  induction h generalizing tr₀
  case refl          => rwa [List.append_nil]
  case spawn h _ hi  => exact hi (h.shared_spawn ▸ h₀)
  case event h _ _ hi => simpa using hi (h₀.step h.answers)

-- A single thread can go on by itself.
theorem Run.of_exec {s s' : σ} {tr₀ : Trace S} {p q : Prog S Unit} (h : m.Exec s p tr s' q) :
    Run m service (fun _ _ => True) ⟨s, [⟨tr₀, p⟩]⟩ tr ⟨s', [⟨tr₀ ++ tr, q⟩]⟩ := by
  induction h generalizing tr₀
  case refl => simpa using .refl
  case call o k r tr q ha _ hi =>
    have := @hi (tr₀ ++ [⟨o, r⟩])
    rw [List.append_assoc] at this
    exact .event (.first ha) trivial this

-- What a thread has done is kept.
theorem Step.kept {e : Option (Event S)} (h : Step m service x e y) {t : Thread S} (ht : t ∈ x.threads) :
    ∃ t' ∈ y.threads, t.trace <+: t'.trace := by
  cases h
  case spawn => exact ⟨t, List.mem_append_left _ ht, List.prefix_rfl⟩
  case event =>
    simp only [List.mem_append, List.mem_cons] at ht
    rcases ht with ht | rfl | ht
    · exact ⟨t, by simp [ht], List.prefix_rfl⟩
    · exact ⟨_, List.mem_append_right _ List.mem_cons_self, List.prefix_append ..⟩
    · exact ⟨t, by simp [ht], List.prefix_rfl⟩

theorem Step.performed {e : Event S} (h : Step m service x (some e) y) : ∃ t ∈ y.threads, e ∈ t.trace := by
  cases h
  exact ⟨_, List.mem_append_right _ List.mem_cons_self, by simp⟩

-- Every thread executes a service.
def Serving (service : Prog S Unit → Prop) (x : System S σ) : Prop :=
  ∀ t ∈ x.threads, ∃ p, service p ∧ p.Runs t.trace t.code

theorem Serving.step {e : Option (Event S)} (h : Serving service x) (hs : Step m service x e y) : Serving service y := by
  cases hs
  case spawn p hp =>
    intro t ht
    rcases List.mem_append.mp ht with ht | ht
    · exact h t ht
    · cases List.mem_singleton.mp ht
      exact ⟨p, hp, .refl⟩
  case event o r k _ =>
    intro t ht
    simp only [List.mem_append, List.mem_cons] at ht
    rcases ht with ht | rfl | ht
    · exact h t (by simp [ht])
    · obtain ⟨p, hp, hr⟩ := h ⟨_, .call o k⟩ (List.mem_append_right _ List.mem_cons_self)
      exact ⟨p, hp, hr.snoc r⟩
    · exact h t (by simp [ht])

theorem Serving.run (h : Serving service x) (hr : Run m service guard x tr y) : Serving service y :=
  hr.invariant h (fun _ _ h hs => h.step hs) (fun _ _ _ h _ hs => h.step hs)

section Disciplined

variable (d : Monitor S M) (post : M → Prop) (s₀ : M)

-- What a monitor has observed of each of the threads.
def observations (x : System S σ) : List M :=
  x.threads.map fun t => d.after s₀ t.trace

-- All threads have met the demands of a monitor, and will continue to do so. The threads that have
-- completed satisfy `post`.
def Disciplined (x : System S σ) : Prop :=
  ∀ t ∈ x.threads, d.Accepts s₀ t.trace ∧ t.code.Sat d (fun _ => post) (d.after s₀ t.trace)

variable {d post s₀}

theorem Disciplined.spawn (h : Disciplined d post s₀ x) (hs : Step m service x none y)
    (hp : ∀ p, service p → p.Sat d (fun _ => post) s₀) : Disciplined d post s₀ y := by
  cases hs
  case spawn p hp' =>
    intro t ht
    rcases List.mem_append.mp ht with ht | ht
    · exact h t ht
    · cases List.mem_singleton.mp ht
      exact ⟨trivial, hp p hp'⟩

theorem Disciplined.event {e : Event S} (h : Disciplined d post s₀ x) (hs : Step m service x (some e) y) :
    Disciplined d post s₀ y := by
  cases hs
  case event ts₁ ts₂ tr o r k _ =>
    have ⟨ha, hc⟩ := h ⟨tr, .call o k⟩ (by simp)
    intro t ht
    simp only [List.mem_append, List.mem_cons] at ht
    rcases ht with ht | rfl | ht
    · exact h t (by simp [ht])
    · exact ⟨by simpa [Monitor.Accepts] using ⟨ha, hc.left⟩, by simpa using hc.right r⟩
    · exact h t (by simp [ht])

theorem Disciplined.run (h : Disciplined d post s₀ x) (hr : Run m service guard x tr y)
    (hp : ∀ p, service p → p.Sat d (fun _ => post) s₀) : Disciplined d post s₀ y :=
  hr.invariant h (fun _ _ h hs => h.spawn hs hp) (fun _ _ _ h _ hs => h.event hs)

theorem observations_spawn (hs : Step m service x none y) :
    observations d s₀ y = observations d s₀ x ++ [s₀] := by
  cases hs
  case spawn => simp [observations]

-- An event changes what is observed of a single task, and it complies with what has been observed.
theorem Disciplined.event_inv {e : Event S} (h : Disciplined d post s₀ x)
    (hs : Step m service x (some e) y) :
    ∃ os₁ o os₂, observations d s₀ x = os₁ ++ o :: os₂ ∧
      observations d s₀ y = os₁ ++ d.next o e :: os₂ ∧
      d.demand o e.op ∧ m.answers x.shared e y.shared := by
  cases hs
  case event ts₁ ts₂ tr o r k ha =>
    have ⟨_, hc⟩ := h ⟨tr, .call o k⟩ (by simp)
    refine ⟨ts₁.map fun t => d.after s₀ t.trace, d.after s₀ tr, ts₂.map fun t => d.after s₀ t.trace, ?_⟩
    exact ⟨by simp [observations], by simp [observations], hc.left, ha⟩

end Disciplined
end System
