import ProxyBroker.Resumption.System

variable {S : Signature} {σ τ α β : Type}

-- `m.Trail R s p l s' q` means that `p` can perform the events in `l` while others change the state between
-- them as `R` permits. Every event is listed together with the state in which it takes place.
inductive Machine.Trail (m : Machine S σ) (R : σ → σ → Prop) :
    σ → Prog S α → List (σ × Event S) → σ → Prog S α → Prop
  | refl {s : σ} {p : Prog S α} : Trail m R s p [] s p
  | call {s s₁ s₂ s' : σ} {o : S.Op} {k : S.Ret o → Prog S α} {r : S.Ret o} {l : List (σ × Event S)} {q : Prog S α} :
    R s s₁ → m.answers s₁ ⟨o, r⟩ s₂ → Trail m R s₂ (k r) l s' q → Trail m R s (.call o k) ((s₁, ⟨o, r⟩) :: l) s' q

namespace Machine.Trail

variable {m : Machine S σ} {R : σ → σ → Prop} {s s' : σ} {p q : Prog S α} {l : List (σ × Event S)}

theorem of_bind {f : α → Prog S β} {b : β} (h : m.Trail R s (p >>= f) l s' (.ret b)) :
    ∃ a l₁ l₂ s₁, l = l₁ ++ l₂ ∧ m.Trail R s p l₁ s₁ (.ret a) ∧ m.Trail R s₁ (f a) l₂ s' (.ret b) := by
  induction p generalizing s l
  case ret a => exact ⟨a, [], l, s, rfl, .refl, h⟩
  case call o k hi =>
    cases h
    case call hr _ ha h =>
      obtain ⟨a, l₁, l₂, s₁, rfl, h₁, h₂⟩ := hi _ h
      exact ⟨a, _, l₂, s₁, rfl, .call hr ha h₁, h₂⟩

theorem of_ret {a : α} (h : m.Trail R s (.ret a) l s' q) : l = [] ∧ s' = s ∧ q = .ret a := by
  cases h
  exact ⟨rfl, rfl, rfl⟩

theorem uses {P : S.Op → Prop} (h : m.Trail R s p l s' q) (hp : p.Uses P) : ∀ x ∈ l, P x.2.op := by
  induction h
  case refl          => simp
  case call _ _ _ hi => exact List.forall_mem_cons.mpr ⟨hp.left, hi (hp.right _)⟩

theorem runs (h : m.Trail R s p l s' q) : p.Runs (l.map Prod.snd) q := by
  induction h
  case refl          => exact .refl
  case call _ _ _ hi => exact .call hi

theorem trans {s₁ s₂ : σ} {q' : Prog S α} {l' : List (σ × Event S)} (h : m.Trail R s p l s₁ q)
    (h' : m.Trail R s₁ q l' s₂ q') : m.Trail R s p (l ++ l') s₂ q' := by
  induction h
  case refl            => exact h'
  case call hr ha _ hi => exact .call hr ha (hi h')

theorem snoc {s₁ s₂ : σ} {o : S.Op} {k : S.Ret o → Prog S α} {r : S.Ret o} (h : m.Trail R s p l s' (.call o k))
    (hr : R s' s₁) (ha : m.answers s₁ ⟨o, r⟩ s₂) : m.Trail R s p (l ++ [(s₁, ⟨o, r⟩)]) s₂ (k r) :=
  h.trans (.call hr ha .refl)

-- What the state of a monitor and the events so far say about the state of the machine, be it that others change it.
theorem monitored {M : Type} {n : Monitor S M} {post : α → M → Prop} {x : M} {Φ : List (σ × Event S) → M → σ → Prop}
    (hr : ∀ l x s s', Φ l x s → R s s' → Φ l x s')
    (ha : ∀ l x s e s', Φ l x s → n.demand x e.op → m.answers s e s' → Φ (l ++ [(s, e)]) (n.next x e) s')
    (h : m.Trail R s p l s' q) (hp : p.Sat n post x) (hx : Φ [] x s) {pre suf : List (σ × Event S)} {a : σ × Event S}
    (hl : l = pre ++ a :: suf) : ∃ y, Φ pre y a.1 ∧ n.demand y a.2.op := by
  suffices ∀ l₀, Φ l₀ x s → ∃ y, Φ (l₀ ++ pre) y a.1 ∧ n.demand y a.2.op from this [] hx
  clear hx
  intro l₀ hx
  induction h generalizing x pre l₀
  case refl => simp at hl
  case call s s₁ s₂ s' o k r l q hs he _ hi =>
    have hx := hr _ _ _ _ hx hs
    cases pre
    case nil =>
      obtain ⟨rfl, -⟩ := List.cons.inj hl
      exact ⟨x, by rwa [List.append_nil], hp.left⟩
    case cons b pre =>
      rw [List.cons_append, List.cons.injEq] at hl
      obtain ⟨rfl, hl⟩ := hl
      have := hi (hp.right r) hl _ (ha _ _ _ _ _ hx hp.left he)
      rwa [List.append_assoc] at this

-- A program that nobody interferes with.
theorem of_exec {tr : Trace S} (h : m.Exec s p tr s' q) (hr : ∀ s, R s s) :
    ∃ l, m.Trail R s p l s' q ∧ l.map Prod.snd = tr := by
  induction h
  case refl => exact ⟨[], .refl, rfl⟩
  case call ha _ hi =>
    obtain ⟨l, h, rfl⟩ := hi
    exact ⟨_, .call (hr _) ha h, rfl⟩

-- What an observer sees who does not care about any of the operations.
theorem foldl_eq {P : S.Op → Prop} {next : τ → σ × Event S → τ} (h : m.Trail R s p l s' q) (hp : p.Uses P)
    (hn : ∀ t x, P x.2.op → next t x = t) (t : τ) : l.foldl next t = t := by
  have hl := h.uses hp
  clear h
  induction l generalizing t
  case nil => rfl
  case cons x l hi =>
    obtain ⟨hx, hl⟩ := List.forall_mem_cons.mp hl
    rw [List.foldl_cons, hn t x hx, hi t hl]

end Machine.Trail
