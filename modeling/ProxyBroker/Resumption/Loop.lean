import ProxyBroker.Resumption.Nursery

variable {S : Signature} {σ τ U : Type}

-- A loop whose body is a program that returns the state for the next iteration, or `none` to leave the
-- loop. This is how far an iteration has come: the state with which it has begun, what it has done since,
-- and what is left of it.
structure Iteration (S : Signature) (τ : Type) where
  state : τ
  done  : Trace S
  rest  : Prog S (Option τ)

namespace Iteration

variable (body : τ → Prog S (Option τ))

def begin (t : τ) : Iteration S τ where
  state := t
  done  := []
  rest  := body t

-- An iteration that has ended gives way to the next one. There is none after the loop was left.
def settle (t : τ) (tr : Trace S) : Prog S (Option τ) → Option (Iteration S τ)
  | .ret none      => none
  | .ret (some t') => begin body t'
  | .call o k      => some ⟨t, tr, .call o k⟩

inductive Moves : Option (Iteration S τ) → Event S → Option (Iteration S τ) → Prop
  | event {t : τ} {tr : Trace S} {o : S.Op} {k : S.Ret o → Prog S (Option τ)} {r : S.Ret o} :
    Moves (some ⟨t, tr, .call o k⟩) ⟨o, r⟩ (settle body t (tr ++ [⟨o, r⟩]) (k r))

-- The events of a loop, no matter how its operations are answered.
inductive Runs (t₀ : τ) : Trace S → Option (Iteration S τ) → Prop
  | refl : Runs t₀ [] (begin body t₀)
  | step {tr : Trace S} {i i' : Option (Iteration S τ)} {e : Event S} :
    Runs t₀ tr i → Moves body i e i' → Runs t₀ (tr ++ [e]) i'

variable {body} in
theorem Runs.event {t t₀ : τ} {tr tr' : Trace S} {o : S.Op} {k : S.Ret o → Prog S (Option τ)}
    (h : Runs body t₀ tr (some ⟨t, tr', .call o k⟩)) (r : S.Ret o) :
    Runs body t₀ (tr ++ [⟨o, r⟩]) (settle body t (tr' ++ [⟨o, r⟩]) (k r)) :=
  h.step .event

section Contract

-- What the body demands of each operation, depending on what it has done before, and what it returns.
variable (demand : τ → Trace S → S.Op → Prop) (post : τ → Option τ → Trace S → Prop)

def Sound (i : Iteration S τ) : Prop :=
  i.rest.Sat (.history (demand i.state)) (post i.state) i.done

variable {body demand post} {i : Iteration S τ} {i' : Option (Iteration S τ)} {e : Event S} {t t₀ : τ} {tr : Trace S}

-- An event of a sound iteration meets the demand. Either it is going to be followed by another one in the
-- same iteration, or the iteration ends as promised.
theorem Sound.move (h : i.Sound demand post) (hm : Moves body (some i) e i') :
    demand i.state i.done e.op ∧
    ((∃ j, i' = some j ∧ j.Sound demand post ∧ j.state = i.state ∧ j.done = i.done ++ [e] ∧
        ∃ o, demand i.state (i.done ++ [e]) o) ∨
      (i' = none ∧ post i.state none (i.done ++ [e])) ∨
      ∃ t, i' = some (begin body t) ∧ post i.state (some t) (i.done ++ [e])) := by
  cases hm
  case event t tr o k r =>
    refine ⟨h.left, ?_⟩
    have hr : (k r).Sat (.history (demand t)) (post t) (tr ++ [⟨o, r⟩]) := h.right r
    cases hk : k r
    case ret a =>
      rw [hk] at hr
      cases a
      case none    => exact .inr (.inl ⟨rfl, hr⟩)
      case some t' => exact .inr (.inr ⟨t', rfl, hr⟩)
    case call o' k' =>
      rw [hk] at hr
      exact .inl ⟨⟨t, _, .call o' k'⟩, rfl, hr, rfl, rfl, o', hr.left⟩

theorem Sound.moves (h : i.Sound demand post) (hb : ∀ t, (begin body t).Sound demand post)
    (hm : Moves body (some i) e i') : ∀ j, i' = some j → j.Sound demand post := by
  rintro j rfl
  obtain ⟨_, ⟨_, hj, hs, _⟩ | ⟨hj, _⟩ | ⟨t, hj, _⟩⟩ := h.move hm
  · cases hj
    exact hs
  · cases hj
  · cases hj
    exact hb t

theorem Runs.sound (h : Runs body t₀ tr i') (hb : ∀ t, (begin body t).Sound demand post) :
    ∀ j, i' = some j → j.Sound demand post := by
  induction h
  case refl =>
    rintro _ ⟨⟩
    exact hb t₀
  case step i i' e hr hm hi =>
    cases i
    case none   => cases hm
    case some i => exact (hi i rfl).moves hb hm

-- An invariant of the states with which iterations begin.
theorem Runs.invariant {I : τ → Prop} (h : Runs body t₀ tr i') (hb : ∀ t, (begin body t).Sound demand post)
    (h₀ : I t₀) (hi : ∀ t u tr, I t → post t (some u) tr → I u) : ∀ j, i' = some j → I j.state := by
  induction h
  case refl =>
    rintro _ ⟨⟩
    exact h₀
  case step i i' e hr hm ih =>
    cases i
    case none   => cases hm
    case some i =>
      rintro j rfl
      obtain ⟨_, ⟨_, hj, _, hs, _⟩ | ⟨hj, _⟩ | ⟨t, hj, hp⟩⟩ := (hr.sound hb i rfl).move hm
      · cases hj
        exact hs ▸ ih i rfl
      · cases hj
      · cases hj
        exact hi _ t _ (ih i rfl) hp

end Contract

section Follows

variable {body} {final : Option (Iteration S τ) → Prop}

theorem begin_eq_settle {t : τ} (h : ∀ a, body t ≠ .ret a) : some (begin body t) = settle body t [] (body t) := by
  cases hb : body t
  case ret a    => exact absurd hb (h a)
  case call o k => simp only [begin, hb, settle]

-- A program that goes on with the rest of an iteration, and then with a loop.
theorem settle_follows {d : Trace S → S.Op → Prop} {p : Prog S (Option τ)} {k : Option τ → Prog S Unit} {t : τ}
    {tr : Trace S} (hn : k none = .ret ())
    (hs : p.Sat (.history d)
      (fun t' _ => ∀ u, t' = some u → (k (some u)).Follows (Moves body) (· = none) (some (begin body u))) tr) :
    (p >>= k).Follows (Moves body) (· = none) (settle body t tr p) := by
  induction p generalizing tr
  case ret a =>
    cases a
    case none =>
      show (k none).Follows _ _ none
      rw [hn]
      exact rfl
    case some u => exact hs u rfl
  case call o k' hi => exact ⟨nofun, fun r => ⟨_, .event, hi r (hs.right r)⟩⟩

-- Every run of a program that a loop keeps up with is a run of the loop.
theorem Runs.follow {p q : Prog S Unit} {i : Option (Iteration S τ)} {tr tr' : Trace S} {t₀ : τ}
    (h : Runs body t₀ tr i) (hf : p.Follows (Moves body) final i) (hp : p.Runs tr' q) :
    ∃ j, Runs body t₀ (tr ++ tr') j ∧ q.Follows (Moves body) final j := by
  induction hp generalizing i tr
  case refl => exact ⟨i, by rwa [List.append_nil], hf⟩
  case call o k r tr' q _ hi =>
    obtain ⟨j, hm, hj⟩ := hf.right r
    obtain ⟨j', hr, hf⟩ := hi (h.step hm) hj
    exact ⟨j', by rwa [List.append_assoc] at hr, hf⟩

end Follows
end Iteration

-- The threads of a system, next to which someone else works on the shared state.
structure Attended (S : Signature) (σ U : Type) where
  system : System S σ
  actor  : U

namespace Attended

inductive Label (S : Signature)
  | spawn
  | other (e : Event S)
  | own (e : Event S)

def Label.event : Label S → Option (Event S)
  | spawn           => none
  | other e | own e => some e

-- The events of a run, no matter who performs them.
def events (ls : List (Label S)) : Trace S :=
  ls.filterMap Label.event

variable (m : Machine S σ) (service : Prog S Unit → Prop) (moves : U → Event S → U → Prop)

inductive Step : Attended S σ U → Label S → Attended S σ U → Prop
  | spawn {x y : System S σ} {u : U} :
    System.Step m service x none y → Step ⟨x, u⟩ .spawn ⟨y, u⟩
  | other {x y : System S σ} {u : U} {e : Event S} :
    System.Step m service x (some e) y → Step ⟨x, u⟩ (.other e) ⟨y, u⟩
  | own {s s' : σ} {ts : List (Thread S)} {u u' : U} {e : Event S} :
    moves u e u' → m.answers s e s' → Step ⟨⟨s, ts⟩, u⟩ (.own e) ⟨⟨s', ts⟩, u'⟩

-- A run all of whose steps comply with the given guard.
inductive Run (guard : Attended S σ U → Label S → Prop) (x₀ : Attended S σ U) :
    List (Label S) → Attended S σ U → Prop
  | refl : Run guard x₀ [] x₀
  | step {tr : List (Label S)} {x y : Attended S σ U} {l : Label S} :
    Run guard x₀ tr x → guard x l → Step m service moves x l y → Run guard x₀ (tr ++ [l]) y

section Rules

variable {m service moves} {guard : Attended S σ U → Label S → Prop} {x₀ x : Attended S σ U} {tr : List (Label S)}

-- An invariant may be about what has happened so far.
theorem Run.invariant {I : List (Label S) → Attended S σ U → Prop} (h : Run m service moves guard x₀ tr x)
    (h₀ : I [] x₀) (hs : ∀ tr x l y, I tr x → guard x l → Step m service moves x l y → I (tr ++ [l]) y) :
    I tr x := by
  induction h
  case refl          => exact h₀
  case step _ hg h i => exact hs _ _ _ _ i hg h

theorem Run.takes (h : Run m service moves guard x₀ tr x) : m.Takes x₀.system.shared (events tr) x.system.shared := by
  refine h.invariant (I := fun tr x => m.Takes x₀.system.shared (events tr) x.system.shared) .refl ?_
  intro tr x l y hi hg hs
  clear hg
  rw [events, List.filterMap_append]
  cases hs
  case spawn h =>
    rw [h.shared_spawn]
    exact (List.append_nil (events tr)).symm ▸ hi
  case other h  => exact hi.step h.answers
  case own ha   => exact hi.step ha

-- The continuations of a run.
theorem Run.continue (_ : Run m service moves guard x₀ tr x) (guard' : Attended S σ U → Label S → Prop) :
    Run m service moves guard' x [] x :=
  .refl

theorem Run.congr {y : System S σ} {u u' : U} (h : Run m service moves guard x₀ tr ⟨y, u⟩) (hu : u = u') :
    Run m service moves guard x₀ tr ⟨y, u'⟩ :=
  hu ▸ h

-- What the others can do among themselves, they can also do while someone attends to them.
theorem Run.others {g : System S σ → Event S → Prop} {y z : System S σ} {u : U} {tr' : Trace S}
    (h : Run m service moves (fun _ _ => True) x₀ tr ⟨y, u⟩) (hr : System.Run m service g y tr' z) :
    ∃ ls, Run m service moves (fun _ _ => True) x₀ (tr ++ ls) ⟨z, u⟩ ∧
      ∀ l ∈ ls, l = .spawn ∨ ∃ e ∈ tr', l = .other e := by
  induction hr generalizing tr
  case refl => exact ⟨[], by rwa [List.append_nil], by simp⟩
  case spawn hs _ hi =>
    obtain ⟨ls, hr, hl⟩ := hi (h.step trivial (.spawn hs))
    rw [List.append_assoc] at hr
    refine ⟨_, hr, ?_⟩
    simpa using hl
  case event e _ hs _ _ hi =>
    obtain ⟨ls, hr, hl⟩ := hi (h.step trivial (.other hs))
    rw [List.append_assoc] at hr
    refine ⟨_, hr, ?_⟩
    intro l hm
    rcases List.mem_cons.mp hm with rfl | hm
    · exact .inr ⟨e, List.mem_cons_self, rfl⟩
    · rcases hl l hm with hl | ⟨e', he, hl⟩
      · exact .inl hl
      · exact .inr ⟨e', List.mem_cons_of_mem _ he, hl⟩

-- Someone else can attend to the others in the same way.
theorem Run.simulate {U' : Type} {moves' : U' → Event S → U' → Prop} {R : U → U' → Prop} {y : System S σ} {u : U}
    {u' : U'} (h : Run m service moves (fun _ _ => True) ⟨y, u⟩ tr x) (hu : R u u')
    (hm : ∀ u u' e w, R u u' → moves u e w → ∃ w', moves' u' e w' ∧ R w w') :
    ∃ w', Run m service moves' (fun _ _ => True) ⟨y, u'⟩ tr ⟨x.system, w'⟩ ∧ R x.actor w' := by
  induction h
  case refl => exact ⟨u', .refl, hu⟩
  case step h₀ _ hs hi =>
    obtain ⟨v, hr, hv⟩ := hi
    cases hs
    case spawn h => exact ⟨v, hr.step trivial (.spawn h), hv⟩
    case other h => exact ⟨v, hr.step trivial (.other h), hv⟩
    case own h ha =>
      obtain ⟨w, hw, hr'⟩ := hm _ _ _ _ hv h
      exact ⟨w, hr.step trivial (.own hw ha), hr'⟩

-- The next event of a loop that attends to the others.
theorem Run.loop {body : τ → Prog S (Option τ)} {guard : Attended S σ (Option (Iteration S τ)) → Label S → Prop}
    {x₀ : Attended S σ (Option (Iteration S τ))} {s s' : σ} {ts : List (Thread S)} {t : τ} {done : Trace S} {o : S.Op}
    {k : S.Ret o → Prog S (Option τ)}
    (h : Run m service (Iteration.Moves body) guard x₀ tr ⟨⟨s, ts⟩, some ⟨t, done, .call o k⟩⟩) (r : S.Ret o)
    (ha : m.answers s ⟨o, r⟩ s') (hg : guard ⟨⟨s, ts⟩, some ⟨t, done, .call o k⟩⟩ (.own ⟨o, r⟩)) :
    Run m service (Iteration.Moves body) guard x₀ (tr ++ [.own ⟨o, r⟩])
      ⟨⟨s', ts⟩, Iteration.settle body t (done ++ [⟨o, r⟩]) (k r)⟩ :=
  h.step hg (.own .event ha)

end Rules
end Attended
