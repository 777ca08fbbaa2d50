import ProxyBroker.Resumption.Loop

variable {S : Signature} {σ α : Type}

-- A program that is executed for its result, and what it has done so far.
structure Ongoing (S : Signature) (α : Type) where
  done : Trace S
  rest : Prog S α

namespace Ongoing

def start (p : Prog S α) : Ongoing S α where
  done := []
  rest := p

inductive Moves : Ongoing S α → Event S → Ongoing S α → Prop
  | event {tr : Trace S} {o : S.Op} {k : S.Ret o → Prog S α} {r : S.Ret o} :
    Moves ⟨tr, .call o k⟩ ⟨o, r⟩ ⟨tr ++ [⟨o, r⟩], k r⟩

variable {m : Machine S σ} {service : Prog S Unit → Prop} {guard : Attended S σ (Ongoing S α) → Attended.Label S → Prop}
variable {p q : Prog S α} {x₀ : System S σ} {x : Attended S σ (Ongoing S α)} {ls : List (Attended.Label S)}

theorem runs (h : Attended.Run m service Moves guard ⟨x₀, start p⟩ ls x) : p.Runs x.actor.done x.actor.rest := by
  refine h.invariant (I := fun _ x => p.Runs x.actor.done x.actor.rest) .refl ?_
  intro _ x l y hi hl hs
  cases hs
  case spawn | other => exact hi
  case own hm ha =>
    cases hm
    exact hi.snoc _

-- What a program has done is what is labelled as its own.
theorem done_eq (h : Attended.Run m service Moves guard ⟨x₀, start p⟩ ls x) :
    x.actor.done = ls.filterMap fun
      | .own e => some e
      | _      => none := by
  refine h.invariant (I := fun ls x => x.actor.done = ls.filterMap _) rfl ?_
  intro ls x l y hi hg hs
  clear hg
  rw [List.filterMap_append, ← hi]
  cases hs
  case spawn | other => simp
  case own hm _ =>
    cases hm
    rfl

theorem own_mem (h : Attended.Run m service Moves guard ⟨x₀, start p⟩ ls x) {e : Event S} (he : e ∈ x.actor.done) :
    ∃ pre suf, ls = pre ++ .own e :: suf := by
  rw [done_eq h, List.mem_filterMap] at he
  obtain ⟨l, hl, he⟩ := he
  cases l <;> cases he
  exact List.append_of_mem hl

-- What everyone has done so far.
def traces (x : Attended S σ (Ongoing S α)) : List (Trace S) :=
  x.actor.done :: x.system.threads.map Thread.trace

theorem performed (h : Attended.Run m service Moves guard ⟨x₀, start p⟩ ls x) :
    ∀ e ∈ Attended.events ls, ∃ tr ∈ traces x, e ∈ tr := by
  have kept {x y : System S σ} {u v : Ongoing S α} {e : Event S}
      (hs : ∀ t ∈ x.threads, ∃ t' ∈ y.threads, t.trace <+: t'.trace) (hu : u.done <+: v.done)
      (he : ∃ tr ∈ traces ⟨x, u⟩, e ∈ tr) : ∃ tr ∈ traces ⟨y, v⟩, e ∈ tr := by
    obtain ⟨tr, ht, he⟩ := he
    rcases List.mem_cons.mp ht with rfl | ht
    · exact ⟨_, List.mem_cons_self, hu.subset he⟩
    · obtain ⟨t, hm, rfl⟩ := List.mem_map.mp ht
      obtain ⟨t', ht', hp⟩ := hs t hm
      exact ⟨_, List.mem_cons_of_mem _ (List.mem_map_of_mem ht'), hp.subset he⟩
  refine h.invariant (I := fun ls x => ∀ e ∈ Attended.events ls, ∃ tr ∈ traces x, e ∈ tr) (by simp [Attended.events]) ?_
  intro ls x l y hi hl hs e he
  clear hl
  rw [Attended.events, List.filterMap_append, List.mem_append] at he
  rcases he with he | he
  case inl =>
    cases hs
    case spawn h => exact kept (fun _ => h.kept) List.prefix_rfl (hi e he)
    case other h => exact kept (fun _ => h.kept) List.prefix_rfl (hi e he)
    case own hm _ =>
      refine kept (fun t ht => ⟨t, ht, List.prefix_rfl⟩) ?_ (hi e he)
      cases hm
      exact List.prefix_append ..
  case inr =>
    cases hs
    case spawn => cases he
    case other h =>
      cases List.mem_singleton.mp he
      obtain ⟨t, ht, hm⟩ := h.performed
      exact ⟨_, List.mem_cons_of_mem _ (List.mem_map_of_mem ht), hm⟩
    case own hm _ =>
      cases List.mem_singleton.mp he
      cases hm
      exact ⟨_, List.mem_cons_self, by simp⟩

theorem serving (h : Attended.Run m service Moves guard ⟨x₀, start p⟩ ls x) (h₀ : x₀.Serving service) :
    x.system.Serving service := by
  refine h.invariant (I := fun _ x => x.system.Serving service) h₀ ?_
  intro ls x l y hi hl hs
  clear hl
  cases hs
  case spawn h => exact hi.step h
  case other h => exact hi.step h
  case own     => exact hi

-- The program can go on by itself.
theorem exec {s s' : σ} {ts : List (Thread S)} {done tr : Trace S}
    (h : Attended.Run m service Moves guard ⟨x₀, start p⟩ ls ⟨⟨s, ts⟩, ⟨done, q⟩⟩) {q' : Prog S α}
    (he : m.Exec s q tr s' q')
    (hg : ∀ pre e suf x, tr = pre ++ e :: suf → x.actor.done = done ++ pre → guard x (.own e)) :
    Attended.Run m service Moves guard ⟨x₀, start p⟩ (ls ++ tr.map .own) ⟨⟨s', ts⟩, ⟨done ++ tr, q'⟩⟩ := by
  induction he generalizing ls done
  case refl => simpa using h
  case call s s₁ s' o k r tr q' ha _ hi =>
    have h' := h.step (hg [] ⟨o, r⟩ tr ⟨⟨s, ts⟩, ⟨done, .call o k⟩⟩ rfl (by simp)) (.own .event ha)
    have := hi h' fun pre e suf x ht hx => hg (⟨o, r⟩ :: pre) e suf x (by simp [ht]) (by simp [hx])
    simpa using this

-- What the guard ensures about the events of the program.
theorem own_events (h : Attended.Run m service Moves guard ⟨x₀, start p⟩ ls x) {P : Trace S → Event S → Prop}
    (hg : ∀ x e s', guard x (.own e) → m.answers x.system.shared e s' → P x.actor.done e) {pre suf : Trace S}
    {e : Event S} (hd : x.actor.done = pre ++ e :: suf) : P pre e := by
  refine h.invariant (I := fun _ x => ∀ pre e suf, x.actor.done = pre ++ e :: suf → P pre e) ?_ ?_ pre e suf hd
  · intro pre e suf hd
    simp [start] at hd
  · intro _ x l y hi hl hs pre e suf hd
    cases hs
    case spawn | other => exact hi pre e suf hd
    case own hm ha =>
      cases hm
      case event tr o k r =>
        rcases suf.eq_nil_or_concat with rfl | ⟨suf, e', rfl⟩
        · obtain ⟨rfl, he⟩ := List.append_inj' hd rfl
          cases he
          exact hg _ _ _ hl ha
        · rw [List.concat_eq_append, ← List.cons_append, ← List.append_assoc] at hd
          exact hi pre e suf (List.append_inj' hd rfl).left

end Ongoing
