import ProxyBroker.Resumption.Run

variable {S : Signature} {α β M : Type}

-- A monitor observes the events of a program. It demands something of each operation at the moment
-- it is issued, and moves to a new state once the operation has been answered.
structure Monitor (S : Signature) (M : Type) where
  demand : M → S.Op → Prop
  next   : M → Event S → M

namespace Monitor

variable (m : Monitor S M)

def after : M → Trace S → M
  | s, []      => s
  | s, e :: tr => after (m.next s e) tr

@[simp]
theorem after_nil (s : M) : m.after s [] = s :=
  rfl

@[simp]
theorem after_cons (s : M) (e : Event S) (tr : Trace S) :
    m.after s (e :: tr) = m.after (m.next s e) tr :=
  rfl

@[simp]
theorem after_append (s : M) (tr₁ tr₂ : Trace S) :
    m.after s (tr₁ ++ tr₂) = m.after (m.after s tr₁) tr₂ := by
  induction tr₁ generalizing s
  case nil        => rfl
  case cons e _ hi => exact hi _

-- The demand of the monitor is met at every event of the trace.
def Accepts : M → Trace S → Prop
  | _, []      => True
  | s, e :: tr => m.demand s e.op ∧ Accepts (m.next s e) tr

@[simp]
theorem accepts_append (s : M) (tr₁ tr₂ : Trace S) :
    m.Accepts s (tr₁ ++ tr₂) ↔ m.Accepts s tr₁ ∧ m.Accepts (m.after s tr₁) tr₂ := by
  induction tr₁ generalizing s
  case nil         => simp [Accepts]
  case cons e _ hi => simp [Accepts, hi, and_assoc]

-- The monitor whose state is the trace so far.
def history (demand : Trace S → S.Op → Prop) : Monitor S (Trace S) where
  demand := demand
  next tr e := tr ++ [e]

@[simp]
theorem history_demand (d : Trace S → S.Op → Prop) (tr : Trace S) (o : S.Op) :
    (history d).demand tr o = d tr o :=
  rfl

@[simp]
theorem history_next (d : Trace S → S.Op → Prop) (tr : Trace S) (e : Event S) :
    (history d).next tr e = tr ++ [e] :=
  rfl

theorem history_after (d : Trace S → S.Op → Prop) (tr tr' : Trace S) :
    (history d).after tr tr' = tr ++ tr' := by
  induction tr' generalizing tr
  case nil         => simp
  case cons e _ hi => simp [hi]

-- The monitor that demands the same of every operation.
def only (P : S.Op → Prop) : Monitor S Unit where
  demand _ := P
  next _ _ := ()

end Monitor

namespace Prog

-- `p.Sat m post s` means that no matter how the operations of `p` are answered, `p` meets the demands
-- of the monitor `m` started in `s`, and that `post` holds for its result and the state of `m` if it
-- completes.
def Sat (m : Monitor S M) : Prog S α → (α → M → Prop) → M → Prop
  | ret a,    post, s => post a s
  | call o k, post, s => m.demand s o ∧ ∀ r, Sat m (k r) post (m.next s ⟨o, r⟩)

variable {m : Monitor S M} {p q : Prog S α} {post post' : α → M → Prop} {s : M}

@[simp]
theorem sat_ret (a : α) : Sat m (ret a) post s ↔ post a s :=
  Iff.rfl

@[simp]
theorem sat_call (o : S.Op) (k : S.Ret o → Prog S α) :
    Sat m (call o k) post s ↔ m.demand s o ∧ ∀ r, Sat m (k r) post (m.next s ⟨o, r⟩) :=
  Iff.rfl

@[simp]
theorem sat_perform (o : S.Op) (post : S.Ret o → M → Prop) :
    Sat m (perform o) post s ↔ m.demand s o ∧ ∀ r, post r (m.next s ⟨o, r⟩) :=
  Iff.rfl

@[simp]
theorem sat_bind (f : α → Prog S β) (post : β → M → Prop) :
    Sat m (p >>= f) post s ↔ Sat m p (fun a s => Sat m (f a) post s) s := by
  induction p generalizing s
  case ret a       => rfl
  case call o k hi => simp only [call_bind, sat_call, hi]

theorem Sat.mono (h : Sat m p post s) (hp : ∀ a s, post a s → post' a s) : Sat m p post' s := by
  induction p generalizing s
  case ret a       => exact hp a s h
  case call o k hi => exact ⟨h.left, fun r => hi r <| h.right r⟩

-- A monitor that observes the same and demands less.
theorem Sat.weaken {m' : Monitor S M} (h : Sat m p post s) (hn : m'.next = m.next)
    (hd : ∀ s o, m.demand s o → m'.demand s o) : Sat m' p post s := by
  induction p generalizing s
  case ret a       => exact h
  case call o k hi => exact ⟨hd s o h.left, fun r => hn ▸ hi r (h.right r)⟩

section Abstraction

variable {M' : Type} {m' : Monitor S M'} {f : M' → M} (hn : ∀ s e, f (m'.next s e) = m.next (f s) e)
include hn

-- A monitor whose state can be computed from that of another one, and which demands less.
theorem Sat.abstract {post : α → M' → Prop} {s : M'} (hd : ∀ s o, m'.demand s o → m.demand (f s) o)
    (h : Sat m' p post s) : Sat m p (fun a t => ∃ s, f s = t ∧ post a s) (f s) := by
  induction p generalizing s
  case ret a       => exact ⟨s, rfl, h⟩
  case call o k hi => exact ⟨hd s o h.left, fun r => hn s ⟨o, r⟩ ▸ hi r (h.right r)⟩

-- What another monitor has found out in addition.
theorem Sat.and {post' : α → M' → Prop} {s : M'} (h : Sat m p post (f s)) (h' : Sat m' p post' s) :
    Sat m p (fun a t => post a t ∧ ∃ s, f s = t ∧ post' a s) (f s) := by
  induction p generalizing s
  case ret a       => exact ⟨h, s, rfl, h'⟩
  case call o k hi =>
    exact ⟨h.left, fun r => hn s ⟨o, r⟩ ▸ hi r (hn s ⟨o, r⟩ ▸ h.right r) (h'.right r)⟩

end Abstraction

theorem Sat.of_forall (hd : ∀ s o, m.demand s o) (hp : ∀ a s, post a s) : Sat m p post s := by
  induction p generalizing s
  case ret a       => exact hp a s
  case call o k hi => exact ⟨hd s o, fun r => hi r⟩

-- What has happened stays so.
theorem sat_history_mem {P : Event S → Prop} {tr : Trace S} (h : ∃ e ∈ tr, P e) :
    p.Sat (.history fun _ _ => True) (fun _ tr => ∃ e ∈ tr, P e) tr := by
  induction p generalizing tr
  case ret a => exact h
  case call o k hi =>
    obtain ⟨e, he, hp⟩ := h
    exact ⟨trivial, fun r => hi r ⟨e, List.mem_append_left _ he, hp⟩⟩

-- Every run of a program that satisfies a monitor leaves a program that satisfies the monitor in
-- the state that the run has moved it to.
theorem Sat.run {tr : Trace S} (h : Sat m p post s) (r : p.Runs tr q) :
    Sat m q post (m.after s tr) := by
  induction r generalizing s
  case refl    => exact h
  case call hi => exact hi <| h.right _

theorem Sat.accepts {tr : Trace S} (h : Sat m p post s) (r : p.Runs tr q) : m.Accepts s tr := by
  induction r generalizing s
  case refl    => trivial
  case call hi => exact ⟨h.left, hi <| h.right _⟩

theorem Sat.result {tr : Trace S} {a : α} (h : Sat m p post s) (r : p.Runs tr (.ret a)) :
    post a (m.after s tr) :=
  h.run r

theorem Sat.pending {tr : Trace S} {o : S.Op} {k : S.Ret o → Prog S α}
    (h : Sat m p post s) (r : p.Runs tr (.call o k)) : m.demand (m.after s tr) o :=
  (h.run r).left

-- All of the operations that `p` can ever issue satisfy `P`.
def Uses (P : S.Op → Prop) : Prog S α → Prop
  | ret _    => True
  | call o k => P o ∧ ∀ r, Uses P (k r)

namespace Uses

variable {P Q : S.Op → Prop}

@[simp]
theorem of_ret (a : α) : Uses P (ret a : Prog S α) :=
  trivial

@[simp]
theorem perform_iff (o : S.Op) : Uses P (perform o) ↔ P o :=
  ⟨And.left, fun h => ⟨h, fun _ => trivial⟩⟩

theorem bind {f : α → Prog S β} (h : p.Uses P) (hf : ∀ a, (f a).Uses P) : (p >>= f).Uses P := by
  induction p
  case ret a       => exact hf a
  case call o k hi => exact ⟨h.left, fun r => hi r <| h.right r⟩

theorem mono (h : p.Uses P) (hq : ∀ o, P o → Q o) : p.Uses Q := by
  induction p
  case ret a       => trivial
  case call o k hi => exact ⟨hq o h.left, fun r => hi r <| h.right r⟩

theorem of_run {tr : Trace S} (h : p.Uses P) (r : p.Runs tr q) : q.Uses P ∧ ∀ e ∈ tr, P e.op := by
  induction r
  case refl    => exact ⟨h, by simp⟩
  case call hi => simpa [h.left] using hi (h.right _)

-- A property of the monitor's state that all of the operations of `p` preserve is preserved by `p`.
theorem sat {Φ : M → Prop} (h : p.Uses P) (hd : ∀ s o, P o → Φ s → m.demand s o)
    (hn : ∀ s o r, P o → Φ s → Φ (m.next s ⟨o, r⟩)) (hs : Φ s) : Sat m p (fun _ => Φ) s := by
  induction p generalizing s
  case ret a       => exact hs
  case call o k hi => exact ⟨hd s o h.left hs, fun r => hi r (h.right r) (hn s o r h.left hs)⟩

-- A monitor that allows all of these operations and is not moved by any of them.
theorem sat_still (h : p.Uses P) (hd : ∀ o, P o → m.demand s o) (hn : ∀ o r, P o → m.next s ⟨o, r⟩ = s) :
    Sat m p (fun a s' => s' = s ∧ ∃ tr, p.Runs tr (.ret a)) s := by
  induction p
  case ret a => exact ⟨rfl, [], .refl⟩
  case call o k hi =>
    refine ⟨hd o h.left, fun r => ?_⟩
    rw [hn o r h.left]
    refine (hi r (h.right r)).mono ?_
    rintro a _ ⟨rfl, tr, hr⟩
    exact ⟨rfl, _, .call hr⟩

-- A program whose operations are all in order, and what it has done.
theorem sat_runs {d : Trace S → S.Op → Prop} (h : p.Uses P) (hd : ∀ tr o, P o → d tr o) (tr : Trace S) :
    Sat (.history d) p (fun a tr' => ∃ tr₁, tr' = tr ++ tr₁ ∧ p.Runs tr₁ (.ret a)) tr := by
  induction p generalizing tr
  case ret a => exact ⟨[], by simp, .refl⟩
  case call o k hi =>
    refine ⟨hd _ _ h.left, fun r => (hi r (h.right r) _).mono ?_⟩
    rintro a _ ⟨tr₁, rfl, hr⟩
    exact ⟨⟨o, r⟩ :: tr₁, by simp, .call hr⟩

theorem sat_only (h : p.Uses P) : Sat (.only P) p (fun _ _ => True) () :=
  h.sat (fun _ _ h _ => h) (fun _ _ _ _ h => h) trivial

end Uses

-- The demand of the monitor was met at every event of a run.
theorem Sat.issued {pre suf : Trace S} {e : Event S}
    (h : Sat m p post s) (r : p.Runs (pre ++ e :: suf) q) : m.demand (m.after s pre) e.op := by
  induction pre generalizing p s
  case nil =>
    cases r
    exact h.left
  case cons e' pre hi =>
    cases r
    case call r => exact hi (h.right _) r

end Prog
