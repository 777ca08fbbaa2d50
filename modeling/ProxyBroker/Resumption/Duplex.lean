import ProxyBroker.Resumption.Run

variable {S T : Signature} {α β γ : Type}

-- What the events of a program put into a connection, and what they take out of it.
structure Port (S : Signature) (γ : Type) where
  sends : Event S → List γ
  takes : Event S → List γ

namespace Port

variable (p : Port S γ) (tr tr' : Trace S) (e : Event S)

def sent : List γ :=
  tr.flatMap p.sends

def taken : List γ :=
  tr.flatMap p.takes

@[simp]
theorem sent_nil : p.sent [] = [] :=
  rfl

@[simp]
theorem taken_nil : p.taken [] = [] :=
  rfl

@[simp]
theorem sent_snoc : p.sent (tr ++ [e]) = p.sent tr ++ p.sends e := by
  simp [sent]

@[simp]
theorem taken_snoc : p.taken (tr ++ [e]) = p.taken tr ++ p.takes e := by
  simp [taken]

@[simp]
theorem sent_cons : p.sent (e :: tr) = p.sends e ++ p.sent tr :=
  rfl

@[simp]
theorem taken_cons : p.taken (e :: tr) = p.takes e ++ p.taken tr :=
  rfl

theorem sent_append : p.sent (tr ++ tr') = p.sent tr ++ p.sent tr' :=
  List.flatMap_append

theorem taken_append : p.taken (tr ++ tr') = p.taken tr ++ p.taken tr' :=
  List.flatMap_append

end Port

-- Two programs at the ends of a connection, and what is on its way in either direction.
structure Duplex (S T : Signature) (α β γ : Type) where
  left    : Prog S α
  right   : Prog T β
  toRight : List γ
  toLeft  : List γ

namespace Duplex

variable (p : Port S γ) (q : Port T γ)

-- Either program performs an event. What was put into the connection is taken out of it in order, but it can be
-- delayed for any amount of time.
inductive Run (x₀ : Duplex S T α β γ) : Trace S → Trace T → Duplex S T α β γ → Prop
  | refl : Run x₀ [] [] x₀
  | left {tr : Trace S} {tr' : Trace T} {o : S.Op} {k : S.Ret o → Prog S α} {r : S.Ret o} {c : Prog T β} {x y : List γ} :
    Run x₀ tr tr' ⟨.call o k, c, x, p.takes ⟨o, r⟩ ++ y⟩ →
    Run x₀ (tr ++ [⟨o, r⟩]) tr' ⟨k r, c, x ++ p.sends ⟨o, r⟩, y⟩
  | right {tr : Trace S} {tr' : Trace T} {o : T.Op} {k : T.Ret o → Prog T β} {r : T.Ret o} {c : Prog S α} {x y : List γ} :
    Run x₀ tr tr' ⟨c, .call o k, q.takes ⟨o, r⟩ ++ x, y⟩ →
    Run x₀ tr (tr' ++ [⟨o, r⟩]) ⟨c, k r, x, y ++ q.sends ⟨o, r⟩⟩

variable {p q} {x₀ x : Duplex S T α β γ} {tr : Trace S} {tr' : Trace T}

theorem Run.right_runs (h : Run p q x₀ tr tr' x) : x₀.right.Runs tr' x.right := by
  induction h
  case refl     => exact .refl
  case left hi  => exact hi
  case right hi => exact hi.snoc _

-- Nothing gets lost on the way.
theorem Run.toRight_eq (h : Run p q x₀ tr tr' x) : x₀.toRight ++ p.sent tr = q.taken tr' ++ x.toRight := by
  induction h
  case refl     => simp
  case left hi  => rw [p.sent_snoc, ← List.append_assoc, hi, List.append_assoc]
  case right hi => rw [hi, q.taken_snoc, List.append_assoc]

theorem Run.toLeft_eq (h : Run p q x₀ tr tr' x) : x₀.toLeft ++ q.sent tr' = p.taken tr ++ x.toLeft := by
  induction h
  case refl     => simp
  case left hi  => rw [hi, p.taken_snoc, List.append_assoc]
  case right hi => rw [q.sent_snoc, ← List.append_assoc, hi, List.append_assoc]

-- Either program can perform what it would on its own, as long as what it takes has arrived.
theorem Run.lefts {c c' : Prog S α} {d : Prog T β} {u v : List γ} {t : Trace S} (hc : c.Runs t c')
    (h : Run p q x₀ tr tr' ⟨c, d, u, p.taken t ++ v⟩) : Run p q x₀ (tr ++ t) tr' ⟨c', d, u ++ p.sent t, v⟩ := by
  induction hc generalizing tr u
  case refl    => simpa using h
  case call hi =>
    rw [p.taken_cons, List.append_assoc] at h
    have := hi h.left
    rwa [List.append_assoc, List.singleton_append, List.append_assoc, ← p.sent_cons] at this

theorem Run.rights {c : Prog S α} {d d' : Prog T β} {u v : List γ} {t : Trace T} (hd : d.Runs t d')
    (h : Run p q x₀ tr tr' ⟨c, d, q.taken t ++ u, v⟩) : Run p q x₀ tr (tr' ++ t) ⟨c, d', u, v ++ q.sent t⟩ := by
  induction hd generalizing tr' v
  case refl    => simpa using h
  case call hi =>
    rw [q.taken_cons, List.append_assoc] at h
    have := hi h.right
    rwa [List.append_assoc, List.singleton_append, List.append_assoc, ← q.sent_cons] at this

end Duplex
