import ProxyBroker.Broker.Theorems.Permits

namespace CheckStream

open Nursery

-- What a task has achieved so far.
structure Ledger where
  completed : List Proxy
  recorded  : List Proxy
  observed  : List Proxy
  slots     : List Nat
  emitted   : List Proxy

def ledger (tr : Trace Ops) : Ledger where
  completed := tr.filterMap completion
  recorded  := tr.filterMap recording
  observed  := tr.filterMap observation
  slots     := tr.filterMap slot
  emitted   := tr.filterMap emission

def Ledger.empty : Ledger :=
  ⟨[], [], [], [], []⟩

def Ledger.add (l : Ledger) (e : Event Ops) : Ledger where
  completed := l.completed ++ (completion e).toList
  recorded  := l.recorded ++ (recording e).toList
  observed  := l.observed ++ (observation e).toList
  slots     := l.slots ++ (slot e).toList
  emitted   := l.emitted ++ (emission e).toList

variable (c : Params)

def Params.observed (q : Proxy) : List Proxy :=
  if c.onChecked then [q] else []

-- The check of the `i`-th proxy `p` finds that it works, and what becomes of `p` is to be emitted.
def Params.Yields (i : Nat) (p q : Proxy) : Prop :=
  outcome c i p = (true, q) ∧ c.caps.passes q = true

-- The ways in which the check of the `i`-th proxy `p` can end.
inductive Final (s : State) (i : Nat) (p : Proxy) : Ledger → Prop
  | aborted : s.cancelled → Final s i p .empty
  | dismissed {w : Bool} {q : Proxy} :
    outcome c i p = (w, q) → ¬c.Emits w q → Final s i p ⟨[q], [q], c.observed q, [], []⟩
  | unsent {q : Proxy} {n : Nat} :
    c.Yields i p q → c.Reached n ∨ s.closed → Final s i p ⟨[q], [q], c.observed q, [n], []⟩
  | sent {q : Proxy} {n : Nat} :
    c.Yields i p q → ¬c.Reached n → Final s i p ⟨[q], [q], c.observed q, [n], [q]⟩

-- What the check of the `i`-th proxy `p` has achieved by the time it reaches a stage.
inductive Past (s : State) (i : Nat) (p : Proxy) : Stage → Ledger → Prop
  | checking : Past s i p (.checking i p) .empty
  | checked {w : Bool} {q : Proxy} : outcome c i p = (w, q) → Past s i p (.checked w q) ⟨[q], [], [], [], []⟩
  | recorded {w : Bool} {q : Proxy} :
    outcome c i p = (w, q) → Past s i p (.recorded w q) ⟨[q], [q], [], [], []⟩
  | observed {w : Bool} {q : Proxy} :
    outcome c i p = (w, q) → Past s i p (.observed w q) ⟨[q], [q], c.observed q, [], []⟩
  | reserved {q : Proxy} {n : Nat} :
    c.Yields i p q → Past s i p (.reserved n q) ⟨[q], [q], c.observed q, [n], []⟩
  | sent {l : Ledger} {q : Proxy} {n : Nat} :
    l.slots = [n] → Final c s i p l → Past s i p (.sent n q) l
  | leaving {l : Ledger} : Final c s i p l → Past s i p .leaving l
  | finished {l : Ledger} : Final c s i p l → Past s i p .finished l

variable {c} {s s' : State} {i : Nat} {p : Proxy} {v v' : Stage} {l : Ledger} {e : Event Ops} {tr : Trace Ops}
variable {log : Log Ops} {x y : Config State Dispatch Stage}

theorem Final.mono (h : Final c s i p l) (hs : s.Grows s') : Final c s' i p l := by
  cases h
  case aborted h      => exact .aborted (hs.cancelled h)
  case dismissed h hn => exact .dismissed h hn
  case unsent h hn    => exact .unsent h (hn.imp_right hs.closed)
  case sent h hn      => exact .sent h hn

theorem Past.mono (h : Past c s i p v l) (hs : s.Grows s') : Past c s' i p v l := by
  cases h
  case checking     => exact .checking
  case checked h    => exact .checked h
  case recorded h   => exact .recorded h
  case observed h   => exact .observed h
  case reserved h   => exact .reserved h
  case sent hn h    => exact .sent hn (h.mono hs)
  case leaving h    => exact .leaving (h.mono hs)
  case finished h       => exact .finished (h.mono hs)

-- Nothing is achieved twice.
structure Ledger.Small (l : Ledger) : Prop where
  completed : l.completed.length ≤ 1
  recorded  : l.recorded.length ≤ 1
  observed  : l.observed.length ≤ 1
  slots     : l.slots.length ≤ 1
  emitted   : l.emitted.length ≤ 1

theorem Params.observed_length (q : Proxy) : (c.observed q).length ≤ 1 := by
  unfold observed
  split <;> simp

theorem Final.small (h : Final c s i p l) : l.Small := by
  cases h <;> constructor <;> simp [Ledger.empty, Params.observed_length]

theorem Past.small (h : Past c s i p v l) : l.Small := by
  cases h
  case sent _ h | leaving h | finished h => exact h.small
  all_goals constructor <;> simp [Ledger.empty, Params.observed_length]

theorem ledger_snoc : ledger (tr ++ [e]) = (ledger tr).add e := by
  have h {α : Type} (f : Event Ops → Option α) : [e].filterMap f = (f e).toList := by
    cases h : f e <;> simp [h]
  simp only [ledger, Ledger.add, List.filterMap_append, h]

-- The events that do not achieve anything by themselves.
theorem Ledger.add_cancel : l.add ⟨.cancel, ()⟩ = l := by
  simp [add, completion, recording, observation, slot, emission]

theorem Ledger.add_release : l.add ⟨.release, ()⟩ = l := by
  simp [add, completion, recording, observation, slot, emission]

theorem Ledger.add_fetchAdd {q : Proxy} {n : Nat} :
    (⟨[q], [q], c.observed q, [], []⟩ : Ledger).add ⟨.fetchAdd, n⟩ = ⟨[q], [q], c.observed q, [n], []⟩ := by
  simp [add, completion, recording, observation, slot, emission]

theorem Ledger.add_send {q : Proxy} {n : Nat} {b : Bool} :
    (⟨[q], [q], c.observed q, [n], []⟩ : Ledger).add ⟨.send q, b⟩ =
      ⟨[q], [q], c.observed q, [n], (cond b (some q) none).toList⟩ := by
  simp [add, completion, recording, observation, slot, emission]

-- An event takes a task to its next stage, and extends what it has achieved accordingly.
theorem Past.move (h : Past c s i p v l) (hm : Stage.Moves c v e v') (ha : Answers c s e s') :
    Past c s' i p v' (l.add e) := by
  cases hm
  case aborted =>
    cases h
    cases ha
    case aborted hc => exact .leaving (.aborted hc)
  case checked =>
    cases h
    cases ha
    case checked h => exact .checked h
  case recorded =>
    cases h
    case checked h => exact .recorded h
  case unobserved q w ho =>
    cases h
    case checked h =>
      have hq : c.observed q = [] := by simp [Params.observed, ho]
      have hp : Past c s' i p _ _ := .observed h
      rwa [hq] at hp
  case observed q w ho =>
    cases h
    case recorded h =>
      have hq : c.observed q = [q] := by simp [Params.observed, ho]
      have hp : Past c s' i p _ _ := .observed h
      rwa [hq] at hp
  case dismissed hn =>
    cases h
    case observed h =>
      rw [Ledger.add_release]
      exact .finished (.dismissed h hn)
  case reserved he =>
    cases h
    case observed h =>
      rw [Ledger.add_fetchAdd]
      exact .reserved ⟨h.trans (by rw [he.left]), he.right⟩
  case surplus hn =>
    cases h
    case reserved h =>
      rw [Ledger.add_cancel]
      exact .leaving (.unsent h (.inl hn))
  case sent hn =>
    cases h
    case reserved h =>
      rw [Ledger.add_send]
      cases ha
      case sent      => exact .sent rfl (.sent h hn)
      case unsent hc => exact .sent rfl (.unsent h (.inr hc))
  case last =>
    cases h
    case sent h _ =>
      rw [Ledger.add_cancel]
      exact .leaving (h.mono ha.grows)
  case more =>
    cases h
    case sent h _ =>
      rw [Ledger.add_release]
      exact .finished (h.mono ha.grows)
  case left =>
    cases h
    case leaving h =>
      rw [Ledger.add_release]
      exact .finished (h.mono ha.grows)

-- What everyone has achieved.
structure Told (c : Params) (log : Log Ops) (x : Config State Dispatch Stage) : Prop where
  past    : ∀ i v, x.tasks[i]? = some v →
    ∃ p, c.source[i]? = some p ∧ Past c x.shared i p v (ledger (log.of (.task i)))
  absent  : ∀ i, x.tasks.length ≤ i → log.of (.task i) = []

variable {u u' : Dispatch} {vs : List Stage}

theorem Told.main (h : Told c log ⟨s, u, vs⟩) (ht : Tidy c ⟨s, u, vs⟩) (hm : Dispatch.Moves c u e u')
    (ha : Answers c s e s') :
    Told c (log ++ [(.main, e)]) ⟨s', u', vs ++ (Stage.started e.op).toList⟩ := by
  have ho (i : Nat) : Log.of (.task i) (log ++ [(.main, e)]) = log.of (.task i) := Log.of_snoc_ne (by simp)
  have hg := ha.grows
  have old (i : Nat) (v : Stage) (hv : vs[i]? = some v) :
      ∃ p, c.source[i]? = some p ∧ Past c s' i p v (ledger (log.of (.task i))) := by
    obtain ⟨p, hp, hv⟩ := h.past i v hv
    exact ⟨p, hp, hv.mono hg⟩
  constructor
  case past =>
    intro i v hv
    rw [ho]
    by_cases hi : i < vs.length
    · rw [List.getElem?_append_left hi] at hv
      exact old i v hv
    -- The task that is about to start.
    · rw [List.getElem?_append_right (Nat.le_of_not_lt hi)] at hv
      cases hm
      case spawned j p =>
        obtain ⟨hj, hp⟩ : j = vs.length ∧ c.source[j]? = some p := ht.spawned
        obtain ⟨hz, rfl⟩ : i - vs.length = 0 ∧ Stage.checking j p = v := by
          simpa [Stage.started, List.getElem?_singleton] using hv
        obtain rfl : i = j := by omega
        refine ⟨p, hp, ?_⟩
        rw [h.absent i (Nat.le_of_not_lt hi)]
        exact .checking
      all_goals simp [Stage.started] at hv
  case absent =>
    intro i hi
    rw [ho]
    exact h.absent i (Nat.le_trans (by simp) hi)

theorem Told.task (h : Told c log ⟨s, u, vs⟩) (hv : vs[i]? = some v) (hm : Stage.Moves c v e v')
    (ha : Answers c s e s') : Told c (log ++ [(.task i, e)]) ⟨s', u, vs.set i v'⟩ := by
  constructor
  case past =>
    intro j w hw
    by_cases hj : i = j
    · subst hj
      obtain ⟨hi, rfl⟩ : i < vs.length ∧ v' = w := by simpa [List.getElem?_set] using hw
      obtain ⟨p, hp, hv⟩ := h.past i v hv
      refine ⟨p, hp, ?_⟩
      rw [Log.of_snoc_self, ledger_snoc]
      exact hv.move hm ha
    · rw [List.getElem?_set_ne hj] at hw
      obtain ⟨p, hp, hw⟩ := h.past j w hw
      refine ⟨p, hp, ?_⟩
      rw [Log.of_snoc_ne (by simpa using hj)]
      exact hw.mono ha.grows
  case absent =>
    intro j hj
    have hi := (List.getElem?_eq_some_iff.mp hv).1
    rw [List.length_set] at hj
    rw [Log.of_snoc_ne (by simp; omega)]
    exact h.absent j hj

theorem Told.consumer (h : Told c log ⟨s, u, vs⟩) (hc : Consumer s s') : Told c log ⟨s', u, vs⟩ where
  absent := h.absent
  past i v hv := by
    obtain ⟨p, hp, hv⟩ := h.past i v hv
    exact ⟨p, hp, hv.mono hc.grows⟩

theorem Staged.told (h : Staged c log x) : Told c log x := by
  induction h
  case refl => exact ⟨by simp [firstStage], by simp⟩
  case step hr hs hi =>
    cases hs
    case main hm ha    => exact hi.main (Staged.tidy hr) hm ha
    case task hv hm ha => exact hi.task hv hm ha
    case outside hc    => simpa using hi.consumer hc

end CheckStream
