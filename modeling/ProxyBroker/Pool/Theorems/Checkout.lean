import ProxyBroker.Pool.Theorems.Lease
import ProxyBroker.Pool.Theorems.Selection

open Prog Negotiator

def Event.At (now : Instant) : Event Effects → Prop
  | ⟨.env .now, t⟩ | ⟨.env (.bench _), t⟩ => t = now
  | _                                     => True

-- The clock shows the given time whenever it is read.
def Trace.At (now : Instant) (tr : Trace Effects) : Prop :=
  ∀ e ∈ tr, e.At now

namespace Pool

variable {c : Config} {scheme : Scheme} {key : ClientKey} {s s' : State} {p : Proxy} {r : Option Proxy}
variable {tr : Trace Effects} {now : Instant}

section Leasing

variable (c : Config) (scheme : Scheme) (key : ClientKey) (s : State) (now : Instant)

-- What a selection depends on if no other task interferes.
def ctxOf : SelectCtx where
  scheme           := scheme
  strategy         := c.strategy
  sticky           := if c.strategy = .sticky then s.pin key else none
  roundRobinCursor := s.roundRobin
  now              := now
  preferConnect    := c.preferConnect

-- What a selection leaves behind for later ones.
def Settles (p : Proxy) (s' : State) : Prop :=
  match c.strategy with
  | .roundRobin    => s' = { s with roundRobin := s.roundRobin + 1 }
  | .sticky        => ∃ victim, s' = s.recordSession c key p.key victim
  | .best | .random => s' = s

-- The selection of a proxy, if there is one.
def Draws (r : Option Proxy) (s' : State) : Prop :=
  ∃ s₁, (r, s₁) = s.select (ctxOf c scheme key s now) ∧
    match r with
    | none   => s' = s₁
    | some p => Settles c key s₁ p s'

end Leasing

section Exec

theorem pinned_exec {k : Option Key} (h : (machine c).Exec s (pinned c key) tr s' (.ret k)) :
    k = (if c.strategy = .sticky then s.pin key else none) ∧ s' = s := by
  unfold pinned at h
  split_ifs at h ⊢
  · cases h
    case call ha h =>
      obtain ⟨rfl, rfl⟩ := ha
      obtain ⟨-, rfl, hr⟩ := h.of_ret
      cases hr
      exact ⟨rfl, rfl⟩
  · obtain ⟨-, rfl, hr⟩ := h.of_ret
    cases hr
    exact ⟨rfl, rfl⟩

-- What happens after a proxy was selected.
theorem settles_exec
    (h : (machine c).Exec s (do
      Async.when (c.strategy = .roundRobin) <| Async.exec .bumpCursor
      Async.when (c.strategy = .sticky) <| Async.exec (.recordSession key p.key)
      pure (some p)) tr s' (.ret r)) : r = some p ∧ Settles c key s p s' := by
  unfold Settles
  cases hs : c.strategy <;> simp only [hs, Async.when, reduceCtorEq, if_true, if_false, pure_eq_ret, ret_bind] at h ⊢
  case best | random =>
    obtain ⟨-, rfl, hr⟩ := h.of_ret
    cases hr
    exact ⟨rfl, rfl⟩
  case roundRobin =>
    cases h
    case call ha h =>
      obtain ⟨-, rfl, hr⟩ := h.of_ret
      cases hr
      exact ⟨rfl, ha⟩
  case sticky =>
    cases h
    case call ha h =>
      obtain ⟨-, rfl, hr⟩ := h.of_ret
      cases hr
      exact ⟨rfl, ha⟩

-- A task that has the pool for itself selects from the pool as it is.
theorem trySelect_draws (h : (machine c).Exec s (trySelect c scheme key) tr s' (.ret r)) :
    ∃ now, (⟨.env .now, now⟩ : Event Effects) ∈ tr ∧ Draws c scheme key s now r s' := by
  unfold trySelect at h
  obtain ⟨sticky, tr₀, tr₁, s₀, rfl, h₀, h⟩ := h.of_bind
  obtain ⟨rfl, rfl⟩ := pinned_exec h₀
  cases h
  case call cursor ha h =>
    obtain ⟨rfl, rfl⟩ := ha
    cases h
    case call now ha h =>
      cases (ha : _ = _)
      cases h
      case call chosen ha h =>
        have ha : (chosen, _) = State.select _ (ctxOf c scheme key _ now) := ha
        cases chosen
        case none =>
          obtain ⟨-, rfl, hr⟩ := h.of_ret
          cases hr
          exact ⟨now, by simp, _, ha, rfl⟩
        case some p =>
          obtain ⟨rfl, hs⟩ := settles_exec h
          exact ⟨now, by simp, _, ha, hs⟩

theorem pinned_run : ∃ tr, (machine c).Exec s (pinned c key) tr s
    (.ret (if c.strategy = .sticky then s.pin key else none)) ∧ tr.At now ∧ tr.returned = [] := by
  unfold pinned
  split_ifs
  · exact ⟨_, .call ⟨rfl, rfl⟩ .refl, by simp [Trace.At, Event.At], rfl⟩
  · exact ⟨_, .refl, by simp [Trace.At, Event.At], rfl⟩

theorem settles_run (now : Instant) (h : Settles c key s p s') : ∃ tr, (machine c).Exec s (do
      Async.when (c.strategy = .roundRobin) <| Async.exec .bumpCursor
      Async.when (c.strategy = .sticky) <| Async.exec (.recordSession key p.key)
      pure (some p)) tr s' (.ret (some p)) ∧ tr.At now ∧ tr.returned = [] := by
  unfold Settles at h
  cases hs : c.strategy <;> simp only [hs, Async.when, reduceCtorEq, if_true, if_false, pure_eq_ret, ret_bind] at h ⊢
  case best | random =>
    subst h
    exact ⟨_, .refl, by simp [Trace.At, Event.At], rfl⟩
  case roundRobin => exact ⟨_, .call (r := ()) h .refl, by simp [Trace.At, Event.At], rfl⟩
  case sticky     => exact ⟨_, .call (r := ()) h .refl, by simp [Trace.At, Event.At], rfl⟩

theorem Draws.exec (h : Draws c scheme key s now r s') :
    ∃ tr, (machine c).Exec s (trySelect c scheme key) tr s' (.ret r) ∧ tr.At now ∧ tr.returned = [] := by
  obtain ⟨s₁, hs, h⟩ := h
  obtain ⟨tr₀, h₀, ha₀, hr₀⟩ : ∃ tr, (machine c).Exec s (pinned c key) tr s
      (.ret (if c.strategy = .sticky then s.pin key else none)) ∧ tr.At now ∧ tr.returned = [] := pinned_run
  have before (tr : Trace Effects) (ha : tr.At now) (hr : tr.returned = []) :
      (tr₀ ++ ⟨.pool .loadCursor, s.roundRobin⟩ :: ⟨.env .now, now⟩ ::
        ⟨.pool (.select (ctxOf c scheme key s now)), r⟩ :: tr).At now ∧
      Trace.returned (tr₀ ++ ⟨.pool .loadCursor, s.roundRobin⟩ :: ⟨.env .now, now⟩ ::
        ⟨.pool (.select (ctxOf c scheme key s now)), r⟩ :: tr) = [] := by
    rw [Trace.returned_append, hr₀]
    simp only [Trace.At, List.forall_mem_append, List.forall_mem_cons]
    exact ⟨⟨ha₀, trivial, rfl, trivial, ha⟩, hr⟩
  cases r
  case none =>
    subst h
    refine ⟨_, h₀.bind_ret (.call ⟨rfl, rfl⟩ (.call (r := now) rfl ?_)), before [] (by simp [Trace.At]) rfl⟩
    exact .call hs .refl
  case some p =>
    obtain ⟨tr, hp, ha, hr⟩ := settles_run now h
    refine ⟨_, h₀.bind_ret (.call ⟨rfl, rfl⟩ (.call (r := now) rfl ?_)), before tr ha hr⟩
    exact .call hs hp

theorem Draws.state_eq (h : Draws c scheme key s now none s') : s' = s := by
  obtain ⟨s₁, hs, rfl⟩ := h
  unfold State.select at hs
  split at hs
  case h_1 => exact (Prod.mk.inj hs).right
  case h_2 i hb =>
    obtain ⟨e, he, -⟩ := bestFor_spec hb
    simp [he] at hs

-- A probe does not involve the pool.
theorem verifyLive_exec {b : Bool} (h : (machine c).Exec s (verifyLive c p) tr s' (.ret b)) : s' = s := by
  have hp : (verifyLive c p).Uses fun o => ∃ n, o = Op.net n := by
    refine probeTunnel_uses_of _ _ _ ⟨_, rfl⟩ fun o ho => ?_
    cases o
    case net o => exact ⟨o, rfl⟩
    all_goals exact (ho : False).elim
  refine h.preserves (Φ := (· = s)) hp rfl ?_
  rintro _ _ r _ ⟨o, rfl⟩ rfl ha
  exact ha

theorem putInner_exec {blocked : Option Instant}
    (h : (machine c).Exec s (putInner c p blocked) tr s' (.ret ())) :
    tr.returned = [p] ∧
    s' = if unhealthy c p then { s with evictions := s.evictions + 1 } else s.push ⟨p, blocked⟩ := by
  unfold putInner at h
  split_ifs at h ⊢
  case pos =>
    cases h
    case call ha h =>
      cases ha
      obtain ⟨rfl, rfl, -⟩ := h.of_ret
      exact ⟨rfl, rfl⟩
  case neg =>
    cases h
    case call ha h =>
      cases ha
      cases h
      case call ha h =>
        cases ha
        obtain ⟨rfl, rfl, -⟩ := h.of_ret
        exact ⟨rfl, rfl⟩

theorem putFailed_exec (h : (machine c).Exec s (putFailed c p) tr s' (.ret ())) :
    tr.returned = [p] ∧ ∃ now deadline, (⟨.env (.bench c.failTimeout), now⟩ : Event Effects) ∈ tr ∧
      Instant.checkedAdd now c.failTimeout = some deadline ∧
      s' = if unhealthy c p then { s with evictions := s.evictions + 1 } else s.push ⟨p, some deadline⟩ := by
  cases h
  case call now ha h =>
    cases (ha : _ = _)
    dsimp only [Prog.bind] at h
    cases hd : Instant.checkedAdd now c.failTimeout <;> rw [hd] at h
    case none =>
      cases h
      case call r _ _ => exact r.elim
    case some deadline =>
      obtain ⟨hr, hs⟩ := putInner_exec h
      exact ⟨hr, now, deadline, List.mem_cons_self, hd, hs⟩

-- A checkout in the course of which no proxy is handed back draws the one that is selected.
theorem get_draws {fuel : Nat} (h : (machine c).Exec s (get c fuel scheme key) tr s' (.ret r))
    (hr : c.verifyOnLease.isSome → tr.returned = []) :
    ∃ now, (⟨.env .now, now⟩ : Event Effects) ∈ tr ∧ Draws c scheme key s now r s' := by
  unfold get at h
  generalize 0 = n at h
  induction fuel generalizing tr
  case zero =>
    cases h
    case call => contradiction
  case succ fuel hi =>
    unfold getLoop at h
    cases h
    case call ha h₀ =>
      cases ha
      obtain ⟨r', tr₁, tr₂, s₁, rfl, h₁, h⟩ := Machine.Exec.of_bind (p := trySelect c scheme key) h₀
      clear h₀
      obtain ⟨now, hm, hd⟩ := trySelect_draws h₁
      cases r'
      case none =>
        rw [hd.state_eq] at h
        have hn : c.verifyOnLease.isSome → Trace.returned tr₂ = [] := fun hv => by
          have := hr hv
          rw [← List.singleton_append, Trace.returned_append, Trace.returned_append] at this
          exact (List.append_eq_nil_iff.mp (List.append_eq_nil_iff.mp this).right).right
        cases h
        case call exhausted ha h =>
          cases exhausted <;> obtain ⟨-, rfl⟩ := ha
          -- The last look is a selection as well.
          case true =>
            obtain ⟨now, hm, hd⟩ := trySelect_draws (h : (machine c).Exec _ (trySelect c scheme key) _ _ _)
            exact ⟨now, by simp [hm], hd⟩
          case false =>
            cases h
            case call tr _ ha h =>
              cases ha
              have hn : c.verifyOnLease.isSome → Trace.returned tr = [] := hn
              obtain ⟨now, hm, hd⟩ := hi hn h
              exact ⟨now, by simp [hm], hd⟩
      case some p =>
        dsimp only at h
        split at h
        case isFalse =>
          obtain ⟨rfl, rfl, hp⟩ := h.of_ret
          cases hp
          exact ⟨now, by simp [hm], hd⟩
        case isTrue hv =>
          obtain ⟨b, tr₃, tr₄, s₂, rfl, h₂, h⟩ := h.of_bind
          cases verifyLive_exec h₂
          cases b
          case true =>
            obtain ⟨rfl, rfl, hp⟩ := h.of_ret
            cases hp
            exact ⟨now, by simp [hm], hd⟩
          -- A proxy that does not respond is handed back.
          case false =>
            obtain ⟨_, tr₅, tr₆, s₃, rfl, h₃, -⟩ := Machine.Exec.of_bind h
            have := (putFailed_exec h₃).left
            have := hr hv
            simp_all [Trace.returned]

-- A probe that succeeds.
def probing (c : Config) (p : Proxy) : Trace Effects :=
  ⟨.net (.dial .probe p.key), .ok⟩ :: tunnelling ⟨c.verifyTarget.1, none, c.verifyTarget.2⟩ p.auth

theorem verifyLive_probing : (machine c).Exec s (verifyLive c p) (probing c p) s (.ret true) := by
  refine .of_runs (probeTunnel_runs ..) fun e he => ?_
  simp only [probing, tunnelling, List.mem_cons, List.mem_map] at he
  rcases he with rfl | rfl | ⟨b, -, rfl⟩ <;> rfl

theorem probing_at : (probing c p).At now := by
  intro e he
  simp only [probing, tunnelling, List.mem_cons, List.mem_map] at he
  rcases he with rfl | rfl | ⟨b, -, rfl⟩ <;> trivial

-- The proxy that is drawn can be checked out.
theorem Draws.get (h : Draws c scheme key s now (some p) s') :
    ∃ tr, (machine c).Exec s (get c 1 scheme key) tr s' (.ret (some p)) ∧ tr.At now ∧ tr.returned = [] := by
  obtain ⟨tr, he, ha, hr⟩ := h.exec
  by_cases hv : c.verifyOnLease.isSome = true
  · refine ⟨_, .call (r := ()) rfl <| he.bind_ret (?_ : (machine c).Exec _ _ (probing c p ++ []) _ _), ?_, ?_⟩
    · dsimp only
      rw [if_pos hv]
      exact verifyLive_probing.bind_ret .refl
    · simp only [Trace.At, List.forall_mem_append, List.forall_mem_cons]
      exact ⟨trivial, ha, probing_at, by simp⟩
    · rw [← List.singleton_append, Trace.returned_append, Trace.returned_append, hr]
      rfl
  · refine ⟨_, .call (r := ()) rfl <| he.bind_ret (?_ : (machine c).Exec _ _ [] _ _), ?_, ?_⟩
    · dsimp only
      rw [if_neg hv]
      exact .refl
    · simpa [Trace.At, Event.At] using ha
    · rw [← List.singleton_append, Trace.returned_append, Trace.returned_append, hr]
      rfl

end Exec

section Visits

-- A request of a client that leases a proxy, and the pool that it finds.
structure Visited where
  before : State
  key    : ClientKey
  scheme : Scheme
  proxy  : Proxy

-- A `get` that leases the proxy (without having handed back any other one), followed by a `put_ok` of that
-- proxy. Its statistics can have changed in between, but they do not exceed the limits.
def Visit (c : Config) (v : Visited) (s' : State) : Prop :=
  ∃ fuel tr₁ s₁ p' tr₂,
    (machine c).Exec v.before (get c fuel v.scheme v.key) tr₁ s₁ (.ret (some v.proxy)) ∧ tr₁.returned = [] ∧
    p'.ident = v.proxy.ident ∧ unhealthy c p' = false ∧
    (machine c).Exec s₁ (putOk c p') tr₂ s' (.ret ())

-- Requests that do not overlap.
inductive Visits (c : Config) : State → List Visited → State → Prop
  | nil {s : State} : Visits c s [] s
  | cons {v : Visited} {vs : List Visited} {s' s'' : State} :
    Visit c v s' → Visits c s' vs s'' → Visits c v.before (v :: vs) s''

variable {v : Visited} {vs : List Visited}

theorem Visit.draws (h : Visit c v s') : ∃ now s₁ p', Draws c v.scheme v.key v.before now (some v.proxy) s₁ ∧
    p'.ident = v.proxy.ident ∧ unhealthy c p' = false ∧ s' = s₁.push ⟨p', none⟩ := by
  obtain ⟨fuel, tr₁, s₁, p', tr₂, hg, hr, hi, hu, hp⟩ := h
  obtain ⟨now, -, hd⟩ := get_draws hg fun _ => hr
  exact ⟨now, s₁, p', hd, hi, hu, by simpa [hu] using (putInner_exec hp).right⟩

-- A proxy can be handed back as it is.
theorem Draws.visit (h : Draws c scheme key s now (some p) s') (hu : unhealthy c p = false) :
    Visit c ⟨s, key, scheme, p⟩ (s'.push ⟨p, none⟩) := by
  have hp : ∃ tr, (machine c).Exec s' (putOk c p) tr (s'.push ⟨p, none⟩) (.ret ()) := by
    simp only [putOk, putInner, hu, Bool.false_eq_true, if_false]
    exact ⟨_, .call (r := ()) rfl <| .call (r := ()) rfl .refl⟩
  obtain ⟨tr₁, hg, -, hr⟩ := h.get
  obtain ⟨tr₂, hp⟩ := hp
  exact ⟨1, tr₁, s', p, tr₂, hg, hr, rfl, hu, hp⟩

theorem Visits.visited (h : Visits c s vs s') (hv : v ∈ vs) : ∃ s', Visit c v s' := by
  induction h
  case nil => simp at hv
  case cons h _ hi =>
    rcases List.mem_cons.mp hv with rfl | hv
    · exact ⟨_, h⟩
    · exact hi hv

-- What is preserved by all visits holds whenever one begins.
theorem Visits.invariant {I : State → Prop} (h : Visits c s vs s') (hs : I s)
    (hi : ∀ v s', v ∈ vs → I v.before → Visit c v s' → I s') : ∀ v ∈ vs, I v.before := by
  induction h
  case nil => simp
  case cons v _ _ _ h₁ _ hj =>
    refine List.forall_mem_cons.mpr ⟨hs, hj (hi _ _ List.mem_cons_self hs h₁) fun v s' hv => ?_⟩
    exact hi v s' (List.mem_cons_of_mem _ hv)

end Visits
end Pool
