import ProxyBroker.Pool.Waiting
import ProxyBroker.Pool.Theorems.Selection
import ProxyBroker.Pool.Theorems.Uses

open Prog

namespace Pool

-- What a call has found out since it has created the future by which it waits: that what it waits for is
-- not there, and that there is something left to be imported. It is `armed` while it has to notify everyone.
structure Vigil where
  armed  : Bool
  vacant : Bool
  live   : Bool

namespace Vigil

def initial : Vigil where
  armed  := false
  vacant := false
  live   := false

end Vigil

-- Whether an event tells a call that what it waits for is not there.
def Call.misses : Call → Event Effects → Bool
  | get scheme .., ⟨.pool (.select ctx), r⟩ => ctx.scheme = scheme && Option.isNone r
  | waitReady n _, ⟨.pool .len, r⟩          => Nat.blt r n
  | _, _                                    => false

def Vigil.next (l : Call) (v : Vigil) (e : Event Effects) : Vigil :=
  match e with
  | ⟨.pool .notified, _⟩                               => { v with vacant := false, live := false }
  | ⟨.pool .loadExhausted, r⟩                          => { v with live := v.live || !(r : Bool) }
  | ⟨.pool (.push ..), _⟩ | ⟨.pool .storeExhausted, _⟩ => { v with armed := true }
  | ⟨.pool .notifyWaiters, _⟩                          => { v with armed := false }
  | e                                                  => { v with vacant := v.vacant || l.misses e }

-- Everyone is notified right after something has changed that can be waited for, and nobody waits without
-- having looked for all that can end the waiting.
def vigil (l : Call) : Monitor Effects Vigil where
  demand v o := (v.armed → o = .pool .notifyWaiters) ∧ (o = .pool .park → v.vacant ∧ v.live)
  next       := Vigil.next l

-- Something that was found to be missing is there.
def Vigil.Reason (l : Call) (v : Vigil) (s : State) : Prop :=
  v.vacant ∧ l.Awaits s ∨ v.live ∧ s.exhausted

variable {c : Config} {s s' : State} {l : Call} {v : Vigil} {e : Event Effects}

section Selection

theorem select_none {ctx : SelectCtx} (h : (none, s') = s.select ctx) :
    s' = s ∧ ∀ e ∈ s.state, ¬eligible ctx.scheme e := by
  unfold State.select at h
  split at h
  case h_1 hb =>
    cases h
    exact ⟨rfl, fun e he hs => supporting_eq_empty_iff.mp (bestFor_eq_none_iff.mp hb) e he (of_decide_eq_true hs)⟩
  case h_2 i hb =>
    obtain ⟨e, he, -⟩ := bestFor_spec hb
    simp [he] at h

end Selection

section Vigilance

theorem answers_exhausted (h : (machine c).answers s e s') (he : e.op ≠ .pool .storeExhausted) :
    s'.exhausted = s.exhausted := by
  obtain ⟨o, r⟩ := e
  cases o
  case pool o =>
    cases o
    case storeExhausted => exact absurd rfl he
    case select ctx =>
      have h : (r, s') = s.select ctx := h
      unfold State.select at h
      split at h <;> cases h <;> rfl
    case tryGet scheme cc =>
      have h : (r, s') = s.tryGet c scheme cc := h
      unfold State.tryGet at h
      dsimp only at h
      split at h <;> cases h <;> rfl
    case add g p =>
      cases h
      simp only [State.add]
      split_ifs <;> rfl
    case recordSession =>
      obtain ⟨victim, rfl⟩ := h
      rfl
    case pin | loadExhausted | loadCursor | len | addrs | remove =>
      cases h.right
      rfl
    all_goals
      cases h
      rfl
  all_goals
    cases h
    rfl

theorem Call.awaits_iff : l.Awaits s ↔ match l with
    | get scheme .. => ∃ p ∈ s.proxies, scheme ∈ p.schemes
    | waitReady n _ => n ≤ s.proxies.length
    | _             => False := by
  cases l <;> simp [Call.Awaits, State.proxies, eligible]

-- What is waited for does not come about unless something is put into the pool.
theorem answers_awaits (h : (machine c).answers s e s') (he : entering s e.op = []) (ha : l.Awaits s') :
    l.Awaits s := by
  have hp := answers_perm h
  rw [he, List.append_nil] at hp
  rw [Call.awaits_iff] at ha ⊢
  cases l
  case get =>
    obtain ⟨p, hp', hs⟩ := ha
    exact ⟨p, hp.subset (List.mem_append_left _ hp'), hs⟩
  case waitReady =>
    have := hp.length_eq
    simp only [List.length_append] at this
    dsimp only at ha ⊢
    omega
  all_goals exact ha

-- What a call finds to be missing is missing.
theorem Call.misses_spec (h : (machine c).answers s e s') (hm : l.misses e) : ¬l.Awaits s := by
  obtain ⟨o, r⟩ := e
  cases l
  case get scheme key fuel =>
    cases o
    case pool o =>
      cases o
      case select ctx =>
        simp only [Call.misses, Bool.and_eq_true, decide_eq_true_eq] at hm
        obtain ⟨rfl, hr⟩ := hm
        have hr : r = none := Option.isNone_iff_eq_none.mp hr
        rintro ⟨e, he, hs⟩
        exact (select_none (hr ▸ h)).right e he hs
      all_goals cases hm
    all_goals cases hm
  case waitReady n fuel =>
    cases o
    case pool o =>
      cases o
      case len =>
        have hr : r = s.state.length := h.left
        have hm : s.state.length < n := Nat.blt_eq.mp (hr ▸ hm)
        exact fun ha => Nat.not_lt.mpr ha hm
      all_goals cases hm
    all_goals cases hm
  all_goals cases hm

theorem Vigil.next_vacant (h : (v.next l e).vacant) : v.vacant ∨ l.misses e := by
  unfold Vigil.next at h
  split at h <;> simp_all

theorem Vigil.next_live (h : (v.next l e).live) : v.live ∨ e = ⟨.pool .loadExhausted, false⟩ := by
  unfold Vigil.next at h
  split at h
  case h_2 r =>
    rcases Bool.or_eq_true_iff.mp h with h | h
    · exact .inl h
    · have hr : r = false := by
        match r, h with
        | false, _ => rfl
      exact .inr (by rw [hr])
  all_goals simp_all

theorem Vigil.next_armed (l : Call) (v : Vigil) (e : Event Effects) (s : State) :
    (v.next l e).armed ∨ (notify c).wakes s e.op ∨
    entering s e.op = [] ∧ e.op ≠ .pool .storeExhausted := by
  obtain ⟨o, r⟩ := e
  cases o
  case pool o =>
    cases o
    case push | storeExhausted => exact .inl rfl
    case add g p =>
      by_cases hp : s.state.any (·.proxy.key = p.key)
      · exact .inr (.inr ⟨if_pos hp, by simp⟩)
      · exact .inr (.inl (by simpa [notify] using hp))
    all_goals exact .inr (.inr ⟨rfl, by simp⟩)
  all_goals exact .inr (.inr ⟨rfl, by simp⟩)

theorem Vigil.Reason.of_answers {v : Vigil} (h : (machine c).answers s e s') (he : entering s e.op = [])
    (hx : e.op ≠ .pool .storeExhausted) (hr : v.Reason l s') : v.Reason l s := by
  rcases hr with ⟨hv, ha⟩ | ⟨hl, hs⟩
  · exact .inl ⟨hv, answers_awaits h he ha⟩
  · exact .inr ⟨hl, answers_exhausted h hx ▸ hs⟩

theorem vigilance (c : Config) : Notify.Vigilance (notify c) vigil (·.armed = true) fun l v => v.Reason l where
  rouses l v o hv hd s := by rw [hd.left hv]; rfl
  fresh l v e s hc := by
    have he : ∃ r, e = ⟨.pool .notified, r⟩ := by
      obtain ⟨o, r⟩ := e
      cases o
      case pool o => cases o <;> first | exact ⟨r, rfl⟩ | cases hc
      all_goals cases hc
    obtain ⟨r, rfl⟩ := he
    simp [vigil, Vigil.next, Vigil.Reason]
  own l v e s s' hd ha hr := by
    rcases Vigil.next_armed (c := c) l v e s with h | h | ⟨he, hx⟩
    · exact .inl h
    · exact .inr (.inl h)
    · refine .inr (.inr ?_)
      rcases hr with ⟨hv, hw⟩ | ⟨hl, hs⟩
      · have hw := answers_awaits ha he hw
        rcases Vigil.next_vacant hv with hv | hm
        · exact .inl ⟨hv, hw⟩
        · exact absurd hw (Call.misses_spec ha hm)
      · rw [answers_exhausted ha hx] at hs
        rcases Vigil.next_live hl with hl | rfl
        · exact .inr ⟨hl, hs⟩
        · have hf : false = s.exhausted := ha.left
          rw [← hf] at hs
          cases hs
  others l v e s s' hd ha := by
    rcases Vigil.next_armed (c := c) l v e s with h | h | ⟨he, hx⟩
    · exact .inl h
    · exact .inr (.inl h)
    · exact .inr (.inr fun l' v' hr => hr.of_answers ha he hx)
  idle o ho := by
    cases o
    case pool o => cases o <;> first | exact ⟨.spawned, rfl⟩ | cases ho
    all_goals cases ho

end Vigilance

section Calls

theorem vigil_demand {o : Op} (hv : v.armed = false) (ho : o ≠ .pool .park) : (vigil l).demand v o :=
  ⟨by simp [hv], fun h => absurd h ho⟩

-- The operations that neither have to do with waiting, nor change what can be waited for.
def IsSilent : Op → Prop
  | .pool .notified | .pool .park | .pool .notifyWaiters => False
  | .pool (.push ..) | .pool .storeExhausted             => False
  | _                                                    => True

theorem vigil_next_silent {o : Op} {r : o.Ret} (ho : IsSilent o) : (v.next l ⟨o, r⟩).armed = v.armed := by
  cases o
  case pool o => cases o <;> first | rfl | exact (ho : False).elim
  all_goals rfl

theorem sat_silent {α : Type} {p : Async α} (hp : p.Uses IsSilent) (hv : v.armed = false) :
    Sat (vigil l) p (fun _ v => v.armed = false) v := by
  refine hp.sat (Φ := fun v : Vigil => v.armed = false) ?_ ?_ hv
  · intro v o ho hv
    refine vigil_demand hv ?_
    rintro rfl
    exact ho
  · intro v o r ho hv
    exact (vigil_next_silent ho).trans hv

theorem putInner_vigil (p : Proxy) (blocked : Option Instant) (hv : v.armed = false) :
    Sat (vigil l) (putInner c p blocked) (fun _ v => v.armed = false) v := by
  unfold putInner
  split_ifs
  · exact sat_silent ⟨trivial, fun _ => trivial⟩ hv
  · simp only [sat_bind, Async.sat_exec]
    exact ⟨vigil_demand hv (by simp), fun _ => ⟨⟨fun _ => rfl, by simp⟩, fun _ => rfl⟩⟩

theorem putFailed_vigil (p : Proxy) (hv : v.armed = false) :
    Sat (vigil l) (putFailed c p) (fun _ v => v.armed = false) v := by
  unfold putFailed
  simp only [sat_bind, Async.sat_env]
  refine ⟨vigil_demand hv (by simp), fun now => ?_⟩
  split
  · exact putInner_vigil p _ hv
  · exact (Async.sat_panic _).mpr (vigil_demand hv (by simp))

theorem importer_vigil (fuel : Nat) (hv : v.armed = false) :
    Sat (vigil l) (importer c fuel) (fun _ v => v.armed = false) v := by
  induction fuel generalizing v
  case zero => exact (Async.sat_never _).mpr (vigil_demand hv (by simp))
  case succ hi =>
    unfold importer
    simp only [sat_bind, Async.sat_env]
    refine ⟨vigil_demand hv (by simp), fun r => ?_⟩
    split
    · simp only [sat_bind]
      refine Sat.mono ?_ fun _ _ hv => hi hv
      refine Async.sat_when ?_ hv
      exact ⟨vigil_demand hv (by simp), fun _ => ⟨⟨fun _ => rfl, by simp⟩, fun _ => rfl⟩⟩
    · exact ⟨vigil_demand hv (by simp), fun _ => ⟨⟨fun _ => rfl, by simp⟩, fun _ => rfl⟩⟩

theorem IsSilent.of_negotiation {o : Op} (h : o.IsNegotiation) : IsSilent o := by
  cases o
  case net => trivial
  all_goals exact (h : False).elim

theorem verifyLive_silent (p : Proxy) : (verifyLive c p).Uses IsSilent := by
  refine Uses.bind ⟨trivial, fun _ => trivial⟩ fun r => ?_
  split
  · exact Uses.bind ((Negotiator.negotiate_uses ..).mono fun _ => .of_negotiation) fun _ => trivial
  · trivial

theorem pinned_silent (key : ClientKey) : (pinned c key).Uses IsSilent := by
  unfold pinned
  split_ifs
  · exact Uses.bind ⟨trivial, fun _ => trivial⟩ fun _ => trivial
  · trivial

section Get

variable {scheme : Scheme} {key : ClientKey} {fuel₀ : Nat}

theorem trySelect_vigil (hv : v.armed = false) :
    Sat (vigil (.get scheme key fuel₀)) (trySelect c scheme key)
      (fun r v => v.armed = false ∧ (r = none → v.vacant)) v := by
  unfold trySelect
  simp only [sat_bind]
  refine (sat_silent (pinned_silent key) hv).mono fun sticky v hv => ?_
  refine ⟨vigil_demand hv (by simp), fun cursor => ⟨vigil_demand hv (by simp), fun now => ?_⟩⟩
  refine ⟨vigil_demand hv (by simp), fun r => ?_⟩
  rcases r with _ | chosen
  case none => exact ⟨hv, fun _ => by simp [vigil, Vigil.next, Call.misses]⟩
  case some =>
    have hw (b : Prop) [Decidable b] (o : PoolOp) (ho : IsSilent (.pool o)) {v : Vigil} (hv : v.armed = false) :
        Sat (vigil (.get scheme key fuel₀)) (Async.when b <| Async.exec o) (fun _ v => v.armed = false) v :=
      sat_silent (Async.uses_when ⟨ho, fun _ => trivial⟩) hv
    refine (sat_bind ..).mpr <| Sat.mono (hw _ .bumpCursor trivial ?_) fun _ v hv => ?_
    · exact hv
    · refine (sat_bind ..).mpr <| (hw _ (.recordSession key chosen.key) trivial hv).mono fun _ v hv => ?_
      exact ⟨hv, by simp⟩

-- A call of `get` only waits after it has neither found a proxy, nor learnt that there are none left to come.
theorem getLoop_vigil (fuel n : Nat) (hv : v.armed = false) :
    Sat (vigil (.get scheme key fuel₀)) (getLoop c scheme key fuel n) (fun _ v => v.armed = false) v := by
  induction fuel generalizing n v
  case zero => exact (Async.sat_never _).mpr (vigil_demand hv (by simp))
  case succ fuel hi =>
    unfold getLoop
    simp only [sat_bind, Async.sat_exec]
    refine ⟨vigil_demand hv (by simp), fun _ => Sat.mono (trySelect_vigil ?_) fun chosen v h => ?_⟩
    case refine_1 => exact hv
    obtain ⟨hv, hn⟩ := h
    rcases chosen with _ | proxy
    case none =>
      refine ⟨vigil_demand hv (by simp), fun exhausted => ?_⟩
      cases exhausted
      case true =>
        refine Sat.mono (trySelect_vigil ?_) fun _ _ h => h.left
        exact hv
      case false =>
        refine ⟨⟨fun h => ?_, fun _ => ⟨hn rfl, by simp [vigil, Vigil.next]⟩⟩, fun _ => hi n hv⟩
        exact absurd h (by simp [vigil, Vigil.next, hv])
    case some =>
      by_cases hl : c.verifyOnLease.isSome
      · simp only [hl, if_true, sat_bind]
        refine (sat_silent (verifyLive_silent proxy) hv).mono fun live v hv => ?_
        cases live
        case true  => exact hv
        case false =>
          simp only [Bool.false_eq_true, if_false, sat_bind]
          refine (putFailed_vigil proxy hv).mono fun _ v hv => ?_
          split_ifs
          · exact hv
          · exact hi _ hv
      · simp only [hl, Bool.false_eq_true, if_false]
        exact hv

end Get

theorem waitReadyLoop_vigil {n fuel₀ : Nat} (fuel : Nat) (hv : v.armed = false) :
    Sat (vigil (.waitReady n fuel₀)) (waitReadyLoop n fuel) (fun _ v => v.armed = false) v := by
  induction fuel generalizing v
  case zero => exact (Async.sat_never _).mpr (vigil_demand hv (by simp))
  case succ fuel hi =>
    unfold waitReadyLoop
    simp only [sat_bind, Async.sat_exec, Async.sat_pool]
    refine ⟨vigil_demand hv (by simp), fun _ => ⟨vigil_demand hv (by simp), fun (len : Nat) => ?_⟩⟩
    by_cases hl : n ≤ len
    · rw [if_pos hl]
      exact hv
    · rw [if_neg hl, sat_bind]
      refine ⟨vigil_demand hv (by simp), fun exhausted => ?_⟩
      cases exhausted
      case true  => exact hv
      case false =>
        have hm : Nat.blt len n = true := Nat.blt_eq.mpr (Nat.not_le.mp hl)
        refine ⟨⟨fun h => ?_, fun _ => ⟨?_, by simp [vigil, Vigil.next]⟩⟩, fun _ => hi hv⟩
        · exact absurd h (by simp [vigil, Vigil.next, hv])
        · simp [vigil, Vigil.next, Call.misses, hm]

theorem Call.vigil_code (l : Call) :
    Sat (vigil l) (l.code c) (fun _ v => ¬v.armed = true) .initial := by
  suffices h : Sat (vigil l) (l.code c) (fun _ v => v.armed = false) .initial from
    h.mono fun _ _ h => by simp [h]
  cases l
  case get scheme key fuel =>
    exact (sat_bind ..).mpr <| (getLoop_vigil fuel 0 rfl).mono fun _ _ h => h
  case waitReady n fuel =>
    simp only [Call.code, Pool.waitReady]
    split_ifs
    · rfl
    · exact waitReadyLoop_vigil fuel rfl
  case importer fuel => exact importer_vigil fuel rfl
  case putOk p       => exact putInner_vigil p none rfl
  case putFailed p   => exact putFailed_vigil p rfl
  case add p         => exact sat_silent ⟨trivial, fun _ => trivial⟩ rfl
  case remove k =>
    exact sat_silent (Uses.bind (Uses.bind ⟨trivial, fun _ => trivial⟩ fun _ => trivial) fun _ => trivial) rfl

end Calls

-- For every interleaving of any number of calls: nobody waits in vain. If a call waits and its future was
-- not notified, although what it waits for is there or there is nothing left to be imported, then some
-- other call is about to notify everyone.
theorem no_lost_wakeup {s₀ : State} {x : Notify.Config Effects State Call} {t : Waiter Effects Call}
    {k : Unit → Async Unit} (hx : (notify c).Reachable s₀ x) (ht : t ∈ x.tasks)
    (hp : t.code = .call (.pool .park) k) (hn : t.notified = false)
    (hw : t.label.Awaits x.shared ∨ x.shared.exhausted) :
    ∃ u ∈ x.tasks, ∃ k, u.code = .call (.pool .notifyWaiters) k := by
  have hi (l : Call) (s : State) : ¬Vigil.initial.Reason l s := by simp [Vigil.Reason, Vigil.initial]
  obtain ⟨v, hd, hr⟩ := (vigilance c).rousing_of_waiting hx Call.vigil_code hi ht hp hn
  obtain ⟨hv, hl⟩ := hd.right rfl
  obtain ⟨u, hu, o, k, hc, ho⟩ := hr (hw.imp (⟨hv, ·⟩) (⟨hl, ·⟩))
  have ho : o = .pool .notifyWaiters := by
    cases o
    case pool o =>
      cases o
      case notifyWaiters => rfl
      -- A proxy whose address is in the pool is not added.
      case add g p => exact absurd (ho (State.spawned.push ⟨p, none⟩)) (by simp [notify, State.push, State.spawned])
      all_goals exact absurd (ho .spawned) (by simp [notify])
    all_goals exact absurd (ho .spawned) (by simp [notify])
  subst ho
  exact ⟨u, hu, k, hc⟩

namespace WakeupExample

def key : ClientKey :=
  .ip (.v4 127 0 0 1)

def proxy : Proxy :=
  (Proxy.new (.v4 10 0 0 1) 8080 ∅).addType .http none

def ctx : SelectCtx :=
  ⟨.http, .best, none, 0, 0, false⟩

end WakeupExample

open WakeupExample in
-- A call of `get` waits while another call has handed back a proxy, but not notified anyone yet.
theorem no_lost_wakeup_pushed :
    ∃ x t k, (notify .default).Reachable .spawned x ∧ t ∈ x.tasks ∧ t.code = .call (.pool .park) k ∧
      t.notified = false ∧ t.label.Awaits x.shared ∧
      ∃ u ∈ x.tasks, ∃ k, u.code = .call (.pool .notifyWaiters) k :=
  have h : (notify .default).Reachable .spawned _ :=
    .head (.spawn (.get .http key 1)) <| .head (.spawn (.putOk proxy)) <|
    .head (.first (n := notify .default) (.pool .notified) () rfl nofun) <|
    .head (.first (n := notify .default) (.pool .loadCursor) (0 : UInt64) ⟨rfl, rfl⟩ nofun) <|
    .head (.first (n := notify .default) (.env .now) (0 : Instant) rfl nofun) <|
    .head (.first (n := notify .default) (.pool (.select ctx)) none rfl nofun) <|
    .head (.first (n := notify .default) (.pool .loadExhausted) false ⟨rfl, rfl⟩ nofun) <|
    .single (.second (n := notify .default) (.pool (.push .holder ⟨proxy, none⟩)) () rfl nofun)
  have hw : Call.Awaits (State.spawned.push ⟨proxy, none⟩) (.get .http key 1) :=
    ⟨⟨proxy, none⟩, List.mem_singleton.mpr rfl, by decide⟩
  ⟨_, _, _, h, List.mem_cons_self, rfl, rfl, hw, no_lost_wakeup h List.mem_cons_self rfl rfl (.inl hw)⟩

end Pool
