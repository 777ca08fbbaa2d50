import ProxyBroker.Pool.Lease
import ProxyBroker.Pool.Theorems.Uses

open Prog

namespace Lease

variable {α : Type} {o : Op} {r : o.Ret} {h : Option Lease} {l : Lease} {p : Proxy} {e : Event Effects}

theorem demand_streaming (ho : o.IsStreaming) : demand (some l) o := by
  cases o
  case net o =>
    cases o
    case upWrite ph _ => cases ph <;> trivial
    case upRead ph _  => cases ph <;> trivial
    all_goals trivial
  all_goals exact (ho : False).elim

theorem next_streaming (ho : o.IsStreaming) : next h ⟨o, r⟩ = h := by
  cases o
  case net o => cases o <;> first | rfl | exact (ho : False).elim
  all_goals exact (ho : False).elim

theorem demand_idle (ho : o.IsIdle) : demand none o := by
  cases o
  case pool o =>
    cases o
    case push g _ => cases g <;> trivial
    case add g _  => cases g <;> trivial
    all_goals trivial
  case net o => cases o <;> trivial
  case env o => cases o <;> trivial
  case history => trivial

theorem next_idle (ho : o.IsIdle) : next none ⟨o, r⟩ = none := by
  cases o
  case pool o =>
    cases o
    case push g _ => cases g <;> rfl
    case add g _  => cases g <;> rfl
    all_goals first | rfl | exact (ho : False).elim
  case net o => cases o <;> first | rfl | exact (ho : False).elim
  all_goals rfl

-- A task that does not lease any proxies never has one.
theorem sat_idle {p : Async α} (hp : p.Uses Op.IsIdle) :
    Sat monitor p (fun _ h => h = none) none := by
  refine Uses.sat (Φ := (· = none)) hp ?_ ?_ rfl
  · rintro _ o ho rfl
    exact demand_idle ho
  · rintro _ o r ho rfl
    exact next_idle ho

theorem sat_streaming {p : Async α} (hp : p.Uses Op.IsStreaming) :
    Sat monitor p (fun _ h => h = some l) (some l) := by
  refine Uses.sat (Φ := (· = some l)) hp ?_ ?_ rfl
  · rintro _ o ho rfl
    exact demand_streaming ho
  · rintro _ o r ho rfl
    exact next_streaming ho

section Balance

theorem next_leases (he : e.leases = some p) : next h e = some ⟨p, 0⟩ := by
  simp [next, he]

theorem next_returns (he : e.leases = none) (hr : e.returns = some p) : next h e = none := by
  simp [next, he, hr]

-- An event that neither leases nor hands back a proxy leaves the task with the same one.
theorem next_proxy (he : e.leases = none) (hr : e.returns = none) :
    (next h e).map Lease.proxy = h.map Lease.proxy := by
  simp only [next, he, hr]
  split
  · simp [Function.comp_def]
  · rfl

theorem demand_leases (he : e.leases = some p) (hd : demand h e.op) : h = none := by
  obtain ⟨o, r⟩ := e
  cases o
  case pool o => cases o <;> first | exact hd | cases he
  all_goals cases he

theorem demand_returns (hr : e.returns = some p) (hd : demand h e.op) : Returns h p := by
  obtain ⟨o, r⟩ := e
  cases o
  case pool o =>
    cases o
    case push g _ => cases g <;> cases hr; exact hd
    case add g _  => cases g <;> cases hr; exact hd
    case evict    => cases hr; exact hd
    all_goals cases hr
  all_goals cases hr

theorem returns_leases (hr : e.returns = some p) : e.leases = none := by
  obtain ⟨o, r⟩ := e
  cases o
  case pool o => cases o <;> first | rfl | cases hr
  all_goals rfl

-- The proxies which a task has, up to the statistics about their use.
def idents (h : Option Lease) : List Proxy :=
  h.toList.map (·.proxy.ident)

-- What an event takes out of the pool or hands back is exactly what changes in the task's hands.
theorem balance_event (hd : demand h e.op) :
    idents h ++ e.leases.toList.map Proxy.ident =
    e.returns.toList.map Proxy.ident ++ idents (next h e) := by
  cases hl : e.leases
  case some p =>
    have hr : e.returns = none := by
      by_contra hr
      obtain ⟨q, hr⟩ := Option.ne_none_iff_exists'.mp hr
      simp [returns_leases hr] at hl
    cases demand_leases hl hd
    simp [idents, next_leases hl, hr]
  case none =>
    cases hr : e.returns
    case some p =>
      obtain ⟨l, rfl, hi, -⟩ := demand_returns hr hd
      simp [idents, next_returns hl hr, hi]
    case none =>
      have hp := next_proxy (h := h) hl hr
      have hm (x : Option Lease) : idents x = (x.map Lease.proxy).toList.map Proxy.ident := by
        cases x <;> rfl
      simp [hm, hp]

end Balance

end Lease

namespace Trace

variable (tr : Trace Effects)

def leased : List Proxy :=
  tr.filterMap Event.leases

def returned : List Proxy :=
  tr.filterMap Event.returns

theorem returned_append (tr₁ tr₂ : Trace Effects) :
    returned (tr₁ ++ tr₂) = tr₁.returned ++ tr₂.returned :=
  List.filterMap_append

end Trace

namespace Lease

open Trace

theorem balance {h : Option Lease} {tr : Trace Effects} (ha : monitor.Accepts h tr) :
    idents h ++ (leased tr).map Proxy.ident =
    (returned tr).map Proxy.ident ++ idents (monitor.after h tr) := by
  induction tr generalizing h
  case nil => simp [leased, returned]
  case cons e tr hi =>
    have he := balance_event ha.left
    have ht := hi ha.right
    have hl : (leased (e :: tr)).map Proxy.ident =
        e.leases.toList.map Proxy.ident ++ (leased tr).map Proxy.ident := by
      cases hl : e.leases <;> simp [leased, hl]
    have hr : (returned (e :: tr)).map Proxy.ident =
        e.returns.toList.map Proxy.ident ++ (returned tr).map Proxy.ident := by
      cases hr : e.returns <;> simp [returned, hr]
    rw [hl, hr, ← List.append_assoc, he, List.append_assoc, List.append_assoc]
    exact congrArg _ ht

end Lease

namespace Pool

open Lease Negotiator

variable {c : Config} {p : Proxy} {l : Lease} {scheme : Scheme} {key : ClientKey}

theorem probeTunnel_lease (hk : l.proxy.key = p.key) (target : Target) (creds : Option Credentials) :
    Sat monitor (probeTunnel p.key target creds) (fun _ h => h = some l) (some l) := by
  unfold probeTunnel
  simp only [sat_bind, Async.sat_net]
  refine ⟨⟨l, rfl, hk⟩, fun r => ?_⟩
  change Sat monitor _ _ (some l)
  split
  · simp only [sat_bind]
    exact (sat_streaming <| (negotiate_uses ..).mono fun _ h => h.isStreaming).mono fun _ _ h => h
  · rfl

theorem putInner_lease {h : Option Lease} (hr : Returns h p) (blocked : Option Instant) :
    Sat monitor (putInner c p blocked) (fun _ h => h = none) h := by
  unfold putInner
  split_ifs
  · exact ⟨hr, fun _ => rfl⟩
  · simp only [sat_bind, Async.sat_exec]
    exact ⟨hr, fun _ => ⟨trivial, fun _ => rfl⟩⟩

theorem putFailed_lease {h : Option Lease} (hr : Returns h p) :
    Sat monitor (putFailed c p) (fun _ h => h = none) h := by
  obtain ⟨l, rfl, hl⟩ := hr
  unfold putFailed
  simp only [sat_bind, Async.sat_env]
  refine ⟨rfl, fun now => ?_⟩
  split
  · exact putInner_lease ⟨l, rfl, hl⟩ _
  · exact (Async.sat_panic _).mpr rfl

theorem returns_self : Returns (some ⟨p, 0⟩) p :=
  ⟨_, rfl, rfl, by simp⟩

theorem pinned_uses_idle : (pinned c key).Uses Op.IsIdle := by
  unfold pinned
  split
  · exact Uses.bind ⟨trivial, fun _ => trivial⟩ fun _ => trivial
  · trivial

-- A task ends up with the proxy that was selected for it.
def Leases (chosen : Option Proxy) (h : Option Lease) : Prop :=
  h = chosen.map (⟨·, 0⟩)

theorem trySelect_lease : Sat monitor (trySelect c scheme key) Leases none := by
  unfold trySelect
  simp only [sat_bind]
  refine (sat_idle pinned_uses_idle).mono fun sticky h hn => ?_
  subst hn
  refine ⟨trivial, fun cursor => ⟨trivial, fun now => ⟨rfl, fun r => ?_⟩⟩⟩
  rcases r with _ | chosen
  case none => rfl
  case some =>
    have keep (b : Prop) [Decidable b] (o : PoolOp) (h : demand (some ⟨chosen, 0⟩) (.pool o))
        (hn : ∀ r, next (some ⟨chosen, 0⟩) ⟨.pool o, r⟩ = some ⟨chosen, 0⟩) :
        Sat monitor (Async.when b (Async.exec o)) (fun _ h => h = some ⟨chosen, 0⟩) (some ⟨chosen, 0⟩) :=
      Async.sat_when ⟨h, hn⟩ rfl
    change Sat monitor (do
      Async.when (c.strategy = .roundRobin) <| Async.exec .bumpCursor
      Async.when (c.strategy = .sticky) <| Async.exec (.recordSession key chosen.key)
      pure (some chosen)) Leases (some ⟨chosen, 0⟩)
    simp only [sat_bind]
    refine (keep _ .bumpCursor trivial fun _ => rfl).mono ?_
    rintro _ _ rfl
    refine (keep _ (.recordSession key chosen.key) trivial fun _ => rfl).mono ?_
    rintro _ _ rfl
    rfl

theorem getLoop_lease (fuel n : Nat) : Sat monitor (getLoop c scheme key fuel n) Leases none := by
  induction fuel generalizing n
  case zero => exact Async.sat_never _ |>.mpr rfl
  case succ hi =>
    unfold getLoop
    simp only [sat_bind]
    refine ⟨trivial, fun _ => ?_⟩
    refine trySelect_lease.mono fun chosen h hl => ?_
    cases hl
    rcases chosen with _ | proxy
    case none =>
      refine ⟨trivial, fun exhausted => ?_⟩
      change Sat monitor _ _ none
      cases exhausted
      · exact ⟨rfl, fun _ => hi _⟩
      · exact trySelect_lease
    case some =>
      dsimp only [Option.map_some]
      split
      · simp only [sat_bind]
        refine (probeTunnel_lease rfl _ _).mono fun live h hl => ?_
        cases hl
        cases live
        case true => rfl
        case false =>
          simp only [sat_bind, Bool.false_eq_true, if_false]
          refine (putFailed_lease returns_self).mono fun _ h hn => ?_
          cases hn
          split_ifs
          · rfl
          · exact hi _
      · rfl

theorem get_lease (fuel : Nat) : Sat monitor (Pool.get c fuel scheme key) Leases none :=
  getLoop_lease ..

end Pool
