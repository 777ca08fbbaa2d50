import ProxyBroker.Pool.Machine
import ProxyBroker.Pool.Theorems.Lease
import ProxyBroker.Server.Theorems.Uses

open Prog Lease

-- Every task that works on a pool complies with the discipline of leases, and does not have a lease
-- anymore when it is done.

namespace Pool

theorem importer_uses_of {P : Op → Prop} (hx : P (.env .nextProxy)) (hv : P (.env .never))
    (hp : ∀ e, P (.pool (.push .outsider e))) (hn : P (.pool .notifyWaiters)) (hs : P (.pool .storeExhausted))
    (c : Config) (fuel : Nat) :
    (importer c fuel).Uses P := by
  induction fuel
  case zero => exact Async.uses_never.mpr hv
  case succ hi =>
    refine Uses.bind ⟨hx, fun _ => trivial⟩ fun r => ?_
    split
    · refine Uses.bind (Async.uses_when ?_) fun _ => hi
      exact Uses.bind ⟨hp _, fun _ => trivial⟩ fun _ => ⟨hn, fun _ => trivial⟩
    · exact Uses.bind ⟨hs, fun _ => trivial⟩ fun _ => ⟨hn, fun _ => trivial⟩

theorem importer_uses (c : Config) (fuel : Nat) : (importer c fuel).Uses Op.IsIdle :=
  importer_uses_of trivial trivial (fun _ => trivial) trivial trivial c fuel

end Pool

namespace Watch

theorem removeStale_uses (want current : List Key) : (removeStale want current).Uses Op.IsUpkeep := by
  induction current
  case nil => trivial
  case cons hi =>
    refine Uses.bind (Async.uses_when ?_) fun _ => hi
    exact Uses.bind (Uses.bind ⟨trivial, fun _ => trivial⟩ fun _ => trivial) fun _ => trivial

theorem addMissing_uses (current : List Key) (desired : List Proxy) :
    (addMissing current desired).Uses Op.IsUpkeep := by
  induction desired
  case nil     => trivial
  case cons hi => exact Uses.bind (Async.uses_when ⟨trivial, fun _ => trivial⟩) fun _ => hi

theorem reconcile_uses (desired : List Proxy) : (reconcile desired).Uses Op.IsUpkeep :=
  Uses.bind ⟨trivial, fun _ => trivial⟩ fun _ =>
    Uses.bind (removeStale_uses ..) fun _ => addMissing_uses ..

end Watch

namespace Scheduler

variable (cfg : RecheckConfig)

theorem enroll_uses (now : Instant) (ks : List Key) (s : Schedule) :
    (enroll cfg now ks s).Uses Op.IsUpkeep := by
  induction ks generalizing s
  case nil => trivial
  case cons hi =>
    unfold enroll
    split
    · exact hi _
    · exact Uses.bind ⟨trivial, fun _ => trivial⟩ fun _ => hi _

theorem isTracked_uses (s : Schedule) (k : Key) : (isTracked s k).Uses Op.IsUpkeep := by
  unfold isTracked
  split
  · trivial
  · exact Uses.bind ⟨trivial, fun _ => trivial⟩ fun _ => trivial

theorem recheck_uses (s : Schedule) (k : Key) : (recheck cfg s k).Uses Op.IsUpkeep := by
  refine Uses.bind ⟨trivial, fun _ => trivial⟩ fun r => ?_
  refine Uses.bind ⟨trivial, fun _ => trivial⟩ fun _ => ?_
  refine Uses.bind ⟨trivial, fun _ => trivial⟩ fun now => ?_
  refine Uses.bind ⟨trivial, fun _ => trivial⟩ fun j => ?_
  dsimp only
  split
  · exact Uses.bind ⟨trivial, fun _ => trivial⟩ fun _ => trivial
  · refine Uses.bind (Uses.bind ⟨trivial, fun _ => trivial⟩ fun _ => trivial) fun _ => ?_
    split <;> trivial

theorem recheckLoop_uses (fuel : Nat) (s : Schedule) : (recheckLoop cfg fuel s).Uses Op.IsUpkeep := by
  induction fuel generalizing s
  case zero => exact Async.uses_never.mpr trivial
  case succ hi =>
    refine Uses.bind ⟨trivial, fun _ => trivial⟩ fun now => ?_
    refine Uses.bind ⟨trivial, fun _ => trivial⟩ fun addrs => ?_
    refine Uses.bind (enroll_uses ..) fun s => ?_
    split
    · refine Uses.bind ⟨trivial, fun _ => trivial⟩ fun t => ?_
      refine Uses.bind ⟨trivial, fun _ => trivial⟩ fun cancelled => ?_
      cases cancelled
      · exact hi _
      · trivial
    · refine Uses.bind ⟨trivial, fun _ => trivial⟩ fun t => ?_
      refine Uses.bind ⟨trivial, fun _ => trivial⟩ fun cancelled => ?_
      cases cancelled
      case true => trivial
      refine Uses.bind ⟨trivial, fun _ => trivial⟩ fun t => ?_
      dsimp only
      split
      · exact hi _
      · refine Uses.bind ⟨trivial, fun _ => trivial⟩ fun t => ?_
        refine Uses.bind ⟨trivial, fun _ => trivial⟩ fun cancelled => ?_
        cases cancelled
        case true => trivial
        refine Uses.bind ⟨trivial, fun _ => trivial⟩ fun tie => ?_
        split
        · exact Async.uses_never.mpr trivial
        · refine Uses.bind (isTracked_uses ..) fun tracked => ?_
          cases tracked
          · exact hi _
          · exact Uses.bind (recheck_uses ..) fun _ => hi _

theorem rechecker_uses (fuel : Nat) : (rechecker cfg fuel).Uses Op.IsUpkeep :=
  Uses.bind ⟨trivial, fun _ => trivial⟩ fun _ => recheckLoop_uses ..

end Scheduler

namespace Mcp

theorem handleReportDead_uses (addr : Str) : (handleReportDead addr).Uses Op.IsUpkeep := by
  unfold handleReportDead
  split
  · exact Uses.bind ⟨trivial, fun _ => trivial⟩ fun _ => trivial
  · trivial

theorem handleGetProxy_lease (scheme : Scheme) (country : Option Str) :
    Sat monitor (handleGetProxy scheme country) (fun _ h => h = none) none := by
  unfold handleGetProxy
  simp only [sat_bind]
  refine ⟨rfl, fun r => ?_⟩
  rcases r with _ | proxy
  · rfl
  · exact ⟨Pool.returns_self, fun _ => rfl⟩

end Mcp

namespace Connector

open Pool Negotiator

variable {c : Config} {p : Proxy}

theorem returns_recordAttempt (runtime : Option ℚ) (err : Option ProxyError) :
    Returns (some ⟨p, 1⟩) (p.recordAttempt runtime err) :=
  ⟨_, rfl, rfl, rfl⟩

theorem dial_lease (proto : Proto) (target : Target) :
    Sat monitor (dial p proto target) (fun _ h => h = some ⟨p, 1⟩) (some ⟨p, 0⟩) := by
  unfold dial
  simp only [sat_bind, Async.sat_net]
  refine ⟨⟨_, rfl, rfl⟩, fun r => ?_⟩
  change Sat monitor _ _ (some ⟨p, 1⟩)
  split
  · rfl
  · rfl
  · exact sat_streaming <| (negotiate_uses ..).mono fun _ h => h.isStreaming

theorem connectLoop_lease (fuel : Nat) (scheme : Scheme) (target : Target) (tries : Nat)
    (last : Option ProxyError) :
    Sat monitor (connectLoop c fuel scheme target tries last) (fun _ h => h = none) none := by
  induction tries generalizing last
  case zero => rfl
  case succ hi =>
    unfold connectLoop
    simp only [sat_bind]
    refine (get_lease fuel).mono fun chosen h hl => ?_
    cases hl
    rcases chosen with _ | proxy
    case none => rfl
    dsimp only [Option.map_some]
    split
    · simp only [sat_bind]
      refine (putInner_lease returns_self _).mono fun _ h hn => ?_
      cases hn
      exact hi _
    · simp only [sat_bind]
      refine (dial_lease _ _).mono fun r h hl => ?_
      cases hl
      rcases r with e | stream
      · simp only [sat_bind]
        refine (putFailed_lease <| returns_recordAttempt _ _).mono fun _ h hn => ?_
        cases hn
        exact hi _
      · simp only [sat_bind]
        exact (putInner_lease (returns_recordAttempt _ _) _).mono fun _ _ hn => hn

-- Other than for checkouts, a task only opens connections.
theorem connectLoop_uses_of {P : Op → Prop} (hc : ∀ o, o.IsCheckout → P o) (hd : ∀ k, P (.net (.dial .relay k)))
    (fuel : Nat) (scheme : Scheme) (target : Target) (tries : Nat) (last : Option ProxyError) :
    (connectLoop c fuel scheme target tries last).Uses P := by
  have hh {o : Op} (h : o.IsHandback) : P o := hc o h.isCheckout
  induction tries generalizing last
  case zero => trivial
  case succ hi =>
    refine Uses.bind ((getLoop_uses ..).mono hc) fun chosen => ?_
    split
    · trivial
    · split
      · exact Uses.bind ((putInner_handback ..).mono fun _ => hh) fun _ => hi _
      · refine Uses.bind (Uses.bind ⟨hd _, fun _ => trivial⟩ fun r => ?_) fun r => ?_
        · split
          · trivial
          · trivial
          · exact (negotiate_uses ..).mono fun o h => hc o h.isCheckout
        · split
          · exact Uses.bind ((putInner_handback ..).mono fun _ => hh) fun _ => trivial
          · exact Uses.bind ((putFailed_handback ..).mono fun _ => hh) fun _ => hi _

theorem connect_uses_of {P : Op → Prop} (hc : ∀ o, o.IsCheckout → P o) (hd : ∀ k, P (.net (.dial .relay k)))
    (hr : ∀ host, P (.net (.resolve host))) (fuel : Nat) (cfg : RotateConfig) (uri : Uri) :
    (connect c fuel cfg uri).Uses P := by
  unfold connect
  dsimp only
  split
  · trivial
  · exact Uses.bind ⟨hr _, fun _ => trivial⟩ fun _ => connectLoop_uses_of hc hd ..

theorem connect_uses (fuel : Nat) (cfg : RotateConfig) (uri : Uri) :
    (connect c fuel cfg uri).Uses Op.IsConnecting :=
  connect_uses_of (fun _ h => h.isLeasing.isConnecting) (fun _ => trivial) (fun _ => trivial) fuel cfg uri

theorem connect_lease (fuel : Nat) (cfg : RotateConfig) (uri : Uri) :
    Sat monitor (connect c fuel cfg uri) (fun _ h => h = none) none := by
  unfold connect
  dsimp only
  split
  · rfl
  · simp only [sat_bind]
    exact ⟨rfl, fun _ => connectLoop_lease ..⟩

end Connector

namespace Server

open Pool

variable {j : Job} {p : Proxy}

theorem relay_lease (proto : Proto) (target : Negotiator.Target) (req : ClientRequest)
    (allowed : Option (List UInt16)) :
    Sat monitor (relay p proto target req allowed) (fun _ h => h = some ⟨p, 1⟩) (some ⟨p, 0⟩) := by
  unfold relay
  simp only [sat_bind, Async.sat_net]
  refine ⟨⟨_, rfl, rfl⟩, fun r => ?_⟩
  change Sat monitor _ _ (some ⟨p, 1⟩)
  split
  · rfl
  · rfl
  · refine sat_streaming <| Uses.bind ((Negotiator.negotiate_uses ..).mono fun _ h => h.isStreaming) fun r => ?_
    split
    · trivial
    · refine Uses.bind ((acknowledge_uses ..).mono fun _ h => h.isStreaming) fun r => ?_
      split
      · trivial
      · exact Uses.bind ⟨trivial, fun _ => trivial⟩ fun _ => trivial

-- On every path, the proxy is handed back with the attempt counted.
theorem settle_lease (outcome : RelayOutcome) :
    Sat monitor (settle j p outcome) (fun _ h => h = none) (some ⟨p, 1⟩) := by
  have hr := @Connector.returns_recordAttempt p
  cases outcome
  all_goals simp only [settle, sat_bind]
  case ok => exact ⟨trivial, fun _ => (putInner_lease (hr _ _) _).mono fun _ _ h => h⟩
  case clientGone => exact (putInner_lease (hr _ _) _).mono fun _ _ h => h
  all_goals exact (putFailed_lease (hr _ _)).mono fun _ _ h => h

theorem attempts_lease (tries attempt : Nat) :
    Sat monitor (attempts j tries attempt) (fun _ h => h = none) none := by
  have fail : Sat monitor (do let _ ← writeAll (terminalFailure j.req.frontend)) (fun _ h => h = none) none :=
    sat_idle <| Uses.bind (writeAll_uses trivial) fun _ => trivial
  induction tries generalizing attempt
  case zero => exact fail
  case succ hi =>
    unfold attempts
    simp only [sat_bind]
    refine (get_lease _).mono fun chosen h hl => ?_
    cases hl
    rcases chosen with _ | proxy
    case none => exact fail
    simp only [Option.map_some, sat_bind]
    have rotate : Sat monitor (Async.when (0 < attempt) <| Async.exec .bumpRotations)
        (fun _ h => h = some ⟨proxy, 0⟩) (some ⟨proxy, 0⟩) :=
      Async.sat_when ⟨trivial, fun _ => rfl⟩ rfl
    refine rotate.mono fun _ h hl => ?_
    cases hl
    refine (relay_lease ..).mono fun outcome h hl => ?_
    cases hl
    refine (settle_lease outcome).mono fun again h hn => ?_
    cases hn
    cases again
    · rfl
    · exact hi _

theorem handleClient_lease (ctx : ConnCtx) (peer : IpAddr) :
    Sat monitor (handleClient ctx peer) (fun _ h => h = none) none := by
  unfold handleClient
  simp only [sat_bind]
  have ha : (accept ctx peer).Uses Op.IsIdle :=
    accept_uses ctx peer (fun _ h => h.isIdle) (fun _ h => h.isIdle) (fun _ => trivial)
  refine (sat_idle ha).mono fun job h hn => ?_
  cases hn
  split
  · exact attempts_lease ..
  · rfl

end Server

variable {c : Pool.Config}

theorem Service.lease {p : Async Unit} (h : Service c p) : Sat monitor p (fun _ h => h = none) none := by
  cases h
  case importer         => exact sat_idle <| Pool.importer_uses ..
  case handleClient     => exact Server.handleClient_lease ..
  case connect          => exact (sat_bind ..).mpr <| (Connector.connect_lease ..).mono fun _ _ h => h
  case reconcile        => exact sat_idle <| (Watch.reconcile_uses _).mono fun _ h => h.isIdle
  case rechecker        => exact sat_idle <| (Scheduler.rechecker_uses ..).mono fun _ h => h.isIdle
  case handleReportDead =>
    exact sat_idle <| Uses.bind ((Mcp.handleReportDead_uses _).mono fun _ h => h.isIdle) fun _ => trivial

theorem AnyService.lease {p : Async Unit} (h : AnyService c p) :
    Sat monitor p (fun _ h => h = none) none := by
  cases h
  case service h      => exact h.lease
  case handleGetProxy => exact (sat_bind ..).mpr <| (Mcp.handleGetProxy_lease ..).mono fun _ _ h => h
