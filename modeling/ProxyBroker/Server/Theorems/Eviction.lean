import ProxyBroker.Connector
import ProxyBroker.Pool.Theorems.Checkout
import ProxyBroker.Server.Theorems.Commit
import Mathlib.Tactic.Linarith

open Prog Pool Negotiator Binary64

namespace Server

-- A proxy that serves a request or a connection, the pools before and after it is handed back, and how long it
-- has taken, which the program does not find out.
structure Service where
  before : State
  after  : State
  took   : ℚ

-- A leased proxy `p` serves with success, either a client of the server or a connection of `hyper`. What is
-- handed back is `p'`.
inductive Serves (c : Config) (p : Proxy) (v : Service) (p' : Proxy) : Prop
  | relay {j : Job} {tr tr' : Trace Effects} :
    j.config = c →
    (relay p (chooseProto p j.req.scheme) j.target j.req c.httpAllowedCodes).Runs tr (.ret .ok) →
    (machine c).Exec v.before (settle j p .ok) tr' v.after (.ret false) → tr'.returned = [p'] → Serves c p v p'
  | connection {scheme : Scheme} {proto : Proto} {target : Target} {stream : Stream} {tr tr' : Trace Effects} :
    Connector.connectProto p scheme = some proto →
    (Connector.dial p proto target).Runs tr (.ret (.ok stream)) →
    (machine c).Exec v.before (putOk c (p.recordAttempt (some 0) none)) tr' v.after (.ret ()) →
    tr'.returned = [p'] → Serves c p v p'

-- Consecutive services of a proxy. Others can do as they like in between.
inductive Services (c : Config) : Proxy → List Service → Prop
  | nil {p : Proxy} : Services c p []
  | cons {p p' : Proxy} {v : Service} {vs : List Service} :
    Serves c p v p' → Services c p' vs → Services c p (v :: vs)

-- The proxy is not handed back, but evicted.
def Service.Drops (v : Service) : Prop :=
  v.after = { v.before with evictions := v.before.evictions + 1 }

-- Services of a proxy that is slower than permitted, both so far and in each of them.
structure Slow (c : Config) (p : Proxy) (vs : List Service) : Prop where
  services : Services c p vs
  recorded : ∀ t ∈ p.runtimes, c.maxRespTime + 1 / 100 ≤ t
  took     : ∀ v ∈ vs, c.maxRespTime + 1 / 100 < v.took
  enough   : max 1 c.minReq.toNat ≤ vs.length

-- A proxy that has served a number of times.
def served (p : Proxy) (n : Nat) : Proxy :=
  { p with requests := p.requests + .ofNat n, runtimes := p.runtimes ++ List.replicate n 0 }

variable {c : Config} {p p' : Proxy} {v : Service} {vs : List Service} {n : Nat}

theorem served_succ : served (p.recordAttempt (some 0) none) n = served p (n + 1) := by
  have hr : p.requests + 1 + UInt32.ofNat n = p.requests + UInt32.ofNat (n + 1) := by
    rw [UInt32.ofNat_add, add_assoc, add_comm 1]
    rfl
  simp [served, Proxy.recordAttempt, hr, List.replicate_succ]

-- On both paths, the time that is recorded for a success is zero.
theorem Serves.spec (h : Serves c p v p') : p' = p.recordAttempt (some 0) none ∧
    v.after = if unhealthy c p' then { v.before with evictions := v.before.evictions + 1 }
      else v.before.push ⟨p', none⟩ := by
  obtain ⟨s, s', took⟩ := v
  cases h
  case relay j tr tr' hj _ h hr =>
    subst hj
    cases h
    case call ha h =>
      cases ha
      obtain ⟨_, tr₁, tr₂, s, rfl, h₁, h⟩ := Machine.Exec.of_bind (p := putOk j.config _) h
      obtain ⟨rfl, rfl, -⟩ := h.of_ret
      obtain ⟨hp, hs⟩ := putInner_exec h₁
      rw [List.append_nil] at hr
      cases hp.symm.trans hr
      exact ⟨rfl, hs⟩
  case connection h hr =>
    obtain ⟨hp, hs⟩ := putInner_exec h
    cases hp.symm.trans hr
    exact ⟨rfl, hs⟩

-- Every connection that is opened is such a service of the proxy that opens it.
theorem connectLoop_serves {fuel tries : Nat} {scheme : Scheme} {target : Target} {last : Option ProxyError}
    {s s' : State} {tr : Trace Effects} {stream : Stream} (took : ℚ)
    (h : (machine c).Exec s (Connector.connectLoop c fuel scheme target tries last) tr s' (.ret (.ok stream))) :
    ∃ p p' s, Serves c p ⟨s, s', took⟩ p' := by
  induction tries generalizing s tr last
  case zero => cases h
  case succ tries hi =>
    unfold Connector.connectLoop at h
    obtain ⟨r, tr₁, tr₂, s₁, rfl, -, h⟩ := h.of_bind
    cases r
    case none => cases h
    case some p =>
      dsimp only at h
      cases hc : Connector.connectProto p scheme <;> rw [hc] at h
      case none =>
        obtain ⟨_, tr₃, tr₄, s₂, rfl, -, h⟩ := Machine.Exec.of_bind (p := putOk c p) h
        exact hi h
      case some proto =>
        obtain ⟨r, tr₃, tr₄, s₂, rfl, hd, h⟩ := Machine.Exec.of_bind (p := Connector.dial p proto target) h
        cases r
        case error e =>
          obtain ⟨_, tr₅, tr₆, s₃, rfl, -, h⟩ := Machine.Exec.of_bind (p := putFailed c _) h
          exact hi h
        case ok =>
          obtain ⟨_, tr₅, tr₆, s₃, rfl, hp, h⟩ := Machine.Exec.of_bind (p := putOk c _) h
          obtain ⟨-, rfl, -⟩ := h.of_ret
          exact ⟨p, _, s₂, .connection hc hd.runs hp (putInner_exec hp).left⟩

-- It is handed back, or it is evicted.
theorem Serves.drops_iff (h : Serves c p v p') : v.Drops ↔ unhealthy c (served p 1) = true := by
  obtain ⟨rfl, hs⟩ := h.spec
  rw [Service.Drops, hs, show served p 1 = p.recordAttempt (some 0) none from rfl]
  split_ifs with hu
  · simp [hu]
  · refine iff_of_false (fun he => ?_) hu
    have := congrArg (fun s => s.state.length) he
    simp [State.push] at this

-- Whenever the proxy has served once more, its statistics decide.
theorem Services.drops_iff (h : Services c p vs) :
    (∃ v ∈ vs, v.Drops) ↔ ∃ n < vs.length, unhealthy c (served p (n + 1)) = true := by
  induction h
  case nil => simp
  case cons p p' v vs h _ hi =>
    rw [List.exists_mem_cons_iff, h.drops_iff, hi, h.spec.left]
    simp only [served_succ, List.length_cons]
    constructor
    · rintro (hu | ⟨n, hn, hu⟩)
      · exact ⟨0, Nat.zero_lt_succ _, hu⟩
      · exact ⟨n + 1, Nat.succ_lt_succ hn, hu⟩
    · rintro ⟨n, hn, hu⟩
      cases n
      case zero   => exact .inl hu
      case succ n => exact .inr ⟨n, Nat.lt_of_succ_lt_succ hn, hu⟩

-- After some service, the proxy has had enough requests, and either too many of them have failed or what was
-- recorded of its former slowness outweighs the services that seem to have taken no time.
def Outweighs (c : Config) (p : Proxy) (k : Nat) : Prop :=
  ∃ n, 1 ≤ n ∧ n ≤ k ∧ c.minReq ≤ p.requests + .ofNat n ∧
    (c.maxErrorRate < (served p n).errorRate ∨
      c.maxRespTime < round2 (div (sum p.runtimes) (nearest (p.runtimes.length + n))))

theorem avgRespTime_served : (served p (n + 1)).avgRespTime =
    round2 (div (sum p.runtimes) (nearest (p.runtimes.length + (n + 1)))) := by
  simp [Proxy.avgRespTime, served, sum_append_zeros]

-- A slow proxy is evicted exactly if it has been slow often enough before.
theorem slow_evicted_iff (h : Slow c p vs) : (∃ v ∈ vs, v.Drops) ↔ Outweighs c p vs.length := by
  have hu (n : Nat) : unhealthy c (served p (n + 1)) = true ↔ c.minReq ≤ p.requests + .ofNat (n + 1) ∧
      (c.maxErrorRate < (served p (n + 1)).errorRate ∨
        c.maxRespTime < round2 (div (sum p.runtimes) (nearest (p.runtimes.length + (n + 1))))) := by
    rw [← avgRespTime_served]
    simp [unhealthy, served]
  rw [h.services.drops_iff, Outweighs]
  constructor
  · rintro ⟨n, hn, h⟩
    exact ⟨n + 1, by omega, hn, by exact_mod_cast (hu n).mp h⟩
  · rintro ⟨n, h₁, hn, h⟩
    obtain ⟨n, rfl⟩ := Nat.exists_eq_add_of_le' h₁
    exact ⟨n, hn, (hu n).mpr (by exact_mod_cast h)⟩

namespace EvictionExample

open SocksExample

-- Clients that are served through SOCKS5.
theorem relay_ok {p : Proxy} (hp : chooseProto p .https = .socks5) :
    (relay p (chooseProto p .https) job.target job.req none).Runs
      [⟨.net (.dial .relay p.key), .ok⟩, ⟨.net (.socks5 (.host "10.0.0.2".toList) 80 p.auth), .ok⟩,
       ⟨.net (.clientWrite socksAck), .done⟩, ⟨.net .splice, ⟨[1, 2], [], true⟩⟩] (.ret .ok) := by
  rw [hp]
  exact .call <| .call <| .call <| .call .refl

theorem exists_serves {p : Proxy} (hp : chooseProto p .https = .socks5) :
    ∃ s', Serves .default p ⟨.spawned, s', 20⟩ (p.recordAttempt (some 0) none) := by
  have hs : ∃ tr s', (machine .default).Exec .spawned (settle job p .ok) tr s' (.ret false) ∧
      tr.returned = [p.recordAttempt (some 0) none] := by
    by_cases hu : unhealthy .default (p.recordAttempt (some 0) none) = true
    · have he : (machine .default).Exec .spawned (putOk .default (p.recordAttempt (some 0) none))
          [⟨.pool (.evict (p.recordAttempt (some 0) none)), ()⟩] { State.spawned with evictions := 1 } (.ret ()) := by
        rw [putOk, putInner, if_pos hu]
        exact .call rfl .refl
      exact ⟨_, _, .call (r := ()) rfl <| he.bind_ret .refl, rfl⟩
    · have he : (machine .default).Exec .spawned (putOk .default (p.recordAttempt (some 0) none))
          [⟨.pool (.push .holder ⟨p.recordAttempt (some 0) none, none⟩), ()⟩, ⟨.pool .notifyWaiters, ()⟩]
          (State.spawned.push ⟨p.recordAttempt (some 0) none, none⟩) (.ret ()) := by
        rw [putOk, putInner, if_neg hu]
        exact .call rfl <| .call rfl .refl
      exact ⟨_, _, .call (r := ()) rfl <| he.bind_ret .refl, rfl⟩
  obtain ⟨tr, s', he, hr⟩ := hs
  exact ⟨s', @Serves.relay _ _ _ _ job _ _ rfl (relay_ok hp) he hr⟩

theorem exists_services {p : Proxy} (hp : chooseProto p .https = .socks5) (n : Nat) :
    ∃ vs, Services .default p vs ∧ (∀ v ∈ vs, v.took = 20) ∧ vs.length = n := by
  induction n generalizing p
  case zero => exact ⟨[], .nil, by simp, rfl⟩
  case succ n hi =>
    obtain ⟨s', h⟩ := exists_serves hp
    obtain ⟨vs, hv, ht, hl⟩ := hi (p := p.recordAttempt (some 0) none) hp
    exact ⟨_, .cons h hv, List.forall_mem_cons.mpr ⟨rfl, ht⟩, by rw [List.length_cons, hl]⟩

end EvictionExample

open EvictionExample in
-- Five requests of 20 seconds each, whereas 8 seconds are permitted.
theorem slow_kept : ∃ vs, Slow .default SocksExample.proxy vs ∧ ¬∃ v ∈ vs, v.Drops := by
  obtain ⟨vs, hv, ht, hl⟩ := exists_services (p := SocksExample.proxy) rfl 5
  refine ⟨vs, ⟨hv, by simp [SocksExample.proxy, Proxy.new, Proxy.addType], fun v hm => ?_, by rw [hl]; decide⟩, ?_⟩
  · rw [ht v hm]
    decide +kernel
  · rw [hv.drops_iff, hl]
    decide +kernel

open EvictionExample in
-- A proxy that once was very slow.
theorem slow_evicted_iff_once : ∃ vs, Slow .default { SocksExample.proxy with runtimes := [100] } vs ∧
    ∃ v ∈ vs, v.Drops := by
  obtain ⟨vs, hv, ht, hl⟩ := exists_services (p := { SocksExample.proxy with runtimes := [100] }) rfl 5
  have hs : Slow .default { SocksExample.proxy with runtimes := [100] } vs := by
    refine ⟨hv, by decide +kernel, fun v hm => ?_, by rw [hl]; decide⟩
    rw [ht v hm]
    decide +kernel
  refine ⟨vs, hs, (slow_evicted_iff hs).mpr ⟨5, by decide, hl.ge, by decide, .inr ?_⟩⟩
  decide +kernel

end Server
