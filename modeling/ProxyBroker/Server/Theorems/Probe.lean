import ProxyBroker.Connector
import ProxyBroker.Server.Relay
import ProxyBroker.Resumption.System

open Prog Negotiator

namespace Server

-- What is reached at the address of a proxy. Its answers, and whether they come in time, depend only on
-- what has happened on the connection.
structure Upstream where
  Conn   : Type
  fresh  : Conn
  accept : DialResult
  answer : Conn → (o : NetOp) → o.Ret × Conn

namespace Upstream

variable (u : Upstream) (c : Pool.Config) (p : Proxy) (proto : Proto) (target : Target)

-- All connections begin alike, whatever they are made for.
def answers (s : u.Conn) : Event Effects → u.Conn → Prop
  | ⟨.net (.dial _ _), r⟩, s' => r = u.accept ∧ s' = u.fresh
  | ⟨.net o, r⟩, s'           => (r, s') = u.answer s o
  | _, _                      => False

def machine : Machine Effects u.Conn where
  answers := u.answers

-- Dialling the proxy and negotiating the protocol succeeds.
def Opens : Prop :=
  ∃ tr s stream, u.machine.Exec u.fresh (Connector.dial p proto target) tr s (.ret (.ok stream))

-- The probe succeeds.
def Passes : Prop :=
  ∃ tr s, u.machine.Exec u.fresh (Pool.verifyLive c p) tr s (.ret true)

end Upstream

-- The probe succeeds for every upstream by which a tunnel to the verify target can be opened, whatever
-- address the host of that target has.
def Agrees (c : Pool.Config) (p : Proxy) (proto : Proto) : Prop :=
  ∀ (u : Upstream) ip, u.Opens p proto ⟨c.verifyTarget.1, ip, c.verifyTarget.2⟩ → u.Passes c p

variable {u : Upstream} {c : Pool.Config} {p : Proxy} {proto : Proto} {target : Target} {scheme : Scheme}

-- The relay opens a tunnel in the same way.
theorem relay_eq_dial (req : ClientRequest) (allowed : Option (List UInt16)) :
    relay p proto target req allowed = (do
      match ← Connector.dial p proto target with
      | .error e => return .retryableFailure e
      | .ok _ =>
        match ← acknowledge p req allowed with
        | some outcome => return outcome
        | none =>
          let r : Spliced := ← Async.net .splice
          return if r.ok then .ok else .clientCommitted .errorOnStream) := by
  refine congrArg (Prog.call (S := Effects) _) (funext fun r => ?_)
  cases (r : DialResult) <;> rfl

namespace Upstream

theorem answers_unique {s s₁ s₂ : u.Conn} {o : Op} {r₁ r₂ : o.Ret} (h₁ : u.machine.answers s ⟨o, r₁⟩ s₁)
    (h₂ : u.machine.answers s ⟨o, r₂⟩ s₂) : r₁ = r₂ ∧ s₁ = s₂ := by
  cases o
  case net o =>
    cases o
    case dial => exact ⟨h₁.left.trans h₂.left.symm, h₁.right.trans h₂.right.symm⟩
    all_goals exact Prod.mk.inj ((h₁ : _ = _).trans (h₂ : _ = _).symm)
  all_goals exact (h₁ : False).elim

-- The protocols that begin with a `CONNECT` request.
theorem exec_httpConnect {creds : Option Credentials} {tr : Trace Effects} {s s' : u.Conn} {stream : Stream}
    (h : u.machine.Exec s (negotiate proto target creds) tr s' (.ret (.ok stream)))
    (hp : proto ∉ [.http, .socks4, .socks5]) :
    ∃ tr s', u.machine.Exec s (httpConnect target creds) tr s' (.ret (.ok ())) := by
  cases proto
  case http | socks4 | socks5 => simp at hp
  case connect80 | connect25 | https =>
    obtain ⟨r, tr₁, tr₂, s', rfl, hc, h⟩ := h.of_bind
    cases r
    case error => cases h
    case ok    => exact ⟨tr₁, s', hc⟩

theorem Opens.passes {ip : Option IpAddr} (h : u.Opens p proto ⟨c.verifyTarget.1, ip, c.verifyTarget.2⟩)
    (hp : proto ∉ [.http, .socks4, .socks5]) : u.Passes c p := by
  obtain ⟨tr, s, stream, h⟩ := h
  cases h
  case call r ha h =>
    cases r
    case failed | timedOut => cases h
    case ok =>
      obtain ⟨tr, s, h⟩ := exec_httpConnect h hp
      have hn : u.machine.Exec _ (negotiate .connect80 ⟨c.verifyTarget.1, none, c.verifyTarget.2⟩ p.auth) (tr ++ []) s
          (.ret (.ok .plain)) := h.bind_ret .refl
      exact ⟨_, s, .call ha (hn.bind_ret .refl)⟩

-- An upstream that completes every handshake of SOCKS, and closes its connections upon anything else.
def socksOnly : Upstream where
  Conn   := Unit
  fresh  := ()
  accept := .ok
  answer _
    | .dial ..        => (.ok, ())
    | .socks4 ..      => (.ok, ())
    | .socks5 ..      => (.ok, ())
    | .upWrite ..     => (.done, ())
    | .upRead ..      => (.data [], ())
    | .tls _          => (.failed, ())
    | .resolve _      => (none, ())
    | .clientRead _   => (.error, ())
    | .clientWrite _  => (.failed 0, ())
    | .splice         => (⟨[], [], false⟩, ())

theorem socksOnly_opens (hp : proto ∈ [.http, .socks4, .socks5]) (host : Str) (port : UInt16) :
    socksOnly.Opens p proto ⟨host, some (.v4 1 1 1 1), port⟩ := by
  have hn : ∃ tr, socksOnly.machine.Exec () (negotiate proto ⟨host, some (.v4 1 1 1 1), port⟩ p.auth) tr ()
      (.ret (.ok .plain)) := by
    simp only [List.mem_cons, List.not_mem_nil, or_false] at hp
    rcases hp with rfl | rfl | rfl
    case inl => exact ⟨_, .refl⟩
    case inr.inl => exact ⟨[⟨.net (.socks4 _ _), .ok⟩], .call rfl .refl⟩
    case inr.inr => exact ⟨[⟨.net (.socks5 _ _ _), .ok⟩], .call rfl .refl⟩
  obtain ⟨tr, hn⟩ := hn
  exact ⟨⟨.net (.dial .relay p.key), .ok⟩ :: tr, (), .plain, .call ⟨rfl, rfl⟩ hn⟩

theorem socksOnly_not_passes : ¬socksOnly.Passes c p := by
  rintro ⟨tr, s, h⟩
  have hf : socksOnly.machine.Exec () (Pool.verifyLive c p)
      [⟨.net (.dial .probe p.key), .ok⟩,
       ⟨.net (.upWrite .negotiation (connectRequest c.verifyTarget.1 c.verifyTarget.2 p.auth)), .done⟩,
       ⟨.net (.upRead .negotiation 1), .data []⟩] () (.ret false) :=
    .call ⟨rfl, rfl⟩ <| .call rfl <| .call rfl .refl
  exact Bool.noConfusion <| hf.unique answers_unique h

end Upstream

theorem agrees_iff : Agrees c p proto ↔ proto ∉ [.http, .socks4, .socks5] := by
  constructor
  case mp  => exact fun h hp => Upstream.socksOnly_not_passes <| h _ _ <| Upstream.socksOnly_opens hp _ _
  case mpr => exact fun hp u ip h => h.passes hp

theorem tunnelProto_cases (h : tunnelProto p = some proto) : proto ∈ [.socks5, .socks4, .connect80] := by
  unfold tunnelProto at h
  cases hf : [Proto.socks5, .socks4, .connect80].find? p.hasType
  case some => exact Option.some.inj (hf ▸ h) ▸ List.mem_of_find?_eq_some hf
  case none =>
    rw [hf] at h
    simp only [Option.orElse_none, Option.ite_none_right_eq_some, Option.some.injEq] at h
    simp [← h.right]

theorem chooseProto_cases : chooseProto p scheme ∈ [.http, .connect80, .socks5, .socks4] := by
  unfold chooseProto
  cases scheme
  case https =>
    cases ht : tunnelProto p
    case none   => simp
    case some t => have := tunnelProto_cases ht; simp_all; tauto
  case http =>
    cases hf : [Proto.http, .connect80, .socks5, .socks4].find? p.hasType
    case none   => simp
    case some t => exact List.mem_of_find?_eq_some hf

-- The protocol by which the server uses the proxy.
theorem probe_agrees_iff (h : proto = chooseProto p scheme ∨ tunnelProto p = some proto) :
    Agrees c p proto ↔ proto = .connect80 := by
  have hp : proto ∈ [.http, .connect80, .socks5, .socks4] := by
    rcases h with rfl | h
    · exact chooseProto_cases
    · have := tunnelProto_cases h
      simp_all
      tauto
  rw [agrees_iff]
  cases proto <;> simp at hp ⊢

def probed (proto : Proto) : Proxy :=
  (Proxy.new (.v4 10 0 0 1) 1080 ∅).addType proto none

-- The default target of the probe can be reached through SOCKS5, but not by a `CONNECT` request.
theorem probe_rejects_socks5 : chooseProto (probed .socks5) .https = .socks5 ∧
    Upstream.socksOnly.Opens (probed .socks5) .socks5 ⟨"1.1.1.1".toList, some (.v4 1 1 1 1), 443⟩ ∧
    ¬Upstream.socksOnly.Passes .default (probed .socks5) :=
  ⟨rfl, Upstream.socksOnly_opens (by decide) _ _, Upstream.socksOnly_not_passes⟩

theorem probe_agrees_connect80 : Agrees .default (probed .connect80) .connect80 :=
  (@probe_agrees_iff .default (probed .connect80) .connect80 .https (.inl rfl)).mpr rfl

end Server
