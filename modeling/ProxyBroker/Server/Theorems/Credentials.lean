import ProxyBroker.Server.Theorems.Strip
import ProxyBroker.Server.Theorems.Uses

open Prog Utf8 Negotiator

namespace Server

variable {p : Proxy} {proto : Proto} {target : Target} {req : ClientRequest}
variable {allowed : Option (List UInt16)} {c : Credentials}

-- What `relay` writes to a proxy itself: the request for a tunnel, and later on the head of a request.
def Writes (p : Proxy) (target : Target) (req : ClientRequest) : Op → Prop
  | .net (.upWrite .negotiation bs) => bs = connectRequest target.host target.port p.auth
  | .net (.upWrite .exchange bs)    => req.frontend = .httpForward ∧ bs = toSend p req.raw
  | _                               => True

theorem Writes.of_negotiates {o : Op} (h : o.Negotiates (connectRequest target.host target.port p.auth) p.auth) :
    Writes p target req o := by
  cases o
  case net o =>
    cases o
    case upWrite ph _ => cases ph <;> first | exact h | exact (h : False).elim
    all_goals trivial
  all_goals trivial

theorem Writes.of_acknowledges {o : Op} (h : o.Acknowledges p req) : Writes p target req o := by
  cases o
  case net o =>
    cases o
    case upWrite ph _ => cases ph <;> first | exact h | exact (h : False).elim
    all_goals trivial
  all_goals trivial

theorem relay_writes : (relay p proto target req allowed).Uses (Writes p target req) := by
  refine Uses.bind ⟨trivial, fun _ => trivial⟩ fun r => ?_
  split
  case h_3 =>
    refine Uses.bind ((negotiate_uses_request ..).mono fun _ => .of_negotiates) fun r => ?_
    split
    · trivial
    · refine Uses.bind ((acknowledge_uses ..).mono fun _ => .of_acknowledges) fun r => ?_
      split
      · trivial
      · exact Uses.bind ⟨trivial, fun _ => trivial⟩ fun _ => trivial
  all_goals trivial

-- A proxy is only sent its credentials in a request for a tunnel, or in a request that it serves itself.
def Confined (c : Credentials) (proto : Proto) (target : Target) : Op → Prop
  | .net (.upWrite .negotiation bs) =>
    authText c ∈ headerLines bs proxyAuthorization → bs = connectRequest target.host target.port (some c)
  | .net (.upWrite .exchange bs)    =>
    authText c ∈ headerLines bs proxyAuthorization → proto = .http
  | _                               => True

theorem chooseProto_mem (p : Proxy) (scheme : Scheme) :
    chooseProto p scheme ∈ [Proto.http, .connect80, .socks5, .socks4] := by
  cases scheme
  case http =>
    simp only [chooseProto]
    cases h : [Proto.http, .connect80, .socks5, .socks4].find? p.hasType
    case none => decide
    case some => exact List.mem_of_find?_eq_some h
  case https =>
    simp only [chooseProto, tunnelProto]
    cases h : [Proto.socks5, .socks4, .connect80].find? p.hasType
    case none =>
      simp only [Option.orElse_none]
      split_ifs <;> decide
    case some t =>
      have : t ∈ [Proto.socks5, .socks4, .connect80] := List.mem_of_find?_eq_some h
      simp only [List.mem_cons, List.not_mem_nil, or_false] at this ⊢
      tauto

-- The credentials of a proxy are added to every head that has a line, whatever the client has sent.
theorem authText_mem_toSend_iff (hc : p.auth = some c) (raw : Bytes) :
    authText c ∈ headerLines (toSend p raw) proxyAuthorization ↔
    crlfPos raw ≠ none ∨ authText c ∈ headerLines raw proxyAuthorization := by
  have hs : toSend p raw = injectHeader (stripHeader raw proxyAuthorization) (encode (authLine c)) := by
    simp [toSend, hc]
  rw [hs]
  cases h : crlfPos raw
  case none =>
    have hr : stripHeader raw proxyAuthorization = raw := stripLoop_none h
    simp [hr, injectHeader_none h]
  case some =>
    obtain ⟨x, y, rfl, -, hx⟩ := crlfPos_some_iff.mp h
    obtain ⟨y', hy⟩ : ∃ y', stripHeader (x ++ cr :: lf :: y) proxyAuthorization = x ++ cr :: lf :: y' := by
      rw [stripHeader, length_append_crlf,
        stripLoop_split isLineStart_proxyAuthorization hx]
      simp [crlf]
    rw [hy, headerLines_injectHeader_split c hx]
    simp

-- The negotiation of a tunnel can succeed. SOCKS4 only supports addresses of one kind.
def Tunnels (proto : Proto) (target : Target) : Prop :=
  proto ≠ .http ∧ (proto = .socks4 → ∃ a b c d, target.ip = some (.v4 a b c d))

theorem negotiate_runs (creds : Option Credentials) (hp : proto ∈ [Proto.http, .connect80, .socks5, .socks4])
    (ht : Tunnels proto target) : ∃ tr, (negotiate proto target creds).Runs tr (.ret (.ok .plain)) := by
  simp only [List.mem_cons, List.not_mem_nil, or_false] at hp
  rcases hp with rfl | rfl | rfl | rfl
  · exact absurd rfl ht.left
  · exact ⟨_, negotiate_connect80_runs ..⟩
  · exact ⟨[⟨.net (.socks5 _ target.port creds), .ok⟩], .call .refl⟩
  · obtain ⟨a, b, c, d, hi⟩ := ht.right rfl
    simp only [negotiate, socks4, hi]
    exact ⟨[⟨.net (.socks4 (.v4 a b c d) target.port), .ok⟩], .call .refl⟩

-- A tunnel that cannot be negotiated is never written to.
theorem relay_not_tunnels (h : ¬∃ a b c d, target.ip = some (.v4 a b c d)) :
    (relay p .socks4 target req allowed).Uses fun o => ∀ bs, o ≠ Op.net (.upWrite .exchange bs) := by
  refine Uses.bind ⟨nofun, fun _ => trivial⟩ fun r => ?_
  split
  case h_3 =>
    have hn : negotiate .socks4 target p.auth = pure (.error .badResponse) := by
      simp only [negotiate, socks4]
      split
      case h_1 a b c d hi => exact absurd ⟨a, b, c, d, hi⟩ h
      case h_2 => rfl
    rw [hn]
    trivial
  all_goals trivial

-- A tunnel that can be negotiated can be written to.
theorem relay_tunnels (p : Proxy) (allowed : Option (List UInt16)) (hp : proto ∈ [Proto.http, .connect80, .socks5, .socks4])
    (ht : Tunnels proto target) (hf : req.frontend = .httpForward) :
    ∃ tr q, (relay p proto target req allowed).Runs tr q ∧
      ⟨.net (.upWrite .exchange (toSend p req.raw)), .done⟩ ∈ tr := by
  obtain ⟨tr, hr⟩ := negotiate_runs p.auth hp ht
  obtain ⟨q, ha⟩ : ∃ q, (acknowledge p req allowed).Runs
      [⟨.net (.upWrite .exchange (toSend p req.raw)), .done⟩] q := by
    simp only [acknowledge, hf]
    exact ⟨_, .call .refl⟩
  refine ⟨⟨.net (.dial .relay p.key), .ok⟩ :: (tr ++ _), _, .call (hr.bind_ret (ha.bind _)), ?_⟩
  simp

-- For every proxy with credentials and every request: the credentials are confined in all runs of `relay`
-- if and only if it is not the case that a request is forwarded through a tunnel, unless its head is one
-- which nothing can be added to.
theorem relay_confined_iff (hc : p.auth = some c) (target : Target) (req : ClientRequest)
    (allowed : Option (List UInt16)) :
    (∀ tr q, (relay p (chooseProto p req.scheme) target req allowed).Runs tr q →
      ∀ e ∈ tr, Confined c (chooseProto p req.scheme) target e.op) ↔
    (req.frontend = .httpForward → Tunnels (chooseProto p req.scheme) target →
      crlfPos req.raw = none ∧ authText c ∉ headerLines req.raw proxyAuthorization) := by
  have hm := authText_mem_toSend_iff hc req.raw
  constructor
  · intro h hf ht
    obtain ⟨tr, q, hr, he⟩ := relay_tunnels p allowed (chooseProto_mem ..) ht hf
    have hn := mt (h tr q hr _ he) ht.left
    rw [hm, not_or, not_not] at hn
    exact hn
  · intro h tr q hr e he
    have hw := (relay_writes.of_run hr).right e he
    obtain ⟨o, r⟩ := e
    cases o
    case net o =>
      cases o
      case upWrite ph bs =>
        cases ph
        case negotiation => exact fun _ => hc ▸ hw
        case exchange =>
          obtain ⟨hf, rfl⟩ := hw
          intro hl
          by_contra hp
          have ht : Tunnels (chooseProto p req.scheme) target := by
            refine ⟨hp, fun hs => ?_⟩
            by_contra hn
            rw [hs] at hr
            exact ((relay_not_tunnels hn).of_run hr).right _ he _ rfl
          have := h hf ht
          rw [hm] at hl
          tauto
      all_goals trivial
    all_goals trivial

end Server

namespace Server.CredentialsExample

def credentials : Credentials where
  username := "user".toList
  password := "pass".toList

-- A proxy that only supports SOCKS5.
def proxy : Proxy :=
  (Proxy.new (.v4 10 0 0 1) 1080 ∅).addType .socks5 none |>.withAuth credentials

def raw : Bytes :=
  encode "GET http://x/ HTTP/1.1\r\n\r\n".toList

def req : ClientRequest where
  scheme    := .http
  frontend  := .httpForward
  host      := "x".toList
  port      := 80
  raw       := raw
  proxyAuth := none
  path      := "http://x/".toList

def target : Target :=
  ⟨"x".toList, none, 80⟩

end Server.CredentialsExample

namespace Server

open CredentialsExample in
-- The origin, to which the tunnel leads, is sent the credentials of the proxy.
theorem relay_leaks :
    parseHttp raw = some req ∧
    toSend proxy raw = encode ("GET http://x/ HTTP/1.1\r\n".toList ++
      "Proxy-Authorization: Basic dXNlcjpwYXNz\r\n\r\n".toList) ∧
    ∃ q, (relay proxy (chooseProto proxy req.scheme) target req none).Runs [
        ⟨.net (.dial .relay proxy.key), .ok⟩,
        ⟨.net (.socks5 (.host "x".toList) 80 (some credentials)), .ok⟩,
        ⟨.net (.upWrite .exchange (toSend proxy raw)), .done⟩] q ∧
      ¬Confined credentials (chooseProto proxy req.scheme) target
        (.net (.upWrite .exchange (toSend proxy raw))) := by
  refine ⟨by decide, by decide, _, .call <| .call <| .call .refl, fun h => ?_⟩
  have hm : authText credentials ∈ headerLines (toSend proxy raw) proxyAuthorization := by decide
  exact absurd (h hm) (by decide)

open CredentialsExample in
theorem relay_confined_iff_socks5 :
    ¬∀ tr q, (relay proxy (chooseProto proxy req.scheme) target req none).Runs tr q →
      ∀ e ∈ tr, Confined credentials (chooseProto proxy req.scheme) target e.op := by
  rw [relay_confined_iff (c := credentials) rfl]
  intro h
  have := (h rfl ⟨by decide, fun h => absurd h (by decide)⟩).left
  revert this
  decide

end Server
