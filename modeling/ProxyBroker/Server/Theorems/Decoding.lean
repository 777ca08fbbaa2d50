import ProxyBroker.Objects.Theorems.IpText
import ProxyBroker.Server.Theorems.Handshake
import ProxyBroker.Server.Theorems.Sender

open Prog Utf8 Trace

namespace Server

def beBytes (n : UInt16) : Bytes :=
  [(n / 256).toUInt8, (n % 256).toUInt8]

-- What a SOCKS5 client asks to be connected to.
inductive Destination
  | ip (a : IpAddr)
  | domain (d : Bytes) (fits : d.length < 256)

namespace Destination

def kind : Destination → UInt8
  | ip (.v4 ..) => 0x01
  | ip (.v6 ..) => 0x04
  | domain ..   => 0x03

def body : Destination → Bytes
  | ip (.v4 a b c d)                 => [a, b, c, d]
  | ip (.v6 s₀ s₁ s₂ s₃ s₄ s₅ s₆ s₇) => [s₀, s₁, s₂, s₃, s₄, s₅, s₆, s₇].flatMap beBytes
  | domain d _                       => UInt8.ofNat d.length :: d

def text : Destination → Str
  | ip a       => a.display
  | domain d _ => lossy d

end Destination

-- What a SOCKS5 client sends to a server that expects the given credentials. The version of RFC 1929 and the reserved
-- byte do not matter.
structure Hello (expected : Option AuthExpect) where
  methods  : Bytes
  version  : UInt8
  reserved : UInt8
  dst      : Destination
  port     : UInt16
  few      : methods.length < 256
  offered  : (if expected.isSome then 0x02 else 0x00) ∈ methods
  short    : ∀ e ∈ expected, (encode e.user).length < 256 ∧ (encode e.pass).length < 256

namespace Hello

variable {expected : Option AuthExpect} (h : Hello expected)

def greeting : Bytes :=
  UInt8.ofNat h.methods.length :: h.methods

def password : Bytes :=
  expected.elim [] fun e =>
    [h.version, UInt8.ofNat (encode e.user).length] ++ encode e.user ++
    UInt8.ofNat (encode e.pass).length :: encode e.pass

def connect : Bytes :=
  [0x05, 0x01, h.reserved, h.dst.kind] ++ h.dst.body ++ beBytes h.port

def render : Bytes :=
  0x05 :: (h.greeting ++ h.password ++ h.connect)

def request : ClientRequest :=
  socksRequest h.dst.text h.port

end Hello

@[simp]
theorem ofBeBytes_beBytes (n : UInt16) : ofBeBytes (beBytes n) = n :=
  IpAddr.toUInt16_div_mod n

theorem beBytes_ofBeBytes {p : Bytes} (h : p.length = 2) : beBytes (ofBeBytes p) = p := by
  obtain ⟨hi, lo, rfl⟩ := List.length_eq_two.mp h
  have h₁ := hi.toNat_lt
  have h₂ := lo.toNat_lt
  simp only [ofBeBytes, beBytes, List.cons.injEq, ← UInt8.toNat_inj, and_true]
  constructor
  · simp
    omega
  · simp

-- The octets of an IPv6 address can be taken in pairs.
theorem exists_segments {a : Bytes} (h : a.length = 16) : ∃ s₀ s₁ s₂ s₃ s₄ s₅ s₆ s₇,
    a = [s₀, s₁, s₂, s₃, s₄, s₅, s₆, s₇].flatMap beBytes ∧ ipv6Text a = (IpAddr.v6 s₀ s₁ s₂ s₃ s₄ s₅ s₆ s₇).display := by
  obtain ⟨a₀, b₀, a₁, b₁, a₂, b₂, a₃, b₃, a₄, b₄, a₅, b₅, a₆, b₆, a₇, b₇, rfl⟩ : ∃ a₀ b₀ a₁ b₁ a₂ b₂ a₃ b₃ a₄ b₄ a₅ b₅
      a₆ b₆ a₇ b₇, a = [a₀, b₀, a₁, b₁, a₂, b₂, a₃, b₃, a₄, b₄, a₅, b₅, a₆, b₆, a₇, b₇] := by
    match a, h with
    | [_, _, _, _, _, _, _, _, _, _, _, _, _, _, _, _], _ => exact ⟨_, _, _, _, _, _, _, _, _, _, _, _, _, _, _, _, rfl⟩
  refine ⟨ofBeBytes [a₀, b₀], ofBeBytes [a₁, b₁], ofBeBytes [a₂, b₂], ofBeBytes [a₃, b₃], ofBeBytes [a₄, b₄],
    ofBeBytes [a₅, b₅], ofBeBytes [a₆, b₆], ofBeBytes [a₇, b₇], ?_, rfl⟩
  have hb (hi lo : UInt8) : beBytes (ofBeBytes [hi, lo]) = [hi, lo] := beBytes_ofBeBytes rfl
  simp only [List.flatMap_cons, List.flatMap_nil, hb, List.cons_append, List.nil_append]

theorem ipv6Text_flatMap (s₀ s₁ s₂ s₃ s₄ s₅ s₆ s₇ : UInt16) :
    ipv6Text ([s₀, s₁, s₂, s₃, s₄, s₅, s₆, s₇].flatMap beBytes) = (IpAddr.v6 s₀ s₁ s₂ s₃ s₄ s₅ s₆ s₇).display := by
  have h : ipv6Text ([s₀, s₁, s₂, s₃, s₄, s₅, s₆, s₇].flatMap beBytes) = (IpAddr.v6
      (ofBeBytes (beBytes s₀)) (ofBeBytes (beBytes s₁)) (ofBeBytes (beBytes s₂)) (ofBeBytes (beBytes s₃))
      (ofBeBytes (beBytes s₄)) (ofBeBytes (beBytes s₅)) (ofBeBytes (beBytes s₆)) (ofBeBytes (beBytes s₇))).display := rfl
  simp only [h, ofBeBytes_beBytes]

theorem toNat_length {x : Bytes} (h : x.length < 256) : (UInt8.ofNat x.length).toNat = x.length := by
  simpa using h

section Decoding

open Sender

variable {expected : Option AuthExpect} {y : Bytes}

-- An address is read with everything that belongs to it.
theorem socks5Addr_total {post : Option (Str × UInt16) → Bytes → Prop} (dst : Destination) (port : UInt16) :
    machine.Total (socks5Addr dst.kind) post (dst.body ++ (beBytes port ++ y)) ↔ post (some (dst.text, port)) y := by
  have hp : (beBytes port).length = 2 := rfl
  unfold socks5Addr
  rcases dst with (⟨a, b, c, d⟩ | ⟨s₀, s₁, s₂, s₃, s₄, s₅, s₆, s₇⟩) | ⟨d, hd⟩
  case ip.v4 =>
    have hk : (Destination.ip (.v4 a b c d)).kind = 0x01 := rfl
    rw [if_pos hk]
    refine (readExact_bind_iff (x := [a, b, c, d]) rfl).trans ?_
    refine (readExact_bind_iff hp).trans ?_
    rw [ofBeBytes_beBytes]
    rfl
  case ip.v6 =>
    have hk : (Destination.ip (.v6 s₀ s₁ s₂ s₃ s₄ s₅ s₆ s₇)).kind = 0x04 := rfl
    rw [hk, if_neg (by decide), if_pos rfl]
    refine (readExact_bind_iff (x := [s₀, s₁, s₂, s₃, s₄, s₅, s₆, s₇].flatMap beBytes) rfl).trans ?_
    refine (readExact_bind_iff hp).trans ?_
    rw [ofBeBytes_beBytes, ipv6Text_flatMap]
    rfl
  case domain =>
    have hk : (Destination.domain d hd).kind = 0x03 := rfl
    rw [hk, if_neg (by decide), if_neg (by decide), if_pos rfl, Destination.body, List.cons_append]
    refine (readExact_bind_iff (x := [UInt8.ofNat d.length]) rfl).trans ?_
    refine (readExact_bind_iff (toNat_length hd).symm).trans ?_
    refine (readExact_bind_iff hp).trans ?_
    rw [ofBeBytes_beBytes]
    rfl

theorem socks5Auth_total {post : Option Unit → Bytes → Prop} (h : Hello expected) :
    machine.Total (socks5Auth h.methods expected) post (h.password ++ y) ↔ post (some ()) y := by
  rcases expected with _ | e
  case none =>
    have hm : 0x00 ∈ h.methods := h.offered
    unfold socks5Auth
    dsimp only
    rw [if_neg (not_not.mpr hm), Machine.total_bind, writeAll_total]
    rfl
  case some =>
    have hm : 0x02 ∈ h.methods := h.offered
    obtain ⟨hu, hp⟩ := h.short e rfl
    have he : h.password ++ y = [h.version, UInt8.ofNat (encode e.user).length] ++ (encode e.user ++
        (UInt8.ofNat (encode e.pass).length :: (encode e.pass ++ y))) := by simp [Hello.password]
    unfold socks5Auth
    dsimp only
    rw [he, if_neg (not_not.mpr hm), Machine.total_bind, writeAll_total]
    rw [Bool.not_true, if_neg (by decide)]
    refine (readExact_bind_iff (x := [h.version, UInt8.ofNat (encode e.user).length]) rfl).trans ?_
    refine (readExact_bind_iff (toNat_length hu).symm).trans ?_
    refine (readExact_bind_iff (x := [UInt8.ofNat (encode e.pass).length]) rfl).trans ?_
    refine (readExact_bind_iff (toNat_length hp).symm).trans ?_
    rw [if_pos ⟨rfl, rfl⟩, Machine.total_bind, writeAll_total]
    rfl

theorem parseSocks5Request_total {post : Option ClientRequest → Bytes → Prop} (h : Hello expected) :
    machine.Total (parseSocks5Request expected) post (h.greeting ++ h.password ++ h.connect ++ y) ↔
    post (some h.request) y := by
  have he : h.greeting ++ h.password ++ h.connect ++ y = UInt8.ofNat h.methods.length :: (h.methods ++ (h.password ++
      ([0x05, 0x01, h.reserved, h.dst.kind] ++ (h.dst.body ++ (beBytes h.port ++ y))))) := by
    simp [Hello.greeting, Hello.connect]
  rw [he, parseSocks5Request]
  refine (readExact_bind_iff (x := [UInt8.ofNat h.methods.length]) rfl).trans ?_
  refine (readExact_bind_iff (toNat_length h.few).symm).trans ?_
  rw [Machine.total_bind, socks5Auth_total]
  refine (readExact_bind_iff (x := [0x05, 0x01, h.reserved, h.dst.kind]) rfl).trans ?_
  rw [if_neg (by simp), if_neg (by simp), Machine.total_bind]
  exact socks5Addr_total h.dst h.port

theorem parseClientRequest_hello {post : Option ClientRequest → Bytes → Prop} (h : Hello expected) :
    machine.Total (parseClientRequest expected) post (h.render ++ y) ↔ post (some h.request) y := by
  rw [Hello.render, List.cons_append, parseClientRequest, Machine.total_bind, readExact_one]
  exact parseSocks5Request_total h

end Decoding

section Encoding

open Sender

variable {expected : Option AuthExpect} {bs : Bytes} {host : Str} {port : UInt16} {tr : Trace Effects} {req : ClientRequest}

theorem Address.exists_destination (h : Address bs host port) :
    ∃ d : Destination, bs = d.kind :: (d.body ++ beBytes port) ∧ host = d.text := by
  cases h
  case ipv4 a p ha hp =>
    obtain ⟨a, b, c, d, rfl⟩ : ∃ a₀ a₁ a₂ a₃, a = [a₀, a₁, a₂, a₃] := by
      match a, ha with
      | [_, _, _, _], _ => exact ⟨_, _, _, _, rfl⟩
    exact ⟨.ip (.v4 a b c d), by rw [beBytes_ofBeBytes hp]; rfl, rfl⟩
  case ipv6 a p ha hp =>
    obtain ⟨s₀, s₁, s₂, s₃, s₄, s₅, s₆, s₇, rfl, ht⟩ := exists_segments ha
    refine ⟨.ip (.v6 s₀ s₁ s₂ s₃ s₄ s₅ s₆ s₇), ?_, ht⟩
    rw [beBytes_ofBeBytes hp]
    rfl
  case domain l d p hd hp =>
    have hl : d.length < 256 := hd ▸ l.toNat_lt
    refine ⟨.domain d hl, ?_, rfl⟩
    rw [beBytes_ofBeBytes hp, Destination.body, hd]
    simp [Destination.kind]

theorem Greeting.exists_hello (h : Greeting expected bs) (reserved : UInt8) (dst : Destination) (port : UInt16) :
    ∃ h : Hello expected, h.render = bs ++ [0x05, 0x01, reserved, dst.kind] ++ dst.body ++ beBytes port ∧
      h.request = socksRequest dst.text port := by
  cases h
  case unprotected n methods hm ho =>
    refine ⟨⟨methods, 0x01, reserved, dst, port, hm ▸ n.toNat_lt, ho, by simp⟩, ?_, rfl⟩
    simp [Hello.render, Hello.greeting, Hello.password, Hello.connect, hm]
  case password e n ver ulen plen methods hm ho hu hp =>
    refine ⟨⟨methods, ver, reserved, dst, port, hm ▸ n.toNat_lt, ho, ?_⟩, ?_, rfl⟩
    · rintro _ ⟨⟩
      exact ⟨hu ▸ ulen.toNat_lt, hp ▸ plen.toNat_lt⟩
    · simp [Hello.render, Hello.greeting, Hello.password, Hello.connect, hm, hu, hp]

theorem Handshake.exists_hello (h : Handshake expected bs req) :
    ∃ h : Hello expected, h.render = bs ∧ h.request = req := by
  cases h
  case intro g a rsv host port hg ha =>
    obtain ⟨d, rfl, rfl⟩ := ha.exists_destination
    obtain ⟨h, hr, hq⟩ := hg.exists_hello rsv d port
    exact ⟨h, by simp [hr], hq⟩

-- What has been read of a client by the time its request is known.
theorem parseSocks5Request_consumes (h : (parseSocks5Request expected).Runs tr (.ret (some req))) :
    Handshake expected (0x05 :: fromClient tr) req := by
  let e : Event Effects := ⟨.net (.clientRead 1), .data [0x05]⟩
  have hs : Spoken (toClient [e]) := spoken_nil
  have hp := ((parseSocks5Request_speaks hs rfl).result h).right req rfl
  rw [show speaking.after [e] tr = [e] ++ tr from Monitor.history_after .., fromClient_append] at hp
  exact hp.right

-- Well-formed handshakes are decoded, however they arrive, and nothing else is.
theorem handshakes_decoded (expected : Option AuthExpect) :
    (∀ (h : Hello expected) y, machine.Total (parseClientRequest expected) (fun r y' => r = some h.request ∧ y' = y)
      (h.render ++ y)) ∧
    (∀ d hd, (Destination.domain (encode d) hd).text = d) ∧
    ∀ tr req, (parseSocks5Request expected).Runs tr (.ret (some req)) →
      ∃ h : Hello expected, h.render = 0x05 :: fromClient tr ∧ h.request = req :=
  ⟨fun h _ => (parseClientRequest_hello h).mpr ⟨rfl, rfl⟩, fun d _ => lossy_encode d,
    fun _ _ h => (parseSocks5Request_consumes h).exists_hello⟩

-- A client that asks for port 80 of the domain `a`.
def plainHello : Hello none where
  methods  := [0x00]
  version  := 0x01
  reserved := 0x00
  dst      := .domain (encode ['a']) (by decide)
  port     := 80
  few      := by decide
  offered  := by decide
  short    := by simp

theorem handshakes_decoded_plain : ∃ tr req, (parseSocks5Request none).Runs tr (.ret (some req)) ∧
    req.host = ['a'] ∧ ∃ h : Hello none, h.render = 0x05 :: fromClient tr ∧ h.request = req := by
  have h : machine.Total (parseSocks5Request none) (fun r _ => r = some plainHello.request) _ :=
    (parseSocks5Request_total (y := []) plainHello).mpr rfl
  obtain ⟨tr, y', r, he, rfl⟩ := h.completes
  have hr := he.runs
  refine ⟨tr, _, hr, ?_, (handshakes_decoded none).right.right tr _ hr⟩
  exact (handshakes_decoded none).right.left ['a'] (by decide)

end Encoding

end Server
