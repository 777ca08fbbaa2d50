import ProxyBroker.Server.Theorems.HostPort
import ProxyBroker.Server.Theorems.SocksOnly

open Prog Utf8 Trace

namespace Negotiator

-- A host without the brackets that it can come in.
def bare (host : Str) : Str :=
  (Str.stripPrefix ['['] host).bind (Str.stripSuffix [']']) |>.getD host

-- The name of a header, which is empty for an empty line.
def fieldName (line : Str) : Str :=
  line.takeWhile (· ≠ ':')

-- A single head that asks for a tunnel to the given host and port, and in which there is nothing else.
structure IsConnectHead (host : Str) (port : UInt16) (creds : Option Credentials) (bs : Bytes) : Prop where
  ends    : headEnd <:+ bs
  single  : ∀ pre suf, bs = pre ++ headEnd ++ suf → suf = []
  request : ∃ line ∈ (Str.lines (lossy bs)).head?, ∃ a,
    line.splitOn ' ' = ["CONNECT".toList, a, "HTTP/1.1".toList] ∧
    ∀ default, Server.splitHostPort a default = (bare host, port)
  fields  : (Str.lines (lossy bs)).tail.map fieldName =
    ["Host".toList, "User-Agent".toList] ++ creds.toList.map (fun _ => "Proxy-Authorization".toList) ++
    ["Connection".toList, []]

-- A host that can be put in front of a port, or in between brackets.
def IsDelimited (b : Str) : Prop :=
  if ':' ∈ b then ¬"]:".toList <:+: b else b ≠ [] ∧ ¬∃ t, b = '[' :: t ++ [']']

-- A host that can be put into the request line and the headers.
structure IsName (b : Str) : Prop where
  space     : ' ' ∉ b
  lf        : '\n' ∉ b
  delimited : IsDelimited b

def authority (b : Str) (port : UInt16) : Str :=
  if ':' ∈ b then '[' :: b ++ "]:".toList ++ Str.ofNat port.toNat else b ++ ':' :: Str.ofNat port.toNat

def hostHeader (b : Str) : Str :=
  if ':' ∈ b then '[' :: b ++ [']'] else b

-- The lines that are put together for a request.
def headLines (b : Str) (port : UInt16) (creds : Option Credentials) : List Str :=
  ["CONNECT ".toList ++ authority b port ++ " HTTP/1.1".toList, "Host: ".toList ++ hostHeader b,
    "User-Agent: PxBroker/".toList ++ pkgVersion ++ "/".toList] ++
  creds.toList.map ("Proxy-Authorization: ".toList ++ basic ·) ++ ["Connection: keep-alive".toList, []]

variable {b host : Str} {port : UInt16} {creds : Option Credentials}

theorem connectRequest_eq : connectRequest host port creds =
    encode ((headLines (bare host) port creds).flatMap (· ++ ['\r', '\n'])) := by
  have hr : " HTTP/1.1\r\nHost: ".toList = " HTTP/1.1".toList ++ ['\r', '\n'] ++ "Host: ".toList := by decide
  have hu : "\r\nUser-Agent: PxBroker/".toList = ['\r', '\n'] ++ "User-Agent: PxBroker/".toList := by decide
  have hp : "/\r\n".toList = "/".toList ++ ['\r', '\n'] := by decide
  have hk : "Connection: keep-alive\r\n\r\n".toList =
    "Connection: keep-alive".toList ++ ['\r', '\n'] ++ ['\r', '\n'] := by decide
  have ha (c : Credentials) : authLine c = "Proxy-Authorization: ".toList ++ basic c ++ ['\r', '\n'] := rfl
  have hb : ((Str.stripPrefix ['['] host).bind (Str.stripSuffix [']'])).getD host = bare host := rfl
  unfold connectRequest
  rw [hb]
  generalize bare host = b
  by_cases hc : ':' ∈ b <;> cases creds
  all_goals
    simp only [headLines, authority, hostHeader, hc, if_true, if_false, hr, hu, hp, hk, ha, List.flatMap_cons,
      List.flatMap_nil, List.append_assoc, List.cons_append, List.nil_append, List.append_nil,
      Option.toList, List.map_cons, List.map_nil]

section Authority

open Server

-- The port is told apart from the host exactly if the host is delimited.
theorem splitHostPort_authority_iff :
    (∀ default, splitHostPort (authority b port) default = (b, port)) ↔ IsDelimited b := by
  have hd {c : Char} (h : c.isDigit = false) : c ∉ Str.ofNat port.toNat := Str.not_mem_ofNat h
  have hn : Str.ofNat port.toNat ≠ [] := Str.ofNat_ne_nil _
  have hu : Str.parseU16 (Str.ofNat port.toNat) = some port := Str.parseU16_ofNat port
  unfold authority IsDelimited
  by_cases hc : ':' ∈ b
  case pos =>
    rw [if_pos hc, if_pos hc, show "]:".toList = [']', ':'] from rfl]
    have he : '[' :: b ++ [']', ':'] ++ Str.ofNat port.toNat = '[' :: (b ++ ']' :: ':' :: Str.ofNat port.toNat) := by simp
    rw [he]
    constructor
    · intro h hi
      cases hs : Str.splitOnce [']', ':'] (b ++ ']' :: ':' :: Str.ofNat port.toNat)
      case none => exact splitOnce_bracket_eq_none hs (hi.trans (List.prefix_append ..).isInfix)
      case some x =>
        have := h 0
        rw [splitHostPort_bracketed hs] at this
        obtain rfl : x.1 = b := congrArg Prod.fst this
        exact (splitOnce_bracket_eq_some hs).right hi
    · intro h default
      rw [splitHostPort_bracketed (splitOnce_bracket h _), hu]
      rfl
  case neg =>
    rw [if_neg hc, if_neg hc]
    constructor
    · intro h
      refine ⟨?_, ?_⟩
      · rintro rfl
        have := h 0
        rw [List.nil_append, splitHostPort_empty (hd (by decide))] at this
        cases congrArg Prod.fst this
      · rintro ⟨t, rfl⟩
        have ht : ¬[']', ':'] <:+: t := fun ht => hc (by simp [ht.subset (show ':' ∈ [']', ':'] by simp)])
        have := h 0
        have he : '[' :: t ++ [']'] ++ ':' :: Str.ofNat port.toNat = '[' :: (t ++ ']' :: ':' :: Str.ofNat port.toNat) := by
          simp
        rw [he, splitHostPort_bracketed (splitOnce_bracket ht _)] at this
        have hl : t.length = ('[' :: t ++ [']']).length := congrArg (List.length ∘ Prod.fst) this
        simp at hl
        omega
    · rintro ⟨hb, ht⟩ default
      rw [splitHostPort_plain hb (hd (by decide)) (hd (by decide)) hn, hu]
      · rfl
      · rintro s rfl
        cases hs : Str.splitOnce [']', ':'] (s ++ ':' :: Str.ofNat port.toNat)
        case none => rfl
        case some x =>
          obtain ⟨hs, -⟩ := splitOnce_bracket_eq_some hs
          have hs : s ++ ':' :: Str.ofNat port.toNat = (x.1 ++ [']']) ++ ':' :: x.2 := by simpa using hs
          have hm : ':' ∉ s := by simpa using hc
          obtain ⟨he, -⟩ := (List.append_cons_inj_of_notMem hm (hd (by decide))).mp hs
          exact absurd ⟨x.1, by rw [he]; simp⟩ ht

end Authority
section Head

theorem mem_authority {c : Char} (h : c ∈ b) : c ∈ authority b port := by
  unfold authority
  split_ifs <;> simp [h]

theorem not_mem_authority {c : Char} (hb : c ∉ b) (hc : c ∉ ['[', ']', ':']) (hd : c.isDigit = false) :
    c ∉ authority b port := by
  have hn : c ∉ Str.ofNat port.toNat := Str.not_mem_ofNat hd
  unfold authority
  split_ifs <;> simp_all

theorem not_mem_hostHeader {c : Char} (hb : c ∉ b) (hc : c ∉ ['[', ']', ':']) : c ∉ hostHeader b := by
  unfold hostHeader
  split_ifs <;> simp_all

theorem not_mem_basic {c : Char} (h : c ∉ '=' :: base64Alphabet) (hb : c ∉ "Basic ".toList) (x : Credentials) :
    c ∉ basic x := by
  rw [basic, List.mem_append, not_or]
  exact ⟨hb, fun hm => h (base64Encode_mem _ c hm)⟩

theorem not_mem_headLines (h : '\n' ∉ b) : ∀ l ∈ headLines b port creds, '\n' ∉ l := by
  have ha : '\n' ∉ authority b port := not_mem_authority h (by decide) (by decide)
  have hh : '\n' ∉ hostHeader b := not_mem_hostHeader h (by decide)
  have hb (x : Credentials) : '\n' ∉ basic x := not_mem_basic (by decide) (by decide) x
  have hv : '\n' ∉ pkgVersion := by decide
  cases creds <;> simp [headLines, ha, hh, hb, hv]

-- The head can only be read line by line if the host does not contain a line feed.
theorem lines_connectRequest (h : '\n' ∉ bare host) :
    Str.lines (lossy (connectRequest host port creds)) = headLines (bare host) port creds := by
  rw [connectRequest_eq, lossy_encode, Str.lines_flatMap (not_mem_headLines h)]

theorem not_mem_of_length
    (h : (Str.lines (lossy (connectRequest host port creds))).length = (headLines (bare host) port creds).length) :
    '\n' ∉ bare host := by
  rw [connectRequest_eq, lossy_encode, Str.length_lines_flatMap, Nat.add_eq_left, List.sum_eq_zero_iff_forall_eq_nat] at h
  have hf := h (("CONNECT ".toList ++ authority (bare host) port ++ " HTTP/1.1".toList).count '\n') (by simp [headLines])
  rw [List.count_eq_zero] at hf
  exact fun hm => hf (by simp [mem_authority hm])

theorem splitOn_request (a : Str) : ("CONNECT ".toList ++ a ++ " HTTP/1.1".toList).splitOn ' ' =
    "CONNECT".toList :: (a.splitOn ' ' ++ ["HTTP/1.1".toList]) := by
  have he : "CONNECT ".toList ++ a ++ " HTTP/1.1".toList = "CONNECT".toList ++ ' ' :: (a ++ ' ' :: "HTTP/1.1".toList) := by
    simp
  rw [he, List.splitOn_append_cons_self, List.splitOn_append_cons_self]
  rfl

theorem splitOn_eq_singleton_iff {a x : Str} : a.splitOn ' ' = [x] ↔ ' ' ∉ a ∧ a = x := by
  constructor
  · intro h
    have ha : ' ' ∉ a := by
      intro hm
      obtain ⟨s, t, rfl⟩ := List.append_of_mem hm
      rw [List.splitOn_append_cons_self] at h
      have hs := List.length_pos_iff.mpr (List.splitOn_ne_nil ' ' s)
      have ht := List.length_pos_iff.mpr (List.splitOn_ne_nil ' ' t)
      have := congrArg List.length h
      simp at this
      omega
    rw [List.splitOn_eq_singleton ha, List.singleton_inj] at h
    exact ⟨ha, h⟩
  · rintro ⟨ha, rfl⟩
    exact List.splitOn_eq_singleton ha

-- The end of the head cannot be mistaken if there are no other empty lines.
theorem single_of_lines {bs : Bytes} {ls : List Str} (h : Str.lines (lossy bs) = ls ++ [[]]) (hn : [] ∉ ls) (pre suf : Bytes)
    (hb : bs = pre ++ headEnd ++ suf) : suf = [] := by
  by_contra hs
  have hl : lossy bs = (lossy pre ++ ['\r']) ++ '\n' :: '\r' :: '\n' :: lossy suf := by
    have hc : IsAscii cr := by decide
    have hf : IsAscii lf := by decide
    rw [hb, show pre ++ headEnd ++ suf = pre ++ cr :: lf :: cr :: lf :: suf by simp [headEnd, crlf], lossy_append_ascii hc,
      lossy_cons_ascii hf, lossy_cons_ascii hc, lossy_cons_ascii hf]
    simp [show ofAscii cr = '\r' from rfl, show ofAscii lf = '\n' from rfl]
  have hne : Str.lines (lossy suf) ≠ [] := by
    obtain ⟨b, s, rfl⟩ := List.exists_cons_of_ne_nil hs
    exact Str.lines_ne_nil (by simp [lossy_cons])
  obtain ⟨xs, x, hx⟩ := (List.eq_nil_or_concat (Str.lines (lossy suf))).resolve_left hne
  rw [hl, Str.lines_append, Str.lines, hx] at h
  have : Str.lines ((lossy pre ++ ['\r']) ++ ['\n']) ++ [] :: xs = ls := by
    have he : Str.lines ((lossy pre ++ ['\r']) ++ ['\n']) ++ [] :: xs ++ [x] = ls ++ [[]] := by simpa using h
    exact (List.append_inj' he rfl).left
  exact hn (by simp [← this])

-- The lines of the head without the empty one at its end.
def heads (b : Str) (port : UInt16) (creds : Option Credentials) : List Str :=
  (headLines b port creds).dropLast

theorem headLines_eq : headLines b port creds = heads b port creds ++ [[]] := by
  cases creds <;> rfl

theorem not_mem_heads : [] ∉ heads b port creds := by
  cases creds <;> simp [heads, headLines]

theorem headEnd_suffix : headEnd <:+ connectRequest host port creds := by
  have he : ["Connection: keep-alive".toList, []].flatMap (· ++ ['\r', '\n']) =
      "Connection: keep-alive".toList ++ ['\r', '\n', '\r', '\n'] := by decide
  rw [connectRequest_eq, headLines, List.flatMap_append, he, ← List.append_assoc, encode_append]
  exact List.suffix_append ..

-- The request is a head exactly if the host can be put into it.
theorem connectRequest_iff : IsConnectHead host port creds (connectRequest host port creds) ↔ IsName (bare host) := by
  constructor
  · intro h
    have hl : '\n' ∉ bare host := by
      apply not_mem_of_length
      obtain ⟨line, hm, -⟩ := h.request
      have := congrArg List.length h.fields
      cases hs : Str.lines (lossy (connectRequest host port creds)) <;> simp_all [headLines]
    obtain ⟨line, hm, a, hs, ha⟩ := h.request
    rw [lines_connectRequest hl] at hm
    obtain rfl : "CONNECT ".toList ++ authority (bare host) port ++ " HTTP/1.1".toList = line := by simpa [headLines] using hm
    rw [splitOn_request] at hs
    have hs : (authority (bare host) port).splitOn ' ' = [a] := by
      have he : (authority (bare host) port).splitOn ' ' ++ ["HTTP/1.1".toList] = [a] ++ ["HTTP/1.1".toList] := by
        simpa using hs
      exact (List.append_inj' he rfl).left
    obtain ⟨hn, rfl⟩ := splitOn_eq_singleton_iff.mp hs
    exact ⟨fun hm => hn (mem_authority hm), hl, splitHostPort_authority_iff.mp ha⟩
  · intro h
    have hl : Str.lines (lossy (connectRequest host port creds)) = headLines (bare host) port creds :=
      lines_connectRequest h.lf
    refine ⟨headEnd_suffix, single_of_lines (hl.trans headLines_eq) not_mem_heads, ?_, ?_⟩
    · rw [hl]
      refine ⟨"CONNECT ".toList ++ authority (bare host) port ++ " HTTP/1.1".toList, rfl, authority (bare host) port,
        ?_, splitHostPort_authority_iff.mpr h.delimited⟩
      rw [splitOn_request, List.splitOn_eq_singleton]
      · rfl
      · exact not_mem_authority h.space (by decide) (by decide)
    · rw [hl]
      cases creds <;> rfl

end Head
end Negotiator

namespace Server

open Negotiator

variable {expected : Option AuthExpect}

theorem fromClient_reads (bs : Bytes) : fromClient (reads bs) = bs := by
  induction bs
  case nil => rfl
  case cons b bs hi =>
    have hr : fromClient (reads (b :: bs)) = [b] ++ fromClient (reads bs) := rfl
    rw [hr, hi, List.singleton_append]

-- Every opening can be what a request is parsed from.
theorem Opening.exists_run {bs : Bytes} {req : ClientRequest} (h : Opening expected bs req) :
    ∃ tr, (parseClientRequest expected).Runs tr (.ret (some req)) ∧ fromClient tr = bs := by
  cases h
  case http hb hp => exact ⟨reads bs, hp ▸ parseClientRequest_runs expected hb, fromClient_reads bs⟩
  case socks hh =>
    obtain ⟨said, -, tr, hr, ht⟩ := parseClientRequest_talks hh
    exact ⟨tr, hr, ht.got⟩

-- Whatever a client sends, the requests for a tunnel that are made for it are proper heads exactly if its opening
-- does not name a host that cannot be put into one.
theorem connect_head_iff (expected : Option AuthExpect) (creds : Option Credentials) (bs : Bytes) :
    (∀ tr req, (parseClientRequest expected).Runs tr (.ret (some req)) → fromClient tr <+: bs →
      IsConnectHead req.host req.port creds (connectRequest req.host req.port creds)) ↔
    ∀ opening req, Opening expected opening req → opening <+: bs → IsName (bare req.host) := by
  constructor
  · rintro h _ req ho hb
    obtain ⟨tr, hr, rfl⟩ := ho.exists_run
    exact connectRequest_iff.mp (h tr req hr hb)
  · intro h tr req hr hb
    have ho : Opening expected (fromClient tr) req := by
      have := ((parseClientRequest_speaks.result hr).right req rfl).right
      rwa [speaking, Monitor.history_after, List.nil_append] at this
    exact connectRequest_iff.mpr (h _ req ho hb)

-- A client that asks for a tunnel to a domain with an empty line in it.
theorem connect_head_split : ∃ tr req, (parseClientRequest none).Runs tr (.ret (some req)) ∧
    fromClient tr = [0x05, 1, 0x00] ++ [0x05, 0x01, 0x00] ++ ([0x03, 6] ++ encode "a\r\n\r\nb".toList ++ [0, 80]) ∧
    ∀ creds, ¬IsConnectHead req.host req.port creds (connectRequest req.host req.port creds) := by
  have hg : Greeting none ([0x05, 1] ++ [0x00]) := .unprotected rfl (by simp)
  have ha : Address ([0x03, 6] ++ encode "a\r\n\r\nb".toList ++ [0, 80]) (lossy (encode "a\r\n\r\nb".toList)) 80 :=
    .domain (by decide) rfl
  have hh : Handshake none _ _ := @Handshake.intro _ _ _ 0x00 _ _ hg ha
  obtain ⟨tr, hr, ht⟩ := (Opening.socks hh).exists_run
  refine ⟨tr, _, hr, ht, fun creds h => ?_⟩
  have hn := (connectRequest_iff.mp h).lf
  rw [socksRequest, lossy_encode] at hn
  exact hn (by decide)

end Server
