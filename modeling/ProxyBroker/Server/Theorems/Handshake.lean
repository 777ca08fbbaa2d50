import ProxyBroker.Server.Wire
import ProxyBroker.Server.Theorems.Parse
import ProxyBroker.Server.Theorems.Uses

open Prog Utf8 Trace

namespace Server

-- The frames of SOCKS5 that a server sends: the method that it selects, the status of RFC 1929, and a reply, of
-- which the bound address is one of IPv4.
inductive Frame
  | selection (method : UInt8)
  | status (code : UInt8)
  | reply (rep a b c d hi lo : UInt8)

def Frame.render : Frame → Bytes
  | selection method       => [0x05, method]
  | status code            => [0x01, code]
  | reply rep a b c d hi lo => [0x05, rep, 0x00, 0x01, a, b, c, d, hi, lo]

-- What was written consists of frames.
def Spoken (bs : Bytes) : Prop :=
  ∃ fs : List Frame, bs = fs.flatMap Frame.render

-- What was written consists of frames, of which the last one can have been cut short.
def Speaks (bs : Bytes) : Prop :=
  ∃ fs : List Frame, bs <+: fs.flatMap Frame.render

-- A greeting that the server accepts, and the credentials that it expects.
inductive Greeting : Option AuthExpect → Bytes → Prop
  | unprotected {n : UInt8} {methods : Bytes} :
    methods.length = n.toNat → 0x00 ∈ methods → Greeting none ([0x05, n] ++ methods)
  | password {e : AuthExpect} {n ver ulen plen : UInt8} {methods : Bytes} :
    methods.length = n.toNat → 0x02 ∈ methods →
    (encode e.user).length = ulen.toNat → (encode e.pass).length = plen.toNat →
    Greeting (some e) ([0x05, n] ++ methods ++ [ver, ulen] ++ encode e.user ++ [plen] ++ encode e.pass)

-- The type of an address, the address and a port, and what they are read as.
inductive Address : Bytes → Str → UInt16 → Prop
  | ipv4 {a p : Bytes} : a.length = 4 → p.length = 2 → Address ([0x01] ++ a ++ p) (ipv4Text a) (ofBeBytes p)
  | ipv6 {a p : Bytes} : a.length = 16 → p.length = 2 → Address ([0x04] ++ a ++ p) (ipv6Text a) (ofBeBytes p)
  | domain {l : UInt8} {d p : Bytes} :
    d.length = l.toNat → p.length = 2 → Address ([0x03, l] ++ d ++ p) (lossy d) (ofBeBytes p)

def socksRequest (host : Str) (port : UInt16) : ClientRequest where
  scheme    := .https
  frontend  := .socks5
  host      := host
  port      := port
  raw       := []
  proxyAuth := none
  path      := host ++ ':' :: Str.ofNat port.toNat

-- What a SOCKS5 client sends for a request.
inductive Handshake (expected : Option AuthExpect) : Bytes → ClientRequest → Prop
  | intro {g a : Bytes} {rsv : UInt8} {host : Str} {port : UInt16} :
    Greeting expected g → Address a host port →
    Handshake expected (g ++ [0x05, 0x01, rsv] ++ a) (socksRequest host port)

-- What the server takes from a client before it has a request: the head of an HTTP request, or a handshake.
inductive Opening (expected : Option AuthExpect) : Bytes → ClientRequest → Prop
  | http {buf : Bytes} {req : ClientRequest} : IsBuffered buf → parseHttp buf = some req → Opening expected buf req
  | socks {bs : Bytes} {req : ClientRequest} : Handshake expected bs req → Opening expected bs req

theorem Handshake.head? {expected : Option AuthExpect} {bs : Bytes} {req : ClientRequest}
    (h : Handshake expected bs req) : bs.head? = some 0x05 := by
  rcases h with ⟨hg, -⟩
  cases hg <;> simp

theorem Spoken.speaks {bs : Bytes} (h : Spoken bs) : Speaks bs := by
  obtain ⟨fs, rfl⟩ := h
  exact ⟨fs, List.prefix_rfl⟩

theorem spoken_nil : Spoken [] :=
  ⟨[], rfl⟩

theorem Spoken.concat {bs : Bytes} (h : Spoken bs) (f : Frame) : Spoken (bs ++ f.render) := by
  obtain ⟨fs, rfl⟩ := h
  exact ⟨fs ++ [f], by simp⟩

theorem Spoken.append_prefix {bs bs' : Bytes} {f : Frame} (h : Spoken bs) (hp : bs' <+: f.render) :
    Speaks (bs ++ bs') := by
  obtain ⟨fs, hf⟩ := h.concat f
  exact ⟨fs, hf ▸ (List.prefix_append_right_inj bs).mpr hp⟩

def socksReplyFrame (rep : UInt8) : Frame :=
  .reply rep 0 0 0 0 0 0

-- Demands that nothing but frames is written, as long as nothing is spliced.
def speaking : Monitor Effects (Trace Effects) :=
  .history fun tr _ => (∀ e ∈ tr, e.op ≠ .net .splice) → Speaks (toClient tr)

variable {α : Type} {expected : Option AuthExpect} {tr : Trace Effects} {bs : Bytes}

theorem demand_of_spoken {o : Op} (h : Spoken (toClient tr)) : speaking.demand tr o :=
  fun _ => h.speaks

theorem readExactLoop_speaks (fuel need : Nat) (acc : Bytes) (h : Spoken (toClient tr)) :
    Sat speaking (readExactLoop fuel need acc)
      (fun r tr' => toClient tr' = toClient tr ∧ ∀ x, r = some x →
        ∃ y, x = acc ++ y ∧ fromClient tr' = fromClient tr ++ y ∧ y.length = need) tr := by
  induction fuel generalizing need acc tr <;> cases need
  case zero.zero | succ.zero => simp [readExactLoop]
  case zero.succ => simp [readExactLoop]
  case succ.succ fuel hi need =>
    unfold readExactLoop
    simp only [sat_bind, Async.sat_net]
    refine ⟨demand_of_spoken h, fun r => ?_⟩
    have ht : toClient (speaking.next tr ⟨.net (.clientRead (need + 1)), r⟩) = toClient tr := by
      simp [speaking, Event.toClient]
    split
    case h_1 b bs =>
      refine (hi _ _ (ht ▸ h)).mono fun r tr' hr => ?_
      obtain ⟨hc, hr⟩ := hr
      refine ⟨hc.trans ht, fun x hx => ?_⟩
      obtain ⟨y, rfl, hy, hl⟩ := hr x hx
      refine ⟨(b :: bs).take (need + 1) ++ y, by simp, ?_, ?_⟩
      · simp [hy, speaking, Event.fromClient, ReadResult.delivered]
      · simp only [List.length_append, hl]
        have : ((b :: bs).take (need + 1)).length ≤ need + 1 := by simp
        omega
    case h_2 => exact ⟨ht, by simp⟩

theorem readExact_speaks (n : Nat) (h : Spoken (toClient tr)) :
    Sat speaking (readExact n)
      (fun r tr' => toClient tr' = toClient tr ∧ ∀ x, r = some x → fromClient tr' = fromClient tr ++ x ∧ x.length = n)
      tr := by
  refine (readExactLoop_speaks n n [] h).mono fun r tr' hr => ⟨hr.left, fun x hx => ?_⟩
  obtain ⟨y, rfl, hy⟩ := hr.right x hx
  exact hy

theorem writeAll_speaks (f : Frame) (h : Spoken (toClient tr)) :
    Sat speaking (writeAll f.render)
      (fun ok tr' => fromClient tr' = fromClient tr ∧ Speaks (toClient tr') ∧ (ok = true → Spoken (toClient tr'))) tr := by
  unfold writeAll
  simp only [sat_bind, Async.sat_net]
  refine ⟨demand_of_spoken h, fun r => ?_⟩
  have hf : fromClient (speaking.next tr ⟨.net (.clientWrite f.render), r⟩) = fromClient tr := by
    simp [speaking, Event.fromClient]
  have ht : toClient (speaking.next tr ⟨.net (.clientWrite f.render), r⟩) = toClient tr ++ r.delivered f.render := by
    simp [speaking, Event.toClient]
  have hs := ht ▸ h.append_prefix (r.delivered_prefix f.render)
  rcases r with _ | _ | _
  case done => exact ⟨hf, hs, fun _ => ht ▸ h.concat f⟩
  all_goals exact ⟨hf, hs, by simp⟩

-- The client has been read up to and including what the result was made of.
def Yields (P : α → Bytes → Prop) (r : Option α) (tr : Trace Effects) : Prop :=
  Speaks (toClient tr) ∧ ∀ x, r = some x → Spoken (toClient tr) ∧ P x (fromClient tr)

section Rules

variable {P : α → Bytes → Prop}

theorem Yields.of_none (h : Speaks (toClient tr)) : Yields P none tr :=
  ⟨h, by simp⟩

theorem Yields.of_some {x : α} (h : Spoken (toClient tr)) (hp : P x (fromClient tr)) : Yields P (some x) tr := by
  refine ⟨h.speaks, ?_⟩
  rintro _ ⟨⟩
  exact ⟨h, hp⟩

theorem readExact_bind {n : Nat} {f : Bytes → Async (Option α)} (h : Spoken (toClient tr))
    (hf : ∀ x tr', x.length = n → Spoken (toClient tr') → fromClient tr' = fromClient tr ++ x →
      Sat speaking (f x) (Yields P) tr') :
    Sat speaking (readExact n >>= fun | some bs => f bs | _ => pure none) (Yields P) tr := by
  rw [sat_bind]
  refine (readExact_speaks n h).mono fun r tr' hr => ?_
  have h : Spoken (toClient tr') := hr.left ▸ h
  cases r
  case none   => exact .of_none h.speaks
  case some x => exact hf x tr' (hr.right x rfl).right h (hr.right x rfl).left

theorem writeAll_none (f : Frame) (h : Spoken (toClient tr)) :
    Sat speaking (do let _ ← writeAll f.render; return none) (Yields P) tr := by
  rw [sat_bind]
  exact (writeAll_speaks f h).mono fun _ _ hw => .of_none hw.right.left

theorem writeAll_bind {p : Async (Option α)} (f : Frame) (h : Spoken (toClient tr))
    (hp : ∀ tr', Spoken (toClient tr') → fromClient tr' = fromClient tr → Sat speaking p (Yields P) tr') :
    Sat speaking (do if !(← writeAll f.render) then return none else p) (Yields P) tr := by
  rw [sat_bind]
  refine (writeAll_speaks f h).mono fun ok tr' hw => ?_
  cases ok
  case false => exact .of_none hw.right.left
  case true  => exact hp tr' (hw.right.right rfl) hw.left

end Rules

theorem socks5Auth_speaks {n : UInt8} {methods : Bytes} (h : Spoken (toClient tr))
    (hf : fromClient tr = [0x05, n] ++ methods) (hm : methods.length = n.toNat) :
    Sat speaking (socks5Auth methods expected) (Yields fun _ bs => Greeting expected bs) tr := by
  unfold socks5Auth
  split
  case h_1 =>
    split
    case isTrue  => exact writeAll_none (.selection 0xFF) h
    case isFalse ho =>
      refine writeAll_bind (.selection 0x00) h fun tr' h hr => ?_
      exact .of_some h (hr ▸ hf ▸ .unprotected hm (not_not.mp ho))
  case h_2 e =>
    split
    case isTrue  => exact writeAll_none (.selection 0xFF) h
    case isFalse ho =>
      refine writeAll_bind (.selection 0x02) h fun tr₁ h h₁ => ?_
      refine readExact_bind h fun vu tr₂ hv h h₂ => ?_
      obtain ⟨ver, ulen, rfl⟩ := List.length_eq_two.mp hv
      refine readExact_bind h fun user tr₃ hu h h₃ => ?_
      refine readExact_bind h fun pl tr₄ hl h h₄ => ?_
      obtain ⟨plen, rfl⟩ := List.length_eq_one_iff.mp hl
      refine readExact_bind h fun pass tr₅ hp h h₅ => ?_
      split_ifs with hc
      · obtain ⟨rfl, rfl⟩ := hc
        refine writeAll_bind (.status 0x00) h fun tr₆ h h₆ => ?_
        refine .of_some h ?_
        rw [h₆, h₅, h₄, h₃, h₂, h₁, hf]
        exact .password hm (not_not.mp ho) hu hp
      · exact writeAll_none (.status 0x01) h

theorem socks5Addr_speaks {g : Bytes} (atyp : UInt8) (h : Spoken (toClient tr)) (hf : fromClient tr = g ++ [atyp]) :
    Sat speaking (socks5Addr atyp)
      (Yields fun a bs => ∃ addr, Address addr a.1 a.2 ∧ bs = g ++ addr) tr := by
  unfold socks5Addr
  split_ifs with h₁ h₄ h₃
  · refine readExact_bind h fun a tr₁ ha h hr => readExact_bind h fun p tr₂ hp h hs => ?_
    exact .of_some h ⟨_, .ipv4 ha hp, by rw [hs, hr, hf, h₁]; simp⟩
  · refine readExact_bind h fun a tr₁ ha h hr => readExact_bind h fun p tr₂ hp h hs => ?_
    exact .of_some h ⟨_, .ipv6 ha hp, by rw [hs, hr, hf, h₄]; simp⟩
  · refine readExact_bind h fun l tr₁ hl h hr => ?_
    obtain ⟨l, rfl⟩ := List.length_eq_one_iff.mp hl
    refine readExact_bind h fun d tr₂ hd h hs => readExact_bind h fun p tr₃ hp h ht => ?_
    exact .of_some h ⟨_, .domain hd hp, by rw [ht, hs, hr, hf, h₃]; simp⟩
  · exact writeAll_none (socksReplyFrame 0x08) h

-- The server writes nothing but frames while it parses a request, and it reads the request and no more.
theorem parseSocks5Request_speaks (h : Spoken (toClient tr)) (hf : fromClient tr = [0x05]) :
    Sat speaking (parseSocks5Request expected) (Yields fun req bs => Handshake expected bs req) tr := by
  unfold parseSocks5Request
  refine readExact_bind h fun n tr₁ hn h h₁ => ?_
  obtain ⟨n, rfl⟩ := List.length_eq_one_iff.mp hn
  refine readExact_bind h fun methods tr₂ hm h h₂ => ?_
  rw [sat_bind]
  refine (socks5Auth_speaks (n := n) h (by rw [h₂, h₁, hf]; simp) hm).mono fun r tr₃ hr => ?_
  cases r
  case none => exact .of_none hr.left
  case some =>
    obtain ⟨h, hg⟩ := hr.right _ rfl
    refine readExact_bind h fun hdr tr₄ hl h h₄ => ?_
    obtain ⟨ver, cmd, rsv, atyp, rfl⟩ : ∃ ver cmd rsv atyp, hdr = [ver, cmd, rsv, atyp] := by
      match hdr, hl with
      | [_, _, _, _], _ => exact ⟨_, _, _, _, rfl⟩
    split
    case isTrue => exact .of_none h.speaks
    case isFalse hv =>
      split
      case isTrue => exact writeAll_none (socksReplyFrame 0x07) h
      case isFalse hc =>
        cases not_not.mp hv
        cases not_not.mp hc
        rw [sat_bind]
        refine (socks5Addr_speaks (g := fromClient tr₃ ++ [0x05, 0x01, rsv]) atyp h (by rw [h₄]; simp)).mono fun r tr₅ hr => ?_
        rcases r with _ | ⟨host, port⟩
        case none => exact .of_none hr.left
        case some =>
          obtain ⟨h, a, ha, hb⟩ := hr.right _ rfl
          exact .of_some h (hb ▸ .intro hg ha)

theorem readRequestLoop_speaks (fuel : Nat) {buf : Bytes} (h : Spoken (toClient tr)) (hf : fromClient tr = buf)
    (hb : ∀ n ≤ buf.length, ¬Complete (buf.take n)) :
    Sat speaking (readRequestLoop fuel buf)
      (Yields fun raw bs => bs = raw ∧ buf <+: raw ∧ Complete raw ∧ ∀ n < raw.length, ¬Complete (raw.take n)) tr := by
  induction fuel generalizing buf tr
  case zero => exact .of_none h.speaks
  case succ hi =>
    unfold readRequestLoop
    simp only [sat_bind, Async.sat_net]
    refine ⟨demand_of_spoken h, fun r => ?_⟩
    have h : Spoken (toClient (speaking.next tr ⟨.net (.clientRead 1), r⟩)) := by
      simpa [speaking, Event.toClient] using h
    split
    case h_2 => exact .of_none h.speaks
    case h_1 byte more =>
      have hf : fromClient (speaking.next tr ⟨.net (.clientRead 1), .data (byte :: more)⟩) = buf ++ [byte] := by
        simp [speaking, Event.fromClient, ReadResult.delivered, hf]
      have hl (n : Nat) (hn : n < (buf ++ [byte]).length) : ¬Complete ((buf ++ [byte]).take n) := by
        rw [List.take_append_of_le_length (by simp at hn; omega)]
        exact hb n (by simp at hn; omega)
      split_ifs with hc
      · exact .of_some h ⟨hf, by simp, by simpa [Complete] using hc, hl⟩
      · have hb n (hn : n ≤ (buf ++ [byte]).length) : ¬Complete ((buf ++ [byte]).take n) := by
          by_cases he : n = (buf ++ [byte]).length
          · rw [he, List.take_length]
            simpa [Complete] using hc
          · exact hl n (by omega)
        refine (hi h hf hb).mono fun r tr' hr => ⟨hr.left, fun raw hw => ?_⟩
        obtain ⟨hs, ht, hp, hw⟩ := hr.right raw hw
        exact ⟨hs, ht, (List.prefix_append ..).trans hp, hw⟩

-- While a request is parsed, nothing but frames is written, and nothing beyond the request is read.
theorem parseClientRequest_speaks :
    Sat speaking (parseClientRequest expected) (Yields fun req bs => Opening expected bs req) [] := by
  unfold parseClientRequest
  have h₀ : Spoken (toClient []) := spoken_nil
  refine readExact_bind h₀ fun first tr₁ hl h h₁ => ?_
  obtain ⟨b, rfl⟩ := List.length_eq_one_iff.mp hl
  split_ifs with hb
  · have hb : b = 0x05 := by simpa using hb
    refine (parseSocks5Request_speaks h (by simpa [hb] using h₁)).mono fun r tr' hr => ⟨hr.left, fun req he => ?_⟩
    exact (hr.right req he).imp_right .socks
  · have hb : b ≠ 0x05 := by simpa using hb
    rw [sat_bind]
    have hs n (hn : n ≤ [b].length) : ¬Complete ([b].take n) := not_complete_of_length_le (by simp)
    refine (readRequestLoop_speaks requestLimit h h₁ hs).mono fun r tr' hr => ?_
    cases r
    case none => exact .of_none hr.left
    case some raw =>
      obtain ⟨h, hw, ⟨y, hy⟩, hc, hf⟩ := hr.right raw rfl
      refine ⟨h.speaks, fun req hp => ⟨h, .http ⟨?_, hw ▸ hc, hw ▸ hf⟩ (hw ▸ hp)⟩⟩
      simpa [hw, ← hy] using hb

end Server
