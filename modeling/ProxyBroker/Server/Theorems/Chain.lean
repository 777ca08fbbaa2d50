import ProxyBroker.Resumption.Duplex
import ProxyBroker.Server.Theorems.ConnectHead
import ProxyBroker.Server.Theorems.Control
import ProxyBroker.Server.Theorems.Target
import ProxyBroker.Utils.Theorems.Base64

-- A proxy can be another server of this kind.

open Prog Utf8 Trace Uri

namespace Negotiator

-- The end of a connection at which a tunnel is asked for.
def upstream : Port Effects UInt8 where
  sends
    | ⟨.net (.upWrite _ bs), r⟩ => WriteResult.delivered bs r
    | _                         => []
  takes
    | ⟨.net (.upRead _ max), r⟩ => ReadResult.delivered max r
    | _                         => []

-- A head that is complete, but not before its last byte.
structure IsHead (bs : Bytes) : Prop where
  ends  : headEnd <:+ bs
  first : ∀ pre suf, bs = pre ++ headEnd ++ suf → suf = []

theorem IsHead.eq_of_prefix {x y z : Bytes} (hx : IsHead x) (hy : IsHead y) (h₁ : x <+: z) (h₂ : y <+: z) : x = y := by
  have key {x y : Bytes} (hx : IsHead x) (hy : IsHead y) (h : x <+: y) : x = y := by
    obtain ⟨suf, rfl⟩ := h
    obtain ⟨pre, rfl⟩ := hx.ends
    rw [hy.first pre suf rfl, List.append_nil]
  rcases List.prefix_or_prefix_of_prefix h₁ h₂ with h | h
  · exact key hx hy h
  · exact (key hy hx h).symm

theorem not_headEnd_suffix {bs : Bytes} (h : bs.length < 4) : ¬headEnd <:+ bs := by
  intro hs
  have := hs.length_le
  simp [headEnd, crlf] at this
  omega

theorem IsHead.ne_nil {bs : Bytes} (h : IsHead bs) : bs ≠ [] := by
  rintro rfl
  exact not_headEnd_suffix (by decide) h.ends

theorem IsHead.of_first {bs : Bytes} (h : headEnd <:+ bs) (hf : ∀ n < bs.length, ¬headEnd <:+ bs.take n) : IsHead bs where
  ends := h
  first := by
    rintro pre suf rfl
    by_contra hs
    have hn : (pre ++ headEnd).length < (pre ++ headEnd ++ suf).length := by
      simpa [List.length_pos_iff] using hs
    refine hf _ hn ?_
    rw [List.take_left' rfl]
    exact List.suffix_append ..

section Asking

variable {target : Target} {creds : Option Credentials} {x : Bytes} {tr : Trace Effects}

-- Demands that nothing but the given bytes is sent.
def sending (x : Bytes) : Monitor Effects (Trace Effects) :=
  .history fun tr _ => upstream.sent tr <+: x

theorem readHeadLoop_sending (n : Nat) {buf : Bytes} (hs : upstream.sent tr = x) (hn : ¬headEnd <:+ buf)
    (hf : ∀ n < buf.length, ¬headEnd <:+ buf.take n) (ht : upstream.taken tr = buf) :
    Sat (sending x) (readHeadLoop n buf)
      (fun r tr' => upstream.sent tr' = x ∧ r ≠ .error .badStatus ∧
        ∀ head, r = .ok head → IsHead head ∧ upstream.taken tr' = head) tr := by
  induction n generalizing buf tr
  case zero => exact ⟨hs, nofun, nofun⟩
  case succ n hi =>
    refine ⟨hs ▸ List.prefix_rfl, fun (r : ReadResult) => ?_⟩
    have hs' (r : ReadResult) : upstream.sent (tr ++ [⟨.net (.upRead .negotiation 1), r⟩]) = x := by
      rw [Port.sent_snoc, hs]
      exact List.append_nil x
    rcases r with (_ | ⟨b, bs⟩) | _ | _
    case data.nil =>
      refine ⟨hs' _, ?_, nofun⟩
      split <;> nofun
    case error    => exact ⟨hs' _, nofun, nofun⟩
    case timedOut => exact ⟨hs' _, nofun, nofun⟩
    case data.cons =>
      have ht' : upstream.taken (tr ++ [⟨.net (.upRead .negotiation 1), .data (b :: bs)⟩]) = buf ++ [b] := by
        rw [Port.taken_snoc, ht]
        rfl
      have hf' : ∀ n < (buf ++ [b]).length, ¬headEnd <:+ (buf ++ [b]).take n := by
        intro n hl
        rcases Nat.lt_or_eq_of_le (Nat.le_of_lt_succ (show n < buf.length + 1 by simpa using hl)) with hl | rfl
        · rw [List.take_append_of_le_length hl.le]
          exact hf n hl
        · rwa [List.take_left]
      show Sat _ (if headEnd.isSuffixOf (buf ++ [b]) then .ret (.ok (buf ++ [b])) else
        if headLimit < (buf ++ [b]).length then .ret (.error .badResponse) else readHeadLoop n (buf ++ [b])) _ _
      split_ifs with he hl
      · refine ⟨hs' _, nofun, ?_⟩
        rintro _ ⟨⟩
        exact ⟨.of_first (List.isSuffixOf_iff_suffix.mp he) hf', ht'⟩
      · exact ⟨hs' _, nofun, nofun⟩
      · exact hi (hs' _) (mt List.isSuffixOf_iff_suffix.mpr he) hf' ht'

-- What is known once a tunnel was asked for with the bytes `x`: the proxy has sent a head, which tells whether there
-- is a tunnel.
structure Answered (x : Bytes) (ok : Bool) (tr : Trace Effects) : Prop where
  sent   : upstream.sent tr = x
  head   : IsHead (upstream.taken tr)
  status : getStatusCode (upstream.taken tr) 9 12 = 200 ↔ ok

theorem httpConnect_sending : Sat (sending (connectRequest target.host target.port creds)) (httpConnect target creds)
    (fun r tr => (r = .ok () → Answered (connectRequest target.host target.port creds) true tr) ∧
      (r = .error .badStatus → Answered (connectRequest target.host target.port creds) false tr)) [] := by
  unfold httpConnect
  simp only [sat_bind, Async.sat_net]
  refine ⟨List.nil_prefix, fun (r : WriteResult) => ?_⟩
  cases r
  case failed   => exact ⟨by rintro ⟨⟩, by rintro ⟨⟩⟩
  case timedOut => exact ⟨by rintro ⟨⟩, by rintro ⟨⟩⟩
  case done =>
    rw [sat_bind]
    have he : upstream.sent [⟨.net (.upWrite .negotiation (connectRequest target.host target.port creds)), .done⟩] =
        connectRequest target.host target.port creds := by
      simp [upstream, WriteResult.delivered]
    have hn : ¬headEnd <:+ ([] : Bytes) := not_headEnd_suffix (by decide)
    have hl := readHeadLoop_sending (headLimit + 1) he hn (fun n h => absurd h (Nat.not_lt_zero n)) rfl
    refine hl.mono fun r tr h => ?_
    obtain ⟨hs, hb, hh⟩ := h
    cases r
    case error e => exact ⟨by rintro ⟨⟩, fun h => absurd (by simpa using h) hb⟩
    case ok head =>
      obtain ⟨hi, ht⟩ := hh head rfl
      dsimp only
      split_ifs with hc
      · exact ⟨by rintro ⟨⟩, fun _ => ⟨hs, ht ▸ hi, by simpa [ht] using hc⟩⟩
      · exact ⟨fun _ => ⟨hs, ht ▸ hi, by simpa [ht] using hc⟩, by rintro ⟨⟩⟩

theorem httpConnect_answered {r : Except ProxyError Unit} (h : (httpConnect target creds).Runs tr (.ret r)) :
    (r = .ok () → Answered (connectRequest target.host target.port creds) true tr) ∧
    (r = .error .badStatus → Answered (connectRequest target.host target.port creds) false tr) := by
  have := httpConnect_sending.result h
  rwa [sending, Monitor.history_after] at this

-- A head is read byte by byte.
theorem readHeadLoop_runs {n : Nat} {buf bs : Bytes} (hh : IsHead (buf ++ bs)) (hb : bs ≠ []) (hn : bs.length ≤ n)
    (hl : (buf ++ bs).length ≤ headLimit) :
    (readHeadLoop n buf).Runs (bs.map fun b => ⟨.net (.upRead .negotiation 1), .data [b]⟩) (.ret (.ok (buf ++ bs))) := by
  induction n generalizing buf bs
  case zero => exact absurd (List.length_eq_zero_iff.mp (Nat.le_zero.mp hn)) hb
  case succ n hi =>
    obtain ⟨b, bs, rfl⟩ := List.exists_cons_of_ne_nil hb
    have he : buf ++ b :: bs = buf ++ [b] ++ bs := by simp
    rw [he] at hh hl ⊢
    refine .call ?_
    show Prog.Runs (if headEnd.isSuffixOf (buf ++ [b]) then .ret (.ok (buf ++ [b])) else
      if headLimit < (buf ++ [b]).length then .ret (.error .badResponse) else readHeadLoop n (buf ++ [b])) _ _
    by_cases hs : headEnd <:+ buf ++ [b]
    · obtain ⟨pre, hp⟩ := hs
      obtain rfl := hh.first pre bs (hp ▸ rfl)
      rw [if_pos (List.isSuffixOf_iff_suffix.mpr ⟨pre, hp⟩), List.append_nil]
      exact .refl
    · have hb : bs ≠ [] := by
        rintro rfl
        exact hs (by simpa using hh.ends)
      rw [if_neg (mt List.isSuffixOf_iff_suffix.mp hs), if_neg]
      · exact hi hh hb (by simpa using hn) hl
      · rw [List.length_append] at hl
        omega

end Asking
end Negotiator

namespace Server

open Negotiator

-- The end of a connection that is served to a client.
def downstream : Port Effects UInt8 where
  sends := Event.toClient
  takes := Event.fromClient

-- What a server makes of the request for a tunnel to the given host and port.
def tunnelRequest (b : Str) (port : UInt16) (creds : Option Credentials) : ClientRequest where
  scheme    := .https
  frontend  := .httpConnect
  host      := b
  port      := port
  raw       := []
  proxyAuth := creds.map basic
  path      := authority b port

section Request

variable {host : Str} {port : UInt16} {creds : Option Credentials}

theorem isHead_connectRequest (h : '\n' ∉ bare host) : IsHead (connectRequest host port creds) where
  ends  := headEnd_suffix
  first := single_of_lines ((lines_connectRequest h).trans headLines_eq) not_mem_heads

theorem head?_connectRequest : (connectRequest host port creds).head? = some 67 := by
  rw [connectRequest_eq]
  rfl

theorem isBuffered_connectRequest (h : '\n' ∉ bare host) (hl : (connectRequest host port creds).length ≤ requestLimit) :
    IsBuffered (connectRequest host port creds) where
  http     := by simp [head?_connectRequest]
  complete := .inl (List.isSuffixOf_iff_suffix.mpr headEnd_suffix)
  first := by
    rintro n hn (hc | hc)
    · obtain ⟨pre, hp⟩ := List.isSuffixOf_iff_suffix.mp hc
      have := (isHead_connectRequest h).first pre ((connectRequest host port creds).drop n)
        (by rw [hp, List.take_append_drop])
      exact absurd (List.drop_eq_nil_iff.mp this) (by omega)
    · rw [List.length_take] at hc
      omega

theorem trim_cons_space {s : Str} (h₁ : ∀ c ∈ s.head?, Str.isWhitespace c = false)
    (h₂ : ∀ c ∈ s.getLast?, Str.isWhitespace c = false) : Str.trim (' ' :: s) = s := by
  have key {s : Str} (h : ∀ c ∈ s.head?, Str.isWhitespace c = false) : s.dropWhile Str.isWhitespace = s := by
    cases s
    case nil    => rfl
    case cons c _ => exact List.dropWhile_cons_of_neg (by simp [h c rfl])
  rw [Str.trim, List.dropWhile_cons_of_pos (by decide), key h₁, key (by simpa using h₂), List.reverse_reverse]

theorem trim_basic (c : Credentials) : Str.trim (' ' :: basic c) = basic c := by
  refine trim_cons_space (by simp [basic, Str.isWhitespace]) fun x hx => ?_
  have hn : base64Encode (encode (c.username ++ ':' :: c.password)) ≠ [] := by
    have hp : 0 < (encode (c.username ++ ':' :: c.password)).length := by
      refine List.length_pos_iff.mpr fun he => ?_
      have := congrArg lossy he
      simp [lossy_encode] at this
    rw [← List.length_pos_iff, length_base64Encode]
    omega
  have hm : x ∈ '=' :: base64Alphabet := by
    rw [basic, List.getLast?_append_of_ne_nil _ hn] at hx
    exact base64Encode_mem _ x (List.mem_of_getLast? hx)
  have ha : ('=' :: base64Alphabet).all (Str.isWhitespace · = false) := by decide +kernel
  simpa using List.all_eq_true.mp ha x hm

theorem headerValue_connectRequest (h : '\n' ∉ bare host) :
    headerValue (connectRequest host port creds) proxyAuthorization = creds.map basic := by
  have hh (x : Str) : ¬(headerStart proxyAuthorization).isPrefixOf (Str.asciiLower ("Host: ".toList ++ x)) = true :=
    Bool.false_ne_true
  have hu : ¬(headerStart proxyAuthorization).isPrefixOf
      (Str.asciiLower ("User-Agent: PxBroker/".toList ++ pkgVersion ++ "/".toList)) = true := Bool.false_ne_true
  have hk : ¬(headerStart proxyAuthorization).isPrefixOf (Str.asciiLower "Connection: keep-alive".toList) = true :=
    Bool.false_ne_true
  have ha (x : Str) : (headerStart proxyAuthorization).isPrefixOf
      (Str.asciiLower ("Proxy-Authorization: ".toList ++ x)) = true := rfl
  rw [headerValue, lines_connectRequest h]
  have ht : (headLines (bare host) port creds).tail = ("Host: ".toList ++ hostHeader (bare host)) ::
      ("User-Agent: PxBroker/".toList ++ pkgVersion ++ "/".toList) ::
      (creds.toList.map ("Proxy-Authorization: ".toList ++ basic ·) ++ ["Connection: keep-alive".toList, []]) := rfl
  rw [ht, List.find?_cons_of_neg (by exact hh _), List.find?_cons_of_neg (by exact hu)]
  cases creds
  case none =>
    rw [Option.toList, List.map_nil, List.nil_append, List.find?_cons_of_neg (by exact hk)]
    rfl
  case some c =>
    rw [Option.toList, List.map_singleton, List.singleton_append, List.find?_cons_of_pos (by exact ha (basic c))]
    exact congrArg some (trim_basic c)

theorem parseHttp_connectRequest (hw : ∀ c ∈ bare host, Str.isWhitespace c = false) (hd : IsDelimited (bare host)) :
    parseHttp (connectRequest host port creds) = some (tunnelRequest (bare host) port creds) := by
  have hl : '\n' ∉ bare host := fun h => absurd (hw _ h) (by decide)
  have ha : ∀ c ∈ authority (bare host) port, Str.isWhitespace c = false := by
    intro c hc
    cases hs : Str.isWhitespace c
    case false => rfl
    case true =>
      have hg : ¬IsGraphic c := fun h => by simp [RequestLine.isWhitespace_of_isGraphic h] at hs
      refine absurd hc (not_mem_authority (fun hm => by simp [hw c hm] at hs) ?_ ?_)
      · exact fun hm => hg (isGraphic_of_mem hm (by decide))
      · exact Bool.eq_false_iff.mpr fun hd => hg (isGraphic_of_isAlphanum (by simp [Char.isAlphanum, hd]))
  have hn : authority (bare host) port ≠ [] := by
    unfold authority
    split_ifs <;> simp
  have hs : Str.splitWhitespace ("CONNECT ".toList ++ authority (bare host) port ++ " HTTP/1.1".toList) =
      "CONNECT".toList :: authority (bare host) port :: Str.splitWhitespace "HTTP/1.1".toList := by
    have he : "CONNECT ".toList ++ authority (bare host) port ++ " HTTP/1.1".toList =
        "CONNECT".toList ++ ' ' :: (authority (bare host) port ++ ' ' :: "HTTP/1.1".toList) := by simp
    rw [he, Str.splitWhitespace_cons (List.all_iff_forall_prop.mp (by decide)) (by decide), Str.splitWhitespace_cons ha hn]
  simp only [parseHttp, lines_connectRequest hl, headLines, List.cons_append, List.head?_cons, Option.bind_eq_bind,
    Option.bind_some, hs, List.getElem?_cons_zero, List.getElem?_cons_succ]
  rw [if_pos (by decide), splitHostPort_authority_iff.mpr hd, headerValue_connectRequest hl]
  rfl

end Request

-- The credentials with which a tunnel is asked for are those that the server was started with.
def Matches (auth : Option Str) (creds : Option Credentials) : Prop :=
  ∀ up ∈ auth, ∃ c ∈ creds, up = c.username ++ ':' :: c.password

theorem isAuthorized_tunnelRequest {auth : Option Str} {b : Str} {port : UInt16} {creds : Option Credentials} :
    isAuthorized (auth.map .ofAuth) (tunnelRequest b port creds) = true ↔ Matches auth creds := by
  have hi {s t : Str} : base64Encode (encode s) = base64Encode (encode t) ↔ t = s := by
    rw [base64Encode_injective.eq_iff]
    exact ⟨fun h => by rw [← lossy_encode t, ← h, lossy_encode], fun h => by rw [h]⟩
  rw [isAuthorized, tunnelRequest, Bool.or_eq_true, decide_eq_true_iff]
  cases auth
  case none    => simp [Matches]
  case some up => cases creds <;> simp [Matches, AuthExpect.ofAuth, basic, hi]

theorem serveControl_noContent {req : ClientRequest} (h : '/' ∉ req.path) (peer : IpAddr) (removeAllowed : Bool) :
    serveControl req peer removeAllowed = (do let _ ← writeAll noContent) := by
  have hp : Str.stripPrefix "http://proxycontrol".toList req.path = none := by
    refine if_neg fun hp => h ?_
    obtain ⟨t, ht⟩ := List.isPrefixOf_iff_prefix.mp hp
    exact ht ▸ List.mem_append_left t (by decide)
  have hd : req.path.dropWhile (· = '/') = req.path := by
    cases hr : req.path
    case nil    => rfl
    case cons c s =>
      have hc : c ≠ '/' := fun hc => h (hr ▸ hc ▸ List.mem_cons_self)
      exact List.dropWhile_cons_of_neg (by simpa using hc)
  rw [serveControl, hp, Option.getD_none, hd, Str.splitN, Str.splitOnce_eq_none_iff.mpr h]

-- What a server has done for a client that asks for a tunnel, and what it has sent to it by that.
inductive TunnelReply (ctx : ConnCtx) (peer : IpAddr) (buf : Bytes) (req : ClientRequest) (tr : Trace Effects) : Prop
  | silent  : toClient tr = [] → TunnelReply ctx peer buf req tr
  | refused : isAuthorized ctx.expectedAuth req = false → toClient tr <+: authRequired → TunnelReply ctx peer buf req tr
  | control : req.host = controlHost → toClient tr <+: noContent → TunnelReply ctx peer buf req tr
  | served {j : Job} {tr₁ tr₂ : Trace Effects} : tr = tr₁ ++ tr₂ → (accept ctx peer).Runs tr₁ (.ret (some j)) →
    isAuthorized ctx.expectedAuth req = true → req.host ≠ controlHost → j.req = req →
    j.target.host = req.host → j.target.port = req.port → fromClient tr₁ = buf → toClient tr₁ = [] → Sound j tr₂ →
    TunnelReply ctx peer buf req tr

section Reply

variable {ctx : ConnCtx} {peer : IpAddr} {buf y : Bytes} {req : ClientRequest} {tr : Trace Effects}
variable (hb : IsBuffered buf) (hp : parseHttp buf = some req) (hs : req.host = controlHost → '/' ∉ req.path)
variable (ht : fromClient tr <+: buf ++ y)

include hb in
theorem IsBuffered.head?_ne {x : Bytes} (h : x <+: buf ++ y) : x.head? ≠ some 0x05 := by
  intro h₅
  obtain ⟨x, rfl⟩ := List.head?_eq_some_iff.mp h₅
  have := hb.http
  rcases buf with _ | ⟨b, buf⟩
  · exact not_complete_of_length_le (Nat.zero_le _) hb.complete
  · simp_all

include hb hp ht in
theorem opening_unique {expected : Option AuthExpect} {req' : ClientRequest}
    (h : (parseClientRequest expected).Runs tr (.ret (some req'))) : fromClient tr = buf ∧ req' = req := by
  cases opening_of_runs h
  case socks hh   => exact absurd hh.head? (hb.head?_ne ht)
  case http hb' hp' =>
    have he : fromClient tr = buf := by
      rcases List.prefix_or_prefix_of_prefix ht (List.prefix_append buf y) with h | h
      · exact hb'.eq_of_prefix hb h
      · exact (hb.eq_of_prefix hb' h).symm
    rw [he, hp] at hp'
    exact ⟨he, (Option.some.inj hp').symm⟩

include hb hp hs ht

-- Without a job, a request for a tunnel was refused, or is not meant for a proxy.
theorem accept_tunnel {q : Async (Option Job)} (h : (accept ctx peer).Runs tr q) (hq : ∀ j, q ≠ .ret (some j)) :
    TunnelReply ctx peer buf req tr := by
  have silent {tr' : Trace Effects} (h : toClient tr = toClient tr') {bs : Bytes} (hw : toClient tr' <+: bs) :
      toClient tr <+: bs := h ▸ hw
  rcases h.of_bind with ⟨p, h, -⟩ | ⟨r, tr₁, tr₂, rfl, h₁, h₂⟩
  case inl => exact .silent (parseClientRequest_silent h (hb.head?_ne ht))
  case inr =>
    rw [fromClient_append] at ht
    have ht := (List.prefix_append ..).trans ht
    have hn : toClient (tr₁ ++ tr₂) = toClient tr₂ := by
      rw [toClient_append, parseClientRequest_silent h₁ (hb.head?_ne ht), List.nil_append]
    cases r
    case none =>
      obtain ⟨rfl, -⟩ := h₂.ret_inv
      exact .silent hn
    case some req' =>
      obtain ⟨-, rfl⟩ := opening_unique hb hp ht h₁
      dsimp only at h₂
      split_ifs at h₂ with hc hh
      · exact .refused (by simpa using hc) (silent hn (writeAll_toClient (fun _ => ⟨_, rfl⟩) h₂))
      · rw [serveControl_noContent (hs hh)] at h₂
        refine .control hh (silent hn ?_)
        rcases h₂.of_bind with ⟨p, h, -⟩ | ⟨_, tr₃, tr₄, rfl, h₃, h₄⟩
        · exact writeAll_toClient (fun _ => ⟨_, rfl⟩) h
        · obtain ⟨rfl, -⟩ := h₄.ret_inv
          rw [List.append_nil]
          exact writeAll_toClient (fun _ => ⟨_, rfl⟩) h₃
      · cases h₂
        case refl   => exact .silent hn
        case call h =>
          obtain ⟨rfl, rfl⟩ := h.ret_inv
          exact absurd rfl (hq _)

theorem accept_tunnel_some {j : Job} (h : (accept ctx peer).Runs tr (.ret (some j))) :
    isAuthorized ctx.expectedAuth req = true ∧ req.host ≠ controlHost ∧ j.req = req ∧
    j.target.host = req.host ∧ j.target.port = req.port ∧ fromClient tr = buf ∧ toClient tr = [] := by
  obtain ⟨r, tr₁, tr₂, rfl, h₁, h₂⟩ := h.of_bind_ret
  have ht₁ := (List.prefix_append ..).trans (fromClient_append .. ▸ ht)
  cases r
  case none => cases h₂.ret_inv.right
  case some req' =>
    obtain ⟨hf, rfl⟩ := opening_unique hb hp ht₁ h₁
    dsimp only at h₂
    split_ifs at h₂ with hc hh
    · obtain ⟨_, _, _, rfl, -, h⟩ := h₂.of_bind_ret
      cases h.ret_inv.right
    · obtain ⟨_, _, _, rfl, -, h⟩ := h₂.of_bind_ret
      cases h.ret_inv.right
    · cases h₂
      case call h =>
        cases h
        refine ⟨by simpa using hc, hh, rfl, rfl, rfl, ?_, ?_⟩
        · rw [fromClient_append, hf]
          exact List.append_nil buf
        · rw [toClient_append, parseClientRequest_silent h₁ (hb.head?_ne ht₁)]
          rfl

theorem handleClient_tunnel {q : Async Unit} (h : (handleClient ctx peer).Runs tr q) :
    TunnelReply ctx peer buf req tr := by
  rcases h.of_bind with ⟨p, h₁, -⟩ | ⟨j, tr₁, tr₂, rfl, h₁, h₂⟩
  case inl =>
    by_cases hq : ∃ j, p = .ret (some j)
    · obtain ⟨j, rfl⟩ := hq
      obtain ⟨ha, hh, hr, hn, hp, hf, hc⟩ := accept_tunnel_some hb hp hs ht h₁
      exact .served (List.append_nil tr).symm h₁ ha hh hr hn hp hf hc (sound_of_silent rfl)
    · exact accept_tunnel hb hp hs ht h₁ fun j hj => hq ⟨j, hj⟩
  case inr =>
    have ht₁ := (List.prefix_append ..).trans (fromClient_append .. ▸ ht)
    cases j
    case none =>
      obtain ⟨rfl, -⟩ := h₂.ret_inv
      rw [List.append_nil]
      exact accept_tunnel hb hp hs ht₁ h₁ fun _ hj => by cases Prog.ret.inj hj
    case some j =>
      obtain ⟨ha, hh, hr, hn, hp, hf, hc⟩ := accept_tunnel_some hb hp hs ht₁ h₁
      have hd := (attempts_commit toClient_nil ctx.config.maxTries 0).run h₂
      rw [commitBoundary, Monitor.history_after, List.nil_append] at hd
      refine .served rfl h₁ ha hh hr hn hp hf hc ?_
      cases q
      case ret  => exact hd
      case call => exact hd.left.left

end Reply

section Replies

theorem isHead_lines {ls : List Str} (hn : ls ≠ []) (he : [] ∉ ls) (hl : ∀ l ∈ ls, '\n' ∉ l) :
    IsHead (encode ((ls ++ [[]]).flatMap (· ++ ['\r', '\n']))) where
  ends := by
    obtain ⟨xs, x, rfl⟩ := (List.eq_nil_or_concat ls).resolve_left hn
    have hf : (xs ++ [x] ++ [[]]).flatMap (· ++ ['\r', '\n']) =
        xs.flatMap (· ++ ['\r', '\n']) ++ x ++ ['\r', '\n', '\r', '\n'] := by simp
    rw [List.concat_eq_append, hf, encode_append]
    exact List.suffix_append ..
  first := by
    refine single_of_lines (?_ : _ = ls ++ [[]]) he
    rw [lossy_encode, Str.lines_flatMap]
    simpa [or_imp, forall_and] using hl

theorem isHead_connectAck (p : Proxy) : IsHead (connectAck p) := by
  have hd : '\n' ∉ p.key.display := by
    rw [Key.display, List.mem_append, List.mem_cons, not_or, not_or]
    exact ⟨IpAddr.not_mem_display (by decide) (by decide) (by decide) _, by decide, Str.not_mem_ofNat (by decide)⟩
  have he : connectAck p = encode ((["HTTP/1.1 200 Connection established".toList,
      "X-Proxy-Info: ".toList ++ p.key.display] ++ [[]]).flatMap (· ++ ['\r', '\n'])) := by
    have hc : crlf = encode ['\r', '\n'] := rfl
    have hl : "HTTP/1.1 200 Connection established\r\n".toList =
        "HTTP/1.1 200 Connection established".toList ++ ['\r', '\n'] := rfl
    rw [connectAck, xProxyInfo, hc, hl, ← encode_append, ← encode_append]
    simp
  rw [he]
  refine isHead_lines (by simp) (by simp) fun l hm => ?_
  rcases List.mem_cons.mp hm with rfl | hm
  · decide
  · rw [List.mem_singleton.mp hm, List.mem_append, not_or]
    exact ⟨by decide, hd⟩

theorem isHead_authRequired : IsHead authRequired :=
  isHead_lines (List.cons_ne_nil "HTTP/1.1 407 Proxy Authentication Required".toList
    ["Proxy-Authenticate: Basic realm=\"proxybroker\"".toList]) (by decide) (by decide)

theorem isHead_noContent : IsHead noContent :=
  isHead_lines (List.cons_ne_nil "HTTP/1.1 204 No Content".toList []) (by decide) (by decide)

theorem isHead_terminalFailure : IsHead (terminalFailure .httpConnect) :=
  isHead_lines (List.cons_ne_nil "HTTP/1.1 502 Bad Gateway".toList []) (by decide) (by decide)

theorem getStatusCode_append {bs : Bytes} {start stop : Nat} (h : stop ≤ bs.length) (suf : Bytes) :
    getStatusCode (bs ++ suf) start stop = getStatusCode bs start stop := by
  have hl : stop ≤ (bs ++ suf).length := by simp; omega
  simp only [getStatusCode, Nat.min_eq_left h, Nat.min_eq_left hl, List.take_append_of_le_length h]

theorem getStatusCode_connectAck (p : Proxy) : getStatusCode (connectAck p) 9 12 = 200 := by
  rw [connectAck, List.append_assoc, getStatusCode_append (by decide)]
  decide

end Replies

section Chain

variable {α : Type} {target : Target} {creds : Option Credentials} {auth : Option Str} {config : Pool.Config} {fuel : Nat}
variable {peer : IpAddr}

-- What there is behind a tunnel for which a server was asked: the server has accepted the same credentials and the same
-- target, and has dialled a proxy. The bytes that are taken out of the tunnel are those that this proxy has sent since,
-- and what a proxy is sent are the bytes that are put into the tunnel.
structure LeadsTo (target : Target) (creds : Option Credentials) (auth : Option Str) (config : Pool.Config) (fuel : Nat)
    (peer : IpAddr) (tr tr' : Trace Effects) : Prop where
  matched : Matches auth creds
  foreign : bare target.host ≠ controlHost
  served  : ∃ (j : Job) (p : Proxy) (tr₁ tr₂ : Trace Effects), tr' = tr₁ ++ tr₂ ∧
    (accept ⟨config, auth.map .ofAuth, fuel⟩ peer).Runs tr₁ (.ret (some j)) ∧
    j.target.host = bare target.host ∧ j.target.port = target.port ∧ lastDial tr₂ = some (.relay, p.key) ∧
    upstream.taken tr <+: received tr₂ ∧ (Flow.after tr').sent <+: upstream.sent tr

-- Why there is no tunnel, and the reply from which this is known.
inductive Denied (target : Target) (creds : Option Credentials) (auth : Option Str) (reply : Bytes) : Prop
  | refused : ¬Matches auth creds → reply = authRequired → Denied target creds auth reply
  | control : bare target.host = controlHost → reply = noContent → Denied target creds auth reply
  | failed  : Matches auth creds → bare target.host ≠ controlHost → reply = terminalFailure .httpConnect →
    Denied target creds auth reply

-- A request for a tunnel can be asked of a server.
structure IsAskable (target : Target) (creds : Option Credentials) : Prop where
  space     : ∀ c ∈ bare target.host, Str.isWhitespace c = false
  delimited : IsDelimited (bare target.host)
  length    : (connectRequest target.host target.port creds).length ≤ requestLimit

variable {k : Except ProxyError Unit → Async α} {tr tr' tr₁ tr₂ : Trace Effects} {x : Duplex Effects Effects α Unit UInt8}

theorem not_mem_path (h : bare target.host = controlHost) : '/' ∉ authority (bare target.host) target.port := by
  rw [h]
  exact not_mem_authority (by decide) (by decide) (by decide)

section Run

variable (h : Duplex.Run upstream downstream
  ⟨httpConnect target creds >>= k, handleClient ⟨config, auth.map .ofAuth, fuel⟩ peer, [], []⟩ (tr₁ ++ tr₂) tr' x)
include h

theorem fromClient_prefix : fromClient tr' <+: upstream.sent tr₁ ++ upstream.sent tr₂ := by
  have := h.toRight_eq
  rw [List.nil_append] at this
  rw [← Port.sent_append, this]
  exact List.prefix_append ..

theorem toClient_eq : toClient tr' = upstream.taken tr₁ ++ upstream.taken tr₂ ++ x.toLeft := by
  have := h.toLeft_eq
  rwa [List.nil_append, Port.taken_append] at this

theorem IsAskable.tunnelReply {ok : Bool} (ha : IsAskable target creds)
    (hr : Answered (connectRequest target.host target.port creds) ok tr₁) :
    TunnelReply ⟨config, auth.map .ofAuth, fuel⟩ peer (connectRequest target.host target.port creds)
      (tunnelRequest (bare target.host) target.port creds) tr' :=
  handleClient_tunnel (isBuffered_connectRequest (fun h => absurd (ha.space _ h) (by decide)) ha.length)
    (parseHttp_connectRequest ha.space ha.delimited) not_mem_path (hr.sent ▸ fromClient_prefix h) h.right_runs

-- The head that has arrived is the reply that the server has made.
theorem reply_eq {ok : Bool} {y bs : Bytes} (hr : Answered y ok tr₁) (hb : IsHead bs) {z : Bytes}
    (hz : bs <+: z) (ht : toClient tr' <+: z) : upstream.taken tr₁ = bs := by
  refine hr.head.eq_of_prefix hb (List.IsPrefix.trans ?_ ht) hz
  rw [toClient_eq h, List.append_assoc]
  exact List.prefix_append ..

theorem toClient_ne_nil {ok : Bool} {y : Bytes} (hr : Answered y ok tr₁) : toClient tr' ≠ [] := by
  rw [toClient_eq h]
  exact List.append_ne_nil_of_left_ne_nil (List.append_ne_nil_of_left_ne_nil hr.head.ne_nil _) _

-- The reply to a request that was served tells whether a proxy was found.
theorem reply_of_sound {j : Job} {tr₄ : Trace Effects} {ok : Bool} {y : Bytes} (hr : Answered y ok tr₁)
    (hj : j.req.frontend = .httpConnect) (ht : toClient tr' = toClient tr₄) (hs : Sound j tr₄) :
    upstream.taken tr₁ = terminalFailure .httpConnect ∨ ∃ p : Proxy, lastDial tr₄ = some (.relay, p.key) ∧
      upstream.taken tr₁ = connectAck p ∧ toClient tr' <+: connectAck p ++ received tr₄ := by
  rcases hs with hs | ⟨p, hl, hd⟩
  · rw [hj] at hs
    exact .inl (reply_eq h hr isHead_terminalFailure List.prefix_rfl (ht ▸ hs.left))
  · rw [Delivered, hj] at hd
    dsimp only at hd
    rw [← ht] at hd
    exact .inr ⟨p, hl, reply_eq h hr (isHead_connectAck p) (List.prefix_append ..) hd, hd⟩

-- What a proxy was sent for a tunnel is what the client has sent since its request.
theorem sent_prefix {j : Job} {tr₃ tr₄ : Trace Effects} {ok : Bool}
    (hr : Answered (connectRequest target.host target.port creds) ok tr₁) (he : tr' = tr₃ ++ tr₄)
    (h₃ : (accept ⟨config, auth.map .ofAuth, fuel⟩ peer).Runs tr₃ (.ret (some j)))
    (ht : fromClient tr₃ = connectRequest target.host target.port creds) (hj : j.req.frontend = .httpConnect) :
    (Flow.after tr').sent <+: upstream.sent tr₂ := by
  have hp (p : Proxy) : payload p j.req = [] := by rw [payload, hj, if_neg (by decide)]
  have hm := attempts_held h₃ (he ▸ h.right_runs) (List.append_nil tr₄).symm
  rw [← he, ht] at hm
  have hf := fromClient_prefix h
  rw [hr.sent, ← Flow.after_taken] at hf
  obtain ⟨ha, -⟩ := Meter.after_eq tr'
  rw [← ha] at hf ⊢
  rcases hm with hm | ⟨p, hm⟩ | hm
  · simp [hm.sent]
  · simp [hm.sent, hp]
  · rcases hm.sent with hm | ⟨p, y, -, -, hy, hm, -⟩
    · simp [hm]
    · rw [hy, List.prefix_append_right_inj] at hf
      simpa [hm, hp] using hf

theorem IsAskable.leadsTo (ha : IsAskable target creds)
    (hr : Answered (connectRequest target.host target.port creds) true tr₁) :
    LeadsTo target creds auth config fuel peer tr₂ tr' := by
  have hc : getStatusCode (upstream.taken tr₁) 9 12 = 200 := hr.status.mpr rfl
  cases ha.tunnelReply h hr
  case silent hn    => exact absurd hn (toClient_ne_nil h hr)
  case refused hp   =>
    rw [reply_eq h hr isHead_authRequired List.prefix_rfl hp] at hc
    exact absurd hc (by decide)
  case control hp   =>
    rw [reply_eq h hr isHead_noContent List.prefix_rfl hp] at hc
    exact absurd hc (by decide)
  case served j tr₃ tr₄ he h₁ hm hf hq hh hp ht hn hs =>
    have hq' : j.req.frontend = .httpConnect := hq ▸ rfl
    have he' : toClient tr' = toClient tr₄ := by rw [he, toClient_append, hn, List.nil_append]
    rcases reply_of_sound h hr hq' he' hs with ht₁ | ⟨p, hl, ht₁, hd⟩
    · rw [ht₁] at hc
      exact absurd hc (by decide)
    · refine ⟨isAuthorized_tunnelRequest.mp hm, hf, j, p, tr₃, tr₄, he, h₁, hh, hp, hl, ?_, ?_⟩
      · rw [toClient_eq h, ht₁, List.append_assoc, List.prefix_append_right_inj] at hd
        exact (List.prefix_append ..).trans hd
      · exact sent_prefix h hr he h₁ ht hq'

theorem IsAskable.denied (ha : IsAskable target creds)
    (hr : Answered (connectRequest target.host target.port creds) false tr₁) :
    Denied target creds auth (upstream.taken tr₁) := by
  have hc : getStatusCode (upstream.taken tr₁) 9 12 ≠ 200 := by simpa using hr.status
  cases ha.tunnelReply h hr
  case silent hn     => exact absurd hn (toClient_ne_nil h hr)
  case refused hm hp =>
    exact .refused (by rw [← isAuthorized_tunnelRequest, hm]; nofun) (reply_eq h hr isHead_authRequired List.prefix_rfl hp)
  case control hh hp => exact .control hh (reply_eq h hr isHead_noContent List.prefix_rfl hp)
  case served j tr₃ tr₄ he h₁ hm hf hq hh hp ht hn hs =>
    have hq' : j.req.frontend = .httpConnect := hq ▸ rfl
    have he' : toClient tr' = toClient tr₄ := by rw [he, toClient_append, hn, List.nil_append]
    rcases reply_of_sound h hr hq' he' hs with ht₁ | ⟨p, -, ht₁, -⟩
    · exact .failed (isAuthorized_tunnelRequest.mp hm) hf ht₁
    · rw [ht₁] at hc
      exact absurd (getStatusCode_connectAck p) hc

end Run

-- For every server, and a negotiator that asks it for a tunnel as if it were any other proxy: if the negotiator has
-- found that there is a tunnel, then it leads where it should, and none of the bytes of the negotiation are taken for
-- bytes of the tunnel. If it has found that there is none, then this is due to one of three reasons.
theorem httpConnect_chained (ha : IsAskable target creds)
    (h : Duplex.Run upstream downstream
      ⟨httpConnect target creds >>= k, handleClient ⟨config, auth.map .ofAuth, fuel⟩ peer, [], []⟩ (tr₁ ++ tr₂) tr' x)
    {r : Except ProxyError Unit} (hr : (httpConnect target creds).Runs tr₁ (.ret r)) :
    (r = .ok () → LeadsTo target creds auth config fuel peer tr₂ tr') ∧
    (r = .error .badStatus → Denied target creds auth (upstream.taken tr₁)) := by
  obtain ⟨ho, hb⟩ := httpConnect_answered hr
  exact ⟨fun hr => ha.leadsTo h (ho hr), fun hr => ha.denied h (hb hr)⟩

end Chain

namespace ChainExample

-- The server has a SOCKS5 proxy, and is itself used as an HTTP proxy.
def target : Target :=
  ⟨"example.com".toList, none, 443⟩

def creds : Credentials :=
  ⟨"user".toList, "pass".toList⟩

def auth : Str :=
  "user:pass".toList

def peer : IpAddr :=
  .v4 127 0 0 1

def proxy : Proxy :=
  (Proxy.new (.v4 10 0 0 1) 1080 ∅).addType .socks5 none

def ctx : ConnCtx where
  config       := .default
  expectedAuth := (some auth).map .ofAuth
  fuel         := 1

def request : Bytes :=
  connectRequest target.host target.port (some creds)

def asking : Trace Effects :=
  [⟨.net (.upWrite .negotiation request), .done⟩]

def answered : Trace Effects :=
  (connectAck proxy).map fun b => ⟨.net (.upRead .negotiation 1), .data [b]⟩

def accepted : Trace Effects :=
  reads request ++ [⟨.net (.resolve target.host), none⟩]

def tunnelled : Trace Effects := [
  ⟨.pool .notified, ()⟩,
  ⟨.pool .loadCursor, (0 : UInt64)⟩,
  ⟨.env .now, (0 : Instant)⟩,
  ⟨.pool (.select ⟨.https, .best, none, 0, 0, false⟩), some proxy⟩,
  ⟨.net (.dial .relay proxy.key), .ok⟩,
  ⟨.net (.socks5 (.host target.host) 443 none), .ok⟩,
  ⟨.net (.clientWrite (connectAck proxy)), .done⟩
]

-- What is done with the tunnel.
def talk (_ : Except ProxyError Unit) : Async Unit := do
  let _ ← Async.net (.upWrite .exchange [7])
  let _ ← Async.net (.upRead .exchange 2)

def spliced : Trace Effects :=
  [⟨.net .splice, ⟨[1, 2], [7], true⟩⟩]

def talked : Trace Effects :=
  [⟨.net (.upWrite .exchange [7]), .done⟩, ⟨.net (.upRead .exchange 2), .data [1, 2]⟩]

theorem isAskable : IsAskable target (some creds) where
  space     := List.all_iff_forall_prop.mp (by decide)
  length    := by decide +kernel
  delimited := by
    have hb : bare target.host = 'e' :: "xample.com".toList := by decide
    have hc : ':' ∉ 'e' :: "xample.com".toList := by decide
    rw [hb, IsDelimited, if_neg hc]
    exact ⟨List.cons_ne_nil _ _, fun ⟨t, ht⟩ => absurd (List.head_eq_of_cons_eq ht) (by decide)⟩

theorem httpConnect_runs : (httpConnect target (some creds)).Runs (asking ++ answered) (.ret (.ok ())) := by
  refine .call ?_
  have hr := readHeadLoop_runs (n := headLimit + 1) (show IsHead ([] ++ connectAck proxy) from isHead_connectAck proxy)
    (by decide) (by decide) (by decide)
  rw [← List.append_nil answered]
  exact hr.bind_ret .refl

def job : Job where
  config := ctx.config
  fuel   := 1
  peer   := peer
  key    := .ip peer
  target := target
  req    := tunnelRequest target.host 443 (some creds)

theorem bare_host : bare target.host = target.host := by
  decide

theorem matches_creds : Matches (some auth) (some creds) := by
  rintro _ ⟨⟩
  exact ⟨creds, rfl, by decide⟩

theorem accept_runs : (accept ctx peer).Runs accepted (.ret (some job)) := by
  have hp : (parseClientRequest ctx.expectedAuth).Runs (reads request) (.ret (some job.req)) := by
    have := parseClientRequest_runs ctx.expectedAuth
      (isBuffered_connectRequest (fun h => absurd (isAskable.space _ h) (by decide)) isAskable.length)
    rwa [parseHttp_connectRequest isAskable.space isAskable.delimited, bare_host] at this
  refine (hp.bind _).trans ?_
  have ha : isAuthorized ctx.expectedAuth job.req = true := isAuthorized_tunnelRequest.mpr matches_creds
  have hh : job.req.host ≠ controlHost := by decide
  rw [Prog.ret_bind]
  simp only [ha, Bool.not_true, Bool.false_eq_true, if_false, if_neg hh]
  exact .call .refl

theorem handleClient_runs : ∃ q q', (handleClient ctx peer).Runs (accepted ++ tunnelled) q ∧ q.Runs spliced q' :=
  ⟨_, _, (accept_runs.bind _).trans <| .call <| .call <| .call <| .call <| .call <| .call <| .call .refl, .call .refl⟩

theorem asking_runs : ∃ q, (httpConnect target (some creds) >>= talk).Runs asking q ∧ q.Runs answered (talk (.ok ())) := by
  cases (httpConnect_runs.bind talk : Prog.Runs _ (asking ++ answered) _)
  case call h => exact ⟨_, .call .refl, h⟩

theorem duplex_runs : ∃ x, Duplex.Run upstream downstream
    ⟨httpConnect target (some creds) >>= talk, handleClient ctx peer, [], []⟩
    (asking ++ answered ++ talked) (accepted ++ tunnelled ++ spliced) x := by
  obtain ⟨c, hc, hc'⟩ := asking_runs
  obtain ⟨d, d', hd, hd'⟩ := handleClient_runs
  have ht : upstream.taken answered = connectAck proxy := by decide
  have hs : upstream.sent answered = [] := by decide
  have hf : downstream.taken (accepted ++ tunnelled) = request := by
    rw [accepted, Port.taken_append, Port.taken_append]
    exact (congrArg (· ++ [] ++ []) (fromClient_reads request)).trans (by simp)
  have ho : downstream.sent (accepted ++ tunnelled) = connectAck proxy := by
    have hr : downstream.sent (reads request) = [] := toClient_reads fun e he => by
      obtain ⟨b, -, rfl⟩ := List.mem_map.mp he
      trivial
    have hn : downstream.sent [⟨.net (.resolve target.host), none⟩] = [] := rfl
    rw [accepted, Port.sent_append, Port.sent_append, hr, hn]
    simp [downstream, Port.sent, tunnelled, Event.toClient, WriteResult.delivered]
  let x₀ : Duplex Effects Effects Unit Unit UInt8 :=
    ⟨httpConnect target (some creds) >>= talk, handleClient ctx peer, [], []⟩
  have h₁ : Duplex.Run upstream downstream x₀ asking [] ⟨c, handleClient ctx peer, request, []⟩ := by
    have hq : upstream.sent asking = request := by simp [upstream, Port.sent, asking, WriteResult.delivered]
    have h : Duplex.Run upstream downstream x₀ [] [] ⟨_, _, [], upstream.taken asking ++ []⟩ := .refl
    exact hq ▸ h.lefts hc
  have h₂ : Duplex.Run upstream downstream x₀ asking (accepted ++ tunnelled) ⟨c, d, [], connectAck proxy⟩ := by
    rw [← hf, ← List.append_nil (downstream.taken _)] at h₁
    have h := h₁.rights hd
    rwa [List.nil_append, List.nil_append, ho] at h
  have h₃ : Duplex.Run upstream downstream x₀ (asking ++ answered) (accepted ++ tunnelled) ⟨talk (.ok ()), d, [], []⟩ := by
    rw [← ht, ← List.append_nil (upstream.taken _)] at h₂
    have h := h₂.lefts hc'
    rwa [List.nil_append, hs] at h
  have he : talked = [⟨.net (.upWrite .exchange [7]), .done⟩] ++ [⟨.net (.upRead .exchange 2), .data [1, 2]⟩] := rfl
  have h₄ : Duplex.Run upstream downstream x₀ (asking ++ answered ++ [⟨.net (.upWrite .exchange [7]), .done⟩])
      (accepted ++ tunnelled) ⟨.call (.net (.upRead .exchange 2)) fun _ => .ret (), d, [7], []⟩ :=
    .left h₃
  rw [he, ← List.append_assoc]
  exact ⟨_, (h₄.rights hd').left⟩

end ChainExample

open ChainExample in
theorem httpConnect_chained_tunnel :
    LeadsTo target (some creds) (some auth) .default 1 peer talked (accepted ++ tunnelled ++ spliced) := by
  obtain ⟨x, h⟩ := duplex_runs
  exact (httpConnect_chained isAskable h httpConnect_runs).left rfl

end Server
