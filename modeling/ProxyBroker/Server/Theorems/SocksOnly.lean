import ProxyBroker.Server.Theorems.Handshake
import ProxyBroker.Server.Theorems.Commit
import ProxyBroker.Text.Digits

open Prog Utf8 Trace

namespace Server

-- A SOCKS5 client that asks the server for a tunnel to its control API.
def AsksForControl (expected : Option AuthExpect) (bs : Bytes) : Prop :=
  ∃ hs port, Handshake expected hs (socksRequest controlHost port) ∧ hs <+: bs

-- Demands that a client which sends the given bytes is only sent frames, as long as nothing is spliced.
def speakingTo (bs : Bytes) : Monitor Effects (Trace Effects) :=
  .history fun tr o => fromClient tr <+: bs → speaking.demand tr o

variable {α : Type} {expected : Option AuthExpect} {tr : Trace Effects} {bs : Bytes} {req : ClientRequest} {j : Job}

-- A client that has sent something else is of no concern.
theorem speakingTo_of_not_begins (p : Async α) (h : ¬fromClient tr <+: bs) :
    Sat (speakingTo bs) p (fun _ tr => ¬fromClient tr <+: bs) tr := by
  induction p generalizing tr
  case ret => exact h
  case call o k hi =>
    refine ⟨fun h' => absurd h' h, fun r => hi r fun h' => h ?_⟩
    refine List.IsPrefix.trans ?_ h'
    simp [speakingTo]

theorem Handshake.frontend (h : Handshake expected bs req) : req.frontend = .socks5 := by
  cases h
  rfl

theorem Handshake.eq_socksRequest (h : Handshake expected bs req) : req = socksRequest req.host req.port := by
  cases h
  rfl

theorem parseClientRequest_speakingTo :
    Sat (speakingTo bs) (parseClientRequest expected) (Yields fun req bs => Opening expected bs req) [] :=
  parseClientRequest_speaks.weaken rfl fun _ _ h _ => h

-- What remains to be done for a client that has not been told anything but frames.
def Welcomed (bs : Bytes) (j : Option Job) (tr : Trace Effects) : Prop :=
  fromClient tr <+: bs → Speaks (toClient tr) ∧
    ∀ j', j = some j' → Spoken (toClient tr) ∧ j'.req.frontend = .socks5

theorem accept_speaks (ctx : ConnCtx) (peer : IpAddr) (h₅ : bs.head? = some 0x05)
    (hn : ¬AsksForControl ctx.expectedAuth bs) :
    Sat (speakingTo bs) (accept ctx peer) (Welcomed bs) [] := by
  unfold accept
  rw [sat_bind]
  refine parseClientRequest_speakingTo.mono fun r tr hr => ?_
  cases r
  case none => exact fun _ => ⟨hr.left, by simp⟩
  case some req =>
    obtain ⟨h, ho⟩ := hr.right req rfl
    by_cases hb : fromClient tr <+: bs
    case neg => exact (speakingTo_of_not_begins _ hb).mono fun _ _ h h' => absurd h' h
    case pos =>
      have hs : Handshake ctx.expectedAuth (fromClient tr) req := by
        cases ho
        case socks hs => exact hs
        case http hi _ =>
          obtain ⟨y, rfl⟩ := hb
          have hl : fromClient tr ≠ [] := fun hl => not_complete_of_length_le (by simp [hl]) hi.complete
          exact absurd ((List.head?_append_of_ne_nil _ hl).symm.trans h₅) hi.http
      have ha : isAuthorized ctx.expectedAuth req := by simp [isAuthorized, hs.frontend]
      have hc : req.host ≠ controlHost := by
        intro hc
        exact hn ⟨_, req.port, hc ▸ hs.eq_socksRequest ▸ hs, hb⟩
      simp only [ha, hc, Bool.not_true, Bool.false_eq_true, if_false, sat_bind, Async.sat_net]
      refine ⟨fun _ _ => h.speaks, fun r _ => ?_⟩
      have h : Spoken (toClient ((speakingTo bs).next tr ⟨.net (.resolve req.host), r⟩)) := by
        simpa [speakingTo, Event.toClient] using h
      refine ⟨h.speaks, ?_⟩
      rintro _ ⟨⟩
      exact ⟨h, hs.frontend⟩

-- What the loop over the attempts writes to a SOCKS5 client.
def WritesReply : Op → Prop
  | .net (.clientWrite bs) => ∃ rep, bs = socksReply rep
  | _                      => True

theorem WritesReply.of_isLeasing {o : Op} (h : o.IsLeasing) : WritesReply o := by
  cases o
  case net o =>
    cases o
    case clientWrite => exact (h : False).elim
    all_goals trivial
  all_goals trivial

theorem relay_writesReply (hf : req.frontend = .socks5) (p : Proxy) (proto : Proto) (target : Negotiator.Target)
    (allowed : Option (List UInt16)) : (relay p proto target req allowed).Uses WritesReply := by
  refine Uses.bind ⟨trivial, fun _ => trivial⟩ fun r => ?_
  split
  case h_3 =>
    refine Uses.bind ((Negotiator.negotiate_uses ..).mono fun _ h => .of_isLeasing h.isLeasing) fun r => ?_
    split
    · trivial
    · refine Uses.bind ?_ fun r => ?_
      · rw [acknowledge, hf]
        exact Uses.bind (writeAll_uses ⟨0x00, rfl⟩) fun ok => by cases ok <;> trivial
      · split
        · trivial
        · exact Uses.bind ⟨trivial, fun _ => trivial⟩ fun _ => trivial
  all_goals trivial

theorem attempts_writesReply (hf : j.req.frontend = .socks5) (tries attempt : Nat) :
    (attempts j tries attempt).Uses WritesReply := by
  have fail : Uses WritesReply (do let _ ← writeAll (terminalFailure j.req.frontend) : Async Unit) := by
    rw [hf]
    exact Uses.bind (writeAll_uses ⟨0x01, rfl⟩) fun _ => trivial
  induction tries generalizing attempt
  case zero => exact fail
  case succ hi =>
    refine Uses.bind ((Pool.get_uses ..).mono fun _ h => .of_isLeasing h) fun chosen => ?_
    split
    · exact fail
    · refine Uses.bind (Async.uses_when ⟨trivial, fun _ => trivial⟩) fun _ => ?_
      refine Uses.bind (relay_writesReply hf ..) fun outcome => ?_
      refine Uses.bind ((settle_uses _).mono fun _ h => .of_isLeasing h.isLeasing) fun again => ?_
      cases again
      · trivial
      · exact hi _

theorem toClient_of_not_isClientWrite {e : Event Effects} (hw : ¬e.op.IsClientWrite) (hs : e.op ≠ .net .splice) :
    e.toClient = [] := by
  obtain ⟨o, r⟩ := e
  cases o
  case net o =>
    cases o
    case clientWrite => exact absurd trivial hw
    case splice      => exact absurd rfl hs
    all_goals rfl
  all_goals rfl

-- Nothing is written after the first reply.
theorem toClient_prefix_reply (hc : ∀ pre e suf, tr = pre ++ e :: suf → e.op.IsClientWrite → toClient pre = [])
    (hw : ∀ e ∈ tr, WritesReply e.op) (hs : ∀ e ∈ tr, e.op ≠ .net .splice) :
    ∃ rep, toClient tr <+: socksReply rep := by
  induction tr using List.reverseRecOn
  case nil => exact ⟨0, List.nil_prefix⟩
  case append_singleton tr e hi =>
    by_cases he : e.op.IsClientWrite
    case neg =>
      rw [toClient_snoc, toClient_of_not_isClientWrite he (hs e (by simp)), List.append_nil]
      refine hi (fun pre e' suf ht => hc pre e' (suf ++ [e]) (by simp [ht])) (fun e' h => hw e' ?_) fun e' h => hs e' ?_
      all_goals exact List.mem_append_left _ h
    case pos =>
      rw [toClient_snoc, hc tr e [] rfl he, List.nil_append]
      obtain ⟨o, r⟩ := e
      cases o
      case net o =>
        cases o
        case clientWrite bs =>
          obtain ⟨rep, rfl⟩ := hw ⟨.net (.clientWrite bs), r⟩ (by simp)
          exact ⟨rep, WriteResult.delivered_prefix _ r⟩
        all_goals exact (he : False).elim
      all_goals exact (he : False).elim

theorem handleClient_speaks {ctx : ConnCtx} {peer : IpAddr} {q : Async Unit} (h₅ : bs.head? = some 0x05)
    (hn : ¬AsksForControl ctx.expectedAuth bs) (h : (handleClient ctx peer).Runs tr q) (hb : fromClient tr <+: bs)
    (hs : ∀ e ∈ tr, e.op ≠ .net .splice) : Speaks (toClient tr) := by
  have ha := accept_speaks ctx peer h₅ hn
  rcases h.of_bind with ⟨p, hp, -⟩ | ⟨j, tr₁, tr₂, rfl, h₁, h₂⟩
  case inl =>
    have hr := ha.run hp
    rw [speakingTo, Monitor.history_after] at hr
    cases p
    case ret  => exact (hr hb).left
    case call => exact hr.left hb hs
  case inr =>
    have hr := ha.result h₁
    rw [speakingTo, Monitor.history_after, List.nil_append] at hr
    have ht : toClient (tr₁ ++ tr₂) = toClient tr₁ ++ toClient tr₂ := List.flatMap_append
    have hf : fromClient (tr₁ ++ tr₂) = fromClient tr₁ ++ fromClient tr₂ := List.flatMap_append
    obtain ⟨hk, hj⟩ := hr ((hf ▸ List.prefix_append ..).trans hb)
    cases j
    case none =>
      cases h₂.ret_inv.left
      simpa using hk
    case some j =>
      obtain ⟨hk, hq⟩ := hj j rfl
      have hc := (handleClient_commit ctx peer h₁ h).right
      obtain ⟨rep, hr⟩ := toClient_prefix_reply (fun pre e suf he hw => hc pre e suf he (.inr hw))
        ((attempts_writesReply hq _ _).of_run h₂).right fun e he => hs e (List.mem_append_right _ he)
      exact ht ▸ hk.append_prefix (f := socksReplyFrame rep) hr

section Asking

-- What has been read from and written to a client, as long as nothing is spliced.
structure Talk (tr : Trace Effects) (got said : Bytes) : Prop where
  got    : fromClient tr = got
  said   : toClient tr = said
  direct : ∀ e ∈ tr, e.op ≠ .net .splice

variable {tr₁ tr₂ : Trace Effects} {got said got₁ got₂ said₁ said₂ g a x : Bytes} {n : Nat} {q : Async (Option α)}

theorem Talk.nil : Talk [] [] [] :=
  ⟨rfl, rfl, by simp⟩

theorem Talk.append (h₁ : Talk tr₁ got₁ said₁) (h₂ : Talk tr₂ got₂ said₂) :
    Talk (tr₁ ++ tr₂) (got₁ ++ got₂) (said₁ ++ said₂) where
  got    := by rw [← h₁.got, ← h₂.got, fromClient, List.flatMap_append]; rfl
  said   := by rw [← h₁.said, ← h₂.said, toClient, List.flatMap_append]; rfl
  direct := by simpa [or_imp, forall_and] using ⟨h₁.direct, h₂.direct⟩

theorem takes_talk (bs : Bytes) : Talk (takes bs) bs [] := by
  refine ⟨fromClient_takes bs, ?_, ?_⟩ <;> cases bs <;> simp [takes, toClient, Event.toClient]

def writes (bs : Bytes) : Trace Effects :=
  [⟨.net (.clientWrite bs), .done⟩]

theorem writes_talk (bs : Bytes) : Talk (writes bs) [] bs :=
  ⟨rfl, by simp [writes, toClient, Event.toClient, WriteResult.delivered], by simp [writes]⟩

-- A run that yields the given result, in the course of which the client has sent and received the given bytes.
def Talks (p : Async (Option α)) (x : α) (got said : Bytes) : Prop :=
  ∃ tr, p.Runs tr (.ret (some x)) ∧ Talk tr got said

theorem ret_talks (y : α) : Talks (pure (some y)) y [] [] :=
  ⟨[], .refl, .nil⟩

theorem bind_talks {β : Type} {p : Async (Option β)} {f : Option β → Async (Option α)} {z : β} {y : α}
    (hp : Talks p z got₁ said₁) (h : Talks (f (some z)) y got₂ said₂) :
    Talks (p >>= f) y (got₁ ++ got₂) (said₁ ++ said₂) := by
  obtain ⟨tr₁, hr₁, ht₁⟩ := hp
  obtain ⟨tr₂, hr₂, ht₂⟩ := h
  exact ⟨tr₁ ++ tr₂, hr₁.bind_ret hr₂, ht₁.append ht₂⟩

theorem readExact_talks {f : Option Bytes → Async (Option α)} {y : α} (hn : x.length = n)
    (h : Talks (f (some x)) y got said) : Talks (readExact n >>= f) y (x ++ got) said := by
  have hr : Talks (readExact n) x x [] := ⟨takes x, hn ▸ readExact_runs x, takes_talk x⟩
  exact bind_talks hr h

theorem readExact_talks_last {f : Option Bytes → Async (Option α)} {y : α} (hn : x.length = n)
    (h : Talks (f (some x)) y [] said) : Talks (readExact n >>= f) y x said := by
  simpa using readExact_talks hn h

theorem writeAll_talks {p : Async (Option α)} {y : α} (bs : Bytes) (h : Talks p y got said) :
    Talks (do if !(← writeAll bs) then return none else p) y got (bs ++ said) := by
  obtain ⟨tr, hr, ht⟩ := h
  exact ⟨writes bs ++ tr, .call hr, (writes_talk bs).append ht⟩

theorem socks5Auth_talks (h : Greeting expected g) : ∃ n methods got said,
    g = [0x05, n] ++ methods ++ got ∧ methods.length = n.toNat ∧ said ∈ [[0x05, 0x00], [0x05, 0x02, 0x01, 0x00]] ∧
    Talks (socks5Auth methods expected) () got said := by
  cases h
  case unprotected n methods hm ho =>
    refine ⟨n, methods, [], _, by simp, hm, List.mem_cons_self, ?_⟩
    rw [socks5Auth, if_neg (not_not.mpr ho)]
    exact writeAll_talks [0x05, 0x00] (ret_talks ())
  case password e n ver ulen plen methods hm ho hu hp =>
    let got := [ver, ulen] ++ (encode e.user ++ ([plen] ++ encode e.pass))
    refine ⟨n, methods, got, [0x05, 0x02, 0x01, 0x00], by simp only [got, List.append_assoc], hm, by simp, ?_⟩
    rw [socks5Auth, if_neg (not_not.mpr ho)]
    refine writeAll_talks [0x05, 0x02] ?_
    refine readExact_talks (x := [ver, ulen]) rfl <| readExact_talks hu <| readExact_talks (x := [plen]) rfl ?_
    refine readExact_talks_last hp ?_
    dsimp only
    rw [if_pos (And.intro rfl rfl)]
    exact writeAll_talks [0x01, 0x00] (ret_talks ())

theorem socks5Addr_talks {host : Str} {port : UInt16} (h : Address a host port) :
    ∃ atyp got, a = atyp :: got ∧ Talks (socks5Addr atyp) (host, port) got [] := by
  cases h
  case ipv4 a p ha hp => exact ⟨0x01, _, rfl, readExact_talks ha <| readExact_talks_last hp (ret_talks _)⟩
  case ipv6 a p ha hp => exact ⟨0x04, _, rfl, readExact_talks ha <| readExact_talks_last hp (ret_talks _)⟩
  case domain l d p hd hp =>
    exact ⟨0x03, _, rfl, readExact_talks (x := [l]) rfl <| readExact_talks hd <| readExact_talks_last hp (ret_talks _)⟩

-- The server can be brought to accept any handshake.
theorem parseClientRequest_talks (h : Handshake expected bs req) :
    ∃ said ∈ [[0x05, 0x00], [0x05, 0x02, 0x01, 0x00]], Talks (parseClientRequest expected) req bs said := by
  cases h
  case intro g a rsv host port hg ha =>
    obtain ⟨n, methods, got, said, rfl, hm, hs, ht⟩ := socks5Auth_talks hg
    obtain ⟨atyp, got', rfl, ht'⟩ := socks5Addr_talks ha
    refine ⟨said, hs, ?_⟩
    have hp : Talks (parseSocks5Request expected) (socksRequest host port)
        ([n] ++ (methods ++ (got ++ ([0x05, 0x01, rsv, atyp] ++ (got' ++ []))))) (said ++ ([] ++ [])) := by
      refine readExact_talks (x := [n]) rfl <| readExact_talks hm <| bind_talks ht ?_
      exact readExact_talks (x := [0x05, 0x01, rsv, atyp]) rfl (bind_talks ht' (ret_talks _))
    have hf : Talks (parseClientRequest expected) _ ([0x05] ++ _) _ := readExact_talks (x := [0x05]) rfl hp
    simpa using hf

theorem noContent_eq : noContent = 0x48 :: noContent.tail :=
  rfl

theorem not_frames_of_letter (fs : List Frame) : ¬0x48 :: x <+: fs.flatMap Frame.render := by
  cases fs
  case nil => simp
  case cons f fs => cases f <;> simp [Frame.render]

-- No text is taken for a reply.
theorem not_speaks_of_letter (h : said ∈ [[0x05, 0x00], [0x05, 0x02, 0x01, 0x00]]) : ¬Speaks (said ++ 0x48 :: x) := by
  rintro ⟨fs, hf⟩
  simp only [List.mem_cons, List.not_mem_nil, or_false] at h
  rcases h with rfl | rfl
  · rcases fs with _ | ⟨_ | _ | _, fs⟩
    all_goals simp [Frame.render] at hf
    exact not_frames_of_letter fs hf.right
  · rcases fs with _ | ⟨_ | _ | _, _ | ⟨_ | _ | _, fs⟩⟩
    all_goals simp [Frame.render] at hf
    exact not_frames_of_letter fs hf.right.right

theorem serveControl_socks (peer : IpAddr) (port : UInt16) (removeAllowed : Bool) :
    serveControl (socksRequest controlHost port) peer removeAllowed =
    (do let _ ← writeAll noContent) := by
  have hp : Str.stripPrefix "http://proxycontrol".toList (socksRequest controlHost port).path = none := rfl
  have hd : (socksRequest controlHost port).path.dropWhile (· = '/') = (socksRequest controlHost port).path := rfl
  have hs : Str.splitOnce ['/'] (socksRequest controlHost port).path = none := by
    rw [Str.splitOnce_eq_none_iff, socksRequest, List.mem_append, List.mem_cons, not_or, not_or]
    exact ⟨by decide, by decide, Str.not_mem_ofNat (by decide)⟩
  rw [serveControl, hp, Option.getD_none, hd, Str.splitN, hs]

-- The control API answers in HTTP.
theorem handleClient_control {ctx : ConnCtx} {hs : Bytes} {port : UInt16} (peer : IpAddr)
    (h : Handshake ctx.expectedAuth hs (socksRequest controlHost port)) :
    ∃ tr said, (handleClient ctx peer).Runs tr (.ret ()) ∧ Talk tr hs (said ++ noContent) ∧
    said ∈ [[0x05, 0x00], [0x05, 0x02, 0x01, 0x00]] := by
  obtain ⟨said, hs, tr, hr, ht⟩ := parseClientRequest_talks h
  refine ⟨tr ++ writes noContent, said, ?_, by simpa using ht.append (writes_talk noContent), hs⟩
  have hc : (accept ctx peer).Runs (tr ++ writes noContent) (.ret none) := by
    refine hr.bind_ret ?_
    dsimp only
    have ha : isAuthorized ctx.expectedAuth (socksRequest controlHost port) = true := rfl
    rw [ha, if_neg (by simp), if_pos (show (socksRequest controlHost port).host = controlHost from rfl), serveControl_socks]
    exact .call .refl
  rw [← List.append_nil (tr ++ _)]
  exact hc.bind_ret .refl

-- A SOCKS5 client is only ever sent frames before the splice, unless it asks for the control API.
theorem socks5_only_iff (ctx : ConnCtx) (peer : IpAddr) (bs : Bytes) (h₅ : bs.head? = some 0x05) :
    (∀ tr q, (handleClient ctx peer).Runs tr q → fromClient tr <+: bs → (∀ e ∈ tr, e.op ≠ .net .splice) →
      Speaks (toClient tr)) ↔ ¬AsksForControl ctx.expectedAuth bs := by
  constructor
  · rintro hs ⟨hs', port, hh, hp⟩
    obtain ⟨tr, said, hr, ht, hm⟩ := handleClient_control peer hh
    have hk := hs tr _ hr (ht.got ▸ hp) ht.direct
    rw [ht.said, noContent_eq] at hk
    exact not_speaks_of_letter hm hk
  · exact fun hn _ _ hr hb hs => handleClient_speaks h₅ hn hr hb hs

theorem Handshake.length_lt (h : Handshake expected bs req) : 3 < bs.length := by
  cases h
  case intro hg _ => cases hg <;> simp <;> omega

-- A client that does not say anything after its greeting.
theorem socks5_only_iff_greeting : ([0x05, 0x01, 0x00] : Bytes).head? = some 0x05 ∧
    ∀ tr q, (handleClient ⟨.default, none, 1⟩ (.v4 127 0 0 1)).Runs tr q → fromClient tr <+: [0x05, 0x01, 0x00] →
      (∀ e ∈ tr, e.op ≠ .net .splice) → Speaks (toClient tr) := by
  refine ⟨rfl, (socks5_only_iff ⟨.default, none, 1⟩ (.v4 127 0 0 1) [0x05, 0x01, 0x00] rfl).mpr ?_⟩
  rintro ⟨hs, port, hh, hp⟩
  have := hh.length_lt.trans_le hp.length_le
  simp at this

-- A client that asks for a tunnel to `proxycontrol:80`.
theorem socks5_client_reads_http : ∃ tr q, (handleClient ⟨.default, none, 1⟩ (.v4 127 0 0 1)).Runs tr q ∧
    fromClient tr = [0x05, 1, 0x00] ++ [0x05, 0x01, 0x00] ++ ([0x03, 12] ++ encode controlHost ++ [0, 80]) ∧
    (∀ e ∈ tr, e.op ≠ .net .splice) ∧ ¬Speaks (toClient tr) := by
  have hg : Greeting none ([0x05, 1] ++ [0x00]) := .unprotected rfl (by simp)
  have ha : Address ([0x03, 12] ++ encode controlHost ++ [0, 80]) controlHost 80 := .domain (by decide) rfl
  obtain ⟨tr, said, hr, ht, hs⟩ := handleClient_control (.v4 127 0 0 1) (.intro hg ha : Handshake (ConnCtx.expectedAuth ⟨.default, none, 1⟩) _ _)
  refine ⟨tr, _, hr, ht.got, ht.direct, ?_⟩
  rw [ht.said, noContent_eq]
  exact not_speaks_of_letter hs

end Asking
end Server
