import ProxyBroker.Objects.Theorems.IpText
import ProxyBroker.Server.Theorems.HostPort
import ProxyBroker.Server.Theorems.Sanitize
import ProxyBroker.Server.Theorems.History

open Prog Utf8 Trace

namespace Server

-- The request-target by which a client asks which proxy has last served a URL for it.
def controlUrl (u : Str) : Str :=
  "http://proxycontrol/api/history/url:".toList ++ u

-- A request for the history of a URL, as the server decodes it.
structure AsksFor (u : Str) (req : ClientRequest) : Prop where
  frontend : req.frontend = .httpForward
  path     : req.path = controlUrl u

section Parse

variable {raw : Bytes} {first method uri : Str} {words : List Str} {u : Str} {req : ClientRequest}

-- A head is read as its first line says, other than for a `CONNECT`.
theorem parseHttp_words (hf : (Str.lines (lossy raw)).head? = some first)
    (hw : Str.splitWhitespace first = method :: uri :: words)
    (hm : Str.eqIgnoreAsciiCase method "CONNECT".toList = false) {rest : Str} (hu : uri = "http://".toList ++ rest) :
    ∃ req, parseHttp raw = some req ∧ req.frontend = .httpForward ∧ req.scheme = .http ∧ req.path = uri ∧
      req.raw = raw ∧ (req.host, req.port) = splitHostPort (rest.takeWhile (· ≠ '/')) 80 := by
  have hs : Str.stripPrefix "http://".toList uri = some rest := hu ▸ Str.stripPrefix_append ..
  simp only [parseHttp, hf, Option.bind_eq_bind, Option.bind_some, hw, List.getElem?_cons_zero,
    List.getElem?_cons_succ, hm, hs, Option.map_some, Option.some_or]
  exact ⟨_, rfl, rfl, rfl, rfl, rfl, rfl⟩

theorem controlUrl_eq (u : Str) :
    controlUrl u = "http://".toList ++ (controlHost ++ '/' :: ("api/history/url:".toList ++ u)) := by
  have h : "http://proxycontrol/api/history/url:".toList =
      "http://".toList ++ (controlHost ++ '/' :: "api/history/url:".toList) := rfl
  unfold controlUrl
  rw [h]
  simp only [List.append_assoc, List.cons_append]

theorem controlUrl_host (u : Str) :
    (Str.stripPrefix "http://".toList (controlUrl u)).map (·.takeWhile (· ≠ '/')) = some controlHost := by
  have hn : '/' ∉ controlHost := by decide
  have hc : ∀ c ∈ controlHost, decide (c ≠ '/') = true := fun c hc => decide_eq_true fun h => hn (h ▸ hc)
  rw [controlUrl_eq, Str.stripPrefix_append, Option.map_some, List.takeWhile_append_of_pos hc]
  simp

-- A request for the history is addressed to the server itself.
theorem AsksFor.host (ha : AsksFor u req) (hp : parseHttp raw = some req) : req.host = controlHost := by
  simp only [parseHttp, Option.bind_eq_bind, Option.bind_eq_some_iff] at hp
  obtain ⟨first, -, method, -, uri, -, hp⟩ := hp
  split_ifs at hp
  · cases hp
    cases ha.frontend
  · obtain ⟨authority, hh, hp⟩ := Option.bind_eq_some_iff.mp hp
    cases hp
    have hu : uri = controlUrl u := ha.path
    rw [hu, controlUrl_host, Option.some_or] at hh
    cases hh
    show (splitHostPort controlHost 80).1 = controlHost
    decide

-- What a client has to send in order to ask for a URL without whitespace.
theorem parseHttp_control (hm : ∀ c ∈ method, Str.isWhitespace c = false) (hn : method ≠ [])
    (hc : Str.eqIgnoreAsciiCase method "CONNECT".toList = false) (hu : ∀ c ∈ u, Str.isWhitespace c = false)
    (t : Str) (y : Bytes) :
    ∃ req, parseHttp (encode (method ++ ' ' :: (controlUrl u ++ ' ' :: t)) ++ y) = some req ∧ AsksFor u req := by
  have hp : ∀ c ∈ "http://proxycontrol/api/history/url:".toList, Str.isWhitespace c = false :=
    List.all_iff_forall_prop.mp (by decide)
  have hu' : controlUrl u ≠ [] := List.append_ne_nil_of_left_ne_nil (by decide) u
  have hw : ∀ c ∈ controlUrl u, Str.isWhitespace c = false := fun c hc =>
    (List.mem_append.mp hc).elim (hp c) (hu c)
  have hl : ∀ c ∈ method ++ ' ' :: (controlUrl u ++ [' ']), c ≠ '\n' ∧ c ≠ '\r' := by
    have h {c : Char} (h : Str.isWhitespace c = false) : c ≠ '\n' ∧ c ≠ '\r' := by
      constructor <;> rintro rfl <;> revert h <;> decide
    intro c hc
    simp only [List.mem_append, List.mem_cons, List.not_mem_nil, or_false] at hc
    rcases hc with hc | rfl | hc | rfl
    · exact h (hm c hc)
    · decide
    · exact h (hw c hc)
    · decide
  have hr : lossy (encode (method ++ ' ' :: (controlUrl u ++ ' ' :: t)) ++ y) =
      method ++ ' ' :: (controlUrl u ++ [' ']) ++ (t ++ lossy y) := by
    rw [lossy_encode_append]
    simp only [List.append_assoc, List.cons_append, List.nil_append]
  obtain ⟨v, hv⟩ := head_lines_append hl (by simp) (t ++ lossy y)
  rw [← hr] at hv
  have hs : Str.splitWhitespace (method ++ ' ' :: (controlUrl u ++ [' ']) ++ v) =
      method :: controlUrl u :: Str.splitWhitespace v := by
    rw [List.append_assoc, List.cons_append, Str.splitWhitespace_cons hm hn, List.append_assoc,
      List.singleton_append, Str.splitWhitespace_cons hw hu']
  obtain ⟨req, h, hf, -, hq, -⟩ := parseHttp_words hv hs hc (controlUrl_eq u)
  exact ⟨req, h, hf, hq⟩

end Parse

theorem serveControl_history {req : ClientRequest} {u : Str} (h : req.path = controlUrl u) (peer : IpAddr) (b : Bool) :
    serveControl req peer b = (do
      match (← Async.history (.get (historyKey peer u)) : Option Str) with
      | some proxy => let _ ← writeAll (historyReply proxy)
      | none       => let _ ← writeAll noContent) := by
  have hs : Str.splitN '/' 3 (((Str.stripPrefix "http://proxycontrol".toList req.path).getD req.path).dropWhile
      (· = '/')) = ["api".toList, "history".toList, "url:".toList ++ u] := by
    rw [h]
    rfl
  have hu : (Str.stripPrefix "url:".toList ("url:".toList ++ u)).getD [] = u := by
    rw [Str.stripPrefix_append, Option.getD_some]
  unfold serveControl
  simp only [hs]
  rw [if_neg (by decide), if_pos trivial, hu]
  refine congrArg (Async.history _ >>= ·) (funext fun r => ?_)
  cases r <;> rfl

section Replies

variable {ctx : ConnCtx} {peer : IpAddr} {expected : Option AuthExpect} {raw : Bytes} {u : Str} {req : ClientRequest}
variable {tr : Trace Effects}

theorem toClient_reads (h : ∀ e ∈ tr, e.op.IsClientRead) : toClient tr = [] := by
  refine List.flatMap_eq_nil_iff.mpr fun e he => ?_
  obtain ⟨o, r⟩ := e
  have ho : o.IsClientRead := h _ he
  cases o
  case net o => cases o <;> first | rfl | exact (ho : False).elim
  all_goals rfl

-- An HTTP client is not sent anything while its request is parsed.
theorem parseClientRequest_silent {q : Async (Option ClientRequest)} (h : (parseClientRequest expected).Runs tr q)
    (h₅ : (fromClient tr).head? ≠ some 0x05) : toClient tr = [] := by
  rcases h.of_bind with ⟨p, h, -⟩ | ⟨first, tr₁, tr₂, rfl, h₁, h₂⟩
  case inl => exact toClient_reads ((readExactLoop_uses ..).of_run h).right
  case inr =>
    have hs₁ : toClient tr₁ = [] := toClient_reads ((readExactLoop_uses ..).of_run h₁).right
    cases first
    case none =>
      obtain ⟨rfl, -⟩ := h₂.ret_inv
      simpa using hs₁
    case some first =>
      have hs : Sat speaking (readExact 1) _ [] := readExact_speaks 1 spoken_nil
      have hf := (hs.result h₁).right first rfl
      rw [show speaking.after [] tr₁ = tr₁ from Monitor.history_after .., fromClient_nil, List.nil_append] at hf
      obtain ⟨b, rfl⟩ := List.length_eq_one_iff.mp hf.right
      have hb : b ≠ 0x05 := by
        rintro rfl
        simp [fromClient_append, hf.left] at h₅
      have hs₂ : toClient tr₂ = [] := by
        change Runs (if b = 0x05 then parseSocks5Request expected else _) _ _ at h₂
        rw [if_neg hb] at h₂
        have hu := (readRequestLoop_uses requestLimit [b])
        rcases h₂.of_bind with ⟨p, h, -⟩ | ⟨r, tr₃, tr₄, rfl, h₃, h₄⟩
        · exact toClient_reads (hu.of_run h).right
        · have : tr₄ = [] := by cases r <;> exact (Runs.ret_inv h₄).left
          rw [this, List.append_nil]
          exact toClient_reads (hu.of_run h₃).right
      rw [toClient, List.flatMap_append, ← toClient, ← toClient, hs₁, hs₂]
      rfl

theorem opening_of_runs (h : (parseClientRequest expected).Runs tr (.ret (some req))) :
    Opening expected (fromClient tr) req := by
  have := ((parseClientRequest_speaks.result h).right req rfl).right
  rwa [show speaking.after [] tr = tr from Monitor.history_after ..] at this

-- What is read is the head that the client has sent.
theorem request_eq {req' : ClientRequest} (h : (parseClientRequest expected).Runs tr (.ret (some req')))
    (hb : IsBuffered raw) (hp : parseHttp raw = some req) (ht : fromClient tr <+: raw) : req' = req := by
  cases opening_of_runs h
  case http hb' hp' =>
    rw [hb'.eq_of_prefix hb ht, hp] at hp'
    exact (Option.some.inj hp').symm
  case socks hh =>
    obtain ⟨y, rfl⟩ := ht
    have h₅ := hh.head?
    have := hb.http
    cases hf : fromClient tr <;> simp_all

theorem writeAll_toClient {α : Type} {bs : Bytes} {f : Bool → Async α} {q : Async α} (hf : ∀ b, ∃ a, f b = .ret a)
    (h : (writeAll bs >>= f).Runs tr q) : toClient tr <+: bs := by
  cases h
  case refl => exact List.nil_prefix
  case call tr r h =>
    have ht : tr = [] := by
      have hb {b : Bool} (h : (f b).Runs tr q) : tr = [] := by
        obtain ⟨a, ha⟩ := hf b
        rw [ha] at h
        exact h.ret_inv.left
      cases r
      case done => exact hb (h : (f true).Runs tr q)
      all_goals exact hb (h : (f false).Runs tr q)
    rw [ht]
    simpa [toClient, Event.toClient] using WriteResult.delivered_prefix bs r

-- What a client is sent in reply to a request for the history, after what has happened so far.
inductive Reply (expected : Option AuthExpect) (req : ClientRequest) (k : Str) (tr : Trace Effects) : Prop
  | refused : isAuthorized expected req = false → toClient tr <+: authRequired → Reply expected req k tr
  | miss    : toClient tr <+: noContent → Reply expected req k tr
  | hit {v : Str} : ⟨.history (.get k), some v⟩ ∈ tr → toClient tr <+: historyReply v → Reply expected req k tr

theorem Reply.of_silent {k : Str} (h : toClient tr = []) : Reply expected req k tr :=
  .miss (h ▸ List.nil_prefix)

theorem Reply.append {k : Str} {tr' : Trace Effects} (hs : toClient tr' = []) (h : Reply expected req k tr) :
    Reply expected req k (tr' ++ tr) := by
  have ht : toClient (tr' ++ tr) = toClient tr := by rw [toClient_append, hs, List.nil_append]
  cases h
  case refused ha hp => exact .refused ha (ht ▸ hp)
  case miss hp       => exact .miss (ht ▸ hp)
  case hit he hp     => exact .hit (List.mem_append_right _ he) (ht ▸ hp)

theorem serveControl_replies {b : Bool} {q : Async Unit} (ha : req.path = controlUrl u)
    (h : (serveControl req peer b).Runs tr q) : Reply expected req (historyKey peer u) tr := by
  rw [serveControl_history ha] at h
  cases h
  case refl => exact .of_silent rfl
  case call tr r h =>
    have hs : toClient [⟨Op.history (.get (historyKey peer u)), r⟩] = [] := rfl
    cases r
    case none =>
      exact Reply.append hs (.miss (writeAll_toClient (fun _ => ⟨_, rfl⟩) h))
    case some v =>
      have hw : (writeAll (historyReply v) >>= fun _ => pure ()).Runs tr q := h
      have hp := writeAll_toClient (fun _ => ⟨_, rfl⟩) hw
      exact .hit List.mem_cons_self hp

section Accept

variable (hb : IsBuffered raw) (hp : parseHttp raw = some req) (ha : AsksFor u req) (ht : fromClient tr <+: raw)

include hb in
theorem head_ne_of_begins {x : Bytes} (h : x <+: raw) : x.head? ≠ some 0x05 := by
  obtain ⟨y, rfl⟩ := h
  have := hb.http
  cases x <;> simp_all

include hb hp ha ht

theorem accept_replies {q : Async (Option Job)} (h : (accept ctx peer).Runs tr q) :
    Reply ctx.expectedAuth req (historyKey peer u) tr := by
  rcases h.of_bind with ⟨p, h, -⟩ | ⟨r, tr₁, tr₂, rfl, h₁, h₂⟩
  case inl => exact .of_silent (parseClientRequest_silent h (head_ne_of_begins hb ht))
  case inr =>
    rw [fromClient_append] at ht
    have ht := (List.prefix_append ..).trans ht
    have hs := parseClientRequest_silent h₁ (head_ne_of_begins hb ht)
    refine .append hs ?_
    cases r
    case none =>
      obtain ⟨rfl, -⟩ := h₂.ret_inv
      exact .of_silent rfl
    case some req' =>
      obtain rfl := request_eq h₁ hb hp ht
      cases hc : isAuthorized ctx.expectedAuth req'
      case false =>
        simp only [hc, Bool.not_false, if_true] at h₂
        exact .refused hc (writeAll_toClient (fun _ => ⟨_, rfl⟩) h₂)
      case true =>
        simp only [hc, Bool.not_true, Bool.false_eq_true, if_false, if_pos (ha.host hp)] at h₂
        rcases h₂.of_bind with ⟨p, h, -⟩ | ⟨_, tr₃, tr₄, rfl, h₃, h₄⟩
        · exact serveControl_replies ha.path h
        · obtain ⟨rfl, -⟩ := h₄.ret_inv
          rw [List.append_nil]
          exact serveControl_replies ha.path h₃

-- No attempt is made for a request for the history.
theorem accept_none {j : Option Job} (h : (accept ctx peer).Runs tr (.ret j)) : j = none := by
  obtain ⟨r, tr₁, tr₂, rfl, h₁, h₂⟩ := h.of_bind_ret
  rw [fromClient_append] at ht
  cases r
  case none => exact (Prog.ret.inj h₂.ret_inv.right)
  case some req' =>
    obtain rfl := request_eq h₁ hb hp ((List.prefix_append ..).trans ht)
    cases hc : isAuthorized ctx.expectedAuth req'
    case false =>
      simp only [hc, Bool.not_false, if_true] at h₂
      obtain ⟨_, tr₃, tr₄, rfl, -, h₄⟩ := h₂.of_bind_ret
      exact Prog.ret.inj h₄.ret_inv.right
    case true =>
      simp only [hc, Bool.not_true, Bool.false_eq_true, if_false, if_pos (ha.host hp)] at h₂
      obtain ⟨_, tr₃, tr₄, rfl, -, h₄⟩ := h₂.of_bind_ret
      exact Prog.ret.inj h₄.ret_inv.right

theorem handleClient_replies {q : Async Unit} (h : (handleClient ctx peer).Runs tr q) :
    Reply ctx.expectedAuth req (historyKey peer u) tr := by
  rcases h.of_bind with ⟨p, h, -⟩ | ⟨j, tr₁, tr₂, rfl, h₁, h₂⟩
  case inl => exact accept_replies hb hp ha ht h
  case inr =>
    rw [fromClient_append] at ht
    have ht₁ := (List.prefix_append ..).trans ht
    obtain rfl := accept_none hb hp ha ht₁ h₁
    obtain ⟨rfl, -⟩ := h₂.ret_inv
    rw [List.append_nil]
    exact accept_replies hb hp ha ht₁ h₁

end Accept

end Replies

end Server
