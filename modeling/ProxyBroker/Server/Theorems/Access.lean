import ProxyBroker.Server.Wire
import ProxyBroker.Server.Theorems.Uses

open Prog Utf8 Trace

namespace Server

section Presented

variable (e : AuthExpect) (bs : Bytes)

-- The client has sent a head whose `Proxy-Authorization` is the expected one.
def PresentedBasic : Prop :=
  ∃ head, head <+: bs ∧ headerValue head proxyAuthorization = some e.basic

-- The client has sent a SOCKS5 greeting that offers the method 0x02, and then the expected username
-- and password in the format of RFC 1929.
def PresentedPassword : Prop :=
  ∃ (methods : Bytes) (nmethods ver ulen plen : UInt8),
    [0x05, nmethods] ++ methods ++ [ver, ulen] ++ encode e.user ++ [plen] ++ encode e.pass <+: bs ∧
    methods.length = nmethods.toNat ∧ 0x02 ∈ methods ∧
    (encode e.user).length = ulen.toNat ∧ (encode e.pass).length = plen.toNat

def Presented : Prop :=
  PresentedBasic e bs ∨ PresentedPassword e bs

end Presented

theorem Presented.mono {e : AuthExpect} {bs bs' : Bytes} (h : Presented e bs) (hb : bs <+: bs') :
    Presented e bs' := by
  rcases h with ⟨head, hh, hv⟩ | ⟨methods, n, ver, ulen, plen, hh, hm⟩
  · exact .inl ⟨head, hh.trans hb, hv⟩
  · exact .inr ⟨methods, n, ver, ulen, plen, hh.trans hb, hm⟩

def Granted (expected : Option AuthExpect) (tr : Trace Effects) : Prop :=
  ∀ e, expected = some e → Presented e (fromClient tr)

-- Demands that nothing but the client is dealt with before access has been granted.
def accessControl (expected : Option AuthExpect) : Monitor Effects (Trace Effects) :=
  .history fun tr o => o.IsClientSide ∨ Granted expected tr

variable {α : Type} {expected : Option AuthExpect} {e : AuthExpect} {tr : Trace Effects}

theorem Granted.snoc (h : Granted expected tr) (e : Event Effects) : Granted expected (tr ++ [e]) :=
  fun e' he => (h e' he).mono (by simp)

-- Access that has been granted is never revoked.
theorem sat_of_granted (p : Async α) (h : Granted expected tr) :
    Sat (accessControl expected) p (fun _ => Granted expected) tr := by
  induction p generalizing tr
  case ret         => exact h
  case call o k hi => exact ⟨.inr h, fun r => hi r <| h.snoc _⟩

theorem readExactLoop_access (fuel need : Nat) (acc : Bytes) :
    Sat (accessControl expected) (readExactLoop fuel need acc)
      (fun r tr' => ∀ x, r = some x →
        ∃ y, x = acc ++ y ∧ fromClient tr' = fromClient tr ++ y ∧ y.length = need) tr := by
  induction fuel generalizing need acc tr <;> cases need
  case zero.zero | succ.zero => simp [readExactLoop]
  case zero.succ => simp [readExactLoop]
  case succ.succ fuel hi need =>
    unfold readExactLoop
    simp only [sat_bind, Async.sat_net]
    refine ⟨.inl trivial, fun r => ?_⟩
    split
    case h_1 b bs =>
      refine (hi ..).mono fun r tr' hr x hx => ?_
      obtain ⟨y, rfl, hy, hl⟩ := hr x hx
      refine ⟨(b :: bs).take (need + 1) ++ y, by simp, ?_, ?_⟩
      · simp [hy, accessControl, Event.fromClient, ReadResult.delivered]
      · simp only [List.length_append, hl]
        have : ((b :: bs).take (need + 1)).length ≤ need + 1 := by simp
        omega
    case h_2 => simp

theorem readExact_access (n : Nat) :
    Sat (accessControl expected) (readExact n)
      (fun r tr' => ∀ x, r = some x → fromClient tr' = fromClient tr ++ x ∧ x.length = n) tr := by
  refine (readExactLoop_access n n []).mono fun r tr' h x hx => ?_
  obtain ⟨y, rfl, hy⟩ := h x hx
  exact hy

theorem writeAll_access (bs : Bytes) :
    Sat (accessControl expected) (writeAll bs) (fun _ tr' => fromClient tr' = fromClient tr) tr := by
  unfold writeAll
  simp only [sat_bind, Async.sat_net]
  refine ⟨.inl trivial, fun r => ?_⟩
  split <;> simp [accessControl, Event.fromClient]

theorem readRequestLoop_access (fuel : Nat) {buf : Bytes} (h : fromClient tr = buf) :
    Sat (accessControl expected) (readRequestLoop fuel buf)
      (fun r tr' => ∀ head, r = some head → fromClient tr' = head) tr := by
  induction fuel generalizing buf tr
  case zero => simp [readRequestLoop]
  case succ hi =>
    unfold readRequestLoop
    simp only [sat_bind, Async.sat_net]
    refine ⟨.inl trivial, fun r => ?_⟩
    split
    case h_1 byte bs =>
      have h : fromClient ((accessControl expected).next tr ⟨.net (.clientRead 1), .data (byte :: bs)⟩) =
          buf ++ [byte] := by
        simp [accessControl, Event.fromClient, ReadResult.delivered, h]
      generalize (accessControl expected).next tr ⟨.net (.clientRead 1), .data (byte :: bs)⟩ = tr at h ⊢
      split_ifs
      · simpa using h
      · exact hi h
    case h_2 => simp

-- The exchange of RFC 1929 only succeeds if the client sends what is expected.
theorem socks5Auth_password (methods : Bytes) :
    Sat (accessControl expected) (socks5Auth methods (some e))
      (fun r tr' => r = some () → 0x02 ∈ methods ∧ ∃ ver ulen plen : UInt8,
        fromClient tr' = fromClient tr ++ [ver, ulen] ++ encode e.user ++ [plen] ++ encode e.pass ∧
        (encode e.user).length = ulen.toNat ∧ (encode e.pass).length = plen.toNat) tr := by
  unfold socks5Auth
  dsimp only
  by_cases ho : 0x02 ∈ methods
  case neg =>
    simp only [ho, not_false_eq_true, if_true, sat_bind]
    exact (writeAll_access _).mono fun _ _ _ => by simp
  simp only [ho, not_true_eq_false, if_false, sat_bind]
  refine (writeAll_access _).mono fun ok tr₁ h₁ => ?_
  cases ok
  case false => simp
  simp only [sat_bind, Bool.not_true, Bool.false_eq_true, if_false]
  refine (readExact_access 2).mono fun vu tr₂ h₂ => ?_
  rcases vu with _ | vu
  case none => simp
  obtain ⟨h₂, hvu⟩ := h₂ vu rfl
  obtain ⟨ver, ulen, rfl⟩ := List.length_eq_two.mp hvu
  simp only [sat_bind]
  refine (readExact_access _).mono fun user tr₃ h₃ => ?_
  rcases user with _ | user
  case none => simp
  obtain ⟨h₃, hu⟩ := h₃ user rfl
  simp only [sat_bind]
  refine (readExact_access 1).mono fun pl tr₄ h₄ => ?_
  rcases pl with _ | pl
  case none => simp
  obtain ⟨h₄, hpl⟩ := h₄ pl rfl
  obtain ⟨plen, rfl⟩ := List.length_eq_one_iff.mp hpl
  simp only [sat_bind]
  refine (readExact_access _).mono fun pass tr₅ h₅ => ?_
  rcases pass with _ | pass
  case none => simp
  obtain ⟨h₅, hp⟩ := h₅ pass rfl
  dsimp only
  split_ifs with hc
  · obtain ⟨rfl, rfl⟩ := hc
    simp only [sat_bind]
    refine (writeAll_access _).mono fun ok tr₆ h₆ => ?_
    cases ok
    case false => simp
    refine fun _ => ⟨trivial, ver, ulen, plen, ?_, by simpa using hu, by simpa using hp⟩
    simp [h₆, h₅, h₄, h₃, h₂, h₁]
  · simp only [sat_bind]
    exact (writeAll_access _).mono fun _ _ _ => by simp

theorem socks5Auth_access {n : UInt8} {methods : Bytes}
    (h : fromClient tr = [0x05, n] ++ methods) (hm : methods.length = n.toNat) :
    Sat (accessControl expected) (socks5Auth methods expected)
      (fun r tr' => r = some () → Granted expected tr') tr := by
  cases expected
  case none =>
    have hg : Granted none tr := by simp [Granted]
    exact (sat_of_granted _ hg).mono fun _ _ h _ => h
  case some e =>
    refine (socks5Auth_password methods).mono fun r tr' hp hr => ?_
    obtain ⟨ho, ver, ulen, plen, hf, hu, hp⟩ := hp hr
    rintro _ ⟨⟩
    refine .inr ⟨methods, n, ver, ulen, plen, ?_, hm, ho, hu, hp⟩
    simp [hf, h]

theorem parseSocks5Request_access (h : fromClient tr = [0x05]) :
    Sat (accessControl expected) (parseSocks5Request expected)
      (fun r tr' => ∀ req, r = some req → Granted expected tr') tr := by
  unfold parseSocks5Request
  simp only [sat_bind]
  refine (readExact_access 1).mono fun n tr₁ h₁ => ?_
  rcases n with _ | n
  case none => simp
  obtain ⟨h₁, hn⟩ := h₁ n rfl
  obtain ⟨nmethods, rfl⟩ := List.length_eq_one_iff.mp hn
  simp only [sat_bind]
  refine (readExact_access _).mono fun methods tr₂ h₂ => ?_
  rcases methods with _ | methods
  case none => simp
  obtain ⟨h₂, hm⟩ := h₂ methods rfl
  simp only [sat_bind]
  refine (socks5Auth_access (n := nmethods) (by simp [h, h₁, h₂]) hm).mono fun r tr₃ h₃ => ?_
  rcases r with _ | _
  case none => simp
  exact (sat_of_granted _ (h₃ rfl)).mono fun _ _ h _ _ => h

theorem parseHttp_frontend {buf : Bytes} {req : ClientRequest} (h : parseHttp buf = some req) :
    req.frontend ≠ .socks5 ∧ req.proxyAuth = headerValue buf proxyAuthorization := by
  simp only [parseHttp, Option.bind_eq_bind, Option.bind_eq_some_iff] at h
  obtain ⟨first, -, method, -, uri, -, h⟩ := h
  split_ifs at h
  · cases h
    simp
  · obtain ⟨_, -, h⟩ := Option.bind_eq_some_iff.mp h
    cases h
    simp

-- A request has either been authenticated while it was parsed, or it carries the credentials of the
-- head that it was parsed from.
theorem parseClientRequest_access :
    Sat (accessControl expected) (parseClientRequest expected)
      (fun r tr' => ∀ req, r = some req → Granted expected tr' ∨
        (req.frontend ≠ .socks5 ∧ req.proxyAuth = headerValue (fromClient tr') proxyAuthorization))
      [] := by
  unfold parseClientRequest
  simp only [sat_bind]
  refine (readExact_access 1).mono fun first tr₁ h₁ => ?_
  rcases first with _ | first
  case none => simp
  obtain ⟨h₁, hf⟩ := h₁ first rfl
  obtain ⟨byte, rfl⟩ := List.length_eq_one_iff.mp hf
  simp only [fromClient_nil, List.nil_append] at h₁
  dsimp only
  split_ifs with hb
  · have hb : byte = 0x05 := by simpa using hb
    exact (parseSocks5Request_access (hb ▸ h₁)).mono fun _ _ h req hr => .inl <| h req hr
  · simp only [sat_bind]
    refine (readRequestLoop_access _ h₁).mono fun buf tr₂ h₂ => ?_
    rcases buf with _ | buf
    case none => simp
    intro req hr
    exact .inr <| h₂ buf rfl ▸ parseHttp_frontend hr

theorem handleClient_granted (ctx : ConnCtx) (peer : IpAddr) :
    Sat (accessControl ctx.expectedAuth) (handleClient ctx peer) (fun _ _ => True) [] := by
  unfold handleClient accept
  simp only [sat_bind]
  refine parseClientRequest_access.mono fun r tr h => ?_
  rcases r with _ | req
  case none => simp
  cases ha : isAuthorized ctx.expectedAuth req
  case false =>
    simp only [ha, Bool.not_false, if_true, sat_bind]
    exact (writeAll_access _).mono fun _ _ _ => trivial
  case true =>
    have hg : Granted ctx.expectedAuth tr := by
      rcases h req rfl with h | ⟨hf, hp⟩
      · exact h
      · intro e he
        have : req.proxyAuth = some e.basic := by simpa [isAuthorized, hf, he] using ha
        exact .inl ⟨fromClient tr, List.prefix_rfl, hp ▸ this⟩
    refine (sat_of_granted _ hg).mono fun job tr hg => ?_
    exact (sat_of_granted _ hg).mono fun _ _ _ => trivial

theorem handleClient_uses (ctx : ConnCtx) (peer : IpAddr) :
    (handleClient ctx peer).Uses fun o =>
      ∀ a, o = Op.pool (.remove a) → controlRemoveAllowed ctx.expectedAuth.isSome peer := by
  refine Uses.bind (accept_uses ctx peer ?_ ?_ ?_) fun j => ?_
  · rintro _ h a rfl
    exact (h : False).elim
  · rintro _ h a rfl
    exact h
  · rintro _ _ ⟨⟩
  · split
    · refine (attempts_uses ..).mono ?_
      rintro _ h a rfl
      exact (h : False).elim
    · trivial

-- For every run of `handleClient` and every operation `o` that it is about to perform: if a client
-- has to authenticate, then `o` reads from or writes to the client, or the client has presented the
-- right credentials. If not, then `o` removes a proxy only for a peer on the same machine.
theorem handleClient_access (config : Pool.Config) (auth : Option Str) (fuel : Nat) (peer : IpAddr)
    {tr : Trace Effects} {o : Op} {k : o.Ret → Async Unit}
    (h : (handleClient ⟨config, auth.map .ofAuth, fuel⟩ peer).Runs tr (.call o k)) :
    (∀ up, auth = some up → o.IsClientSide ∨ Presented (.ofAuth up) (fromClient tr)) ∧
    (∀ a, auth = none → o = .pool (.remove a) → peer.isLoopback = true) := by
  constructor
  · rintro up rfl
    have := (handleClient_granted _ peer).pending h
    rw [accessControl, Monitor.history_after, List.nil_append] at this
    exact this.imp_right fun h => h _ rfl
  · rintro a rfl rfl
    have := ((handleClient_uses _ peer).of_run h).left.left a rfl
    simpa [controlRemoveAllowed] using this

-- A SOCKS5 client that presents the credentials `u:p`.
def loginTrace : Trace Effects := [
  ⟨.net (.clientRead 1), .data [0x05]⟩,
  ⟨.net (.clientRead 1), .data [1]⟩,
  ⟨.net (.clientRead 1), .data [0x02]⟩,
  ⟨.net (.clientWrite [0x05, 0x02]), .done⟩,
  ⟨.net (.clientRead 2), .data [0x01, 1]⟩,
  ⟨.net (.clientRead 1), .data [117]⟩,
  ⟨.net (.clientRead 1), .data [1]⟩,
  ⟨.net (.clientRead 1), .data [112]⟩,
  ⟨.net (.clientWrite [0x01, 0x00]), .done⟩,
  ⟨.net (.clientRead 4), .data [0x05, 0x01, 0x00, 0x01]⟩,
  ⟨.net (.clientRead 4), .data [10, 0, 0, 2]⟩,
  ⟨.net (.clientRead 2), .data [0, 80]⟩
]

theorem loginTrace_runs :
    ∃ k, (handleClient ⟨.default, some (.ofAuth "u:p".toList), 1⟩ (.v4 192 0 2 1)).Runs loginTrace
      (.call (.net (.resolve "10.0.0.2".toList)) k) :=
  ⟨_, .call <| .call <| .call <| .call <| .call <| .call <| .call <| .call <| .call <| .call <|
    .call <| .call .refl⟩

theorem handleClient_access_login :
    (Op.net (.resolve "10.0.0.2".toList)).IsClientSide ∨
    Presented (.ofAuth "u:p".toList) (fromClient loginTrace) :=
  have ⟨_, h⟩ := loginTrace_runs
  (handleClient_access .default (some "u:p".toList) 1 _ h).left _ rfl

end Server
