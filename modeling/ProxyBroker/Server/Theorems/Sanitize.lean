import ProxyBroker.Server.Theorems.Buffer
import ProxyBroker.Server.Theorems.Delivery

open Prog Utf8 Negotiator

namespace Server

-- A head that the server does not reject or answer by itself.
def Admitted (expected : Option AuthExpect) (raw : Bytes) : Prop :=
  ∃ req, parseHttp raw = some req ∧ isAuthorized expected req = true ∧ req.host ≠ controlHost

-- What a proxy has been sent is the head that was buffered, and then whatever else the client has sent.
def Relayed (expected : Option AuthExpect) (s : Flow) : Prop :=
  s.sent = [] ∨ ∃ p raw y, s.proxy = some p ∧ IsBuffered raw ∧ Admitted expected raw ∧
    s.taken = raw ++ y ∧ s.sent = toSend p raw ++ y

-- The monitor for a client of which it is known what it sends.
def flow (expected : Option AuthExpect) (bs : Bytes) : Monitor Effects Flow where
  demand s _ := s.taken <+: bs → Relayed expected s
  next       := Flow.next

variable {α : Type} {expected : Option AuthExpect} {bs : Bytes} {s : Flow}

theorem sat_quiet {p : Async α} (hp : p.Uses Op.IsQuiet) (hs : s.taken <+: bs → Relayed expected s) :
    Sat (flow expected bs) p (fun _ s' => s' = s) s := by
  refine hp.sat (Φ := (· = s)) ?_ ?_ rfl
  · rintro _ o - rfl
    exact hs
  · rintro _ o r ho rfl
    exact Flow.next_quiet ho

theorem flow_after (tr : Trace Effects) (s : Flow) :
    (flow expected bs).after s tr = tr.foldl Flow.next s := by
  induction tr generalizing s
  case nil     => rfl
  case cons hi => exact hi _

-- A client that has sent something else is of no concern.
theorem sat_of_not_begins (p : Async α) (h : ¬s.taken <+: bs) :
    Sat (flow expected bs) p (fun _ s => ¬s.taken <+: bs) s := by
  induction p generalizing s
  case ret => exact h
  case call o k hi =>
    refine ⟨fun h' => absurd h' h, fun r => hi r fun h' => h ?_⟩
    exact (List.prefix_append ..).trans h'

section Parse

theorem relayed_of_sent (h : s.sent = []) : s.taken <+: bs → Relayed expected s :=
  fun _ => .inl h

-- While a request is read, nothing is sent.
theorem sat_clientSide {p : Async α} (hp : p.Uses Op.IsClientSide) (hs : s.sent = []) :
    Sat (flow expected bs) p (fun _ s => s.sent = []) s := by
  refine hp.sat (Φ := fun s : Flow => s.sent = []) ?_ ?_ hs
  · rintro s o - hs
    exact relayed_of_sent hs
  · rintro s o r ho hs
    cases o
    case net o =>
      cases o
      case clientRead =>
        have hn : (flow expected bs).next s ⟨.net (.clientRead _), r⟩ = _ := Flow.next_clientRead _ r
        rw [hn]
        exact hs
      case clientWrite =>
        have hn : (flow expected bs).next s ⟨.net (.clientWrite _), r⟩ = s := Flow.next_quiet trivial
        rw [hn]
        exact hs
      all_goals exact (ho : False).elim
    all_goals exact (ho : False).elim

theorem parseClientRequest_flow :
    Sat (flow expected bs) (parseClientRequest expected)
      (fun r s => s.sent = [] ∧ ∀ req, r = some req → Opening expected s.taken req) .initial := by
  have hs : Sat (flow expected bs) (parseClientRequest expected) (fun _ s => s.sent = []) (Flow.after []) :=
    sat_clientSide parseClientRequest_uses rfl
  refine (Sat.and Flow.after_snoc hs parseClientRequest_speaks).mono fun r s h => ?_
  obtain ⟨hs, tr, rfl, -, hr⟩ := h
  rw [Flow.after_taken]
  exact ⟨hs, fun req he => (hr req he).right⟩

end Parse

theorem Request.stream_cons (r : Request) (rs : List Request) : ∃ y, stream (r :: rs) = r.line ++ y :=
  ⟨_, by rw [stream, List.flatMap_cons, Request.render, List.append_assoc, List.append_assoc, List.append_assoc]⟩

-- No request is taken for one of SOCKS5.
theorem Request.head_ne (r : Request) {raw y : Bytes} (h : raw <+: r.line ++ y) : raw.head? ≠ some 0x05 := by
  intro h₅
  obtain ⟨b, m, hm⟩ := List.exists_cons_of_ne_nil r.named
  obtain ⟨raw, rfl⟩ := List.head?_eq_some_iff.mp h₅
  rw [Request.line, hm, List.cons_append, List.cons_append, List.cons_append, List.cons_prefix_cons] at h
  have hb := isVisible_of_token (r.token b (hm ▸ List.mem_cons_self))
  exact (isVisible_ne hb).right.right.right h.left.symm

-- What is known once a request has been admitted.
structure Pending (expected : Option AuthExpect) (j : Job) (s : Flow) : Prop where
  sent     : s.sent = []
  buffered : IsBuffered s.taken
  admitted : Admitted expected s.taken
  frontend : j.req.frontend = .httpForward
  raw      : j.req.raw = s.taken

theorem accept_flow (config : Pool.Config) (fuel : Nat) (peer : IpAddr) (r₁ : Request) (rs : List Request) :
    Sat (flow expected (stream (r₁ :: rs))) (accept ⟨config, expected, fuel⟩ peer)
      (fun j s => s.sent = [] ∧ ∀ j', j = some j' → ¬s.taken <+: stream (r₁ :: rs) ∨ Pending expected j' s)
      .initial := by
  unfold accept
  simp only [sat_bind]
  refine parseClientRequest_flow.mono fun r s h => ?_
  rcases r with _ | req
  case none => exact ⟨h.left, by simp⟩
  have hq (b : Bytes) : (writeAll b).Uses Op.IsQuiet := writeAll_uses trivial
  cases ha : isAuthorized expected req
  case false =>
    simp only [ha, Bool.not_false, if_true, sat_bind]
    refine (sat_quiet (hq _) (relayed_of_sent h.left)).mono ?_
    rintro _ _ rfl
    exact ⟨h.left, by simp⟩
  case true =>
    simp only [ha, Bool.not_true, Bool.false_eq_true, if_false]
    split_ifs with hh
    · simp only [sat_bind]
      refine (sat_quiet ((serveControl_uses ..).mono fun _ => Op.IsControl.isQuiet)
        (relayed_of_sent h.left)).mono ?_
      rintro _ _ rfl
      exact ⟨h.left, by simp⟩
    · simp only [sat_bind, Async.sat_net]
      refine ⟨relayed_of_sent h.left, fun ip => ?_⟩
      have hn : (flow expected (stream (r₁ :: rs))).next s ⟨.net (.resolve req.host), ip⟩ = s :=
        Flow.next_quiet trivial
      rw [hn]
      refine ⟨h.left, ?_⟩
      rintro _ ⟨⟩
      by_cases hp : s.taken <+: stream (r₁ :: rs)
      case neg => exact .inl hp
      obtain ⟨y, hy⟩ := r₁.stream_cons rs
      rw [hy] at hp
      rcases h.right req rfl with ⟨hb, hr⟩ | h₅
      · obtain ⟨hf, hw⟩ := parseHttp_forward r₁ hp hr
        exact .inr ⟨h.left, hb, ⟨req, hr, ha, hh⟩, hf, hw⟩
      · exact absurd h₅.head? (r₁.head_ne hp)

-- What is known about what a proxy is sent in general, for a request that is forwarded.
theorem Pending.relayed {j : Job} {m : Meter} (h : Pending expected j s) (hm : Held j.req s.taken m) :
    Relayed expected m.flow := by
  have hp (p : Proxy) : payload p j.req = toSend p s.taken := by rw [payload, if_pos h.frontend, h.raw]
  rcases hm with hm | ⟨p, hm⟩ | hm
  · exact .inl hm.sent
  · exact .inr ⟨p, s.taken, [], hm.proxy, h.buffered, h.admitted, by simp [hm.taken], by simp [hm.sent, hp]⟩
  · refine hm.sent.imp_right ?_
    rintro ⟨p, y, hl, -, ht, hs, -⟩
    exact ⟨p, s.taken, y, hl, h.buffered, h.admitted, ht, hs.trans (by rw [hp])⟩

theorem attempts_flow {j : Job} (tries attempt : Nat) (h : Pending expected j s) :
    Sat (flow expected bs) (attempts j tries attempt) (fun _ s => Relayed expected s) s := by
  have hw : Waiting s.taken ⟨s, [], none, false⟩ := ⟨rfl, rfl, h.sent, rfl⟩
  have hs := Sat.abstract (m := flow expected bs) (f := Meter.flow) (fun _ _ => rfl)
    (fun m o hd _ => h.relayed (held_of_demand hd)) (attempts_delivery tries attempt hw)
  refine hs.mono fun _ s hs => ?_
  obtain ⟨m, rfl, hm⟩ := hs
  exact h.relayed hm

variable {r₁ : Request} {rs : List Request}

theorem handleClient_flow (config : Pool.Config) (fuel : Nat) (peer : IpAddr) (r₁ : Request) (rs : List Request) :
    Sat (flow expected (stream (r₁ :: rs))) (handleClient ⟨config, expected, fuel⟩ peer)
      (fun _ s => s.taken <+: stream (r₁ :: rs) → Relayed expected s) .initial := by
  unfold handleClient
  rw [sat_bind]
  refine (accept_flow config fuel peer r₁ rs).mono fun j s h => ?_
  cases j
  case none => exact relayed_of_sent h.left
  case some j =>
    rcases h.right j rfl with hn | hp
    · exact (sat_of_not_begins _ hn).mono fun _ s hn h => absurd h hn
    · exact (attempts_flow _ _ hp).mono fun _ s hs _ => hs

theorem relayed_after {config : Pool.Config} {fuel : Nat} {peer : IpAddr} {tr : Trace Effects}
    {q : Async Unit} (hr : (handleClient ⟨config, expected, fuel⟩ peer).Runs tr q)
    (ht : (Flow.after tr).taken <+: stream (r₁ :: rs)) : Relayed expected (Flow.after tr) := by
  have h := (handleClient_flow config fuel peer r₁ rs).run hr
  rw [flow_after] at h
  cases q
  case ret  => exact h ht
  case call => exact h.left ht

-- The requests of a client of which it is safe to forward all but the head of the first one as they are:
-- no credentials for the server are among what is not stripped, and the server itself is not addressed
-- by what it does not look at. This does not matter if already the first request is not forwarded.
structure Harmless (expected : Option AuthExpect) (r₁ : Request) (rs : List Request) : Prop where
  first : Admitted expected r₁.head → ∀ fs₁ f fs₂, r₁.fields = fs₁ ++ f :: fs₂ → f.Is proxyAuthorization →
    r₁.line.length + 2 + (Field.render (fs₁ ++ [f])).length ≤ requestLimit + 1
  whole : Admitted expected r₁.head → r₁.host = some controlHost → r₁.render.length ≤ requestLimit + 1
  bare  : Admitted expected r₁.head → ∀ r ∈ rs, ∀ f ∈ r.fields, ¬f.Is proxyAuthorization
  other : Admitted expected r₁.head → ∀ r ∈ rs, r.host ≠ some controlHost

-- What a proxy has been sent contains no `Proxy-Authorization` other than its own, and no request that is
-- addressed to the server itself.
structure Spotless (rs : List Request) (s : Flow) : Prop where
  own     : (headerLines s.sent proxyAuthorization).Sublist
    ((s.proxy.bind Proxy.auth).toList.map authText)
  control : ∀ r ∈ rs, r.host = some controlHost → ∀ r', r.Resembles r' → ¬r'.render <:+: s.sent

-- What follows the head of a request does not matter to what is added to the head.
theorem injectHeader_append {x l : Bytes} (h : crlfPos x ≠ none) (y : Bytes) :
    injectHeader (x ++ y) l = injectHeader x l ++ y := by
  obtain ⟨n, hn⟩ := Option.ne_none_iff_exists'.mp h
  obtain ⟨u, v, rfl, -, hu⟩ := crlfPos_some_iff.mp hn
  rw [List.append_assoc, List.cons_append, List.cons_append, injectHeader_split hu, injectHeader_split hu]
  simp

-- What is sent for a request contains no `Proxy-Authorization` of the client, if what is left of the
-- request and what follows does not.
theorem headerLines_toSend {raw y : Bytes} (p : Proxy)
    (h : ¬HasLine (headerStart proxyAuthorization) (stripHeader raw proxyAuthorization ++ y)) :
    (headerLines (toSend p raw ++ y) proxyAuthorization).Sublist (p.auth.toList.map authText) := by
  have hn := (headerLines_eq_nil_iff isLineStart_proxyAuthorization).mpr h
  cases ha : p.auth
  case none => simp [toSend, ha, hn]
  case some c =>
    simp only [toSend, ha]
    by_cases hc : crlfPos (stripHeader raw proxyAuthorization) = none
    case pos => simp [injectHeader_none hc, hn]
    case neg =>
      rw [← injectHeader_append hc]
      exact headerLines_injectHeader c hn

theorem Harmless.not_hasLine {y : Bytes} (h : Harmless expected r₁ rs) (ha : Admitted expected r₁.head)
    (hy : r₁.head ++ y <+: stream (r₁ :: rs)) :
    ¬HasLine (headerStart proxyAuthorization) (stripHeader r₁.head proxyAuthorization ++ y) := by
  obtain ⟨z, hz⟩ := hy
  have hs : stripHeader r₁.head proxyAuthorization ++ y ++ z =
      stream (r₁.strip proxyAuthorization (requestLimit + 1) :: rs) := by
    have hd : y ++ z = r₁.render.drop (requestLimit + 1) ++ stream rs := by
      rw [stream, List.flatMap_cons, ← List.take_append_drop (requestLimit + 1) r₁.render,
        List.append_assoc, List.append_assoc] at hz
      exact List.append_cancel_left hz
    have hr := stripHeader_take_render isLineStart_proxyAuthorization (by decide) r₁ (requestLimit + 1)
    rw [List.append_assoc, hd, ← List.append_assoc, Request.head, hr]
    rfl
  intro hl
  have hl := hl.append z
  rw [hs, hasLine_stream_iff isLineStart_proxyAuthorization (by decide) (by decide)] at hl
  obtain ⟨r, hr, f, hf, hi⟩ := hl
  rcases List.mem_cons.mp hr with rfl | hr
  · refine Field.not_is_of_mem_keep (fun fs₁ g fs₂ he hg => ?_) hf hi
    have := h.first ha fs₁ g fs₂ he hg
    omega
  · exact h.bare ha r hr f hf hi

theorem Harmless.host_ne (h : Harmless expected r₁ rs) (ha : Admitted expected r₁.head) :
    ∀ r ∈ r₁ :: rs, r.host ≠ some controlHost := by
  intro r hr hc
  rcases List.mem_cons.mp hr with rfl | hr
  · have hw := h.whole ha hc
    obtain ⟨req, hp, -, hn⟩ := ha
    rw [Request.head, List.take_of_length_le hw] at hp
    rw [parseHttp_host hp, Option.some_inj] at hc
    exact hn hc
  · exact h.other ha r hr hc

theorem Request.render_ne_nil (r : Request) : r.render ≠ [] := by
  simp [Request.render, crlf]

theorem Relayed.spotless {s : Flow} (h : Relayed expected s) (hh : Harmless expected r₁ rs)
    (ht : s.taken <+: stream (r₁ :: rs)) : Spotless (r₁ :: rs) s := by
  rcases h with hs | ⟨p, raw, y, hp, hb, ha, htk, hs⟩
  · constructor
    · simp [hs, headerLines, Str.lines]
    · intro r _ _ r' _ hi
      rw [hs, List.infix_nil] at hi
      exact r'.render_ne_nil hi
  · rw [htk] at ht
    have hr : raw = r₁.head := hb.eq_head ((List.prefix_append ..).trans ht)
    subst hr
    constructor
    · rw [hs, hp]
      exact headerLines_toSend p (hh.not_hasLine ha ht)
    · exact fun r hr hc => absurd hc (hh.host_ne ha r hr)

-- For every configuration and every client that sends harmless requests, one after the other over the
-- same connection: at every point of every run, what a proxy has been sent is spotless.
theorem handleClient_spotless {config : Pool.Config} {fuel : Nat} {peer : IpAddr} {tr : Trace Effects}
    {q : Async Unit} (hh : Harmless expected r₁ rs)
    (hr : (handleClient ⟨config, expected, fuel⟩ peer).Runs tr q)
    (ht : (Flow.after tr).taken <+: stream (r₁ :: rs)) : Spotless (r₁ :: rs) (Flow.after tr) :=
  (relayed_after hr ht).spotless hh ht

end Server

namespace Server.SanitizeExample

def first : Request where
  method  := encode "GET".toList
  target  := encode "http://x/".toList
  fields  := []
  named   := by decide
  token   := by decide +kernel
  aimed   := by decide
  visible := by decide +kernel
  forward := by decide

def authorization : Field where
  name  := encode "Proxy-Authorization".toList
  value := encode " Basic dXNlcjpwYXNz".toList
  named := by decide
  token := by decide +kernel
  text  := by decide +kernel

def second : Request where
  method  := encode "GET".toList
  target  := encode "http://proxycontrol/api/remove/10.0.0.1:8080".toList
  fields  := [authorization]
  named   := by decide
  token   := by decide +kernel
  aimed   := by decide
  visible := by decide +kernel
  forward := by decide

def proxy : Proxy :=
  (Proxy.new (.v4 10 0 0 1) 8080 ∅).addType .http none

-- The first request is forwarded. The others follow after the response to it has started.
def exchange (rs : List Request) : Trace Effects := [
  ⟨.net (.resolve "x".toList), none⟩,
  ⟨.pool .notified, ()⟩,
  ⟨.pool .loadCursor, (0 : UInt64)⟩,
  ⟨.env .now, (0 : Instant)⟩,
  ⟨.pool (.select ⟨.http, .best, none, 0, 0, false⟩), some proxy⟩,
  ⟨.net (.dial .relay proxy.key), .ok⟩,
  ⟨.net (.upWrite .exchange (toSend proxy first.render)), .done⟩,
  ⟨.net (.upRead .exchange 1), .data [lf]⟩,
  ⟨.net (.clientWrite (injectHeader [lf] (xProxyInfo proxy))), .done⟩,
  ⟨.net .splice, ⟨[], stream rs, true⟩⟩
]

theorem first_isBuffered : IsBuffered first.render where
  http     := by decide
  complete := by decide
  first    := by decide

theorem handleClient_runs_exchange (rs : List Request) :
    ∃ q, (handleClient ⟨.default, none, 1⟩ (.v4 127 0 0 1)).Runs (reads first.render ++ exchange rs) q :=
  ⟨_, (((parseClientRequest_runs none first_isBuffered).bind _).bind _).trans <|
    .call <| .call <| .call <| .call <| .call <| .call <| .call <| .call <| .call <| .call .refl⟩

end Server.SanitizeExample

namespace Server

open SanitizeExample in
-- The second request is forwarded as it is, with the client's credentials, although it is addressed to
-- the server itself.
theorem handleClient_second_request :
    ∃ tr q, (handleClient ⟨.default, none, 1⟩ (.v4 127 0 0 1)).Runs tr q ∧
      (Flow.after tr).taken = stream [first, second] ∧
      authorization ∈ second.fields ∧ authorization.Is proxyAuthorization ∧
      second.host = some controlHost ∧ second.render <:+: (Flow.after tr).sent ∧
      (Flow.after tr).proxy = some proxy ∧ proxy.auth = none ∧
      headerLines (Flow.after tr).sent proxyAuthorization ≠ [] ∧
      ¬Spotless [first, second] (Flow.after tr) := by
  obtain ⟨q, hr⟩ := handleClient_runs_exchange [second]
  have hs : (Flow.after (reads first.render ++ exchange [second])).sent = stream [first, second] := by decide
  have hi : second.render <:+: (Flow.after (reads first.render ++ exchange [second])).sent := by
    rw [hs]
    exact ⟨first.render, [], by simp [stream]⟩
  have hc : second.host = some controlHost := by decide
  have hl : headerLines (Flow.after (reads first.render ++ exchange [second])).sent proxyAuthorization ≠ [] := by
    rw [hs, Ne, headerLines_eq_nil_iff isLineStart_proxyAuthorization, not_not,
      hasLine_stream_iff isLineStart_proxyAuthorization (by decide) (by decide)]
    exact ⟨second, by simp, authorization, by simp [second], by decide⟩
  refine ⟨_, q, hr, by decide, by simp [second], by decide, hc, hi, rfl, rfl, hl, fun h => ?_⟩
  exact h.control second (by simp) hc second ⟨rfl, rfl⟩ hi

open SanitizeExample in
-- A client that sends the same request twice.
theorem handleClient_spotless_twice :
    ∃ tr, (Flow.after tr).sent = stream [first, first] ∧ Spotless [first, first] (Flow.after tr) := by
  obtain ⟨q, hr⟩ := handleClient_runs_exchange [first]
  have hh : Harmless none first [first] := by
    constructor
    · intro _ fs₁ f fs₂ h
      simp [first] at h
    · intro _ h
      exact absurd h (by decide)
    · intro _ r hr f hf
      cases List.mem_singleton.mp hr
      simp [first] at hf
    · intro _ r hr
      cases List.mem_singleton.mp hr
      decide
  exact ⟨_, by decide, handleClient_spotless hh hr (by decide)⟩

end Server
