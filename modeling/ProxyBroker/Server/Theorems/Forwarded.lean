import ProxyBroker.Server.Theorems.Strip
import ProxyBroker.Server.Theorems.Delivery

open Prog Utf8 Negotiator

-- The bytes that were sent, after its negotiation, over the current connection to a proxy.
def Trace.sent (tr : Trace Effects) : Bytes :=
  tr.foldl Event.send []

namespace Server

-- A buffer as the lines of it that end with a CRLF, and what is left after them.
structure Lined where
  lines : List Bytes
  rest  : Bytes
  whole : ∀ l ∈ lines, ¬crlf <:+: l
  bare  : ¬crlf <:+: rest

theorem crlf_infix_iff {bs : Bytes} : ¬crlf <:+: bs ↔ crlfPos bs = none := by
  rw [crlfPos_none_iff]
  constructor
  · rintro h x y rfl
    exact h ⟨x, y, by simp [crlf]⟩
  · rintro h ⟨x, y, rfl⟩
    exact h x y (by simp [crlf])

-- The byte before a CRLF may be another CR.
theorem crlfPos_concat_cr_iff {bs : Bytes} : crlfPos (bs ++ [cr]) = none ↔ ¬crlf <:+: bs := by
  rw [crlf_infix_iff, crlfPos_none_iff, crlfPos_none_iff]
  constructor
  · rintro h x y rfl
    exact h x (y ++ [cr]) (by simp)
  · intro h x y he
    induction y using List.reverseRecOn
    case nil =>
      have := congrArg List.getLast? he
      simp [show cr ≠ lf by decide] at this
    case append_singleton y b _ =>
      refine h x y ?_
      rw [← List.cons_append, ← List.cons_append, ← List.append_assoc] at he
      exact (List.append_inj' he rfl).left

namespace Lined

variable {h : Lined} {name : Str} {p : Proxy}

def render (h : Lined) : Bytes :=
  h.lines.flatMap (· ++ crlf) ++ h.rest

theorem flatMap_crlf_cons (l : Bytes) (ls : List Bytes) (rest : Bytes) :
    (l :: ls).flatMap (· ++ crlf) ++ rest = l ++ cr :: lf :: (ls.flatMap (· ++ crlf) ++ rest) := by
  simp [crlf]

theorem crlfPieces_render (h : Lined) : crlfPieces h.render = h.lines ++ [h.rest] := by
  obtain ⟨ls, rest, hl, hr⟩ := h
  unfold render
  induction ls
  case nil => exact crlfPieces_none (crlf_infix_iff.mp hr)
  case cons l ls hi =>
    have hc := crlfPos_concat_cr_iff.mpr (hl l List.mem_cons_self)
    dsimp only at hi ⊢
    rw [flatMap_crlf_cons, crlfPieces_split hc, hi fun l h => hl l (List.mem_cons_of_mem _ h)]
    rfl

theorem render_injective : Function.Injective render := by
  intro h₁ h₂ he
  have := congrArg crlfPieces he
  rw [crlfPieces_render, crlfPieces_render] at this
  obtain ⟨hl, hr⟩ := List.append_inj' this rfl
  cases h₁
  cases h₂
  simp_all

theorem exists_render (raw : Bytes) : ∃ h : Lined, h.render = raw := by
  induction raw using crlf_induction
  case none bs hn => exact ⟨⟨[], bs, by simp, crlf_infix_iff.mpr hn⟩, by simp [render]⟩
  case split x y hx hi =>
    obtain ⟨h, rfl⟩ := hi
    refine ⟨⟨x :: h.lines, h.rest, ?_, h.bare⟩, by simp [render, crlf]⟩
    simpa using ⟨crlfPos_concat_cr_iff.mp hx, h.whole⟩

-- The lines that remain when the header of the given name is removed. The first one is not a header.
def strip (name : Str) (h : Lined) : Lined where
  lines := h.lines.take 1 ++ h.lines.tail.filter fun l => ¬headerStart name <+: Str.asciiLower (lossy l)
  rest  := h.rest
  whole := by
    intro l hl
    rcases List.mem_append.mp hl with hl | hl
    · exact h.whole l (List.mem_of_mem_take hl)
    · exact h.whole l (List.mem_of_mem_tail (List.mem_of_mem_filter hl))
  bare  := h.bare

theorem stripLoop_render {pre : Str} {ls : List Bytes} {rest : Bytes} {n : Nat}
    (hl : ∀ l ∈ ls, ¬crlf <:+: l) (hr : ¬crlf <:+: rest)
    (hn : (ls.flatMap (· ++ crlf) ++ rest).length ≤ n) :
    stripLoop pre n false (ls.flatMap (· ++ crlf) ++ rest) [] =
    (ls.filter fun l => ¬pre <+: Str.asciiLower (lossy l)).flatMap (· ++ crlf) ++ rest := by
  induction ls generalizing n
  case nil => exact stripLoop_none (crlf_infix_iff.mp hr)
  case cons l ls hi =>
    rw [flatMap_crlf_cons] at hn ⊢
    rw [length_append_crlf] at hn
    obtain ⟨n, rfl⟩ : ∃ k, n = k + 1 := ⟨n - 1, by omega⟩
    rw [stripLoop_line (crlfPos_concat_cr_iff.mpr (hl l List.mem_cons_self)),
      hi (fun l h => hl l (List.mem_cons_of_mem _ h)) (by omega)]
    by_cases hp : pre <+: Str.asciiLower (lossy l) <;> simp [hp]

theorem stripHeader_render (h : Lined) (name : Str) : stripHeader h.render name = (h.strip name).render := by
  obtain ⟨ls, rest, hl, hr⟩ := h
  cases ls
  case nil => exact stripLoop_none (crlf_infix_iff.mp hr)
  case cons l ls =>
    unfold stripHeader render
    dsimp only
    rw [flatMap_crlf_cons, length_append_crlf, stripLoop_line (crlfPos_concat_cr_iff.mpr (hl l List.mem_cons_self)),
      stripLoop_render (fun l h => hl l (List.mem_cons_of_mem _ h)) hr (by omega)]
    simp [strip]

-- The first line is kept even if it looks like the header.
example : stripHeader (encode "a: b\r\r\nA: c\r\n\r\n".toList) ['A'] = encode "a: b\r\r\n\r\n".toList := by
  decide

theorem strip_strip (h : Lined) (name : Str) : (h.strip name).strip name = h.strip name := by
  obtain ⟨ls, rest, _, _⟩ := h
  cases ls <;> simp [strip]

theorem injectHeader_render (h : Lined) (l : Bytes) :
    injectHeader h.render l = match h.lines with
      | []      => h.rest
      | x :: xs => x ++ crlf ++ l ++ xs.flatMap (· ++ crlf) ++ h.rest := by
  obtain ⟨ls, rest, hl, hr⟩ := h
  cases ls
  case nil => exact injectHeader_none (crlf_infix_iff.mp hr)
  case cons x xs =>
    unfold render
    dsimp only
    rw [flatMap_crlf_cons, injectHeader_split (crlfPos_concat_cr_iff.mpr (hl x List.mem_cons_self))]
    simp [crlf]

-- What a proxy is sent: the first line, then its own credentials, and then all of the other lines that are
-- not the header by which a client tells its credentials.
def forward (p : Proxy) (h : Lined) : Bytes :=
  match h.lines with
  | []      => h.rest
  | l :: ls =>
    l ++ crlf ++ (p.auth.elim [] fun c => encode (authLine c)) ++
      (ls.filter fun l => ¬headerStart proxyAuthorization <+: Str.asciiLower (lossy l)).flatMap (· ++ crlf) ++
      h.rest

theorem toSend_render (p : Proxy) (h : Lined) : toSend p h.render = h.forward p := by
  rw [toSend, stripHeader_render]
  split
  case h_1 c hc =>
    rw [injectHeader_render]
    obtain ⟨ls, rest, _, _⟩ := h
    cases ls <;> simp [forward, strip, hc]
  case h_2 hc =>
    obtain ⟨ls, rest, _, _⟩ := h
    cases ls <;> simp [forward, strip, render, hc]

-- A head that ends with an empty line is one whose last line is empty, and after which nothing is left.
theorem lines_of_headEnd (hs : headEnd <:+ h.render) : ∃ l ls, h.lines = l :: (ls ++ [[]]) ∧ h.rest = [] := by
  obtain ⟨x, hx⟩ := hs
  obtain ⟨g, rfl⟩ := exists_render x
  let h' : Lined := {
    lines := g.lines ++ [g.rest, []]
    rest  := []
    whole := by
      intro l hl
      simp only [List.mem_append, List.mem_cons, List.not_mem_nil, or_false] at hl
      rcases hl with hl | rfl | rfl
      · exact g.whole l hl
      · exact g.bare
      · simp [crlf]
    bare  := by simp [crlf]
  }
  have he : h' = h := render_injective (by rw [← hx]; simp [h', render, headEnd])
  rw [← he]
  cases hg : g.lines
  case nil          => exact ⟨g.rest, [], by simp [h', hg], rfl⟩
  case cons l ls    => exact ⟨l, ls ++ [g.rest], by simp [h', hg], rfl⟩

theorem crlf_suffix_flatMap {x : Bytes} (h : crlf <:+ x) (ls : List Bytes) :
    crlf <:+ x ++ ls.flatMap (· ++ crlf) := by
  induction ls using List.reverseRecOn
  case nil                     => simpa using h
  case append_singleton ls l _ => exact ⟨x ++ ls.flatMap (· ++ crlf) ++ l, by simp⟩

theorem headEnd_forward (hs : headEnd <:+ h.render) (p : Proxy) : headEnd <:+ h.forward p := by
  obtain ⟨l, ls, hl, hr⟩ := lines_of_headEnd hs
  have hb : [[]].filter (fun l => ¬headerStart proxyAuthorization <+: Str.asciiLower (lossy l)) = [[]] := by
    decide
  have hc : crlf <:+ l ++ crlf ++ (p.auth.elim [] fun c => encode (authLine c)) := by
    cases p.auth
    case none   => exact ⟨l, by simp⟩
    case some c =>
      have he : encode (authLine c) = encode (authText c) ++ crlf := encode_append ..
      exact ⟨l ++ crlf ++ encode (authText c), by simp [he]⟩
  obtain ⟨y, hy⟩ := crlf_suffix_flatMap hc
    (ls.filter fun l => ¬headerStart proxyAuthorization <+: Str.asciiLower (lossy l))
  refine ⟨y, ?_⟩
  rw [headEnd, ← List.append_assoc, hy]
  simp only [forward, hl, hr, List.filter_append, hb]
  simp

end Lined

section Relay

variable {p : Proxy} {proto : Proto} {target : Target} {req : ClientRequest} {allowed : Option (List UInt16)}
variable {tr pre suf : Trace Effects} {q : Async RelayOutcome}

theorem foldl_flow (tr : Trace Effects) (s : Flow) (hn : ∀ e ∈ tr, ∃ n, e.op = Op.net n) :
    tr.foldl Flow.next s = ⟨s.taken ++ tr.fromClient, s.proxy, tr.foldl Event.send s.sent⟩ := by
  induction tr generalizing s
  case nil => simp
  case cons e tr hi =>
    obtain ⟨o, r⟩ := e
    obtain ⟨n, rfl⟩ : ∃ n, o = .net n := hn _ List.mem_cons_self
    rw [List.foldl_cons, hi _ fun e he => hn e (List.mem_cons_of_mem _ he)]
    simp [Flow.next, Event.leases, Trace.fromClient]

theorem foldl_meter (tr : Trace Effects) (s : Meter) : (tr.foldl Meter.next s).flow = tr.foldl Flow.next s.flow := by
  induction tr generalizing s
  case nil     => rfl
  case cons hi => exact hi _

-- The state in which an attempt with the given proxy begins.
def attempt (p : Proxy) : Meter where
  flow    := ⟨[], some p, []⟩
  arrived := []
  dialed  := none
  spliced := false

theorem attempt_flow (hn : ∀ e ∈ tr, ∃ n, e.op = Op.net n) :
    (tr.foldl Meter.next (attempt p)).flow = ⟨tr.fromClient, some p, tr.sent⟩ := by
  rw [foldl_meter, foldl_flow tr _ hn]
  rfl

-- A proxy has been sent nothing, or the head and then what the client has sent in addition.
theorem relay_sent (hr : (relay p proto target req allowed).Runs tr q) :
    tr.sent = [] ∨ tr.sent = payload p req ++ tr.fromClient := by
  have hw : Waiting [] (attempt p) := ⟨rfl, rfl, rfl, rfl⟩
  have hs := Sat.run (m := delivery req []) (relay_delivery hw rfl proto target allowed) hr
  have hh : Held req [] (tr.foldl Meter.next (attempt p)) := by
    rw [delivery_after] at hs
    cases q
    case ret  => exact hs.left
    case call => exact held_of_demand hs.left
  have hf := attempt_flow (p := p) ((relay_uses_net ..).of_run hr).right
  rcases hh with h | ⟨p', h⟩ | h
  · have := h.sent
    rw [hf] at this
    exact .inl this
  · have hp := h.proxy
    have ht := h.taken
    have := h.sent
    rw [hf] at hp ht this
    obtain rfl := Option.some.inj hp
    refine .inr ?_
    rw [show tr.fromClient = [] from ht, List.append_nil]
    exact this
  · rcases h.sent with h | ⟨p', y, hp, -, ht, hs, -⟩
    · rw [hf] at h
      exact .inl h
    · rw [hf] at hp ht hs
      obtain rfl := Option.some.inj hp
      refine .inr ?_
      rw [show tr.fromClient = y from ht]
      exact hs

-- Once the connections are spliced, the head has been sent.
theorem relay_sent_splice {r : Spliced}
    (hr : (relay p proto target req allowed).Runs (pre ++ ⟨.net .splice, r⟩ :: suf) q) :
    pre.sent = payload p req := by
  have hw : Waiting [] (attempt p) := ⟨rfl, rfl, rfl, rfl⟩
  have hd := Sat.issued (m := delivery req []) (relay_delivery hw rfl proto target allowed) hr
  rw [delivery_after] at hd
  obtain ⟨p', h, -⟩ : ∃ p', Primed req [] p' (pre.foldl Meter.next (attempt p)) ∧ _ := hd
  have hf := attempt_flow (p := p) fun e he =>
    ((relay_uses_net ..).of_run hr).right e (List.mem_append_left _ he)
  have hp := h.proxy
  have := h.sent
  rw [hf] at hp this
  obtain rfl := Option.some.inj hp
  exact this

end Relay

-- How a head with the given lines is forwarded.
structure Lined.Forwards (h : Lined) : Prop where
  sends   : ∀ p, toSend p h.render = h.forward p
  sent    : ∀ (p : Proxy) (proto : Proto) (target : Target) (req : ClientRequest) (allowed : Option (List UInt16))
    (tr : Trace Effects) (q : Async RelayOutcome), req.frontend = .httpForward → req.raw = h.render →
    (relay p proto target req allowed).Runs tr q →
    (tr.sent = [] ∨ tr.sent = h.forward p ++ tr.fromClient) ∧
    ∀ (pre : Trace Effects) r suf, tr = pre ++ ⟨.net .splice, r⟩ :: suf → pre.sent = h.forward p
  blank   : headEnd <:+ h.render → ∀ p, headEnd <:+ h.forward p
  strip   : ∀ name, stripHeader (stripHeader h.render name) name = stripHeader h.render name
  without : ¬crlf <:+: h.render → ∀ p name l,
    h.forward p = h.render ∧ stripHeader h.render name = h.render ∧ injectHeader h.render l = h.render

-- Every head has lines in exactly one way. The ones that tell the credentials of the client are replaced by one
-- that tells those of the proxy, if it has any, and everything else is forwarded as it is.
theorem forward_lines (raw : Bytes) :
    ∃ h : Lined, h.render = raw ∧ (∀ h' : Lined, h'.render = raw → h' = h) ∧ h.Forwards := by
  obtain ⟨h, rfl⟩ := Lined.exists_render raw
  refine ⟨h, rfl, fun h' he => Lined.render_injective he, ?_⟩
  have hs (p : Proxy) : toSend p h.render = h.forward p := h.toSend_render p
  constructor
  case sends => exact hs
  case sent =>
    intro p proto target req allowed tr q hf hr ht
    have hp : payload p req = h.forward p := by rw [payload, if_pos hf, hr, hs]
    rw [← hp]
    refine ⟨relay_sent ht, ?_⟩
    rintro pre r suf rfl
    exact relay_sent_splice ht
  case blank => exact Lined.headEnd_forward
  case strip =>
    intro name
    rw [h.stripHeader_render, Lined.stripHeader_render, Lined.strip_strip]
  case without =>
    intro hc p name l
    have hn := crlf_infix_iff.mp hc
    have hr : stripHeader h.render name = h.render := stripLoop_none hn
    refine ⟨?_, hr, injectHeader_none hn⟩
    obtain ⟨ls, rest, _, _⟩ := h
    rcases ls with _ | ⟨x, xs⟩
    · simp [Lined.forward, Lined.render]
    · exact absurd ⟨x, xs.flatMap (· ++ crlf) ++ rest, by simp [Lined.render]⟩ hc

end Server
