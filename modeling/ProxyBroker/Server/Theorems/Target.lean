import ProxyBroker.Server.Theorems.Authority
import ProxyBroker.Server.Theorems.Control
import ProxyBroker.Server.Theorems.Sender

open Utf8 Uri

namespace Utf8

variable {s : Str} {c : Char}

theorem encode_ascii (h : ∀ c ∈ s, c.toNat < 0x80) : encode s = s.map fun c => UInt8.ofNat c.toNat := by
  induction s
  case nil => rfl
  case cons c s hi =>
    obtain ⟨hc, hs⟩ := List.forall_mem_cons.mp h
    have he : String.utf8EncodeChar c = [UInt8.ofNat c.toNat] := by
      fun_cases String.utf8EncodeChar c
      case case1 => rfl
      all_goals
        have hv : c.val.toNat = c.toNat := rfl
        omega
    rw [List.map_cons, ← hi hs, encode, List.flatMap_cons, he]
    rfl

end Utf8

namespace Str

variable {w t s : Str} {n : Nat}

-- A text is cut within one of its words, or after it.
theorem splitWhitespace_take (hw : ∀ c ∈ w, isWhitespace c = false) (hn : w ≠ []) (hp : 0 < n) :
    splitWhitespace ((w ++ ' ' :: t).take n) =
      w.take n :: if n ≤ w.length then [] else splitWhitespace (t.take (n - (w.length + 1))) := by
  split_ifs with hl
  case pos =>
    have ht : w.take n ≠ [] := by simp [hn]; omega
    rw [List.take_append_of_le_length hl]
    exact splitWhitespace_word (fun c hc => hw c (List.mem_of_mem_take hc)) ht
  case neg =>
    obtain ⟨k, rfl⟩ : ∃ k, n = w.length + (k + 1) := ⟨n - w.length - 1, by omega⟩
    have ht : w.take (w.length + (k + 1)) = w := List.take_of_length_le (by omega)
    rw [List.take_length_add_append, List.take_succ_cons, splitWhitespace_cons hw hn, ht, ← Nat.add_assoc,
      Nat.add_right_comm, Nat.add_sub_cancel_left]

end Str

namespace Server

variable {l : RequestLine} {x y : Bytes}

namespace RequestLine

-- The part of a request line that decides on the target.
def start (l : RequestLine) : Str :=
  l.method ++ ' ' :: (l.uri.text ++ [' '])

theorem render_eq (l : RequestLine) : l.render = l.start ++ "HTTP/1.1\r\n".toList := by
  simp [render, start]

theorem isWhitespace_of_isGraphic {c : Char} (h : IsGraphic c) : Str.isWhitespace c = false := by
  unfold IsGraphic at h
  simp [Str.isWhitespace]
  omega

theorem isGraphic_start : ∀ c ∈ l.start, IsGraphic c ∨ c = ' ' := by
  intro c hc
  simp only [start, List.mem_append, List.mem_cons, List.not_mem_nil, or_false] at hc
  rcases hc with hc | hc | hc | hc
  · exact .inl (l.graphic c hc)
  · exact .inr hc
  · exact .inl (HttpUri.isGraphic_text c hc)
  · exact .inr hc

theorem start_chars : ∀ c ∈ l.start, c.toNat < 0x80 ∧ c ≠ '\n' ∧ c ≠ '\r' := by
  intro c hc
  rcases isGraphic_start c hc with h | rfl
  case inr => decide
  case inl =>
    refine ⟨by unfold IsGraphic at h; omega, ?_, ?_⟩ <;> rintro rfl <;> revert h <;> decide

-- What is buffered of the start of a request line.
theorem lossy_buffered (hb : IsBuffered x) (hp : encode l.start <+: x ++ y) :
    ∃ z, lossy x = l.start.take (requestLimit + 1) ++ z ∧ (requestLimit + 1 < l.start.length → z = []) := by
  have he := encode_ascii fun c hc => (start_chars (l := l) c hc).left
  have hl : (encode l.start).length = l.start.length := by rw [he, List.length_map]
  rcases List.prefix_or_prefix_of_prefix hp (List.prefix_append x y) with ⟨z, rfl⟩ | hx
  case inl =>
    have := hb.length_le
    simp only [List.length_append, hl] at this
    refine ⟨lossy z, ?_, fun h => by omega⟩
    rw [lossy_encode_append, List.take_of_length_le (by omega)]
  case inr =>
    have hs : ¬Negotiator.headEnd.isSuffixOf x := by
      intro hs
      have hm := hx.subset ((List.isSuffixOf_iff_suffix.mp hs).subset (show lf ∈ Negotiator.headEnd by decide))
      exact (start_chars _ (mem_of_mem_encode (by decide) hm)).right.left rfl
    have hn : x.length = requestLimit + 1 := Nat.le_antisymm hb.length_le (hb.complete.resolve_left hs)
    refine ⟨[], ?_, fun _ => rfl⟩
    rw [List.prefix_iff_eq_take.mp hx, hn, he, ← List.map_take, ← encode_ascii, lossy_encode, List.append_nil]
    exact fun c hc => (start_chars c (List.mem_of_mem_take hc)).left

theorem not_isWhitespace_method : ∀ c ∈ l.method, Str.isWhitespace c = false :=
  fun c hc => isWhitespace_of_isGraphic (l.graphic c hc)

theorem not_isWhitespace_text : ∀ c ∈ l.uri.text, Str.isWhitespace c = false :=
  fun c hc => isWhitespace_of_isGraphic (HttpUri.isGraphic_text c hc)

theorem text_ne_nil (u : HttpUri) : u.text ≠ [] := by
  simp [HttpUri.text]

-- The method is read as a whole, and the target is cut if the line is too long.
theorem exists_words (hb : IsBuffered x) (hp : encode l.start <+: x ++ y) :
    ∃ first ws, (Str.lines (lossy x)).head? = some first ∧
      Str.splitWhitespace first = l.method.take (requestLimit + 1) :: ws ∧
      ws[0]? = if requestLimit + 1 ≤ l.method.length + 1 then none
        else some (l.uri.text.take (requestLimit + 1 - (l.method.length + 1))) := by
  have hm := not_isWhitespace_method (l := l)
  have ht := not_isWhitespace_text (l := l)
  obtain ⟨z, hx, hz⟩ := lossy_buffered hb hp
  have hl : l.start.length = l.method.length + (l.uri.text.length + 1 + 1) := by simp [start]
  have hc : ∀ c ∈ l.start.take (requestLimit + 1), c ≠ '\n' ∧ c ≠ '\r' :=
    fun c hc => (start_chars c (List.mem_of_mem_take hc)).right
  have hn : l.start.take (requestLimit + 1) ≠ [] := by simp [start]
  rcases Nat.lt_or_ge (requestLimit + 1) l.start.length with hlt | hge
  case inl =>
    rw [hx, hz hlt, List.append_nil, lines_singleton hc hn]
    refine ⟨_, _, rfl, Str.splitWhitespace_take hm l.named (Nat.succ_pos _), ?_⟩
    split_ifs with h₁ h₂ h₂
    · rfl
    · omega
    · rw [Nat.sub_eq_zero_of_le h₂]
      rfl
    · rw [Str.splitWhitespace_take ht (text_ne_nil _) (by omega)]
      rfl
  case inr =>
    rw [List.take_of_length_le hge] at hx hc hn
    obtain ⟨v, hv⟩ := head_lines_append hc hn z
    refine ⟨_, l.uri.text :: Str.splitWhitespace v, hx ▸ hv, ?_, ?_⟩
    · rw [start, List.append_assoc, List.cons_append, Str.splitWhitespace_cons hm l.named, List.append_assoc,
        List.singleton_append, Str.splitWhitespace_cons ht (text_ne_nil _), List.take_of_length_le (by omega)]
    · rw [if_neg (by omega), List.take_of_length_le (by omega)]
      rfl

theorem parseHttp_cut (hb : IsBuffered x) (hp : encode l.start <+: x ++ y) (hm : requestLimit + 1 ≤ l.method.length + 1) :
    parseHttp x = none := by
  obtain ⟨first, ws, hf, hw, ht⟩ := exists_words hb hp
  rw [if_pos hm] at ht
  simp only [parseHttp, hf, Option.bind_eq_bind, Option.bind_some, hw, List.getElem?_cons_zero, List.getElem?_cons_succ, ht,
    Option.bind_none]

-- The method and the target that are read.
theorem exists_target (hb : IsBuffered x) (hp : encode l.start <+: x ++ y) (hm : l.method.length < requestLimit) :
    ∃ first ws, (Str.lines (lossy x)).head? = some first ∧
      Str.splitWhitespace first =
        l.method :: l.uri.text.take (requestLimit + 1 - (l.method.length + 1)) :: ws := by
  obtain ⟨first, ws, hf, hw, ht⟩ := exists_words hb hp
  rw [if_neg (by omega)] at ht
  rw [List.take_of_length_le (by omega)] at hw
  cases ws
  case nil       => cases ht
  case cons t ws =>
    cases ht
    exact ⟨first, ws, hf, hw⟩

-- How much of the target is read after its scheme.
def room (l : RequestLine) : Nat :=
  requestLimit + 1 - (l.method.length + 8)

theorem length_scheme (u : HttpUri) : u.scheme.length = 4 := by
  simpa [Str.asciiLower] using congrArg List.length u.scheme_eq

theorem take_text (h : l.method.length + 8 ≤ requestLimit + 1) :
    l.uri.text.take (requestLimit + 1 - (l.method.length + 1)) = l.uri.scheme ++ "://".toList ++ l.uri.rest.take l.room := by
  have hl : (l.uri.scheme ++ "://".toList).length = 7 := by rw [List.length_append, length_scheme]; rfl
  have hn : requestLimit + 1 - (l.method.length + 1) = (l.uri.scheme ++ "://".toList).length + l.room := by
    rw [hl, room]
    omega
  rw [HttpUri.text, hn, List.take_length_add_append]

end RequestLine

-- A request with the host and the port of a URI.
def Targets (u : HttpUri) (req : ClientRequest) : Prop :=
  req.host = u.host.bare ∧ req.port.toNat = u.portNumber

theorem isLineStart_host : IsLineStart "host:".toList where
  ne_nil := by decide
  ascii  := List.all_iff_forall_prop.mp (by decide)
  no_cr  := by decide
  no_lf  := by decide

section Cases

variable {req : ClientRequest}

theorem targets_iff {p : Str × UInt16} {u : HttpUri} (h : (req.host, req.port) = p) :
    Targets u req ↔ p.1 = u.host.bare ∧ p.2.toNat = u.portNumber := by
  rw [← h]
  rfl

-- Only if a `CONNECT` is cut before a colon can its host be the one of the URI, which is the scheme then.
theorem connect_iff (u : HttpUri) (r : Str) :
    ((splitHostPort (u.scheme ++ "://".toList ++ r) 443).1 = u.host.bare ∧
      (splitHostPort (u.scheme ++ "://".toList ++ r) 443).2.toNat = u.portNumber) ↔
    u.host.bare = u.scheme ∧ u.portNumber = 443 ∧ ':' ∉ r := by
  have hn : u.scheme ≠ [] := List.ne_nil_of_length_pos (by rw [RequestLine.length_scheme]; decide)
  have hh : (u.scheme ++ "://".toList ++ r).head? ≠ some '[' := by
    intro h
    rw [List.append_assoc, List.head?_append_of_ne_nil _ hn] at h
    have hm : '['.toLower ∈ "http".toList := u.scheme_eq ▸ List.mem_map_of_mem (List.mem_of_mem_head? h)
    revert hm
    decide
  by_cases hc : ':' ∈ r
  case neg =>
    have he : u.scheme ++ "://".toList ++ r = u.scheme ++ ':' :: ('/' :: '/' :: r) := by simp
    have hp : (Str.parseU16 ('/' :: '/' :: r)).getD 443 = 443 :=
      HttpUri.portOr_of_mem (c := '/') (by simp) (by decide) (by decide)
    rw [splitHostPort_colon hh _ he hn (by simpa using hc), hp]
    simp only [hc, not_false_eq_true, and_true]
    exact and_congr eq_comm eq_comm
  case pos =>
    obtain ⟨a, b, rfl, hb⟩ := Str.exists_append_cons_of_mem hc
    rw [splitHostPort_colon (l := u.scheme ++ "://".toList ++ a) hh _ (by simp) (by simp) hb]
    simp only [hc, not_true_eq_false, and_false, iff_false]
    rintro ⟨hs, -⟩
    exact HttpUri.not_mem_bare (u := u) (c := '/') (by simp) (hs ▸ by simp)

section Parse

variable {first method uri : Str} {ws : List Str} (hf : (Str.lines (lossy x)).head? = some first)
variable (hw : Str.splitWhitespace first = method :: uri :: ws)
include hf hw

theorem parseHttp_connect (hc : Str.eqIgnoreAsciiCase method "CONNECT".toList = true) :
    ∃ req, parseHttp x = some req ∧ (req.host, req.port) = splitHostPort uri 443 := by
  simp only [parseHttp, hf, Option.bind_eq_bind, Option.bind_some, hw, List.getElem?_cons_zero,
    List.getElem?_cons_succ, hc, if_true]
  exact ⟨_, rfl, rfl⟩

theorem parseHttp_hostless (hc : Str.eqIgnoreAsciiCase method "CONNECT".toList = false)
    (hs : Str.stripPrefix "http://".toList uri = none)
    (hd : (Str.lines (lossy x)).tail.find? (fun l => "host:".toList.isPrefixOf (Str.asciiLower l)) = none) :
    parseHttp x = none := by
  simp only [parseHttp, hf, Option.bind_eq_bind, Option.bind_some, hw, List.getElem?_cons_zero,
    List.getElem?_cons_succ, hc, hs, hd, Option.map_none, Option.or_none, Option.bind_none]
  rfl

end Parse

variable (hb : IsBuffered x) (hp : encode l.start <+: x ++ y)
include hb hp

theorem targets_connect_iff (hc : l.isConnect) : (∃ req ∈ parseHttp x, Targets l.uri req) ↔
    l.uri.host.bare = l.uri.scheme ∧ l.uri.portNumber = 443 ∧ ':' ∉ l.uri.rest.take l.room := by
  have hm : l.method.length = 7 := by
    have := congrArg List.length (beq_iff_eq.mp (hc : Str.eqIgnoreAsciiCase l.method "CONNECT".toList = true))
    simpa [Str.asciiLower] using this
  obtain ⟨first, ws, hf, hw⟩ := RequestLine.exists_target hb hp (by rw [hm]; decide)
  rw [RequestLine.take_text (by rw [hm]; decide)] at hw
  obtain ⟨req, hr, he⟩ := parseHttp_connect hf hw hc
  rw [← connect_iff]
  simp only [hr, Option.mem_def, Option.some_inj, exists_eq_left', targets_iff he]

theorem targets_http_iff (hc : l.isConnect = false) (hs : l.uri.scheme = "http".toList)
    (hm : l.method.length + 8 ≤ requestLimit + 1) : (∃ req ∈ parseHttp x, Targets l.uri req) ↔
    l.uri.Reads ((l.uri.authority ++ l.uri.tail).take l.room) := by
  obtain ⟨first, ws, hf, hw⟩ := RequestLine.exists_target hb hp (by omega)
  have hu : l.uri.text.take (requestLimit + 1 - (l.method.length + 1)) = "http://".toList ++ l.uri.rest.take l.room := by
    rw [RequestLine.take_text hm, hs]
    rfl
  obtain ⟨req, hr, -, -, -, -, he⟩ := parseHttp_words hf hw hc hu
  rw [← List.take_takeWhile, HttpUri.takeWhile_rest] at he
  simp only [hr, Option.mem_def, Option.some_inj, exists_eq_left', targets_iff he]
  refine ⟨fun h => HttpUri.reads_of_splitHostPort (fun ht => HttpUri.isLiteral_of_head? ?_) h.left h.right,
    HttpUri.splitHostPort_of_reads⟩
  obtain ⟨t, ht⟩ := List.head?_eq_some_iff.mp ht
  rw [← List.take_append_drop l.room (l.uri.authority ++ l.uri.tail), ht]
  rfl

-- Without the scheme, all depends on the headers.
theorem parseHttp_eq_none (hc : l.isConnect = false) (hn : ¬(l.uri.scheme = "http".toList ∧ l.method.length + 8 ≤ requestLimit + 1))
    (hh : ¬HasLine "host:".toList x) : parseHttp x = none := by
  rcases Nat.lt_or_ge l.method.length requestLimit with hm | hm
  case inr => exact RequestLine.parseHttp_cut hb hp (by omega)
  case inl =>
    obtain ⟨first, ws, hf, hw⟩ := RequestLine.exists_target hb hp hm
    have hs : Str.stripPrefix "http://".toList (l.uri.text.take (requestLimit + 1 - (l.method.length + 1))) = none := by
      rw [Str.stripPrefix_eq_none_iff]
      intro hp
      have ht := hp.trans (List.take_prefix ..)
      refine hn ⟨?_, ?_⟩
      · have hl := RequestLine.length_scheme l.uri
        rw [HttpUri.text, List.append_assoc] at ht
        have hp : "http".toList <+: "http://".toList := by decide
        have := List.prefix_iff_eq_take.mp <|
          List.prefix_of_prefix_length_le (hp.trans ht) (List.prefix_append _ _) (by rw [hl]; decide)
        rw [this, List.take_of_length_le (by rw [hl]; decide)]
      · have := hp.length_le
        simp only [List.length_take, String.reduceToList, List.length_cons, List.length_nil] at this
        omega
    have hd : (Str.lines (lossy x)).tail.find? (fun l => "host:".toList.isPrefixOf (Str.asciiLower l)) = none := by
      rw [List.find?_eq_none]
      intro h hm hs
      exact hh (exists_tail_lines_lossy_iff isLineStart_host x |>.mp ⟨h, hm, List.isPrefixOf_iff_prefix.mp hs⟩)
    exact parseHttp_hostless hf hw hc hs hd

end Cases

section Buffering

variable {s : Bytes}

-- A head that is complete has been buffered at some point.
theorem exists_buffered (hs : Complete s) (h : s.head? ≠ some 0x05) : ∃ x y, x ++ y = s ∧ IsBuffered x := by
  have hc : ∃ n, Complete (s.take n) := ⟨s.length, by rwa [List.take_length]⟩
  have hf := Nat.find_spec hc
  refine ⟨_, _, List.take_append_drop (Nat.find hc) s, ?_, hf, fun n hn => ?_⟩
  · intro hh
    obtain ⟨t, ht⟩ := List.head?_eq_some_iff.mp hh
    exact h (by rw [← List.take_append_drop (Nat.find hc) s, ht]; rfl)
  · rw [List.length_take] at hn
    rw [List.take_take, min_eq_left (by omega)]
    exact Nat.find_min hc (by omega)

-- A request without headers.
theorem RequestLine.exists_headless (l : RequestLine) :
    ∃ x y, IsBuffered x ∧ encode l.render <+: x ++ y ∧ ¬HasLine "host:".toList x := by
  have hr : encode l.render ++ crlf = encode (l.start ++ "HTTP/1.1".toList) ++ cr :: lf :: crlf := by
    have he : "HTTP/1.1\r\n".toList = "HTTP/1.1".toList ++ "\r\n".toList := by decide
    rw [l.render_eq, he, ← List.append_assoc, encode_append, List.append_assoc]
    rfl
  have hc : Complete (encode l.render ++ crlf) := by
    rw [hr]
    exact .inl (List.isSuffixOf_iff_suffix.mpr ⟨_, rfl⟩)
  have h5 : (encode l.render ++ crlf).head? ≠ some 0x05 := by
    intro h
    rw [l.render_eq, encode_append, List.append_assoc, List.head?_append_of_ne_nil] at h
    · have hm := mem_of_mem_encode (by decide) (List.mem_of_mem_head? h)
      rcases isGraphic_start _ hm with hg | hg <;> revert hg <;> decide
    · intro hn
      have := lossy_encode l.start
      rw [hn] at this
      simp [start] at this
  obtain ⟨x, y, he, hb⟩ := exists_buffered hc h5
  refine ⟨x, y, hb, he ▸ List.prefix_append .., fun hh => ?_⟩
  have hl := hh.append y
  rw [he, hr, isLineStart_host.hasLine_append_crlf] at hl
  rcases hl with ⟨a, b, ha, -⟩ | hl | hl
  · have hm : lf ∈ encode (l.start ++ "HTTP/1.1".toList) := ha ▸ by simp
    rcases List.mem_append.mp (mem_of_mem_encode (by decide) hm) with hm | hm
    · exact (start_chars _ hm).right.left rfl
    · revert hm
      decide
  · revert hl
    unfold StartsWith
    decide
  · simp [crlf, hasLine_cons, not_hasLine_nil, show cr ≠ lf by decide, StartsWith] at hl

end Buffering

-- A request is forwarded to the host and the port of its URI, whatever follows its first line and however it arrives.
def Forwards (expected : Option AuthExpect) (l : RequestLine) : Prop :=
  ∀ x y, IsBuffered x → encode l.render <+: x ++ y →
    Sender.machine.Total (parseClientRequest expected) (fun r _ => ∃ req ∈ r, Targets l.uri req) (x ++ y)

-- The method and the scheme have to be spelled as the server expects them, and the host and the port have to be read
-- from what is in front of the first slash, as far as it is buffered.
theorem forwards_iff (expected : Option AuthExpect) (l : RequestLine) :
    (Forwards expected l ↔
      if l.isConnect then l.uri.host.bare = l.uri.scheme ∧ l.uri.portNumber = 443 ∧ ':' ∉ l.uri.rest.take l.room
      else l.uri.scheme = "http".toList ∧ l.method.length + 8 ≤ requestLimit + 1 ∧
        l.uri.Reads ((l.uri.authority ++ l.uri.tail).take l.room)) ∧
    ((l.uri.authority ++ l.uri.tail).length ≤ l.room →
      (l.uri.Reads ((l.uri.authority ++ l.uri.tail).take l.room) ↔ l.uri.Legible)) := by
  have hs {x y : Bytes} (hp : encode l.render <+: x ++ y) : encode l.start <+: x ++ y := by
    rw [l.render_eq, encode_append] at hp
    exact (List.prefix_append ..).trans hp
  obtain ⟨x, y, hb, hp, hh⟩ := l.exists_headless
  refine ⟨?_, fun hl => by rw [List.take_of_length_le hl, HttpUri.reads_front_iff]⟩
  split_ifs with hc
  case pos =>
    constructor
    · exact fun h => (targets_connect_iff hb (hs hp) hc).mp ((Sender.parseClientRequest_total hb).mp (h x y hb hp))
    · exact fun h x y hb hp => (Sender.parseClientRequest_total hb).mpr ((targets_connect_iff hb (hs hp) hc).mpr h)
  case neg =>
    have hc : l.isConnect = false := Bool.eq_false_iff.mpr hc
    constructor
    · intro h
      have ht := (Sender.parseClientRequest_total hb).mp (h x y hb hp)
      by_cases hn : l.uri.scheme = "http".toList ∧ l.method.length + 8 ≤ requestLimit + 1
      case pos => exact ⟨hn.left, hn.right, (targets_http_iff hb (hs hp) hc hn.left hn.right).mp ht⟩
      case neg =>
        obtain ⟨req, hr, -⟩ := ht
        rw [parseHttp_eq_none hb (hs hp) hc hn hh] at hr
        cases hr
    · rintro ⟨h₁, h₂, h⟩ x y hb hp
      exact (Sender.parseClientRequest_total hb).mpr ((targets_http_iff hb (hs hp) hc h₁ h₂).mpr h)

-- A query directly after the host.
def queried : RequestLine where
  method  := "GET".toList
  uri     := {
    scheme      := "http".toList
    userinfo    := none
    host        := .name "example.org".toList
    port        := none
    path        := []
    query       := some "x".toList
    fragment    := none
    scheme_eq   := by decide
    userinfo_ok := by simp
    host_ok     := List.all_iff_forall_prop.mp (by decide)
    port_ok     := by simp
    path_ok     := by simp
    query_ok    := by simp; decide
    fragment_ok := by simp
  }
  named   := by decide
  graphic := List.all_iff_forall_prop.mp (by decide)

-- The query becomes part of the host.
theorem not_forwards_queried : ¬Forwards none queried := by
  have hb : IsBuffered (encode queried.render ++ crlf) := {
    http     := by decide
    complete := by decide
    first    := by decide
  }
  have hp : (parseHttp (encode queried.render ++ crlf)).map ClientRequest.host = some "example.org?x".toList := by decide
  intro h
  have ht := (Sender.parseClientRequest_total hb).mp (h _ [] hb ((List.prefix_append ..).trans (List.prefix_append ..)))
  obtain ⟨req, hr, hh, -⟩ := ht
  rw [hr, Option.map_some, hh] at hp
  revert hp
  decide

end Server
