import ProxyBroker.Server.Theorems.Parse
import Mathlib.Data.Bool.AllAny

open Utf8 Negotiator

namespace Server

variable {name : Str} {raw x y : Bytes}

-- The pieces of a buffer between its CRLFs. All but the last one are lines that end with a CRLF.
def crlfPieces : Bytes → List Bytes
  | []           => [[]]
  | [b]          => [[b]]
  | b :: c :: bs =>
    if b = cr ∧ c = lf then [] :: crlfPieces bs
    else (crlfPieces (c :: bs)).modifyHead (b :: ·)

theorem crlfPieces_none (h : crlfPos raw = none) : crlfPieces raw = [raw] := by
  induction raw using crlfPos.induct
  case case1 | case2   => rfl
  case case3 hc        => simp [crlfPos, hc] at h
  case case4 hc hi     =>
    simp only [crlfPos, hc, if_false, Option.map_eq_none_iff] at h
    simp [crlfPieces, hc, hi h]

theorem crlfPieces_split (h : crlfPos (x ++ [cr]) = none) :
    crlfPieces (x ++ cr :: lf :: y) = x :: crlfPieces y := by
  induction x
  case nil => simp [crlfPieces]
  case cons b x hi =>
    have hc : ¬(b = cr ∧ (x ++ [cr]).head? = some lf) := by
      rintro ⟨rfl, hc⟩
      obtain ⟨z, hz⟩ := List.head?_eq_some_iff.mp hc
      simp [hz, crlfPos] at h
    have hx : crlfPos (x ++ [cr]) = none := by
      rw [crlfPos_none_iff] at h ⊢
      exact fun u v he => h (b :: u) v (by simp [he])
    cases x
    case nil =>
      have hb : ¬(b = cr ∧ cr = lf) := by simp [show cr ≠ lf by decide]
      simp [crlfPieces, hb]
    case cons c x =>
      have hb : ¬(b = cr ∧ c = lf) := by simpa using hc
      simp only [List.cons_append] at hi ⊢
      rw [crlfPieces, if_neg hb, hi hx]
      rfl

theorem crlfPieces_ne_nil (raw : Bytes) : crlfPieces raw ≠ [] := by
  induction raw using crlf_induction
  case none h      => simp [crlfPieces_none h]
  case split h _   => simp [crlfPieces_split h]

section Loop

variable {pre : Str} {n : Nat} {first : Bool}

theorem stripLoop_out (pre : Str) (n : Nat) (first : Bool) (rest out : Bytes) :
    stripLoop pre n first rest out = out ++ stripLoop pre n first rest [] := by
  induction n generalizing first rest out
  case zero => simp [stripLoop]
  case succ n hi =>
    unfold stripLoop
    cases crlfPos rest
    case none => simp
    case some pos =>
      dsimp only
      split_ifs
      · exact hi ..
      · rw [hi, hi _ _ ([] ++ _)]
        simp

theorem stripLoop_none (h : crlfPos raw = none) : stripLoop pre n first raw [] = raw := by
  cases n <;> simp [stripLoop, h]

theorem stripLoop_line (h : crlfPos (x ++ [cr]) = none) :
    stripLoop pre (n + 1) first (x ++ cr :: lf :: y) [] =
    (if first = false ∧ pre <+: Str.asciiLower (lossy x) then [] else x ++ crlf) ++
      stripLoop pre n false y [] := by
  have ht : (x ++ cr :: lf :: y).take (x.length + 2) = x ++ crlf := by
    rw [List.take_length_add_append]
    rfl
  have hd : (x ++ cr :: lf :: y).drop (x.length + 2) = y := by
    rw [List.drop_length_add_append]
    rfl
  rw [stripLoop]
  simp only [crlfPos_split h, ht, hd, List.take_left, Bool.and_eq_true, Bool.not_eq_true',
    List.isPrefixOf_iff_prefix, List.nil_append]
  rw [stripLoop_out]

theorem stripLoop_split (hp : IsLineStart pre) (h : crlfPos (x ++ [cr]) = none) :
    stripLoop pre (n + 1) first (x ++ cr :: lf :: y) [] =
    (if first = false ∧ StartsWith pre x then [] else x ++ crlf) ++ stripLoop pre n false y [] := by
  simp only [stripLoop_line h, prefix_lossy_iff hp.ascii]

-- A line that is left over is either inside of a piece that is kept, or at the start of the last piece.
theorem stripLoop_hasLine_iff (hp : IsLineStart pre) (hn : raw.length ≤ n) :
    HasLine pre (lf :: stripLoop pre n false raw []) ↔
    (∃ l ∈ (crlfPieces raw).dropLast, ¬StartsWith pre l ∧ HasLine pre l) ∨
    ∃ l ∈ (crlfPieces raw).getLast?, StartsWith pre l ∨ HasLine pre l := by
  induction raw using crlf_induction generalizing n
  case none h => simp [stripLoop_none h, crlfPieces_none h, hasLine_cons]
  case split x y h hi =>
    cases n
    case zero => simp at hn
    case succ n =>
      have hn : y.length ≤ n := by
        rw [length_append_crlf] at hn
        omega
      have hy := crlfPieces_ne_nil y
      rw [stripLoop_split hp h, crlfPieces_split h, List.dropLast_cons_of_ne_nil hy,
        List.getLast?_cons_of_ne_nil hy]
      by_cases hx : StartsWith pre x
      · simp only [hx, and_self, if_true, List.nil_append, hi hn, List.mem_cons, exists_eq_or_imp,
          not_true_eq_false, false_and, false_or]
      · have hs : HasLine pre (lf :: (x ++ crlf ++ stripLoop pre n false y [])) ↔
            HasLine pre x ∨ HasLine pre (lf :: stripLoop pre n false y []) := by
          simp only [crlf, List.append_assoc, List.cons_append, List.nil_append, hasLine_cons,
            hp.hasLine_append_crlf, hp.startsWith_append_cr, hx, and_false, false_or, true_and]
        simp only [hx, and_false, if_false, hs, hi hn, List.mem_cons, exists_eq_or_imp,
          not_false_eq_true, true_and, or_assoc]

end Loop

-- Whatever starts like the header is a line that ends with a CRLF, or it is inside of such a line which
-- is itself the header. The first line is not a header, and neither is what follows the last CRLF.
structure Strippable (pre : Str) (raw : Bytes) : Prop where
  first : ∀ l ∈ (crlfPieces raw).head?, ¬HasLine pre l
  inner : ∀ l ∈ (crlfPieces raw).tail.dropLast, HasLine pre l → StartsWith pre l
  last  : ∀ l ∈ (crlfPieces raw).tail.getLast?, ¬StartsWith pre l ∧ ¬HasLine pre l

theorem not_hasLine_stripHeader_iff (hp : IsLineStart (headerStart name)) :
    ¬HasLine (headerStart name) (stripHeader raw name) ↔ Strippable (headerStart name) raw := by
  unfold stripHeader
  induction raw using crlf_induction
  case none h =>
    rw [stripLoop_none h]
    constructor
    · intro hr
      constructor <;> simp [crlfPieces_none h, hr]
    · intro hs
      exact hs.first _ (by simp [crlfPieces_none h])
  case split x y h _ =>
    have hx : HasLine (headerStart name) (stripLoop (headerStart name) (x ++ cr :: lf :: y).length true
        (x ++ cr :: lf :: y) []) ↔ HasLine (headerStart name) x ∨
        HasLine (headerStart name) (lf :: stripLoop (headerStart name) (x.length + y.length + 1) false y []) := by
      rw [length_append_crlf, stripLoop_split hp h]
      simp [crlf, hp.hasLine_append_crlf, hasLine_cons]
    rw [hx, stripLoop_hasLine_iff hp (by omega)]
    constructor
    · intro hs
      push Not at hs
      constructor
      · simpa [crlfPieces_split h] using hs.left
      · intro l hl hh
        by_contra hn
        rw [crlfPieces_split h] at hl
        exact hs.right.left l hl hn hh
      · intro l hl
        rw [crlfPieces_split h] at hl
        exact hs.right.right l hl
    · rintro hs (hf | ⟨l, hl, hn, hh⟩ | ⟨l, hl, hh⟩)
      · exact hs.first x (by simp [crlfPieces_split h]) hf
      · exact hn <| hs.inner l (by simpa [crlfPieces_split h] using hl) hh
      · have := hs.last l (by simpa [crlfPieces_split h] using hl)
        tauto

theorem headerValue_isSome_iff (hp : IsLineStart (headerStart name)) :
    (headerValue raw name).isSome ↔ HasLine (headerStart name) raw := by
  rw [HasLine, ← exists_tail_lines_lossy_iff hp]
  simp [headerValue, List.find?_isSome]

theorem isLineStart_proxyAuthorization : IsLineStart (headerStart proxyAuthorization) where
  ne_nil := by decide
  ascii  := List.all_iff_forall_prop.mp (by decide)
  no_cr  := by decide
  no_lf  := by decide

-- The lines that are the given header, as `header_value` splits them.
def headerLines (raw : Bytes) (name : Str) : List Str :=
  (Str.lines (lossy raw)).tail.filter fun l => (headerStart name).isPrefixOf (Str.asciiLower l)

theorem headerLines_eq_nil_iff (hp : IsLineStart (headerStart name)) :
    headerLines raw name = [] ↔ ¬HasLine (headerStart name) raw := by
  rw [HasLine, ← exists_tail_lines_lossy_iff hp]
  simp [headerLines]

theorem lines_lossy_crlf (x y : Bytes) :
    Str.lines (lossy (x ++ cr :: lf :: y)) = Str.lines (lossy (x ++ crlf)) ++ Str.lines (lossy y) := by
  have h (y : Bytes) : lossy (x ++ cr :: lf :: y) = (lossy x ++ ['\r']) ++ '\n' :: lossy y := by
    rw [lossy_append_ascii (by decide), lossy_cons_ascii (by decide), List.append_assoc]
    rfl
  rw [h, Str.lines_append, crlf, h]
  rfl

-- The text of the header by which a proxy is told its credentials.
def authText (c : Credentials) : Str :=
  "Proxy-Authorization: ".toList ++ basic c

theorem authText_mem {c : Credentials} {a : Char} (ha : a ∈ authText c) : a.toNat < 0x80 ∧ a ≠ '\n' := by
  have h₁ : ∀ a ∈ "Proxy-Authorization: ".toList, a.toNat < 0x80 ∧ a ≠ '\n' :=
    List.all_iff_forall_prop.mp (by decide)
  have h₂ : ∀ a ∈ "Basic ".toList, a.toNat < 0x80 ∧ a ≠ '\n' :=
    List.all_iff_forall_prop.mp (by decide)
  have h₃ : ∀ a ∈ '=' :: base64Alphabet, a.toNat < 0x80 ∧ a ≠ '\n' :=
    List.all_iff_forall_prop.mp (by decide)
  rcases List.mem_append.mp ha with ha | ha
  · exact h₁ a ha
  · rcases List.mem_append.mp ha with ha | ha
    · exact h₂ a ha
    · exact h₃ a (base64Encode_mem _ a ha)

theorem lines_lossy_authLine (c : Credentials) (y : Bytes) :
    Str.lines (lossy (encode (authLine c) ++ y)) = authText c :: Str.lines (lossy y) := by
  have hl : authLine c = authText c ++ ['\r', '\n'] := rfl
  rw [lossy_encode_append, hl]
  have hn : '\n' ∉ authText c := fun h => (authText_mem h).right rfl
  have := Str.lines_append (authText c ++ ['\r']) (lossy y)
  rw [List.append_assoc, List.append_assoc] at this
  rw [List.append_assoc]
  exact this.trans (by rw [List.singleton_append, Str.lines_concat_crlf hn]; rfl)

theorem startsWith_authText (c : Credentials) :
    headerStart proxyAuthorization <+: Str.asciiLower (authText c) := by
  have h : headerStart proxyAuthorization <+: Str.asciiLower "Proxy-Authorization: ".toList := by decide
  have hs : Str.asciiLower (authText c) =
    Str.asciiLower "Proxy-Authorization: ".toList ++ Str.asciiLower (basic c) := Str.asciiLower_append ..
  rw [hs]
  exact h.trans (List.prefix_append ..)

theorem headerLines_split (x y : Bytes) :
    headerLines (x ++ cr :: lf :: y) name = headerLines (x ++ crlf) name ++
      (Str.lines (lossy y)).filter fun l => (headerStart name).isPrefixOf (Str.asciiLower l) := by
  have hn : Str.lines (lossy (x ++ crlf)) ≠ [] := by
    apply Str.lines_ne_nil
    rw [crlf, lossy_append_ascii (by decide)]
    simp
  rw [headerLines, lines_lossy_crlf, List.tail_append_of_ne_nil hn, List.filter_append]
  rfl

-- A header that is injected comes right after the first line.
theorem headerLines_injectHeader_split (c : Credentials) (hx : crlfPos (x ++ [cr]) = none) (y : Bytes) :
    headerLines (injectHeader (x ++ cr :: lf :: y) (encode (authLine c))) proxyAuthorization =
    headerLines (x ++ crlf) proxyAuthorization ++ authText c ::
      (Str.lines (lossy y)).filter fun l =>
        (headerStart proxyAuthorization).isPrefixOf (Str.asciiLower l) := by
  rw [injectHeader_split hx, headerLines_split, lines_lossy_authLine, List.filter_cons_of_pos]
  simpa using startsWith_authText c

-- If nothing is left of the header, then the one that is injected is the only one.
theorem headerLines_injectHeader (c : Credentials) (h : headerLines raw proxyAuthorization = []) :
    (headerLines (injectHeader raw (encode (authLine c))) proxyAuthorization).Sublist [authText c] := by
  cases hc : crlfPos raw
  case none =>
    rw [injectHeader_none hc, h]
    exact List.nil_sublist _
  case some =>
    obtain ⟨x, y, rfl, -, hx⟩ := crlfPos_some_iff.mp hc
    rw [headerLines_split, List.append_eq_nil_iff] at h
    rw [headerLines_injectHeader_split c hx, h.left, h.right]
    exact List.Sublist.refl _

-- No `Proxy-Authorization` of the client is left in what is sent to a proxy: what is read as such is
-- stripped, and a proxy only receives the one with its own credentials.
structure Sanitized (raw : Bytes) : Prop where
  stripped : (headerValue raw proxyAuthorization).isSome →
    headerValue (stripHeader raw proxyAuthorization) proxyAuthorization = none
  none     : ∀ p : Proxy, p.auth = .none → headerLines (toSend p raw) proxyAuthorization = []
  some     : ∀ (p : Proxy) (c : Credentials), p.auth = .some c →
    (headerLines (toSend p raw) proxyAuthorization).Sublist [authText c]

theorem hasLine_cons_lf_iff {pre : Str} (hp : IsLineStart pre) :
    HasLine pre (lf :: raw) ↔ ∃ l ∈ crlfPieces raw, StartsWith pre l ∨ HasLine pre l := by
  induction raw using crlf_induction
  case none h      => simp [crlfPieces_none h, hasLine_cons]
  case split h hi  =>
    rw [hasLine_cons, hp.startsWith_append_cr, hp.hasLine_append_crlf]
    simp only [hasLine_cons, true_and] at hi
    simp [crlfPieces_split h, hi, or_assoc]

-- What is not there to be stripped is not introduced by stripping.
theorem hasLine_of_stripHeader (hp : IsLineStart (headerStart name))
    (h : HasLine (headerStart name) (stripHeader raw name)) : HasLine (headerStart name) raw := by
  by_contra hn
  refine (not_hasLine_stripHeader_iff hp).mpr ?_ h
  clear h
  cases hc : crlfPos raw
  case none => constructor <;> simp [crlfPieces_none hc, hn]
  case some =>
    obtain ⟨x, y, rfl, -, hx⟩ := crlfPos_some_iff.mp hc
    have hy : ¬HasLine (headerStart name) (lf :: y) := by
      simp only [hp.hasLine_append_crlf, not_or] at hn
      simp [hasLine_cons, hn]
    rw [hasLine_cons_lf_iff hp] at hy
    rw [hp.hasLine_append_crlf, not_or] at hn
    constructor <;> rw [crlfPieces_split hx]
    · simpa using hn.left
    · intro l hl h
      exact absurd ⟨l, List.dropLast_subset _ hl, .inr h⟩ hy
    · intro l hl
      rw [← not_or]
      exact fun h => hy ⟨l, List.mem_of_getLast? hl, h⟩

theorem sanitized_iff (raw : Bytes) :
    Sanitized raw ↔ Strippable (headerStart proxyAuthorization) raw := by
  have hp := isLineStart_proxyAuthorization
  rw [← not_hasLine_stripHeader_iff hp]
  constructor
  · intro hs hl
    have hv := hs.stripped ((headerValue_isSome_iff hp).mpr (hasLine_of_stripHeader hp hl))
    simp [← headerValue_isSome_iff hp, hv] at hl
  · intro hl
    have hn := (headerLines_eq_nil_iff hp).mpr hl
    constructor
    · intro _
      simpa [← headerValue_isSome_iff hp] using hl
    · intro p ha
      rw [toSend, ha]
      exact hn
    · intro p c ha
      rw [toSend, ha]
      exact headerLines_injectHeader c hn

-- The request line ends with a bare line feed, so the header is not at the start of a line of its own.
def smuggled : Bytes :=
  encode "GET http://x/ HTTP/1.1\nProxy-Authorization: Basic dXNlcjpwYXNz\r\n\r\n".toList

theorem smuggled_isBuffered : IsBuffered smuggled where
  http     := by decide
  complete := by decide
  first    := by decide

theorem smuggled_not_sanitized :
    (∃ tr req, (parseClientRequest none).Runs tr (.ret (some req)) ∧
      req.frontend = .httpForward ∧ req.raw = smuggled) ∧
    headerValue smuggled proxyAuthorization = some "Basic dXNlcjpwYXNz".toList ∧
    stripHeader smuggled proxyAuthorization = smuggled ∧ ¬Sanitized smuggled := by
  have hv : headerValue smuggled proxyAuthorization = some "Basic dXNlcjpwYXNz".toList := by decide
  have hs : stripHeader smuggled proxyAuthorization = smuggled := by decide
  refine ⟨⟨_, _, parseClientRequest_runs none smuggled_isBuffered, rfl, rfl⟩, hv, hs, fun h => ?_⟩
  have := h.stripped (by simp [hv])
  simp [hs, hv] at this

end Server
