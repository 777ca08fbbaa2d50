import ProxyBroker.Server.Message
import ProxyBroker.Server.Theorems.Strip

open Utf8

namespace Server

theorem isVisible_iff {b : UInt8} : isVisible b ↔ 0x21 ≤ b.toNat ∧ b.toNat ≤ 0x7E := by
  simp [isVisible, UInt8.le_iff_toNat_le]

theorem isVisible_ne {b : UInt8} (h : isVisible b) : b ≠ lf ∧ b ≠ cr ∧ b ≠ space ∧ b ≠ 0x05 := by
  rw [isVisible_iff] at h
  refine ⟨?_, ?_, ?_, ?_⟩ <;> rintro rfl <;> revert h <;> decide

theorem isVisible_of_token {b : UInt8} (h : isTokenByte b) : isVisible b := by
  simp only [isTokenByte, Bool.and_eq_true] at h
  exact h.left

theorem isTokenByte_ne_colon {b : UInt8} (h : isTokenByte b) : b ≠ colon := by
  rintro rfl
  revert h
  decide

theorem crlfPos_eq_none {bs : Bytes} (h : lf ∉ bs) : crlfPos bs = none := by
  rw [crlfPos_none_iff]
  rintro x y rfl
  simp at h

theorem Field.lf_not_mem (f : Field) : lf ∉ f.line := by
  simp only [Field.line, List.mem_append, List.mem_cons, not_or]
  refine ⟨fun h => ?_, by decide, fun h => (f.text lf h).right rfl⟩
  exact (isVisible_ne (isVisible_of_token (f.token lf h))).left rfl

theorem Request.lf_not_mem (r : Request) : lf ∉ r.line := by
  simp only [Request.line, List.mem_append, List.mem_cons, not_or]
  refine ⟨⟨fun h => ?_, by decide, fun h => ?_⟩, by decide, by decide⟩
  · exact (isVisible_ne (isVisible_of_token (r.token lf h))).left rfl
  · exact (isVisible_ne (r.visible lf h)).left rfl

theorem crlfPos_concat_cr {bs : Bytes} (h : lf ∉ bs) : crlfPos (bs ++ [cr]) = none := by
  apply crlfPos_eq_none
  simp [h, show lf ≠ cr by decide]

theorem prefix_concat_iff {α : Type} {s t u : List α} {a : α} (hs : a ∉ s) (ht : a ∉ t) :
    s ++ [a] <+: t ++ a :: u ↔ s = t := by
  induction s generalizing t
  case nil =>
    rcases t with _ | ⟨b, t⟩
    · simp
    · have : a ≠ b := by rintro rfl; simp at ht
      simp [this]
  case cons c s hi =>
    have ⟨hc, hs⟩ := not_or.mp (mt List.mem_cons.mpr hs)
    rcases t with _ | ⟨b, t⟩
    · simp [Ne.symm hc]
    · have ⟨hb, ht⟩ := not_or.mp (mt List.mem_cons.mpr ht)
      simp [List.cons_prefix_cons, hi hs ht]

theorem colon_not_mem_token {bs : Bytes} (h : ∀ b ∈ bs, isTokenByte b) :
    ':' ∉ Str.asciiLower (bs.map ofAscii) := by
  simp only [Str.asciiLower, List.map_map, List.mem_map, not_exists, not_and, Function.comp]
  intro b hb h'
  rw [Str.toLower_eq_iff (by decide) (by decide)] at h'
  exact isTokenByte_ne_colon (h b hb) (ofAscii_injective h')

section Header

variable {name : Str} (hn : ':' ∉ Str.asciiLower name)

include hn

-- A line starts like a header if and only if it is a field of that name.
theorem Field.startsWith_line_iff (f : Field) : StartsWith (headerStart name) f.line ↔ f.Is name := by
  have hl : Str.asciiLower (f.line.map ofAscii) =
      Str.asciiLower (f.name.map ofAscii) ++ ':' :: Str.asciiLower (f.value.map ofAscii) := by
    rw [Field.line, List.map_append, Str.asciiLower_append]
    rfl
  rw [StartsWith, headerStart, hl, prefix_concat_iff hn (colon_not_mem_token f.token), Field.Is, eq_comm]

end Header

theorem Request.not_startsWith_line {name : Str} (hs : ' ' ∉ headerStart name) (r : Request) (y : Bytes) :
    ¬StartsWith (headerStart name) (r.line ++ y) := by
  rw [Request.line, List.append_assoc, List.append_assoc, List.cons_append, startsWith_append_cons_iff]
  · intro h
    refine colon_not_mem_token r.token (h.subset ?_)
    simp [headerStart]
  · rintro c hc rfl
    exact hs hc

variable {name : Str} {pre : Str} {n : Nat}

-- What is left of the fields when those of the given name are removed which end within `n` bytes.
def Field.keep (name : Str) : Nat → List Field → List Field
  | _, []      => []
  | n, f :: fs =>
    let rest := keep name (n - (f.line.length + 2)) fs
    if f.Is name ∧ f.line.length + 2 ≤ n then rest else f :: rest

theorem Field.keep_zero (fs : List Field) : Field.keep name 0 fs = fs := by
  induction fs
  case nil => rfl
  case cons hi => simp [Field.keep, hi]

section Line

variable {x : Bytes} (y : Bytes)

-- A buffer that is cut off contains a line as a whole, or no line end at all.
theorem take_line (h : x.length + 2 ≤ n) :
    (x ++ cr :: lf :: y).take n = x ++ cr :: lf :: y.take (n - (x.length + 2)) := by
  obtain ⟨k, rfl⟩ := Nat.exists_eq_add_of_le h
  rw [Nat.add_sub_cancel_left, Nat.add_assoc, List.take_length_add_append, Nat.add_comm 2]
  rfl

theorem drop_line (h : x.length + 2 ≤ n) :
    (x ++ cr :: lf :: y).drop n = y.drop (n - (x.length + 2)) := by
  obtain ⟨k, rfl⟩ := Nat.exists_eq_add_of_le h
  rw [Nat.add_sub_cancel_left, Nat.add_assoc, List.drop_length_add_append, Nat.add_comm 2]
  rfl

theorem crlfPos_take_line (hx : lf ∉ x) (h : n < x.length + 2) :
    crlfPos ((x ++ cr :: lf :: y).take n) = none := by
  have hs : (x ++ cr :: lf :: y).take n = (x ++ [cr]).take n := by
    rw [← List.singleton_append (l := lf :: y), ← List.append_assoc]
    exact List.take_append_of_le_length (by simp; omega)
  apply crlfPos_eq_none
  rw [hs]
  exact fun hm => absurd (List.mem_of_mem_take hm) (by simp [hx, show lf ≠ cr by decide])

end Line

-- Stripping a header from fields of which only the first `n` bytes are available.
theorem stripLoop_fields (hp : IsLineStart (headerStart name)) (hn : ':' ∉ Str.asciiLower name)
    (fs : List Field) {m : Nat} (hm : ((Field.render fs ++ crlf).take n).length ≤ m) :
    stripLoop (headerStart name) m false ((Field.render fs ++ crlf).take n) [] ++
      (Field.render fs ++ crlf).drop n = Field.render (Field.keep name n fs) ++ crlf := by
  induction fs generalizing n m
  case nil =>
    by_cases hl : 2 ≤ n
    case neg =>
      have hs := crlfPos_take_line (x := []) [] (by simp) (show n < 2 by omega)
      have hs : crlfPos ((Field.render [] ++ crlf).take n) = none := hs
      rw [stripLoop_none hs, List.take_append_drop]
      rfl
    case pos =>
      have ht : (Field.render [] ++ crlf).take n = [] ++ cr :: lf :: [] := List.take_of_length_le hl
      have hd : (Field.render [] ++ crlf).drop n = [] := List.drop_of_length_le hl
      rw [ht] at hm
      obtain ⟨m, rfl⟩ : ∃ m', m = m' + 1 := ⟨m - 1, by simp at hm; omega⟩
      rw [ht, hd, stripLoop_split hp (by rfl), stripLoop_none rfl]
      simp [StartsWith, headerStart, Field.keep, Field.render]
  case cons f fs hi =>
    have hr : Field.render (f :: fs) ++ crlf = f.line ++ cr :: lf :: (Field.render fs ++ crlf) := by
      simp [Field.render, crlf]
    rw [hr] at hm ⊢
    by_cases hl : f.line.length + 2 ≤ n
    case neg =>
      rw [stripLoop_none (crlfPos_take_line _ f.lf_not_mem (by omega)), List.take_append_drop, ← hr]
      have hz : n - (f.line.length + 2) = 0 := by omega
      simp [Field.keep, hl, hz, Field.keep_zero]
    case pos =>
      rw [take_line _ hl] at hm ⊢
      obtain ⟨m, rfl⟩ : ∃ m', m = m' + 1 := ⟨m - 1, by simp at hm; omega⟩
      rw [drop_line _ hl, stripLoop_split hp (crlfPos_concat_cr f.lf_not_mem), List.append_assoc,
        hi (by simp at hm ⊢; omega)]
      by_cases hf : f.Is name
      · simp [Field.keep, Field.startsWith_line_iff hn, hf, hl]
      · simp [Field.keep, Field.startsWith_line_iff hn, hf, Field.render]

-- What becomes of a request of which the first `n` bytes are stripped of a header.
def Request.strip (r : Request) (name : Str) (n : Nat) : Request :=
  { r with fields := Field.keep name (n - (r.line.length + 2)) r.fields }

theorem stripHeader_take_render (hp : IsLineStart (headerStart name)) (hn : ':' ∉ Str.asciiLower name)
    (r : Request) (n : Nat) :
    stripHeader (r.render.take n) name ++ r.render.drop n = (r.strip name n).render := by
  have hr : r.render = r.line ++ cr :: lf :: (Field.render r.fields ++ crlf) := by
    simp [Request.render, crlf]
  have hs : (r.strip name n).render = r.line ++ cr :: lf ::
      (Field.render (Field.keep name (n - (r.line.length + 2)) r.fields) ++ crlf) := by
    simp [Request.render, crlf, Request.strip, Request.line]
  rw [hr, hs, stripHeader]
  by_cases hl : r.line.length + 2 ≤ n
  case neg =>
    have hz : n - (r.line.length + 2) = 0 := by omega
    rw [stripLoop_none (crlfPos_take_line _ r.lf_not_mem (by omega)), List.take_append_drop, hz, Field.keep_zero]
  case pos =>
    rw [take_line _ hl, drop_line _ hl, List.length_append, List.length_cons, ← Nat.add_assoc,
      stripLoop_split hp (crlfPos_concat_cr r.lf_not_mem), List.append_assoc,
      stripLoop_fields hp hn r.fields (by simp; omega)]
    simp [crlf]

theorem hasLine_fields_iff (hp : IsLineStart (headerStart name)) (hn : ':' ∉ Str.asciiLower name)
    (fs : List Field) (y : Bytes) :
    HasLine (headerStart name) (lf :: (Field.render fs ++ y)) ↔
    (∃ f ∈ fs, f.Is name) ∨ HasLine (headerStart name) (lf :: y) := by
  induction fs
  case nil => simp [Field.render]
  case cons f fs hi =>
    have hr : Field.render (f :: fs) ++ y = f.line ++ cr :: lf :: (Field.render fs ++ y) := by
      simp [Field.render, crlf]
    have hf : ¬HasLine (headerStart name) f.line := by
      rintro ⟨x, z, hl, -⟩
      exact f.lf_not_mem (hl ▸ by simp)
    rw [hr, hasLine_cons, hp.startsWith_append_cr, hp.hasLine_append_crlf, Field.startsWith_line_iff hn]
    rw [hasLine_cons] at hi
    simp only [true_and] at hi ⊢
    simp only [hi, hf, false_or, List.mem_cons, exists_eq_or_imp, or_assoc]

theorem not_startsWith_stream (hp : IsLineStart (headerStart name)) (hs : ' ' ∉ headerStart name)
    (rs : List Request) : ¬StartsWith (headerStart name) (stream rs) := by
  cases rs
  case nil => simp [stream, StartsWith, hp.ne_nil]
  case cons r rs =>
    rw [stream, List.flatMap_cons, Request.render, List.append_assoc, List.append_assoc, List.append_assoc]
    exact r.not_startsWith_line hs _

-- A client sends a header if and only if one of its requests has a field of that name.
theorem hasLine_stream_iff (hp : IsLineStart (headerStart name)) (hn : ':' ∉ Str.asciiLower name)
    (hs : ' ' ∉ headerStart name) (rs : List Request) :
    HasLine (headerStart name) (stream rs) ↔ ∃ r ∈ rs, ∃ f ∈ r.fields, f.Is name := by
  induction rs
  case nil => simp [stream, not_hasLine_nil]
  case cons r rs hi =>
    have hr : stream (r :: rs) = r.line ++ cr :: lf :: (Field.render r.fields ++ cr :: lf :: stream rs) := by
      simp [stream, Request.render, crlf]
    have hf : ¬HasLine (headerStart name) r.line := by
      rintro ⟨x, z, hl, -⟩
      exact r.lf_not_mem (hl ▸ by simp)
    have hy : HasLine (headerStart name) (lf :: cr :: lf :: stream rs) ↔ HasLine (headerStart name) (stream rs) := by
      have hc := hp.hasLine_append_crlf (x := [lf]) (y := stream rs)
      rw [List.singleton_append] at hc
      rw [hc, or_iff_right, or_iff_right (not_startsWith_stream hp hs rs)]
      simp [hasLine_cons, not_hasLine_nil, StartsWith, hp.ne_nil]
    have hl := hasLine_fields_iff hp hn r.fields (cr :: lf :: stream rs)
    rw [hasLine_cons, hy, hi] at hl
    simp only [true_and] at hl
    rw [hr, hp.hasLine_append_crlf, hl]
    simp [hf]

-- If all fields of the given name end within `n` bytes, then none of them is kept.
theorem Field.not_is_of_mem_keep {f : Field} {fs : List Field}
    (h : ∀ fs₁ g fs₂, fs = fs₁ ++ g :: fs₂ → g.Is name → (Field.render (fs₁ ++ [g])).length ≤ n)
    (hf : f ∈ Field.keep name n fs) : ¬f.Is name := by
  induction fs generalizing n
  case nil => cases hf
  case cons g fs hi =>
    have hg (hn : g.Is name) : g.line.length + 2 ≤ n := by
      simpa [Field.render, crlf] using h [] g fs rfl hn
    have hr : ∀ fs₁ g' fs₂, fs = fs₁ ++ g' :: fs₂ → g'.Is name →
        (Field.render (fs₁ ++ [g'])).length ≤ n - (g.line.length + 2) := by
      rintro fs₁ g' fs₂ rfl hn
      have := h (g :: fs₁) g' fs₂ rfl hn
      simp [Field.render, crlf] at this ⊢
      omega
    simp only [Field.keep] at hf
    split_ifs at hf with hk
    · exact hi hr hf
    · rcases List.mem_cons.mp hf with rfl | hf
      · exact fun hn => hk ⟨hn, hg hn⟩
      · exact hi hr hf

section Method

theorem lossy_append_of_ascii {bs : Bytes} (h : ∀ b ∈ bs, IsAscii b) (cs : Bytes) :
    lossy (bs ++ cs) = bs.map ofAscii ++ lossy cs := by
  induction bs
  case nil => rfl
  case cons b bs hi =>
    have ⟨hb, h⟩ := List.forall_mem_cons.mp h
    rw [List.cons_append, lossy_cons_ascii hb, hi h]
    rfl

theorem head_lines_append {s : Str} (hs : ∀ c ∈ s, c ≠ '\n' ∧ c ≠ '\r') (hn : s ≠ []) (t : Str) :
    ∃ u, (Str.lines (s ++ t)).head? = some (s ++ u) := by
  induction s
  case nil => exact absurd rfl hn
  case cons c s hi =>
    have ⟨⟨hc, hr⟩, hs⟩ := List.forall_mem_cons.mp hs
    rw [List.cons_append, Str.lines.eq_4 c _ hc fun _ h => absurd h hr]
    by_cases hn : s = []
    case pos =>
      subst hn
      cases Str.lines ([] ++ t)
      case nil       => exact ⟨[], rfl⟩
      case cons l ls => exact ⟨l, rfl⟩
    case neg =>
      obtain ⟨u, hu⟩ := hi hs hn
      obtain ⟨ls, hl⟩ := List.head?_eq_some_iff.mp hu
      exact ⟨u, by simp [hl]⟩

theorem lines_singleton {s : Str} (hs : ∀ c ∈ s, c ≠ '\n' ∧ c ≠ '\r') (hn : s ≠ []) :
    Str.lines s = [s] := by
  induction s
  case nil => exact absurd rfl hn
  case cons c s hi =>
    have ⟨⟨hc, hr⟩, hs⟩ := List.forall_mem_cons.mp hs
    rw [Str.lines.eq_4 c _ hc fun _ h => absurd h hr]
    by_cases hn : s = []
    · simp [hn, Str.lines]
    · rw [hi hs hn]

variable {b : UInt8}

theorem isAscii_of_visible (h : isVisible b) : IsAscii b := by
  rw [isVisible_iff] at h
  rw [IsAscii, UInt8.lt_iff_toNat_lt]
  exact Nat.lt_of_le_of_lt h.right (by decide)

theorem ofAscii_visible (h : isVisible b) :
    (ofAscii b ≠ '\n' ∧ ofAscii b ≠ '\r') ∧ Str.isWhitespace (ofAscii b) = false := by
  rw [isVisible_iff] at h
  have hn : (ofAscii b).toNat = b.toNat := toNat_ofAscii b
  refine ⟨⟨fun he => ?_, fun he => ?_⟩, ?_⟩
  · have : b.toNat = 10 := by rw [← hn, he]; rfl
    omega
  · have : b.toNat = 13 := by rw [← hn, he]; rfl
    omega
  · simp [Str.isWhitespace, hn]
    omega

-- A head that is a `CONNECT` or not depending on the first word of its first line.
theorem parseHttp_cases {raw : Bytes} {req : ClientRequest} (h : parseHttp raw = some req) :
    ∃ first method, (Str.lines (lossy raw)).head? = some first ∧
      (Str.splitWhitespace first)[0]? = some method ∧ (Str.splitWhitespace first)[1]? ≠ none ∧
      (Str.eqIgnoreAsciiCase method "CONNECT".toList = true ∨
        req.frontend = .httpForward ∧ req.raw = raw) := by
  simp only [parseHttp, Option.bind_eq_bind, Option.bind_eq_some_iff] at h
  obtain ⟨first, hf, method, hm, uri, hu, h⟩ := h
  refine ⟨first, method, hf, hm, by simp [hu], ?_⟩
  split_ifs at h with hc
  · exact .inl hc
  · obtain ⟨_, -, h⟩ := Option.bind_eq_some_iff.mp h
    cases h
    exact .inr ⟨rfl, rfl⟩

-- However much of a request is buffered, it is not taken for a `CONNECT`.
theorem parseHttp_forward (r : Request) {raw y : Bytes} {req : ClientRequest} (hr : raw <+: r.line ++ y)
    (h : parseHttp raw = some req) : req.frontend = .httpForward ∧ req.raw = raw := by
  have hv {b : UInt8} (hb : b ∈ r.method) : isVisible b := isVisible_of_token (r.token b hb)
  rw [Request.line, List.append_assoc, List.append_assoc, List.cons_append] at hr
  obtain ⟨first, method, hf, hm, hu, h⟩ := parseHttp_cases h
  refine h.resolve_left fun hc => ?_
  have hw : ∀ c ∈ r.method.map ofAscii, (c ≠ '\n' ∧ c ≠ '\r') ∧ Str.isWhitespace c = false := by
    intro c hc
    obtain ⟨b, hb, rfl⟩ := List.mem_map.mp hc
    exact ofAscii_visible (hv hb)
  by_cases hl : raw.length ≤ r.method.length
  case pos =>
    -- There is no second word.
    have hr : raw <+: r.method := List.prefix_of_prefix_length_le hr (List.prefix_append ..) hl
    have hs : lossy raw = raw.map ofAscii := by
      simpa using lossy_append_of_ascii (fun b hb => isAscii_of_visible (hv (hr.subset hb))) []
    have hw c (hc : c ∈ raw.map ofAscii) := hw c ((hr.map ofAscii).subset hc)
    rw [hs] at hf
    rw [lines_singleton (fun c hc => (hw c hc).left) (by rintro h; simp [h, Str.lines] at hf)] at hf
    cases hf
    apply hu
    rw [Str.splitWhitespace, List.splitOnP_eq_singleton fun c hc => (hw c hc).right]
    exact List.getElem?_eq_none (List.length_filter_le ..)
  case neg =>
    obtain ⟨z, hz⟩ : r.method ++ [space] <+: raw := by
      refine List.prefix_of_prefix_length_le ?_ hr (by simp; omega)
      simp [List.prefix_append_right_inj]
    have hs : lossy raw = (r.method.map ofAscii ++ [' ']) ++ lossy z := by
      rw [← hz, List.append_assoc, lossy_append_of_ascii fun b hb => isAscii_of_visible (hv hb),
        List.singleton_append, lossy_cons_ascii (by decide), List.append_assoc]
      rfl
    have hn : ∀ c ∈ r.method.map ofAscii ++ [' '], c ≠ '\n' ∧ c ≠ '\r' := by
      intro c hc
      rcases List.mem_append.mp hc with hc | hc
      · exact (hw c hc).left
      · cases List.mem_singleton.mp hc
        decide
    obtain ⟨u, hl⟩ := head_lines_append hn (by simp) (lossy z)
    rw [hs, hl] at hf
    cases hf
    rw [Str.splitWhitespace, List.append_assoc, List.singleton_append,
      List.splitOnP_append_cons_of_forall_mem (fun c hc => (hw c hc).right) _ (by decide),
      List.filter_cons_of_pos (by simpa using r.named)] at hm
    cases hm
    rw [r.forward] at hc
    cases hc

end Method

end Server
