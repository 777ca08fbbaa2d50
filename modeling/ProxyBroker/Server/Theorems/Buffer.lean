import ProxyBroker.Server.Theorems.Message
import ProxyBroker.Server.Theorems.Parse

open Utf8 Negotiator

namespace Server

theorem lf_not_mem_lossy {x : Bytes} (h : lf ∉ x) : '\n' ∉ lossy x := by
  intro hm
  obtain ⟨s, t, hs⟩ := List.append_of_mem hm
  obtain ⟨x, b, y, rfl, hb, -⟩ := lossy_split (by decide) hs
  have hb : b = lf := ofAscii_injective hb
  exact h (by simp [hb])

theorem lines_lossy_line {x : Bytes} (h : lf ∉ x) (y : Bytes) :
    Str.lines (lossy (x ++ cr :: lf :: y)) = lossy x :: Str.lines (lossy y) := by
  have hx : lossy (x ++ crlf) = lossy x ++ ['\r', '\n'] := lossy_append_ascii (by decide) x [lf]
  rw [lines_lossy_crlf, hx, Str.lines_concat_crlf (lf_not_mem_lossy h)]
  rfl

theorem lines_lossy_fields (fs : List Field) :
    Str.lines (lossy (Field.render fs ++ crlf)) = fs.map (lossy ·.line) ++ [[]] := by
  induction fs
  case nil => rfl
  case cons f fs hi =>
    have hr : Field.render (f :: fs) ++ crlf = f.line ++ cr :: lf :: (Field.render fs ++ crlf) := by
      simp [Field.render, crlf]
    rw [hr, lines_lossy_line f.lf_not_mem, hi]
    rfl

theorem Field.lossy_line (f : Field) : lossy f.line = f.name.map ofAscii ++ ':' :: lossy f.value := by
  have hn : ∀ b ∈ f.name, IsAscii b := fun b hb => isAscii_of_visible (isVisible_of_token (f.token b hb))
  rw [Field.line, lossy_append_of_ascii hn, lossy_cons_ascii (by decide)]
  rfl

theorem Field.isPrefixOf_lossy_line (f : Field) :
    "host:".toList.isPrefixOf (Str.asciiLower (lossy f.line)) = decide (f.Is "Host".toList) := by
  have hl : Str.asciiLower (lossy f.line) =
      Str.asciiLower (f.name.map ofAscii) ++ ':' :: Str.asciiLower (lossy f.value) := by
    rw [f.lossy_line, Str.asciiLower_append]
    rfl
  rw [Bool.eq_iff_iff, List.isPrefixOf_iff_prefix, decide_eq_true_iff, hl,
    show "host:".toList = "host".toList ++ [':'] from rfl,
    prefix_concat_iff (by decide) (colon_not_mem_token f.token), Field.Is, eq_comm]
  rfl

theorem Field.drop_lossy_line {f : Field} (h : f.Is "Host".toList) : (lossy f.line).drop 5 = lossy f.value := by
  have hn : (f.name.map ofAscii).length = 4 := by
    have := congrArg List.length h
    simpa [Str.asciiLower] using this
  rw [f.lossy_line, show 5 = (f.name.map ofAscii).length + 1 by rw [hn], List.drop_length_add_append]
  rfl

theorem Request.splitWhitespace_line (r : Request) :
    Str.splitWhitespace (lossy r.line) = [r.method.map ofAscii, lossy r.target, "HTTP/1.1".toList] := by
  have hm : ∀ b ∈ r.method, isVisible b := fun b hb => isVisible_of_token (r.token b hb)
  have hw {x : Bytes} (hx : ∀ b ∈ x, isVisible b) : ∀ c ∈ x.map ofAscii, Str.isWhitespace c = false := by
    intro c hc
    obtain ⟨b, hb, rfl⟩ := List.mem_map.mp hc
    exact (ofAscii_visible (hx b hb)).right
  have ht : lossy r.target = r.target.map ofAscii := by
    simpa using lossy_append_of_ascii (fun b hb => isAscii_of_visible (r.visible b hb)) []
  have hl : lossy r.line =
      r.method.map ofAscii ++ ' ' :: (r.target.map ofAscii ++ ' ' :: "HTTP/1.1".toList) := by
    rw [Request.line, List.append_assoc, lossy_append_of_ascii fun b hb => isAscii_of_visible (hm b hb),
      List.cons_append, lossy_cons_ascii (by decide),
      lossy_append_of_ascii fun b hb => isAscii_of_visible (r.visible b hb), lossy_cons_ascii (by decide)]
    rfl
  rw [Str.splitWhitespace, hl, List.splitOnP_append_cons_of_forall_mem (hw hm) _ (by decide),
    List.splitOnP_append_cons_of_forall_mem (hw r.visible) _ (by decide),
    List.filter_cons_of_pos (by simpa using r.named), List.filter_cons_of_pos (by simpa using r.aimed), ht]
  rfl

-- The server agrees with the client about the host that a request is addressed to.
theorem parseHttp_host {r : Request} {req : ClientRequest} (h : parseHttp r.render = some req) :
    r.host = some req.host := by
  have hr : r.render = r.line ++ cr :: lf :: (Field.render r.fields ++ crlf) := by
    simp [Request.render, crlf]
  have hf : (r.fields.map (fun f : Field => lossy f.line) ++ [[]]).find?
      (fun l => "host:".toList.isPrefixOf (Str.asciiLower l)) =
      (r.fields.find? (·.Is "Host".toList)).map fun f => lossy f.line := by
    rw [List.find?_append, List.find?_map]
    simp only [Function.comp_def, Field.isPrefixOf_lossy_line]
    exact Option.or_none
  have hd : (r.fields.find? (·.Is "Host".toList)).map (fun f => Str.trim ((lossy f.line).drop 5)) =
      (r.fields.find? (·.Is "Host".toList)).map fun f => Str.trim (lossy f.value) := by
    cases hc : r.fields.find? (·.Is "Host".toList)
    case none => rfl
    case some f =>
      have hi : f.Is "Host".toList := by simpa using List.find?_some hc
      simp [Field.drop_lossy_line hi]
  simp only [parseHttp, hr, lines_lossy_line r.lf_not_mem, lines_lossy_fields, List.head?_cons,
    Option.bind_eq_bind, Option.bind_some, r.splitWhitespace_line, List.getElem?_cons_zero,
    List.getElem?_cons_succ, r.forward, List.tail_cons, hf, Option.map_map, Function.comp_def, hd] at h
  obtain ⟨a, ha, h⟩ := Option.bind_eq_some_iff.mp h
  cases h
  simp only [Request.host, ha, Option.map_some]

section Head

-- The bytes of a request that the server buffers before it decides what to do with it.
def Request.head (r : Request) : Bytes :=
  r.render.take (requestLimit + 1)

theorem headEnd_suffix_take {x y : Bytes} (hx : lf ∉ x) {n : Nat}
    (h : headEnd <:+ (x ++ cr :: lf :: y).take n) :
    ∃ m, n = x.length + m ∧ headEnd <:+ (cr :: lf :: y).take m := by
  induction x generalizing n
  case nil => exact ⟨n, by simp, h⟩
  case cons b x hi =>
    have ⟨_, hx⟩ := not_or.mp (mt List.mem_cons.mpr hx)
    rcases n with _ | n
    · simp [headEnd, crlf] at h
    rw [List.cons_append, List.take_succ_cons, List.suffix_cons_iff] at h
    rcases h with h | h
    · rcases x with _ | ⟨c, x⟩ <;> rcases n with _ | n <;> simp_all [headEnd, crlf, cr, lf]
    · obtain ⟨m, rfl, hm⟩ := hi hx h
      exact ⟨m, by simp; omega, hm⟩

-- No line of a request is empty, so that its head does not seem to end any earlier.
theorem headEnd_suffix_fields {fs : List Field} {n : Nat}
    (h : headEnd <:+ (cr :: lf :: (Field.render fs ++ crlf)).take n) :
    (cr :: lf :: (Field.render fs ++ crlf)).length ≤ n := by
  induction fs generalizing n
  case nil =>
    have hl := h.length_le
    simp [headEnd, crlf, Field.render] at hl ⊢
    omega
  case cons f fs hi =>
    have hr : Field.render (f :: fs) ++ crlf = f.line ++ cr :: lf :: (Field.render fs ++ crlf) := by
      simp [Field.render, crlf]
    rw [hr] at h ⊢
    have hl := h.length_le
    obtain ⟨n, rfl⟩ : ∃ k, n = k + 2 := ⟨n - 2, by simp [headEnd, crlf] at hl; omega⟩
    rw [List.take_succ_cons, List.take_succ_cons, List.suffix_cons_iff, List.suffix_cons_iff] at h
    rcases h with h | h | h
    · obtain ⟨b, x, hb⟩ := List.exists_cons_of_ne_nil f.named
      have hv := isVisible_ne (isVisible_of_token (f.token b (hb ▸ List.mem_cons_self)))
      have hc : [cr, lf] = (b :: (x ++ colon :: f.value ++ cr :: lf :: (Field.render fs ++ crlf))).take n := by
        simpa [headEnd, crlf, Field.line, hb] using h
      rcases n with _ | n
      · simp at hc
      · rw [List.take_succ_cons, List.cons.injEq] at hc
        exact absurd hc.left.symm hv.right.left
    · simp [headEnd, crlf, cr, lf] at h
    · obtain ⟨m, rfl, hm⟩ := headEnd_suffix_take f.lf_not_mem h
      have := hi hm
      simp at this ⊢
      omega

theorem Request.headEnd_suffix_render (r : Request) : headEnd <:+ r.render := by
  rcases List.eq_nil_or_concat r.fields with h | ⟨fs, f, h⟩
  · exact ⟨r.line, by simp [Request.render, h, Field.render, headEnd]⟩
  · exact ⟨r.line ++ crlf ++ Field.render fs ++ f.line, by simp [Request.render, h, Field.render, headEnd]⟩

theorem Request.headEnd_suffix_take {r : Request} {n : Nat} (h : headEnd <:+ r.render.take n) :
    r.render.length ≤ n := by
  have hr : r.render = r.line ++ cr :: lf :: (Field.render r.fields ++ crlf) := by
    simp [Request.render, crlf]
  rw [hr] at h ⊢
  obtain ⟨m, rfl, hm⟩ := Server.headEnd_suffix_take r.lf_not_mem h
  have := headEnd_suffix_fields hm
  simp at this ⊢
  omega

-- All that is ever buffered of a client's requests is the head of the first one.
theorem IsBuffered.eq_head {r : Request} {rs : List Request} {raw : Bytes} (h : IsBuffered raw)
    (hr : raw <+: stream (r :: rs)) : raw = r.head := by
  have hs : r.render <+: stream (r :: rs) := by
    rw [stream, List.flatMap_cons]
    exact List.prefix_append ..
  have hl : raw.length ≤ r.render.length := by
    by_contra hl
    refine h.first r.render.length (by omega) (.inl ?_)
    have : raw.take r.render.length = r.render :=
      (List.prefix_iff_eq_take.mp (List.prefix_of_prefix_length_le hs hr (by omega))).symm
    rw [this, List.isSuffixOf_iff_suffix]
    exact r.headEnd_suffix_render
  have ht : raw = r.render.take raw.length := 
    List.prefix_iff_eq_take.mp (List.prefix_of_prefix_length_le hr hs hl)
  have hn := h.length_le
  rcases h.complete with hc | hc
  · rw [List.isSuffixOf_iff_suffix, ht] at hc
    have := Request.headEnd_suffix_take hc
    rw [Request.head, List.take_of_length_le (by omega), ht, List.take_of_length_le this]
  · rw [Request.head, ← show raw.length = requestLimit + 1 by omega]
    exact ht

end Head

end Server
