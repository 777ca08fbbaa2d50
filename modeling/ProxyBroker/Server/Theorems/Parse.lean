import ProxyBroker.Server.Wire
import ProxyBroker.Server.Theorems.Head

open Prog Utf8 Negotiator

namespace Server

-- The head of a request is complete once it ends with an empty line, or once it is too long.
def Complete (buf : Bytes) : Prop :=
  headEnd.isSuffixOf buf ∨ requestLimit < buf.length

instance (buf : Bytes) : Decidable (Complete buf) :=
  inferInstanceAs (Decidable (_ ∨ _))

-- The bytes that `parse_client_request` buffers for an HTTP request.
structure IsBuffered (buf : Bytes) : Prop where
  http     : buf.head? ≠ some 0x05
  complete : Complete buf
  first    : ∀ n < buf.length, ¬Complete (buf.take n)

theorem not_complete_of_length_le {buf : Bytes} (h : buf.length ≤ 3) : ¬Complete buf := by
  rintro (hs | hl)
  · have hs := (List.isSuffixOf_iff_suffix.mp hs).length_le
    simp [headEnd, crlf] at hs
    omega
  · simp only [requestLimit] at hl
    omega

theorem IsBuffered.length_le {buf : Bytes} (h : IsBuffered buf) : buf.length ≤ requestLimit + 1 := by
  by_contra hl
  refine h.first (requestLimit + 1) (by omega) (.inr ?_)
  rw [List.length_take]
  omega

-- The server stops reading as soon as it can.
theorem IsBuffered.eq_of_prefix {buf buf' : Bytes} (h : IsBuffered buf) (h' : IsBuffered buf') (hp : buf <+: buf') :
    buf = buf' := by
  by_contra hn
  have hl : buf.length < buf'.length := lt_of_le_of_ne hp.length_le fun hl => hn (hp.eq_of_length hl)
  exact h'.first _ hl (List.prefix_iff_eq_take.mp hp ▸ h.complete)

-- All that a client sends arrives at once.
def takes (bs : Bytes) : Trace Effects :=
  if bs = [] then [] else [⟨.net (.clientRead bs.length), .data bs⟩]

theorem fromClient_takes (bs : Bytes) : Trace.fromClient (takes bs) = bs := by
  cases bs <;> simp [takes, Trace.fromClient, Event.fromClient, ReadResult.delivered]

theorem readExact_runs (bs : Bytes) : (readExact bs.length).Runs (takes bs) (.ret (some bs)) := by
  cases bs
  case nil => exact .refl
  case cons b bs =>
    refine .call ?_
    change (readExactLoop bs.length (bs.length + 1 - ((b :: bs).take (bs.length + 1)).length) _).Runs _ _
    have hl : (b :: bs).take (bs.length + 1) = b :: bs := List.take_of_length_le (by simp)
    rw [hl, List.length_cons, Nat.sub_self]
    cases bs.length <;> exact .refl

-- The client sends the given bytes one at a time.
def reads (bs : Bytes) : Trace Effects :=
  bs.map fun b => ⟨.net (.clientRead 1), .data [b]⟩

theorem readRequestLoop_runs {n : Nat} {buf bs : Bytes} (hn : bs.length ≤ n) (hb : bs ≠ [])
    (hc : Complete (buf ++ bs)) (hf : ∀ i < bs.length, ¬Complete (buf ++ bs.take i)) :
    (readRequestLoop n buf).Runs (reads bs) (.ret (some (buf ++ bs))) := by
  induction n generalizing buf bs
  case zero => simp_all
  case succ n hi =>
    obtain ⟨b, bs, rfl⟩ := List.exists_cons_of_ne_nil hb
    refine .call ?_
    change Prog.Runs (if headEnd.isSuffixOf (buf ++ [b]) || decide (requestLimit < (buf ++ [b]).length) then
      pure (some (buf ++ [b])) else readRequestLoop n (buf ++ [b])) _ _
    by_cases hbs : bs = []
    case pos =>
      subst hbs
      rw [if_pos (by simpa [Complete] using hc)]
      exact .refl
    case neg =>
      have hs : ¬Complete (buf ++ [b]) := by
        have := hf 1 (by simpa using List.length_pos_iff.mpr hbs)
        simpa using this
      rw [if_neg (by simpa [Complete] using hs)]
      have hc' : Complete (buf ++ [b] ++ bs) := by simpa using hc
      have := hi (by simpa using hn) hbs hc' fun i h => by simpa using hf (i + 1) (by simpa using h)
      simpa [reads] using this

theorem parseClientRequest_runs (expected : Option AuthExpect) {buf : Bytes} (h : IsBuffered buf) :
    (parseClientRequest expected).Runs (reads buf) (.ret (parseHttp buf)) := by
  have hl : 3 < buf.length := by
    by_contra hl
    exact not_complete_of_length_le (by omega) h.complete
  obtain ⟨b, bs, rfl⟩ := List.exists_cons_of_length_pos (show 0 < buf.length by omega)
  have hb : b ≠ 0x05 := by simpa using h.http
  have hn := h.length_le
  simp only [List.length_cons] at hl hn
  refine .call (?_ : Prog.Runs _ (reads bs) _)
  change Prog.Runs (if b = 0x05 then parseSocks5Request expected else _) _ _
  rw [if_neg hb]
  have hr : (readRequestLoop requestLimit [b]).Runs (reads bs) (.ret (some ([b] ++ bs))) := by
    refine readRequestLoop_runs (by omega) (by rintro rfl; simp at hl) h.complete fun i hi => ?_
    simpa using h.first (i + 1) (by simpa using hi)
  rw [← List.append_nil (reads bs)]
  exact hr.bind_ret .refl

end Server
