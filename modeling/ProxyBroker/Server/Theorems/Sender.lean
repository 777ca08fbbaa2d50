import ProxyBroker.Resumption.Total
import ProxyBroker.Server.Theorems.Parse

open Utf8 Negotiator

namespace Server.Sender

-- A client that has sent some bytes of which the given ones have not been read yet, and that is told everything.
-- What it has sent arrives in pieces of any size.
def answers (y : Bytes) : Event Effects → Bytes → Prop
  | ⟨.net (.clientRead n), r⟩, y'  => ∃ x, r = .data x ∧ x ≠ [] ∧ x.length ≤ n ∧ y = x ++ y'
  | ⟨.net (.clientWrite _), r⟩, y' => r = .done ∧ y' = y
  | _, _                           => False

def machine : Machine Effects Bytes where
  answers := answers

variable {α : Type} {x y : Bytes}

-- The bytes that are read at once are some of those that are needed.
theorem exists_of_append_eq {x' y' : Bytes} (h : x ++ y = x' ++ y') (hl : x'.length ≤ x.length) :
    ∃ z, x = x' ++ z ∧ y' = z ++ y := by
  rcases List.append_eq_append_iff.mp h with ⟨z, rfl, rfl⟩ | ⟨z, hx, hy⟩
  · obtain rfl : z = [] := by simpa using hl
    exact ⟨[], by simp, rfl⟩
  · exact ⟨z, hx, hy⟩

theorem readExactLoop_total {fuel : Nat} {acc : Bytes} (hf : x.length ≤ fuel) :
    machine.Total (readExactLoop fuel x.length acc) (fun r y' => r = some (acc ++ x) ∧ y' = y) (x ++ y) := by
  induction fuel generalizing x acc
  case zero =>
    obtain rfl := List.length_eq_zero_iff.mp (Nat.le_zero.mp hf)
    simp [readExactLoop]
  case succ fuel hi =>
    rcases x with _ | ⟨b, x⟩
    case nil => simp [readExactLoop]
    case cons =>
      refine ⟨⟨.data [b], x ++ y, [b], rfl, by simp, by simp, rfl⟩, fun r s' ha => ?_⟩
      obtain ⟨z, rfl, hz, hl, he⟩ := ha
      obtain ⟨t, ht, rfl⟩ := exists_of_append_eq he hl
      obtain ⟨c, z, rfl⟩ := List.exists_cons_of_ne_nil hz
      have hc : (c :: z).take (x.length + 1) = c :: z := List.take_of_length_le hl
      have hn : x.length + 1 - (c :: z).length = t.length := by
        have := congrArg List.length ht
        simp only [List.length_append, List.length_cons] at this ⊢
        omega
      change machine.Total (readExactLoop fuel (x.length + 1 - ((c :: z).take (x.length + 1)).length) _) _ _
      rw [hc, hn]
      have := @hi t (acc ++ c :: z) (by simp at hf hn; omega)
      rwa [List.append_assoc, ← ht] at this

theorem readExact_total {n : Nat} {post : Option Bytes → Bytes → Prop} (h : x.length = n) :
    machine.Total (readExact n) post (x ++ y) ↔ post (some x) y :=
  h ▸ (readExactLoop_total le_rfl).iff_of_eq

theorem readExact_one {b : UInt8} {post : Option Bytes → Bytes → Prop} :
    machine.Total (readExact 1) post (b :: y) ↔ post (some [b]) y :=
  readExact_total (x := [b]) rfl

-- If not enough can be read, then this is where most parsers end.
theorem readExact_bind_iff {n : Nat} {f : Bytes → Async (Option α)} {post : Option α → Bytes → Prop} (h : x.length = n) :
    machine.Total (readExact n >>= fun | some bs => f bs | _ => pure none) post (x ++ y) ↔ machine.Total (f x) post y := by
  rw [Machine.total_bind, readExact_total h]

@[simp]
theorem writeAll_total {bs : Bytes} {post : Bool → Bytes → Prop} :
    machine.Total (writeAll bs) post y ↔ post true y := by
  refine Machine.Total.iff_of_eq ⟨⟨.done, y, rfl, rfl⟩, ?_⟩
  rintro _ _ ⟨rfl, rfl⟩
  exact ⟨rfl, rfl⟩

-- The head is read until it is complete.
theorem readRequestLoop_total {n : Nat} {buf : Bytes} (hn : x.length ≤ n) (hx : x ≠ []) (hc : Complete (buf ++ x))
    (hf : ∀ i < x.length, ¬Complete (buf ++ x.take i)) :
    machine.Total (readRequestLoop n buf) (fun r y' => r = some (buf ++ x) ∧ y' = y) (x ++ y) := by
  induction n generalizing buf x
  case zero => simp_all
  case succ n hi =>
    obtain ⟨b, x, rfl⟩ := List.exists_cons_of_ne_nil hx
    have ha : machine.answers (b :: (x ++ y)) ⟨.net (.clientRead 1), .data [b]⟩ (x ++ y) :=
      ⟨[b], rfl, by simp, by simp, rfl⟩
    refine .step ha ?_ ?_
    · rintro r t ⟨z, rfl, hz, hl, he⟩
      obtain ⟨c, rfl⟩ := List.length_eq_one_iff.mp (Nat.le_antisymm hl (List.length_pos_iff.mpr hz))
      obtain ⟨rfl, rfl⟩ := List.cons.inj he
      exact ⟨rfl, rfl⟩
    · change machine.Total (if headEnd.isSuffixOf (buf ++ [b]) || decide (requestLimit < (buf ++ [b]).length) then
        pure (some (buf ++ [b])) else readRequestLoop n (buf ++ [b])) _ _
      by_cases hxs : x = []
      case pos =>
        subst hxs
        rw [if_pos (by simpa [Complete] using hc)]
        exact ⟨rfl, rfl⟩
      case neg =>
        have hs : ¬Complete (buf ++ [b]) := by
          have := hf 1 (by simpa using List.length_pos_iff.mpr hxs)
          simpa using this
        rw [if_neg (by simpa [Complete] using hs)]
        have hc' : Complete (buf ++ [b] ++ x) := by simpa using hc
        have := hi (by simpa using hn) hxs hc' fun i h => by simpa using hf (i + 1) (by simpa using h)
        simpa using this

-- What a client sends first is parsed as a head of HTTP if it is not a greeting.
theorem parseClientRequest_total {expected : Option AuthExpect} {post : Option ClientRequest → Bytes → Prop}
    (h : IsBuffered x) : machine.Total (parseClientRequest expected) post (x ++ y) ↔ post (parseHttp x) y := by
  have hl : 3 < x.length := by
    by_contra hl
    exact not_complete_of_length_le (by omega) h.complete
  obtain ⟨b, x, rfl⟩ := List.exists_cons_of_length_pos (show 0 < x.length by omega)
  have hb : b ≠ 0x05 := by simpa using h.http
  have hn := h.length_le
  simp only [List.length_cons] at hl hn
  have hr : machine.Total (readRequestLoop requestLimit [b]) (fun r y' => r = some ([b] ++ x) ∧ y' = y) (x ++ y) := by
    refine readRequestLoop_total (by omega) (by rintro rfl; simp at hl) h.complete fun i hi => ?_
    simpa using h.first (i + 1) (by simpa using hi)
  refine Machine.Total.iff_of_eq ?_
  unfold parseClientRequest
  rw [Machine.total_bind, List.cons_append, readExact_one]
  dsimp only
  rw [List.getD_cons_zero, if_neg hb, Machine.total_bind, hr.iff_of_eq]
  exact ⟨rfl, rfl⟩

end Server.Sender
