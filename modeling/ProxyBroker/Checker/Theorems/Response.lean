import ProxyBroker.Checker.Response
import ProxyBroker.Checker.Theorems.Anonymity
import ProxyBroker.Deflate.Fixed
import ProxyBroker.Server.Wire

open Utf8

namespace Checker

variable {tr : Trace Effects} {raw head body : Bytes} {u : Unicode} {flate2 : Flate2}

section Reading

variable {n limit : Nat} {buf : Bytes}

theorem readToEnd_ok {up : Bytes} (h : (readToEnd n limit buf).Runs tr (.ret (.ok raw))) (hb : up = buf) :
    tr.foldl Event.receive up = raw := by
  induction n generalizing limit buf up tr
  case zero =>
    obtain ⟨rfl, ⟨⟩⟩ := Prog.Runs.ret_inv h
    exact hb
  case succ n hi =>
    cases limit
    case zero =>
      obtain ⟨rfl, ⟨⟩⟩ := Prog.Runs.ret_inv h
      exact hb
    case succ limit =>
      unfold readToEnd at h
      cases h
      case call tr r h =>
        cases (r : ReadResult)
        case timedOut => cases h
        case error    => cases h
        case data bs  =>
          replace h : (if bs.take (limit + 1) = [] then pure (.ok buf)
            else readToEnd n (limit + 1 - (bs.take (limit + 1)).length) (buf ++ bs.take (limit + 1))).Runs tr
              (.ret (.ok raw)) := h
          have hr : Event.receive up ⟨.net (.upRead .exchange (limit + 1)), .data bs⟩ = buf ++ bs.take (limit + 1) :=
            congrArg (· ++ bs.take (limit + 1)) hb
          rw [List.foldl_cons, hr]
          split_ifs at h with he
          · obtain ⟨rfl, ⟨⟩⟩ := Prog.Runs.ret_inv h
            rw [he]
            exact List.append_nil _
          · exact hi h rfl

-- An accepted response is all that was received, and not too long.
theorem readResponse_ok (h : readResponse.Runs tr (.ret (.ok raw))) :
    tr.received = raw ∧ raw ≠ [] ∧ raw.length ≤ maxJudgeResponse := by
  obtain ⟨r, tr₁, tr₂, rfl, h₁, h₂⟩ := Prog.Runs.of_bind_ret h
  cases r
  case error => cases h₂
  case ok buf =>
    dsimp only at h₂
    split_ifs at h₂ with he hl
    · cases h₂
    · cases h₂
    · cases h₂
      rw [List.append_nil]
      exact ⟨readToEnd_ok h₁ rfl, he, Nat.le_of_not_lt hl⟩

-- Everything arrives at once, followed by the end of the stream.
theorem readToEnd_runs (buf : Bytes) (hn : raw ≠ []) (hl : raw.length ≤ limit) :
    ∃ tr, (readToEnd (n + 2) (limit + 1) buf).Runs tr (.ret (.ok (buf ++ raw))) := by
  obtain ⟨rest, hr⟩ : ∃ rest, limit + 1 - raw.length = rest + 1 := ⟨limit - raw.length, by omega⟩
  have ht : raw.take (limit + 1) = raw := List.take_of_length_le (Nat.le_succ_of_le hl)
  refine ⟨[⟨.net (.upRead .exchange (limit + 1)), .data raw⟩, ⟨.net (.upRead .exchange (rest + 1)), .data []⟩], ?_⟩
  refine .call ?_
  show (if raw.take (limit + 1) = [] then pure (.ok buf)
    else readToEnd (n + 1) (limit + 1 - (raw.take (limit + 1)).length) (buf ++ raw.take (limit + 1))).Runs _ _
  rw [ht, if_neg hn, hr]
  exact .call .refl

theorem readResponse_runs (hn : raw ≠ []) (hl : raw.length ≤ maxJudgeResponse) :
    ∃ tr, readResponse.Runs tr (.ret (.ok raw)) := by
  have hm : maxJudgeResponse + 1 = 1048575 + 2 := by decide
  obtain ⟨tr, h⟩ := readToEnd_runs (n := 1048575) [] hn hl
  refine ⟨tr ++ [], .bind_ret (a := .ok raw) (hm ▸ h) ?_⟩
  dsimp only
  rw [if_neg hn, if_neg (Nat.not_lt.mpr hl)]
  exact .refl

end Reading

section Splitting

open Negotiator

theorem headEndPos_eq_some (h : headEndPos (head ++ [cr, lf, cr]) = none) :
    headEndPos (head ++ (headEnd ++ body)) = some head.length := by
  induction head
  case nil => rfl
  case cons b head hi =>
    rw [List.cons_append, headEndPos] at h ⊢
    split_ifs at h with hp
    rw [Option.map_eq_none_iff] at h
    rw [hi h, if_neg, Option.map_some, List.length_cons]
    -- An empty line that begins within the head would have been found.
    intro he
    refine hp (List.isPrefixOf_iff_prefix.mpr ?_)
    have hq : b :: (head ++ [cr, lf, cr]) <+: b :: (head ++ (headEnd ++ body)) := ⟨lf :: body, by simp [headEnd, crlf]⟩
    exact List.prefix_of_prefix_length_le (List.isPrefixOf_iff_prefix.mp he) hq (by simp [headEnd, crlf])

-- A head without an empty line is found again.
theorem splitHeadBody_append (h : headEndPos (head ++ [cr, lf, cr]) = none) :
    splitHeadBody (head ++ (headEnd ++ body)) = (head, body) := by
  have hd : (head ++ (headEnd ++ body)).drop (head.length + 4) = body := by
    rw [← List.drop_drop, List.drop_left]
    rfl
  rw [splitHeadBody, headEndPos_eq_some h]
  show (_, _) = _
  rw [List.take_left, hd]

theorem length_body_le (raw : Bytes) : (splitHeadBody raw).2.length ≤ raw.length := by
  unfold splitHeadBody
  split
  · exact List.length_drop ▸ Nat.sub_le ..
  · exact Nat.zero_le _

end Splitting

theorem fromUtf8_eq_some {bs : Bytes} {s : Str} (h : fromUtf8 bs = some s) : encode s = bs := by
  unfold fromUtf8 at h
  split_ifs at h with he
  cases h
  exact he

-- A body that is not inflated, or fails to be, is decoded as it is.
theorem decompress_length (hb : body.length ≤ maxJudgeResponse) :
    (encode (decompress u flate2 head body)).length ≤ 3 * maxJudgeResponse ↔
      ∀ s, inflated u flate2 head body = some s → (encode s).length ≤ 3 * maxJudgeResponse := by
  unfold decompress
  cases inflated u flate2 head body
  case none   =>
    have := length_encode_lossy body
    simp only [Option.getD_none, reduceCtorEq, false_imp_iff, implies_true, iff_true]
    omega
  case some s => simp

theorem inflated_eq_some {s : Str} : inflated u flate2 head body = some s ↔
    ∃ c, contentEncoding u head = some c ∧ flate2 c body = some (encode s) := by
  simp only [inflated, Option.bind_eq_bind, Option.bind_eq_some_iff]
  constructor
  case mp =>
    rintro ⟨c, hc, out, ho, hs⟩
    exact ⟨c, hc, fromUtf8_eq_some hs ▸ ho⟩
  case mpr =>
    rintro ⟨c, hc, ho⟩
    exact ⟨c, hc, encode s, ho, fromUtf8_encode s⟩

-- The page is bounded unless its body is inflated to a text that is not.
theorem page_bounded_iff (u : Unicode) (flate2 : Flate2) (h : readResponse.Runs tr (.ret (.ok raw))) :
    tr.received = raw ∧ ((encode (page u flate2 raw)).length ≤ 3 * maxJudgeResponse ↔
      ¬∃ c s, contentEncoding u (splitHeadBody raw).1 = some c ∧ flate2 c (splitHeadBody raw).2 = some (encode s) ∧
        3 * maxJudgeResponse < (encode s).length) := by
  obtain ⟨hr, -, hl⟩ := readResponse_ok h
  refine ⟨hr, ?_⟩
  rw [page, decompress_length ((length_body_le raw).trans hl)]
  simp only [inflated_eq_some]
  push Not
  exact ⟨fun h c s hc ho => h s ⟨c, hc, ho⟩, fun h s ⟨c, hc, ho⟩ => h c s hc ho⟩

namespace ResponseExample

-- The part of `flate2` that inflates a single block with fixed codes.
def fixedCodes : Flate2
  | .gzip, _     => none
  | .deflate, bs => Deflate.inflate bs

def deflateHead : Bytes :=
  encode "HTTP/1.1 200 OK\r\nContent-Encoding: deflate".toList

-- About 20 kB that are inflated to more than 3 MB.
def compressed : Bytes :=
  Deflate.pack (Deflate.run 12198)

def bomb : Bytes :=
  deflateHead ++ (Negotiator.headEnd ++ compressed)

theorem split_deflateHead (body : Bytes) :
    splitHeadBody (deflateHead ++ (Negotiator.headEnd ++ body)) = (deflateHead, body) :=
  splitHeadBody_append (by decide)

theorem contentEncoding_deflateHead : contentEncoding .asciiOnly deflateHead = some .deflate := by
  decide

theorem encode_replicate (n : Nat) : encode (List.replicate n 'a') = List.replicate n 97 := by
  induction n
  case zero      => rfl
  case succ n hi =>
    rw [List.replicate_succ, List.replicate_succ, ← List.singleton_append, encode_append, hi]
    rfl

theorem inflate_compressed : fixedCodes .deflate compressed = some (encode (List.replicate 3147085 'a')) := by
  rw [encode_replicate]
  exact Deflate.inflate_run (n := 12198) (by decide)

theorem length_compressed : compressed.length = 19824 := by
  have := Deflate.length_pack_run (n := 12198) (by decide)
  rw [compressed]
  omega

theorem bomb_accepted : ∃ tr, readResponse.Runs tr (.ret (.ok bomb)) := by
  have hh : deflateHead.length = 42 := by decide
  have hl : bomb.length = 19870 := by
    rw [bomb, List.length_append, List.length_append, length_compressed, hh]
    rfl
  exact readResponse_runs (List.ne_nil_of_length_pos (hl ▸ by decide)) (hl ▸ by decide)

end ResponseExample

open ResponseExample in
theorem page_unbounded : ¬∀ (flate2 : Flate2) (tr : Trace Effects) (raw : Bytes),
    readResponse.Runs tr (.ret (.ok raw)) → (encode (page .asciiOnly flate2 raw)).length ≤ 3 * maxJudgeResponse := by
  intro h
  obtain ⟨tr, hr⟩ := bomb_accepted
  have hl := h fixedCodes tr bomb hr
  have hp : page .asciiOnly fixedCodes bomb = List.replicate 3147085 'a' := by
    rw [page, bomb, split_deflateHead]
    have hi : inflated .asciiOnly fixedCodes deflateHead compressed = some (List.replicate 3147085 'a') :=
      inflated_eq_some.mpr ⟨.deflate, contentEncoding_deflateHead, inflate_compressed⟩
    show decompress .asciiOnly fixedCodes deflateHead compressed = _
    rw [decompress, hi, Option.getD_some]
  rw [hp, encode_replicate, List.length_replicate] at hl
  exact absurd hl (by decide)

open ResponseExample in
-- A page of twelve bytes, which are inflated to more than a thousand.
theorem page_bounded_deflate : ∃ tr raw, readResponse.Runs tr (.ret (.ok raw)) ∧
    fixedCodes .deflate (splitHeadBody raw).2 = some (List.replicate 1549 97) ∧
    (encode (page .asciiOnly fixedCodes raw)).length ≤ 3 * maxJudgeResponse := by
  have hi : fixedCodes .deflate (Deflate.pack (Deflate.run 6)) = some (List.replicate 1549 97) :=
    Deflate.inflate_run (n := 6) (by decide)
  have hs := split_deflateHead (Deflate.pack (Deflate.run 6))
  obtain ⟨tr, h⟩ : ∃ tr, readResponse.Runs tr
      (.ret (.ok (deflateHead ++ (Negotiator.headEnd ++ Deflate.pack (Deflate.run 6))))) :=
    readResponse_runs (by decide) (by decide)
  refine ⟨tr, _, h, by rw [hs, hi], (page_bounded_iff .asciiOnly fixedCodes h).right.mpr ?_⟩
  rintro ⟨c, s, hc, ho, hl⟩
  rw [hs, contentEncoding_deflateHead, Option.some_inj] at hc
  rw [hs, ← hc, hi, Option.some_inj] at ho
  rw [← ho, List.length_replicate] at hl
  exact absurd hl (by decide)

end Checker
