import ProxyBroker.Resumption.Total
import ProxyBroker.Server.Relay
import ProxyBroker.Server.Theorems.Message
import ProxyBroker.Text.Digits
import Mathlib.Data.Bool.AllAny

open Utf8

namespace Server

-- A status line of HTTP/1.
structure StatusLine where
  minor    : Fin 10
  hundreds : Fin 10
  tens     : Fin 10
  units    : Fin 10
  reason   : Bytes
  text     : ∀ b ∈ reason, b = 0x09 ∨ (0x20 ≤ b ∧ b ≠ 0x7F)

namespace StatusLine

variable (l : StatusLine)

def digits : Str :=
  [l.hundreds, l.tens, l.units].map (Nat.digitChar ·.val)

def code : Nat :=
  100 * l.hundreds + 10 * l.tens + l.units

def version : Str :=
  "HTTP/1.".toList ++ [l.minor.val.digitChar]

-- All that precedes the reason.
def start : Str :=
  l.version ++ ' ' :: (l.digits ++ [' '])

def render : Bytes :=
  encode l.start ++ l.reason ++ crlf

theorem parseU16_digits : Str.parseU16 l.digits = some (UInt16.ofNat l.code) := by
  have hd (d : Fin 10) : d.val.digitChar.isDigit = true ∧ Str.digit? d.val.digitChar = some d.val := by
    revert d
    decide
  have hv : Str.valueOf l.digits = l.code := by
    simp [Str.valueOf, Nat.ofDigitsWith, digits, code, (hd _).right]
    omega
  have hs : ∀ c ∈ l.digits, c.isDigit := by simp [digits, (hd _).left]
  have hl : l.code ≤ 65535 := by
    unfold code
    omega
  rw [Str.parseU16, Str.parseUnsigned_digits hs (by simp [digits]), hv, if_pos hl, Option.map_some]

theorem not_isWhitespace_digits : ∀ c ∈ l.digits, Str.isWhitespace c = false := by
  have hd (d : Fin 10) : Str.isWhitespace d.val.digitChar = false := by
    revert d
    decide
  simp [digits, hd]

theorem not_isWhitespace_version : ∀ c ∈ l.version, Str.isWhitespace c = false := by
  have h (d : Fin 10) : ("HTTP/1.".toList ++ [d.val.digitChar]).all (Str.isWhitespace · = false) := by
    revert d
    decide
  exact List.all_iff_forall_prop.mp (h l.minor)

-- The code is the second word, whatever the reason is.
theorem splitWhitespace_start (s : Str) : (Str.splitWhitespace (l.start ++ s))[1]? = some l.digits := by
  have hv := l.not_isWhitespace_version
  have hv' : l.version ≠ [] := List.append_ne_nil_of_right_ne_nil _ (List.cons_ne_nil _ _)
  have he : l.start ++ s = l.version ++ ' ' :: (l.digits ++ ' ' :: s) := by
    rw [start, List.append_assoc, List.cons_append, List.append_assoc, List.singleton_append]
  rw [he, Str.splitWhitespace_cons hv hv', Str.splitWhitespace_cons l.not_isWhitespace_digits (List.cons_ne_nil _ _)]
  rfl

end StatusLine

theorem fromUtf8_encode_append (s : Str) (bs : Bytes) : fromUtf8 (encode s ++ bs) = (fromUtf8 bs).map (s ++ ·) := by
  have he : encode (s ++ lossy bs) = encode s ++ bs ↔ encode (lossy bs) = bs := by
    rw [encode_append, List.append_cancel_left_eq]
  unfold fromUtf8
  rw [lossy_encode_append]
  by_cases h : encode (lossy bs) = bs
  · rw [if_pos h, if_pos (he.mpr h), Option.map_some]
  · rw [if_neg h, if_neg (mt he.mp h), Option.map_none]

theorem parseHttpStatus_start (l : StatusLine) (bs : Bytes) :
    parseHttpStatus (encode l.start ++ bs) = if (fromUtf8 bs).isSome then UInt16.ofNat l.code else 0 := by
  rw [parseHttpStatus, fromUtf8_encode_append]
  cases fromUtf8 bs
  case none => rfl
  case some s => simp [l.splitWhitespace_start, l.parseU16_digits]

theorem length_encode_version (l : StatusLine) : (encode (l.version ++ [' '])).length = 9 := by
  have h (d : Fin 10) : (encode ("HTTP/1.".toList ++ [d.val.digitChar] ++ [' '])).length = 9 := by
    revert d
    decide
  exact h l.minor

theorem length_encode_digits (l : StatusLine) : (encode l.digits).length = 3 := by
  have h (d : Fin 10) : (String.utf8EncodeChar d.val.digitChar).length = 1 := by
    revert d
    decide
  simp [encode, StatusLine.digits, h]

theorem encode_start (l : StatusLine) :
    encode l.start = encode (l.version ++ [' ']) ++ (encode l.digits ++ encode [' ']) := by
  rw [StatusLine.start, ← encode_append, ← encode_append, List.append_assoc, List.singleton_append]

-- The other parser finds the code by its position.
theorem getStatusCode_render (l : StatusLine) : getStatusCode l.render 9 12 = UInt16.ofNat l.code := by
  have hv := length_encode_version l
  have hd := length_encode_digits l
  have hr : l.render = encode (l.version ++ [' ']) ++ (encode l.digits ++ (encode [' '] ++ l.reason ++ crlf)) := by
    rw [StatusLine.render, encode_start]
    simp only [List.append_assoc]
  have hl : min 12 l.render.length = 12 := by
    rw [hr]
    simp only [List.length_append, hv, hd]
    omega
  have ht : (l.render.take 12).drop 9 = encode l.digits := by
    rw [List.drop_take, hr, List.drop_left' hv, List.take_left' hd]
  unfold getStatusCode
  dsimp only
  rw [hl, if_neg (by decide), ht, fromUtf8_encode]
  dsimp only
  rw [Str.trim_word l.not_isWhitespace_digits, l.parseU16_digits, Option.getD_some]

namespace Origin

-- What a proxy has sent and has not been read of it yet. It arrives in pieces of any size.
def answers (y : Bytes) : Event Effects → Bytes → Prop
  | ⟨.net (.upRead _ n), r⟩, y' => ∃ x, r = .data x ∧ x ≠ [] ∧ x.length ≤ n ∧ y = x ++ y'
  | _, _                        => False

def machine : Machine Effects Bytes where
  answers := answers

-- A line is read up to the line feed, unless it is too long.
theorem readStatusLoop_total {x y : Bytes} (hx : lf ∉ x) {n : Nat} {head : Bytes} (hn : head.length + n = statusLimit) :
    machine.Total (readStatusLoop n head)
      (fun r y' => r = .ok (head ++ (x ++ [lf]).take n) ∧ y' = (x ++ lf :: y).drop (min n (x.length + 1))) (x ++ lf :: y) := by
  induction n generalizing head x
  case zero => simp [readStatusLoop]
  case succ n hi =>
    obtain ⟨b, z, hb⟩ : ∃ b z, x ++ lf :: y = b :: z := by cases x <;> exact ⟨_, _, rfl⟩
    rw [hb]
    have ha : machine.answers (b :: z) ⟨.net (.upRead .exchange 1), .data [b]⟩ z := ⟨[b], rfl, by simp, by simp, rfl⟩
    refine .step ha ?_ ?_
    · rintro r t ⟨z', rfl, hz, hl, he⟩
      obtain ⟨c, rfl⟩ := List.length_eq_one_iff.mp (Nat.le_antisymm hl (List.length_pos_iff.mpr hz))
      obtain ⟨rfl, rfl⟩ := List.cons.inj he
      exact ⟨rfl, rfl⟩
    · change machine.Total (if [lf].isSuffixOf (head ++ [b]) || decide (statusLimit ≤ (head ++ [b]).length) then
        pure (.ok (head ++ [b])) else readStatusLoop n (head ++ [b])) _ _
      have hs : [lf].isSuffixOf (head ++ [b]) = decide (b = lf) := by
        rw [Bool.eq_iff_iff, List.isSuffixOf_iff_suffix, decide_eq_true_iff]
        constructor
        · rintro ⟨t, ht⟩
          exact (List.singleton_inj.mp (List.append_inj_right' ht rfl)).symm
        · rintro rfl
          exact List.suffix_append ..
      rw [hs]
      rcases x with _ | ⟨c, x⟩
      case nil =>
        obtain ⟨rfl, rfl⟩ := List.cons.inj hb
        rw [if_pos (by simp)]
        simp
      case cons =>
        obtain ⟨rfl, rfl⟩ := List.cons.inj hb
        have hc : c ≠ lf := fun h => hx (h ▸ List.mem_cons_self)
        have hx : lf ∉ x := fun h => hx (List.mem_cons_of_mem _ h)
        rcases n with _ | n
        case zero =>
          rw [if_pos (by simp; omega)]
          simp
        case succ =>
          rw [if_neg (by simp [hc]; omega)]
          refine (hi hx (by simp; omega)).mono ?_
          rintro r t ⟨rfl, rfl⟩
          simp [Nat.succ_min_succ]

theorem readStatusLine_total {x y : Bytes} (hx : lf ∉ x) {post : Except ProxyError Bytes → Bytes → Prop} :
    machine.Total readStatusLine post (x ++ lf :: y) ↔
    post (.ok ((x ++ [lf]).take statusLimit)) ((x ++ lf :: y).drop (min statusLimit (x.length + 1))) :=
  (@readStatusLoop_total x y hx statusLimit [] rfl).iff_of_eq

end Origin

theorem StatusLine.render_eq (l : StatusLine) : l.render = (encode l.start ++ l.reason ++ [cr]) ++ [lf] := by
  simp [render, crlf]

theorem StatusLine.lf_not_mem (l : StatusLine) : lf ∉ encode l.start ++ l.reason ++ [cr] := by
  have hs : lf ∉ encode l.start := by
    intro h
    have hm : '\n' ∈ l.start := mem_of_mem_encode (by decide) h
    have hw : Str.isWhitespace '\n' = true := by decide
    rw [start, List.mem_append, List.mem_cons, List.mem_append, List.mem_singleton] at hm
    rcases hm with hm | hm | hm | hm
    · rw [l.not_isWhitespace_version _ hm] at hw
      cases hw
    · cases hm
    · rw [l.not_isWhitespace_digits _ hm] at hw
      cases hw
    · cases hm
  have hr : lf ∉ l.reason := by
    intro h
    have := l.text lf h
    revert this
    decide
  simp [hs, hr]
  decide

-- All that is kept of a line of any length contains the code.
theorem StatusLine.take_render (l : StatusLine) :
    l.render.take 256 = encode l.start ++ (l.reason ++ crlf).take 243 := by
  have hs : (encode l.start).length = 13 := by
    rw [encode_start]
    simp only [List.length_append, length_encode_version, length_encode_digits]
    rfl
  rw [render, List.append_assoc, List.take_append, hs, List.take_of_length_le (by omega)]

theorem StatusLine.readStatusLine_total (l : StatusLine) (y : Bytes) {post : Except ProxyError Bytes → Prop} :
    Origin.machine.Total readStatusLine (fun r _ => post r) (l.render ++ y) ↔ post (.ok (l.render.take 256)) := by
  have ht : (encode l.start ++ l.reason ++ [cr] ++ [lf]).take statusLimit = l.render.take 256 := by
    rw [← l.render_eq]
    rfl
  have hs : l.render ++ y = encode l.start ++ l.reason ++ [cr] ++ lf :: y := by
    rw [l.render_eq, List.append_assoc, List.singleton_append]
  rw [hs, Origin.readStatusLine_total l.lf_not_mem, ht]

-- Both parsers see the code of a status line, if what is kept of the line is valid UTF-8.
theorem status_parsers_agree_iff (l : StatusLine) (y : Bytes) :
    (Origin.machine.Total readStatusLine (fun r _ => ∃ head, r = .ok head ∧
      parseHttpStatus head = getStatusCode l.render 9 12 ∧ (parseHttpStatus head).toNat = l.code) (l.render ++ y) ↔
      (fromUtf8 (l.render.take 256)).isSome ∨ l.code = 0) ∧
    (getStatusCode l.render 9 12).toNat = l.code := by
  have hc : (UInt16.ofNat l.code).toNat = l.code := by
    have : l.code < 65536 := by
      unfold StatusLine.code
      omega
    simpa using this
  refine ⟨?_, by rw [getStatusCode_render, hc]⟩
  rw [l.readStatusLine_total, l.take_render, fromUtf8_encode_append, Option.isSome_map]
  simp only [Except.ok.injEq, exists_eq_left', parseHttpStatus_start, getStatusCode_render]
  cases (fromUtf8 ((l.reason ++ crlf).take 243)).isSome
  case true  => simp [hc]
  case false =>
    simp only [Bool.false_eq_true, if_false, false_or]
    constructor
    · rintro ⟨-, h⟩
      exact h.symm
    · intro h
      simp [h]

-- A reason in Latin-1.
def latinLine : StatusLine where
  minor    := 1
  hundreds := 4
  tens     := 0
  units    := 4
  reason   := encode "Introuvable ".toList ++ [0xE9]
  text     := List.all_iff_forall_prop.mp (by decide)

theorem latinLine_misread : parseHttpStatus latinLine.render = 0 ∧ getStatusCode latinLine.render 9 12 = 404 ∧
    ¬Origin.machine.Total readStatusLine (fun r _ => ∃ head, r = .ok head ∧
      parseHttpStatus head = getStatusCode latinLine.render 9 12 ∧ (parseHttpStatus head).toNat = latinLine.code)
      latinLine.render := by
  have hp : parseHttpStatus latinLine.render = 0 := by decide +kernel
  have hg : getStatusCode latinLine.render 9 12 = 404 := getStatusCode_render latinLine
  have ht : latinLine.render.take 256 = latinLine.render := rfl
  refine ⟨hp, hg, fun h => ?_⟩
  rw [← List.append_nil latinLine.render, latinLine.readStatusLine_total, ht, List.append_nil] at h
  obtain ⟨head, he, h, -⟩ := h
  cases he
  rw [hp, hg] at h
  exact absurd h (by decide)

end Server
