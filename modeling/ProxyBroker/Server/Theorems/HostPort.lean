import ProxyBroker.Server.Head
import ProxyBroker.Text.Digits

namespace Str

theorem stripPrefix_append (pre s : Str) : stripPrefix pre (pre ++ s) = some s := by
  rw [stripPrefix, if_pos (List.isPrefixOf_iff_prefix.mpr (List.prefix_append ..)), List.drop_left]

theorem stripPrefix_eq_none_iff {pre s : Str} : stripPrefix pre s = none ↔ ¬pre <+: s := by
  rw [stripPrefix, ite_eq_right_iff, List.isPrefixOf_iff_prefix]
  simp

theorem stripPrefix_eq_some {pre s t : Str} (h : stripPrefix pre s = some t) : s = pre ++ t := by
  rw [stripPrefix] at h
  split_ifs at h with hp
  obtain ⟨u, rfl⟩ := List.isPrefixOf_iff_prefix.mp hp
  cases h
  simp

theorem stripSuffix_eq_some {suf s t : Str} (h : stripSuffix suf s = some t) : s = t ++ suf := by
  rw [stripSuffix] at h
  split_ifs at h with hp
  obtain ⟨u, rfl⟩ := List.isSuffixOf_iff_suffix.mp hp
  cases h
  simp

end Str

namespace Server

-- The bracket and the colon are found at the end of what does not contain them.
theorem splitOnce_bracket {b : Str} (h : ¬[']', ':'] <:+: b) (t : Str) :
    Str.splitOnce [']', ':'] (b ++ ']' :: ':' :: t) = some (b, t) := by
  induction b
  case nil => simp [Str.splitOnce, Str.stripPrefix]
  case cons c b hi =>
    have hp : Str.stripPrefix [']', ':'] (c :: (b ++ ']' :: ':' :: t)) = none := by
      rw [Str.stripPrefix_eq_none_iff]
      rintro ⟨u, hu⟩
      rcases b with _ | ⟨d, b⟩
      · simp at hu
      · obtain ⟨rfl, rfl, -⟩ : ']' = c ∧ ':' = d ∧ u = b ++ ']' :: ':' :: t := by simpa using hu
        exact h ⟨[], b, rfl⟩
    have hb : ¬[']', ':'] <:+: b := fun hb => h (hb.trans (List.suffix_cons c b).isInfix)
    rw [List.cons_append, Str.splitOnce, hp, hi hb]
    rfl

-- What is cut off in front of them does not contain them.
theorem splitOnce_bracket_eq_some {s l r : Str} (h : Str.splitOnce [']', ':'] s = some (l, r)) :
    s = l ++ ']' :: ':' :: r ∧ ¬[']', ':'] <:+: l := by
  induction s generalizing l
  case nil => simp [Str.splitOnce] at h
  case cons c s hi =>
    rw [Str.splitOnce] at h
    split at h
    case h_1 t ht =>
      cases h
      rw [Str.stripPrefix_eq_some ht]
      exact ⟨rfl, by simp⟩
    case h_2 hp =>
      obtain ⟨⟨l, r⟩, hs, h⟩ := Option.map_eq_some_iff.mp h
      cases h
      obtain ⟨rfl, hl⟩ := hi hs
      refine ⟨rfl, fun hc => ?_⟩
      rcases List.infix_cons_iff.mp hc with hc | hc
      · exact Str.stripPrefix_eq_none_iff.mp hp (hc.trans (List.prefix_append (c :: l) _))
      · exact hl hc

theorem splitOnce_bracket_eq_none {s : Str} (h : Str.splitOnce [']', ':'] s = none) : ¬[']', ':'] <:+: s := by
  induction s
  case nil => simp
  case cons c s hi =>
    rw [Str.splitOnce] at h
    split at h
    case h_1 => cases h
    case h_2 hp =>
      intro hc
      rcases List.infix_cons_iff.mp hc with hc | hc
      · exact Str.stripPrefix_eq_none_iff.mp hp hc
      · exact hi (Option.map_eq_none_iff.mp h) hc

theorem splitHostPort_bracketed {s l r : Str} (h : Str.splitOnce [']', ':'] s = some (l, r)) (default : UInt16) :
    splitHostPort ('[' :: s) default = (l, (Str.parseU16 r).getD default) := by
  have hp : Str.stripPrefix ['['] ('[' :: s) = some s := by simp [Str.stripPrefix]
  rw [splitHostPort, hp, Option.bind_some, show "]:".toList = [']', ':'] from rfl, h]
  rfl

theorem splitHostPort_plain {l r : Str} (hl : l ≠ []) (hr : ':' ∉ r) (hb : ']' ∉ r) (hn : r ≠ [])
    (h : ∀ s, l = '[' :: s → Str.splitOnce [']', ':'] (s ++ ':' :: r) = none) (default : UInt16) :
    splitHostPort (l ++ ':' :: r) default = (l, (Str.parseU16 r).getD default) := by
  unfold splitHostPort
  rw [Str.rsplitOnce_append hr]
  cases hp : Str.stripPrefix ['['] (l ++ ':' :: r)
  case none => exact if_neg hl
  case some rest =>
    have hs := Str.stripPrefix_eq_some hp
    rcases l with _ | ⟨c, s⟩
    · exact absurd rfl hl
    · obtain ⟨rfl, rfl⟩ : c = '[' ∧ s ++ ':' :: r = rest := by simpa using hs
      have hx : Str.stripSuffix [']'] (s ++ ':' :: r) = none := by
        rw [Str.stripSuffix, ite_eq_right_iff]
        intro hx
        obtain ⟨u, hu⟩ := List.isSuffixOf_iff_suffix.mp hx
        obtain ⟨r, x, rfl⟩ := (List.eq_nil_or_concat r).resolve_left hn
        have : u ++ [']'] = (s ++ ':' :: r) ++ [x] := by simpa using hu
        exact absurd (List.append_inj_right' this rfl) (by simp_all)
      simp only [Option.bind_some, show "]:".toList = [']', ':'] from rfl, h s rfl, hx]
      exact if_neg (t := ('[' :: s ++ ':' :: r, default)) hl

section Unbracketed

variable {s l r : Str} (h : s.head? ≠ some '[') (default : UInt16)
include h

theorem splitHostPort_whole (hc : ':' ∉ s) : splitHostPort s default = (s, default) := by
  have hp : Str.stripPrefix ['['] s = none := by
    rw [Str.stripPrefix_eq_none_iff]
    rintro ⟨t, rfl⟩
    exact h rfl
  rw [splitHostPort, hp, Str.rsplitOnce_eq_none hc]
  rfl

theorem splitHostPort_colon (hs : s = l ++ ':' :: r) (hl : l ≠ []) (hr : ':' ∉ r) :
    splitHostPort s default = (l, (Str.parseU16 r).getD default) := by
  have hp : Str.stripPrefix ['['] s = none := by
    rw [Str.stripPrefix_eq_none_iff]
    rintro ⟨t, rfl⟩
    exact h rfl
  rw [splitHostPort, hp, hs, Str.rsplitOnce_append hr]
  exact if_neg hl

end Unbracketed

section Bracketed

variable {s l : Str} (ho : Str.splitOnce [']', ':'] s = none)
include ho

-- Brackets are removed from a host without a port.
theorem splitHostPort_closed (hx : Str.stripSuffix [']'] s = some l) (default : UInt16) :
    splitHostPort ('[' :: s) default = (l, default) := by
  have hp : Str.stripPrefix ['['] ('[' :: s) = some s := Str.stripPrefix_append ['['] s
  rw [splitHostPort, hp, Option.bind_some, show "]:".toList = [']', ':'] from rfl, ho, hx]
  rfl

-- An opening bracket is kept if there is no closing one that ends the host.
theorem head?_splitHostPort (hx : Str.stripSuffix [']'] s = none) (default : UInt16) :
    (splitHostPort ('[' :: s) default).1.head? = some '[' := by
  have hp : Str.stripPrefix ['['] ('[' :: s) = some s := Str.stripPrefix_append ['['] s
  rw [splitHostPort, hp, Option.bind_some, show "]:".toList = [']', ':'] from rfl, ho, hx]
  by_cases hc : ':' ∈ '[' :: s
  case neg =>
    rw [Str.rsplitOnce_eq_none hc]
    rfl
  case pos =>
    obtain ⟨l, r, hs, hr⟩ := Str.exists_append_cons_of_mem hc
    rw [hs, Str.rsplitOnce_append hr]
    cases l
    case nil => cases hs
    case cons c l =>
      cases hs
      rfl

end Bracketed

theorem splitHostPort_literal {s : Str} (h : ']' ∉ s) (default : UInt16) :
    splitHostPort ('[' :: s ++ [']']) default = (s, default) := by
  have ho : Str.splitOnce [']', ':'] (s ++ [']']) = none := by
    cases ho : Str.splitOnce [']', ':'] (s ++ [']'])
    case none   => rfl
    case some x =>
      obtain ⟨he, -⟩ := splitOnce_bracket_eq_some ho
      cases ((List.append_cons_inj_of_notMem h List.not_mem_nil).mp he).right.right
  refine splitHostPort_closed ho ?_ default
  rw [Str.stripSuffix, if_pos (List.isSuffixOf_iff_suffix.mpr (List.suffix_append ..))]
  simp

theorem splitHostPort_empty {r : Str} (hr : ':' ∉ r) (default : UInt16) :
    splitHostPort (':' :: r) default = (':' :: r, default) := by
  have hp : Str.stripPrefix ['['] (':' :: r) = none := by simp [Str.stripPrefix]
  rw [splitHostPort, hp, ← List.nil_append (':' :: r), Str.rsplitOnce_append hr]
  rfl

end Server
