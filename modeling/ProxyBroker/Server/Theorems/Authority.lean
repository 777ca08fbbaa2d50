import ProxyBroker.Server.Uri
import ProxyBroker.Server.Theorems.HostPort
import Mathlib.Data.Bool.AllAny

open Uri

namespace Server

-- What the text behind a colon is taken for.
def portOr (default : UInt16) (r : Str) : UInt16 :=
  (Str.parseU16 r).getD default

end Server

open Server

namespace Uri

variable {c : Char}

theorem not_isNameChar_iff_delimiter (h : c ∈ [':', '@', '/', '[', ']', '?', '#']) : isNameChar c = false := by
  have hs : ∀ c ∈ [':', '@', '/', '[', ']', '?', '#'], isNameChar c = false := List.all_iff_forall_prop.mp (by decide)
  exact hs c h

theorem isGraphic_of_isAlphanum (h : c.isAlphanum) : IsGraphic c := by
  rw [Str.isAlphanum_iff] at h
  unfold IsGraphic
  omega

theorem isGraphic_of_mem {cs : List Char} (h : c ∈ cs) (hs : cs.all (IsGraphic ·)) : IsGraphic c :=
  List.all_iff_forall_prop.mp hs c h

theorem isGraphic_of_isQueryChar (h : isQueryChar c) : IsGraphic c := by
  simp only [isQueryChar, isPathChar, isNameChar, isUnreserved, isSubDelim, Bool.or_eq_true, decide_eq_true_eq] at h
  rcases h with ((((h | h) | h) | rfl) | h) | rfl
  · exact isGraphic_of_isAlphanum h
  · exact isGraphic_of_mem h (by decide)
  · exact isGraphic_of_mem h (by decide)
  · decide
  · exact isGraphic_of_mem h (by decide)
  · decide

theorem isGraphic_of_isPathChar (h : isPathChar c) : IsGraphic c :=
  isGraphic_of_isQueryChar (by simp [isQueryChar, h])

theorem isGraphic_of_isNameChar (h : isNameChar c) : IsGraphic c :=
  isGraphic_of_isPathChar (by simp [isPathChar, h])

theorem isGraphic_of_isV6Char (h : IpParse.IsV6Char c) : IsGraphic c := by
  rcases h with h | rfl | rfl
  case inl =>
    rw [IpParse.digit_eq] at h
    unfold IsGraphic
    split_ifs at h <;> simp at h <;> omega
  all_goals decide

theorem isV6Char_not_delimiter (h : c ∈ ['@', '/', '[', ']', '?', '#']) : ¬IpParse.IsV6Char c := by
  have hs : ∀ c ∈ ['@', '/', '[', ']', '?', '#'], ¬((IpParse.digit 16 c).isSome ∨ c = ':' ∨ c = '.') :=
    List.all_iff_forall_prop.mp (by decide)
  exact hs c h

end Uri

namespace HttpUri

variable {u : HttpUri} {s t r : Str} {c : Char}

-- The host and the port of a URI can be read from such texts.
inductive Reads (u : HttpUri) : Str → Prop
  | alone : u.portNumber = 80 → u.Reads u.host.text
  | bracketed {s r : Str} :
    u.host = .literal s → u.portNumber = (portOr 80 r).toNat → u.Reads ('[' :: (s ++ ']' :: ':' :: r))
  | plain {r : Str} :
    u.host.bare ≠ [] → ':' ∉ r → u.portNumber = (portOr 80 r).toNat → u.Reads (u.host.bare ++ ':' :: r)

theorem not_mem_bare (h : c ∈ ['@', '/', '[', ']', '?', '#']) : c ∉ u.host.bare := by
  intro hc
  have hv := u.host_ok
  cases hh : u.host <;> rw [hh] at hc hv
  case name s =>
    have hn : c ∈ [':', '@', '/', '[', ']', '?', '#'] := List.mem_cons_of_mem _ h
    have := hv c hc
    rw [not_isNameChar_iff_delimiter hn] at this
    cases this
  case literal s => exact isV6Char_not_delimiter h (hv.right c hc)

theorem head?_bare : u.host.bare.head? ≠ some '[' := by
  intro h
  obtain ⟨s, hs⟩ := List.head?_eq_some_iff.mp h
  exact not_mem_bare (u := u) (c := '[') (by simp) (hs ▸ List.mem_cons_self)

-- A colon is in the host exactly if it is an IPv6 address.
theorem colon_mem_bare_iff : ':' ∈ u.host.bare ↔ u.host.isLiteral := by
  have hv := u.host_ok
  cases hh : u.host <;> rw [hh] at hv
  case name s =>
    simp only [Host.bare, Host.isLiteral, Bool.false_eq_true, iff_false]
    intro hc
    cases hv _ hc
  case literal s =>
    simp only [Host.bare, Host.isLiteral, iff_true]
    exact List.count_pos_iff.mp (Nat.lt_of_lt_of_le (by decide) hv.left)

theorem text_of_not_isLiteral (h : u.host.isLiteral = false) : u.host.text = u.host.bare := by
  cases hh : u.host <;> rw [hh] at h
  case name    => rfl
  case literal => cases h

theorem two_le_count (h : u.host.isLiteral) : 2 ≤ u.host.bare.count ':' := by
  have hv := u.host_ok
  cases hh : u.host <;> rw [hh] at h hv
  case name    => cases h
  case literal => exact hv.left

theorem splitHostPort_of_reads (h : u.Reads t) :
    (splitHostPort t 80).1 = u.host.bare ∧ (splitHostPort t 80).2.toNat = u.portNumber := by
  have hb : u.host.bare.head? ≠ some '[' := head?_bare
  rcases h with h | ⟨hs, h⟩ | ⟨hn, hr, h⟩
  case alone =>
    cases hl : u.host.isLiteral
    case false =>
      have hc : ':' ∉ u.host.bare := fun hc => by simp [colon_mem_bare_iff.mp hc] at hl
      rw [text_of_not_isLiteral hl, splitHostPort_whole hb _ hc, h]
      exact ⟨rfl, rfl⟩
    case true =>
      have hx : ']' ∉ u.host.bare := not_mem_bare (by simp)
      cases hh : u.host <;> rw [hh] at hl hx
      case name    => cases hl
      case literal s =>
        have hx : ']' ∉ s := hx
        rw [Host.text, splitHostPort_literal hx, h]
        exact ⟨rfl, rfl⟩
  case bracketed s r =>
    have hx : ']' ∉ u.host.bare := not_mem_bare (by simp)
    rw [hs, Host.bare] at hx
    have hi : ¬[']', ':'] <:+: s := fun hi => hx (hi.subset List.mem_cons_self)
    rw [splitHostPort_bracketed (splitOnce_bracket hi r), hs, h]
    exact ⟨rfl, rfl⟩
  case plain r =>
    rw [splitHostPort_colon (by rwa [List.head?_append_of_ne_nil _ hn]) _ rfl hn hr, h]
    exact ⟨rfl, rfl⟩

theorem reads_of_splitHostPort (hb : t.head? = some '[' → u.host.isLiteral)
    (hh : (splitHostPort t 80).1 = u.host.bare) (hp : (splitHostPort t 80).2.toNat = u.portNumber) : u.Reads t := by
  by_cases ht : t.head? = some '['
  case pos =>
    have hl := hb ht
    obtain ⟨t, rfl⟩ := List.head?_eq_some_iff.mp ht
    obtain ⟨s, hs⟩ : ∃ s, u.host = .literal s := by
      cases hh : u.host <;> rw [hh] at hl
      case name    => cases hl
      case literal => exact ⟨_, rfl⟩
    have hs' : u.host.bare = s := hs ▸ rfl
    rw [hs'] at hh
    cases ho : Str.splitOnce [']', ':'] t
    case some x =>
      rw [splitHostPort_bracketed ho] at hh hp
      obtain ⟨rfl, -⟩ := splitOnce_bracket_eq_some ho
      rw [show x.1 = s from hh]
      exact .bracketed hs hp.symm
    case none =>
      cases hx : Str.stripSuffix [']'] t
      case none => exact absurd (hs'.trans hh.symm ▸ head?_splitHostPort ho hx 80) head?_bare
      case some l =>
        rw [splitHostPort_closed ho hx] at hh hp
        obtain rfl : l = s := hh
        obtain rfl := Str.stripSuffix_eq_some hx
        rw [show '[' :: (l ++ [']']) = u.host.text from hs ▸ rfl]
        exact .alone hp.symm
  case neg =>
    by_cases hc : ':' ∈ t
    case neg =>
      rw [splitHostPort_whole ht _ hc] at hh hp
      obtain rfl : t = u.host.bare := hh
      rw [← text_of_not_isLiteral (Bool.eq_false_iff.mpr fun hl => hc (colon_mem_bare_iff.mpr hl))]
      exact .alone hp.symm
    case pos =>
      obtain ⟨l, r, rfl, hr⟩ := Str.exists_append_cons_of_mem hc
      by_cases hl : l = []
      case neg =>
        rw [splitHostPort_colon ht _ rfl hl hr] at hh hp
        obtain rfl : l = u.host.bare := hh
        exact .plain hl hr hp.symm
      case pos =>
        subst hl
        rw [List.nil_append, splitHostPort_empty hr] at hh
        have hh : ':' :: r = u.host.bare := hh
        have hn := two_le_count (colon_mem_bare_iff.mp (hh ▸ List.mem_cons_self))
        rw [← hh, List.count_cons_self, List.count_eq_zero.mpr hr] at hn
        omega

section Parts

variable {w x : Str}

theorem bare_ne_nil (h : u.host.isLiteral) : u.host.bare ≠ [] := by
  intro hn
  have := two_le_count h
  simp [hn] at this

-- What follows the host is nothing, or it is separated by a colon.
theorem reads_text_append_iff : u.Reads (u.host.text ++ x) ↔ x = [] ∧ u.portNumber = 80 ∨
    ∃ r, x = ':' :: r ∧ (u.host.isLiteral ∨ u.host.bare ≠ [] ∧ ':' ∉ r) ∧ u.portNumber = (portOr 80 r).toNat := by
  constructor
  case mp =>
    generalize ht : u.host.text ++ x = t
    rintro (h | ⟨hs, h⟩ | ⟨hn, hr, h⟩)
    case alone => exact .inl ⟨List.append_right_eq_self.mp ht, h⟩
    case bracketed s r =>
      rw [hs, Host.text] at ht
      refine .inr ⟨r, ?_, .inl (hs ▸ rfl), h⟩
      simpa using ht
    case plain r =>
      cases hl : u.host.isLiteral
      case false =>
        rw [text_of_not_isLiteral hl] at ht
        exact .inr ⟨r, List.append_cancel_left ht, .inr ⟨hn, hr⟩, h⟩
      case true =>
        have hh : (u.host.bare ++ ':' :: r).head? = some '[' := by
          rw [← ht]
          cases hh : u.host <;> rw [hh] at hl
          case name    => cases hl
          case literal => rfl
        rw [List.head?_append_of_ne_nil _ hn] at hh
        exact absurd hh head?_bare
  case mpr =>
    rintro (⟨rfl, h⟩ | ⟨r, rfl, hl, h⟩)
    case inl =>
      rw [List.append_nil]
      exact .alone h
    case inr =>
      cases hh : u.host
      case name s =>
        have hb : u.host.bare = s := hh ▸ rfl
        obtain ⟨hn, hr⟩ := hl.resolve_left (by simp [hh, Host.isLiteral])
        rw [Host.text, ← hb]
        exact .plain hn hr h
      case literal s =>
        rw [Host.text]
        simpa using Reads.bracketed hh h

theorem portOr_of_mem {d : UInt16} (hc : c ∈ r) (h : c.isDigit = false) (hp : c ≠ '+') : portOr d r = d := by
  rw [portOr, Str.parseU16, Str.parseUnsigned_eq_none hc h hp]
  rfl

-- The userinfo is cut off only if it looks like a host with a port.
theorem reads_userinfo_iff (hw : ∀ c ∈ w, isNameChar c ∨ c = ':') : u.Reads (w ++ '@' :: x) ↔
    u.portNumber = 80 ∧ u.host.bare ≠ [] ∧ ':' ∉ x ∧ ∃ r, w = u.host.bare ++ ':' :: r ∧ ':' ∉ r := by
  have ha : '@' ∉ w := fun hc => (hw _ hc).elim (by decide) (by decide)
  have hb : '@' ∉ u.host.bare := not_mem_bare (by simp)
  constructor
  case mp =>
    generalize ht : w ++ '@' :: x = t
    rintro (h | ⟨hs, h⟩ | ⟨hn, hr, h⟩)
    case alone =>
      have hm : '@' ∈ u.host.text := ht ▸ by simp
      cases hh : u.host <;> rw [hh] at hm hb
      case name    => exact absurd hm hb
      case literal =>
        simp only [Host.text, List.mem_append, List.mem_cons, List.not_mem_nil, or_false] at hm
        rcases hm with (hm | hm) | hm
        · cases hm
        · exact absurd hm hb
        · cases hm
    case bracketed s r =>
      cases w
      case nil => cases ht
      case cons c w =>
        obtain rfl : c = '[' := (List.cons.inj ht).left
        rcases hw '[' List.mem_cons_self with h | h <;> cases h
    case plain r =>
      rcases List.append_eq_append_iff.mp ht with ⟨z, hz, hr'⟩ | ⟨z, rfl, hr'⟩
      case inl =>
        cases z
        case nil       => cases hr'
        case cons c z  =>
          cases hr'
          exact absurd (hz ▸ by simp) hb
      case inr =>
        cases z
        case nil => cases hr'
        case cons c z =>
          cases hr'
          have hr : ':' ∉ z ∧ ':' ∉ x := by simpa using hr
          refine ⟨?_, hn, hr.right, z, rfl, hr.left⟩
          rw [h, portOr_of_mem (c := '@') (by simp) (by decide) (by decide)]
          rfl
  case mpr =>
    rintro ⟨hp, hn, hx, r, rfl, hr⟩
    rw [List.append_assoc, List.cons_append]
    refine .plain hn (by simp [hr, hx]) ?_
    rw [hp, portOr_of_mem (c := '@') (by simp) (by decide) (by decide)]
    rfl

end Parts

section Front

theorem head?_tail : ∀ c ∈ u.tail.head?, c = '?' ∨ c = '#' := by
  intro c hc
  rcases u.path_ok.left with hp | hp
  case inr =>
    obtain ⟨p, hp⟩ := List.head?_eq_some_iff.mp hp
    simp [tail, hp] at hc
  case inl =>
    have hs : ∀ c ∈ u.suffix.head?, c = '?' ∨ c = '#' := by
      unfold suffix
      cases u.query <;> cases u.fragment <;> simp
    rw [tail, hp, List.nil_append] at hc
    cases hu : u.suffix
    case nil => simp [hu] at hc
    case cons d t =>
      rw [hu] at hs hc
      rw [List.takeWhile_cons] at hc
      split_ifs at hc
      · exact hs c hc
      · cases hc

theorem not_mem_userinfo {w : Str} (h : u.userinfo = some w) (hc : c ∈ ['@', '/', '[', ']', '?', '#']) : c ∉ w := by
  intro hm
  rcases u.userinfo_ok w h c hm with hn | rfl
  · rw [not_isNameChar_iff_delimiter (List.mem_cons_of_mem _ hc)] at hn
    cases hn
  · simp at hc

theorem not_mem_text (h : c ∈ ['@', '/', '?', '#']) : c ∉ u.host.text := by
  have hb : c ∉ u.host.bare := not_mem_bare (by simp at h ⊢; tauto)
  cases hh : u.host <;> rw [hh] at hb
  case name    => exact hb
  case literal s =>
    have hb : c ∉ s := hb
    have hx : c ≠ '[' ∧ c ≠ ']' := by
      constructor <;> rintro rfl <;> simp at h
    simpa [Host.text, hx] using hb

theorem slash_not_mem_authority : '/' ∉ u.authority := by
  have ht : '/' ∉ u.host.text := not_mem_text (by simp)
  have hw : '/' ∉ u.userinfo.elim [] (· ++ ['@']) := by
    cases hw : u.userinfo
    case none   => simp
    case some w => simpa using not_mem_userinfo hw (by simp)
  have hp : '/' ∉ u.port.elim [] (':' :: ·) := by
    cases hp : u.port
    case none   => simp
    case some p => simpa using fun hm => absurd (u.port_ok p hp '/' hm) (by decide)
  simp only [authority, List.mem_append, not_or]
  exact ⟨hw, ht, hp⟩

-- What the server cuts off in front of the first slash.
theorem takeWhile_rest : u.rest.takeWhile (· ≠ '/') = u.authority ++ u.tail := by
  rw [rest, List.takeWhile_append_of_pos, tail]
  exact fun c hc => decide_eq_true fun h => slash_not_mem_authority (h ▸ hc)

-- When the host and the port can be read from all that is in front of the first slash.
def Legible (u : HttpUri) : Prop :=
  u.userinfo.elim
    (u.portNumber ≤ 65535 ∧ (u.port = none ∨ u.host.bare ≠ []) ∧
      (u.tail = [] ∨ u.port ≠ none ∧ u.portNumber = 80 ∧ (u.host.isLiteral ∨ ':' ∉ u.tail)))
    fun w => u.host.isLiteral = false ∧ u.port = none ∧ u.host.bare ≠ [] ∧ ':' ∉ u.tail ∧
      ∃ r, w = u.host.bare ++ ':' :: r ∧ ':' ∉ r

theorem portNumber_of_none (h : u.port = none) : u.portNumber = 80 := by
  rw [portNumber, h]
  rfl

-- Only a port that is too large is not read if nothing follows it.
theorem portNumber_eq_iff {p : Str} (h : u.port = some p) : u.portNumber = (portOr 80 (p ++ u.tail)).toNat ↔
    u.portNumber ≤ 65535 ∧ (u.tail = [] ∨ u.portNumber = 80) := by
  have hd := u.port_ok p h
  cases ht : u.tail
  case cons c t =>
    have hc := head?_tail (u := u) c (by rw [ht]; rfl)
    have ho : portOr 80 (p ++ c :: t) = 80 :=
      portOr_of_mem (c := c) (by simp) (by rcases hc with rfl | rfl <;> decide) (by rcases hc with rfl | rfl <;> decide)
    rw [ho]
    simp
    omega
  case nil =>
    rw [List.append_nil, portOr, Str.parseU16]
    have hn : u.portNumber = if p = [] then 80 else Str.valueOf p := by rw [portNumber, h, Option.elim_some]
    by_cases hp : p = []
    case pos =>
      rw [hn, if_pos hp, hp]
      decide
    case neg =>
      rw [hn, if_neg hp, Str.parseUnsigned_digits hd hp]
      split_ifs with hl
      · simp [UInt16.toNat_ofNat_of_lt' (show Str.valueOf p < 2 ^ 16 by omega), hl]
      · simp
        omega

theorem colon_mem_text_iff : ':' ∈ u.host.text ↔ u.host.isLiteral := by
  rw [← colon_mem_bare_iff]
  cases u.host <;> simp [Host.text, Host.bare]

theorem reads_front_iff : u.Reads (u.authority ++ u.tail) ↔ u.Legible := by
  unfold authority Legible
  cases hw : u.userinfo
  case none =>
    rw [Option.elim_none, Option.elim_none, List.nil_append, List.append_assoc, reads_text_append_iff]
    cases hp : u.port
    case none =>
      have ht (r : Str) : u.tail ≠ ':' :: r := fun h => by simpa [h] using head?_tail (u := u)
      simp [portNumber_of_none hp, ht]
    case some p =>
      have hd : ':' ∉ p := fun hm => absurd (u.port_ok p hp ':' hm) (by decide)
      have he : (∃ r, ':' :: p ++ u.tail = ':' :: r ∧ (u.host.isLiteral ∨ u.host.bare ≠ [] ∧ ':' ∉ r) ∧
          u.portNumber = (portOr 80 r).toNat) ↔ (u.host.isLiteral ∨ u.host.bare ≠ [] ∧ ':' ∉ u.tail) ∧
          u.portNumber ≤ 65535 ∧ (u.tail = [] ∨ u.portNumber = 80) := by
        simp [← portNumber_eq_iff hp, hd]
      rw [Option.elim_some, he]
      have hl := bare_ne_nil (u := u)
      have ht : u.tail = [] → ':' ∉ u.tail := fun h => h ▸ List.not_mem_nil
      simp only [List.cons_append, List.cons_ne_nil, false_and, false_or, ne_eq, reduceCtorEq, not_false_eq_true, true_and]
      constructor
      case mp =>
        rintro ⟨hb, hm, hx⟩
        exact ⟨hm, hb.elim hl And.left, hx.imp id fun hx => ⟨hx, hb.imp id And.right⟩⟩
      case mpr =>
        rintro ⟨hm, hb, hx⟩
        exact ⟨hx.elim (fun hx => .inr ⟨hb, ht hx⟩) fun hx => hx.right.imp id (⟨hb, ·⟩), hm, hx.imp id And.left⟩
  case some w =>
    rw [Option.elim_some, Option.elim_some, List.append_assoc, List.append_assoc, List.append_assoc, List.singleton_append,
      reads_userinfo_iff (u.userinfo_ok w hw)]
    have hc : ':' ∉ u.host.text ++ (u.port.elim [] (':' :: ·) ++ u.tail) ↔
        u.host.isLiteral = false ∧ u.port = none ∧ ':' ∉ u.tail := by
      rw [List.mem_append, List.mem_append, colon_mem_text_iff]
      cases u.port <;> simp
    rw [hc]
    constructor
    case mp =>
      rintro ⟨-, hb, ⟨hl, hp, ht⟩, hw⟩
      exact ⟨hl, hp, hb, ht, hw⟩
    case mpr =>
      rintro ⟨hl, hp, hb, ht, hw⟩
      exact ⟨portNumber_of_none hp, hb, ⟨hl, hp, ht⟩, hw⟩

end Front

section Graphic

theorem isGraphic_scheme : ∀ c ∈ u.scheme, IsGraphic c := by
  intro c hc
  have hm : c.toLower ∈ "http".toList := u.scheme_eq ▸ List.mem_map_of_mem hc
  have hl : ∀ d ∈ "http".toList, 97 ≤ d.toNat ∧ d.toNat ≤ 122 := List.all_iff_forall_prop.mp (by decide)
  have := hl _ hm
  rw [Str.toNat_toLower] at this
  unfold IsGraphic
  split_ifs at this <;> omega

theorem isGraphic_host : ∀ c ∈ u.host.text, IsGraphic c := by
  have hv := u.host_ok
  cases hh : u.host <;> rw [hh] at hv
  case name    => exact fun c hc => isGraphic_of_isNameChar (hv c hc)
  case literal =>
    simp only [Host.text, List.cons_append, List.forall_mem_cons, List.forall_mem_append]
    exact ⟨by decide, fun c hc => isGraphic_of_isV6Char (hv.right c hc), by decide, by simp⟩

theorem isGraphic_text : ∀ c ∈ u.text, IsGraphic c := by
  have hw : ∀ c ∈ u.userinfo.elim [] (· ++ ['@']), IsGraphic c := by
    cases hw : u.userinfo
    case none => simp
    case some w =>
      simp only [Option.elim_some, List.forall_mem_append]
      refine ⟨fun c hc => ?_, fun c hc => isGraphic_of_mem hc (by decide)⟩
      rcases u.userinfo_ok w hw c hc with h | rfl
      · exact isGraphic_of_isNameChar h
      · decide
  have hp : ∀ c ∈ u.port.elim [] (':' :: ·), IsGraphic c := by
    cases hp : u.port
    case none => simp
    case some p =>
      refine List.forall_mem_cons.mpr ⟨by decide, fun c hc => isGraphic_of_isAlphanum ?_⟩
      simp [Char.isAlphanum, u.port_ok p hp c hc]
  have hq : ∀ c ∈ u.query.elim [] ('?' :: ·), IsGraphic c := by
    cases hq : u.query
    case none   => simp
    case some q => exact List.forall_mem_cons.mpr ⟨by decide, fun c hc => isGraphic_of_isQueryChar (u.query_ok q hq c hc)⟩
  have hf : ∀ c ∈ u.fragment.elim [] ('#' :: ·), IsGraphic c := by
    cases hf : u.fragment
    case none   => simp
    case some f => exact List.forall_mem_cons.mpr ⟨by decide, fun c hc => isGraphic_of_isQueryChar (u.fragment_ok f hf c hc)⟩
  have hx : ∀ c ∈ u.path, IsGraphic c := fun c hc => isGraphic_of_isPathChar (u.path_ok.right c hc)
  simp only [text, rest, authority, suffix, List.forall_mem_append]
  exact ⟨⟨isGraphic_scheme, fun c hc => isGraphic_of_mem hc (by decide)⟩, ⟨hw, isGraphic_host, hp⟩, hx, hq, hf⟩

-- Brackets are only around the host.
theorem isLiteral_of_head? (h : (u.authority ++ u.tail).head? = some '[') : u.host.isLiteral := by
  by_contra hl
  have ht : '[' ∉ u.host.text := by
    rw [text_of_not_isLiteral (Bool.eq_false_iff.mpr hl)]
    exact not_mem_bare (by simp)
  have hw : '[' ∉ u.userinfo.elim [] (· ++ ['@']) := by
    cases hw : u.userinfo
    case none   => simp
    case some w => simpa using not_mem_userinfo hw (by simp)
  have hp : '[' ∉ u.port.elim [] (':' :: ·) := by
    cases hp : u.port
    case none   => simp
    case some p => simpa using fun hm => absurd (u.port_ok p hp '[' hm) (by decide)
  have ha : '[' ∉ u.authority := by
    simp only [authority, List.mem_append, not_or]
    exact ⟨hw, ht, hp⟩
  rw [List.head?_append, Option.or_eq_some_iff] at h
  rcases h with h | ⟨-, h⟩
  · exact ha (List.mem_of_mem_head? h)
  · rcases head?_tail _ h with h | h <;> cases h

end Graphic

end HttpUri
