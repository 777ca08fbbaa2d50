import ProxyBroker.Checker.Anonymity
import ProxyBroker.Objects.Theorems.IpChars
import ProxyBroker.Parse.Theorems.Scan

open Regular IpParse Utils

section Chars

variable {u : Unicode} {c : Char}

theorem Utils.isHex_iff : isHex c ↔ (digit 16 c).isSome := by
  simp only [isHex, Bool.or_eq_true, Bool.and_eq_true, decide_eq_true_eq, Char.isDigit_iff_toNat, Char.le_def,
    UInt32.le_iff_toNat_le, Char.reduceToNat, Char.reduceVal, UInt32.reduceToNat, digit_eq]
  have hc : c.val.toNat = c.toNat := rfl
  rw [hc]
  split_ifs <;> simp <;> omega

theorem toNat_lt_of_isAlphanum (h : c.isAlphanum) : c.toNat < 128 := by
  rw [Str.isAlphanum_iff] at h
  omega

theorem Utils.isAlphanum_of_isHex (h : isHex c) : c.isAlphanum := by
  simp only [isHex, Bool.or_eq_true, Bool.and_eq_true, decide_eq_true_eq, Char.isDigit_iff_toNat, Char.le_def,
    UInt32.le_iff_toNat_le, Char.reduceToNat, Char.reduceVal, UInt32.reduceToNat] at h
  rw [Str.isAlphanum_iff]
  have hc : c.val.toNat = c.toNat := rfl
  omega

theorem isV6Char_iff : IsV6Char c ↔ isHex c ∨ c = ':' ∨ c = '.' := by
  rw [IsV6Char, isHex_iff]

-- The digits and dots of an IPv4 address have no case.
theorem asciiLower_eq_self {s : Str} (h : ∀ c ∈ Str.asciiLower s, IsV4Char c) : Str.asciiLower s = s := by
  refine (List.map_congr_left fun c hc => ?_).trans (List.map_id s)
  have hn : 48 ≤ c.toLower.toNat ∧ c.toLower.toNat ≤ 57 ∨ c.toLower.toNat = 46 := by
    rcases h _ (List.mem_map_of_mem hc) with h | h
    · rw [digit_eq] at h
      split_ifs at h <;> simp at h
      omega
    · rw [h]
      decide
  exact ((Str.toLower_eq_iff (by omega) (by omega)).mp rfl).symm

-- What delimits a token.
def Unicode.Delimits (u : Unicode) (c : Char) : Prop :=
  u.isAlphanumeric c = false ∧ c ∉ [':', '.', '%', '_', '-']

instance : Decidable (u.Delimits c) :=
  inferInstanceAs (Decidable (u.isAlphanumeric c = false ∧ c ∉ [':', '.', '%', '_', '-']))

namespace Unicode.Delimits

theorem not_candidate (h : u.Delimits c) : ¬(c.isAlphanum ∨ c ∈ [':', '.', '%', '_', '-']) := by
  rintro (hc | hc)
  case inl =>
    have := u.alphanumeric c (toNat_lt_of_isAlphanum hc)
    rw [h.left, hc] at this
    cases this
  case inr => exact h.right hc

theorem not_decimal (h : u.Delimits c) : ¬(u.isDecimal c = true ∨ c = '.') := by
  rintro (hc | rfl)
  case inl =>
    have := u.decimal c hc
    rw [h.left] at this
    cases this
  case inr => exact h.right (by simp)

end Unicode.Delimits

end Chars

-- The tables for texts of ASCII characters.
def Unicode.asciiOnly : Unicode where
  toDecimal          := .asciiOnly
  isAlphanumeric     := Char.isAlphanum
  toLowercase        := Str.asciiLower
  decimal c hc       := by
    have hd : c.isDigit := hc
    simp [Char.isAlphanum, hd]
  alphanumeric _ _   := rfl
  lowers s           := by
    refine ⟨s.map fun c => [c.toLower], ?_, ?_⟩
    · rw [List.forall₂_map_right_iff, List.forall₂_same]
      intro c _
      unfold Lowers
      split_ifs with hc
      · rfl
      · have hl : c.toLower.toNat = c.toNat := by
          rw [Str.toNat_toLower, if_neg (by omega)]
        refine ⟨by simp, ?_⟩
        simp only [List.mem_singleton, forall_eq, hl]
        exact fun h => absurd h hc
    · rw [← List.flatMap_def]
      exact List.map_eq_flatMap

namespace Lowers

variable {c : Char} {s t p : Str} {ps : List Str}

-- Other characters do not become characters of an address.
theorem not_isV6Char (h : Lowers c p) (hc : ¬c.toNat < 128) : ∀ x ∈ p, ¬IsV6Char x := by
  rw [Lowers, if_neg hc] at h
  intro x hx hv
  rcases h.right x hx hv.toNat_lt with rfl | rfl <;> simp [IsV6Char, digit] at hv

theorem exists_prefix (h : List.Forall₂ Lowers s ps) (ht : t <+: ps.flatten) (hv : ∀ c ∈ t, IsV6Char c) :
    ∃ t', t' <+: s ∧ Str.asciiLower t' = t := by
  induction h generalizing t
  case nil =>
    obtain rfl := List.prefix_nil.mp ht
    exact ⟨[], List.prefix_rfl, rfl⟩
  case cons c p s ps h hs hi =>
    cases t
    case nil => exact ⟨[], List.nil_prefix, rfl⟩
    case cons x t =>
      by_cases hc : c.toNat < 128
      case pos =>
        rw [Lowers, if_pos hc] at h
        rw [h, List.flatten_cons, List.singleton_append, List.cons_prefix_cons] at ht
        obtain ⟨t', ht', rfl⟩ := hi ht.right fun c hc => hv c (List.mem_cons_of_mem _ hc)
        exact ⟨c :: t', List.cons_prefix_cons.mpr ⟨rfl, ht'⟩, by rw [Str.asciiLower_cons, ht.left]⟩
      case neg =>
        have hn := h.not_isV6Char hc
        rw [Lowers, if_neg hc] at h
        obtain ⟨y, p, rfl⟩ := List.exists_cons_of_ne_nil h.left
        rw [List.flatten_cons, List.cons_append, List.cons_prefix_cons] at ht
        exact absurd (hv x List.mem_cons_self) (ht.left ▸ hn y List.mem_cons_self)

theorem infix_of_append {v : Str} (hn : t ≠ []) (hp : ∀ c ∈ p, ¬IsV6Char c) (hv : ∀ c ∈ t, IsV6Char c) (h : t <:+: p ++ v) :
    t <:+: v := by
  induction p
  case nil         => exact h
  case cons c p hi =>
    rcases List.infix_cons_iff.mp h with h | h
    case inr => exact hi (fun c hc => hp c (List.mem_cons_of_mem _ hc)) h
    case inl =>
      obtain ⟨x, t, rfl⟩ := List.exists_cons_of_ne_nil hn
      obtain ⟨rfl, -⟩ := List.cons_prefix_cons.mp h
      exact absurd (hv x List.mem_cons_self) (hp x List.mem_cons_self)

-- A part of the lowercase that looks like an address is the lowercase of a part of the text.
theorem exists_infix (h : List.Forall₂ Lowers s ps) (ht : t <:+: ps.flatten) (hv : ∀ c ∈ t, IsV6Char c) :
    ∃ t', t' <:+: s ∧ Str.asciiLower t' = t := by
  by_cases hn : t = []
  case pos => exact ⟨[], List.nil_infix, hn.symm⟩
  case neg =>
    induction h
    case nil => exact absurd (List.infix_nil.mp ht) hn
    case cons c p s ps h hs hi =>
      have hr (ht : t <:+: ps.flatten) : ∃ t', t' <:+: c :: s ∧ Str.asciiLower t' = t := by
        obtain ⟨t', ht', he⟩ := hi ht
        exact ⟨t', ht'.trans (List.infix_cons List.infix_rfl), he⟩
      by_cases hc : c.toNat < 128
      case neg => exact hr (infix_of_append hn (h.not_isV6Char hc) hv ht)
      case pos =>
        have hp := h
        rw [Lowers, if_pos hc] at hp
        rcases List.infix_cons_iff.mp (show t <:+: c.toLower :: ps.flatten by simpa [hp] using ht) with hpre | ht
        · obtain ⟨t', ht', he⟩ := exists_prefix (.cons h hs) (by simpa [hp] using hpre) hv
          exact ⟨t', ht'.isInfix, he⟩
        · exact hr ht

end Lowers

namespace Utils

variable {d : Decimal} {page s t v : Str} {n : Nat}

theorem ipv6CandidateRe_all : ipv6CandidateRe.All fun c => c.isAlphanum ∨ c ∈ [':', '.', '%', '_', '-'] := by
  have hz (c : Char) (h : isZone c) : c.isAlphanum ∨ c ∈ [':', '.', '%', '_', '-'] := by
    simp only [isZone, Bool.or_eq_true, decide_eq_true_eq] at h
    simp only [List.mem_cons]
    tauto
  refine ⟨fun c hc => ?_, fun c hc => ?_, ⟨fun c hc => ?_, hz, hz⟩, trivial⟩
  · simp only [Bool.or_eq_true, decide_eq_true_eq] at hc
    exact hc.imp isAlphanum_of_isHex (by simp +contextual)
  · simp only [Bool.or_eq_true, decide_eq_true_eq] at hc
    rcases hc with (hc | rfl) | rfl
    · exact .inl (isAlphanum_of_isHex hc)
    all_goals simp
  · simp [of_decide_eq_true hc]

theorem ipv6CandidateRe_pos : 0 ∉ ipv6CandidateRe.lengths s := by
  intro h
  obtain ⟨k, hk, m, -, he⟩ := mem_lengths_seq.mp h
  have := (mem_lengths_char.mp hk).left
  omega

-- The text of an IPv6 address is a candidate.
theorem head?_lengths_ipv6CandidateRe (ht : ∀ c ∈ t, IsV6Char c) (hn : t ≠ []) (hd : t.head? ≠ some '.')
    (hv : ∀ c ∈ v.head?, ¬IsV6Char c ∧ c ≠ '%') : (ipv6CandidateRe.lengths (t ++ v)).head? = some t.length := by
  obtain ⟨c, t, rfl⟩ := List.exists_cons_of_ne_nil hn
  have hc : (isHex c || c = ':') = true := by
    have := isV6Char_iff.mp (ht c List.mem_cons_self)
    simp only [List.head?_cons, ne_eq, Option.some_inj] at hd
    simpa [hd] using this
  have hs : (t ++ v).takeWhile (fun c => isHex c || c = ':' || c = '.') = t := by
    rw [takeWhile_append_of_head?, List.takeWhile_eq_self_iff.mpr]
    · intro c hc
      simpa [or_assoc] using isV6Char_iff.mp (ht c (List.mem_cons_of_mem _ hc))
    · intro c hc
      have := (not_congr isV6Char_iff).mp (hv c hc).left
      simpa [or_assoc] using this
  have ho : ((opt (seq (lit '%') (seq (char isZone) (star true isZone)))).lengths v).head? = some 0 := by
    cases v
    case nil      => rfl
    case cons c v =>
      have hp := (hv c rfl).right
      simp [opt, lengths, lit, hp]
  have hl : (c :: t).length = 1 + (t.length + 0) := by simp [Nat.add_comm]
  rw [hl]
  refine head?_lengths_seq ?_ (head?_lengths_seq (m := 0) ?_ ?_)
  · simp [lengths, hc]
  · rw [head?_lengths_star]
    exact congrArg some (congrArg List.length hs)
  · simpa using ho

theorem mem_getAllIp {x : Str} : x ∈ getAllIp d page ↔
    (∃ m ∈ (Parse.ipv4Re d).findIter page, slice page m.1 m.2 = x) ∨
    ∃ m ∈ ipv6CandidateRe.findIter page, readCandidate (slice page m.1 m.2) = some x := by
  simp [getAllIp]

theorem not_mem_of_isV6Char {c : Char} (hv : ∀ c ∈ t, IsV6Char c) (hc : isHex c = false) (h₁ : c ≠ ':') (h₂ : c ≠ '.') :
    c ∉ t := by
  intro h
  rcases isV6Char_iff.mp (hv c h) with h | h | h
  · rw [hc] at h
    cases h
  · exact h₁ h
  · exact h₂ h

-- A candidate that is an IPv6 address is brought into its canonical form.
theorem readCandidate_of_parse {a : IpAddr} (h : IpAddr.parse t = some a) (h₆ : Broker.isIpv6 a) :
    readCandidate t = some a.display := by
  have hc : ':' ∈ t := by
    by_contra hc
    obtain ⟨a₀, a₁, a₂, a₃, rfl⟩ := IpAddr.exists_v4_of_parse h hc
    cases h₆
  have hd : t.rdropWhile (· = '.') = t := by
    rw [List.rdropWhile_eq_self_iff]
    intro hn
    have := IpAddr.getLast?_of_parse h
    rw [List.getLast?_eq_some_getLast hn] at this
    simpa using this
  have hz : Str.splitOnce ['%'] t = none :=
    Str.splitOnce_eq_none_iff.mpr (not_mem_of_isV6Char (IpAddr.isV6Char_of_parse h) (by decide) (by decide) (by decide))
  rw [readCandidate, if_pos hc, hd, Broker.canonicalizeIp, hz]
  exact congrArg (Option.map IpAddr.display) h

-- What the text of an address is read from.
theorem of_readCandidate {tok : Str} {a : IpAddr} (h : readCandidate tok = some a.display) :
    ∃ t, t <+: tok ∧ IpAddr.parse t = some a ∧ Broker.isIpv6 a := by
  unfold readCandidate at h
  split_ifs at h with hc
  have hp : tok.rdropWhile (· = '.') <+: tok := List.rdropWhile_prefix ..
  have hm : ':' ∈ tok.rdropWhile (· = '.') := by
    rw [← List.rdropWhile_append_rtakeWhile (p := (· = '.')) (l := tok), List.mem_append] at hc
    refine hc.resolve_right fun h => ?_
    have := List.mem_rtakeWhile_imp h
    simp at this
  refine ⟨_, hp, ?_⟩
  rw [Broker.canonicalizeIp] at h
  cases hz : Str.splitOnce ['%'] (tok.rdropWhile (· = '.'))
  case some bz =>
    rw [hz] at h
    obtain ⟨b, -, hb⟩ := Option.bind_eq_some_iff.mp h
    split_ifs at hb
    have : '%' ∈ a.display := Option.some_inj.mp hb ▸ by simp
    exact absurd this (IpAddr.not_mem_display (by decide) (by decide) (by decide) a)
  case none =>
    rw [hz] at h
    obtain ⟨b, hb, he⟩ := Option.map_eq_some_iff.mp h
    obtain rfl := IpAddr.display_injective he
    refine ⟨hb, ?_⟩
    cases b
    case v4 => exact absurd hm (IpAddr.not_mem_of_parse_v4 hb)
    case v6 => rfl

end Utils

namespace Checker

variable {u : Unicode} {real : Finset IpAddr} {marks : Marks} {content : Str}

-- An IPv4 address has one text, and an IPv6 address has each text that is parsed as that address.
def Spells (t : Str) (ip : IpAddr) : Prop :=
  if Broker.isIpv6 ip then IpAddr.parse t = some ip else t = ip.display

instance {t : Str} {ip : IpAddr} : Decidable (Spells t ip) :=
  inferInstanceAs (Decidable (if Broker.isIpv6 ip then IpAddr.parse t = some ip else t = ip.display))

-- A part of a page that the ends of the page or other characters delimit.
def Delimited (u : Unicode) (page t : Str) : Prop :=
  ∃ pre post, page = pre ++ (t ++ post) ∧ (∀ c ∈ pre.getLast?, u.Delimits c) ∧ ∀ c ∈ post.head?, u.Delimits c

namespace Spells

variable {t : Str} {ip : IpAddr}

theorem parse (h : Spells t ip) : IpAddr.parse t = some ip := by
  unfold Spells at h
  split_ifs at h
  · exact h
  · rw [h, IpAddr.parse_display]

theorem isV6Char (h : Spells t ip) : ∀ c ∈ t, IsV6Char c :=
  IpAddr.isV6Char_of_parse h.parse

theorem of_asciiLower (h : Spells (Str.asciiLower t) ip) : Spells t ip := by
  unfold Spells at h ⊢
  split_ifs at h ⊢ with h₆
  case pos => rwa [IpAddr.parse_asciiLower] at h
  case neg =>
    cases ip
    case v6 => exact absurd rfl h₆
    case v4 a₀ a₁ a₂ a₃ =>
      exact (asciiLower_eq_self fun c hc => IpAddr.isV4Char_displayV4 c (h ▸ hc)).symm.trans h

end Spells

theorem infix_of_mem_getAllIp {page : Str} {ip : IpAddr} (h : ip.display ∈ getAllIp u.toDecimal page) :
    ∃ t, Spells t ip ∧ t <:+: page := by
  have hs (m : Nat × Nat) : slice page m.1 m.2 <:+: page :=
    (List.take_prefix ..).isInfix.trans (List.drop_suffix ..).isInfix
  rcases Utils.mem_getAllIp.mp h with ⟨m, -, he⟩ | ⟨m, -, he⟩
  · refine ⟨_, ?_, hs m⟩
    unfold Spells
    split_ifs
    · rw [he, IpAddr.parse_display]
    · exact he
  · obtain ⟨t, ht, hp, h₆⟩ := of_readCandidate he
    exact ⟨t, by rwa [Spells, if_pos h₆], ht.isInfix.trans (hs m)⟩

theorem anonymityLevel_eq_transparent :
    anonymityLevel u real marks content = .transparent ↔ ∃ ip ∈ real, ip.display ∈ getAllIp u.toDecimal (u.toLowercase content) := by
  unfold anonymityLevel
  dsimp only
  split_ifs <;> simp_all

theorem Delimited.mem_getAllIp {page t : Str} {ip : IpAddr} (h : Delimited u page t) (ht : Spells t ip) :
    ip.display ∈ getAllIp u.toDecimal page := by
  obtain ⟨pre, post, rfl, hpre, hpost⟩ := h
  have hs : slice (pre ++ (t ++ post)) pre.length (pre.length + t.length) = t :=
    Parse.slice_of_drop (by rw [List.drop_left])
  refine Utils.mem_getAllIp.mpr ?_
  cases ip
  case v4 a₀ a₁ a₂ a₃ =>
    obtain rfl : t = IpAddr.displayV4 a₀ a₁ a₂ a₃ := ht
    refine .inl ⟨_, mem_findIter_of_delimited Parse.ipv4Re_all (fun s => Parse.ipv4Re_pos) ?_ ?_, hs⟩
    · exact fun c hc => (hpre c hc).not_decimal
    · exact Parse.head?_lengths_ipv4Re a₀ a₁ a₂ a₃ fun c hc => Bool.eq_false_iff.mpr fun hd => (hpost c hc).not_decimal (.inl hd)
  case v6 =>
    have hp : IpAddr.parse t = some _ := ht
    refine .inr ⟨_, mem_findIter_of_delimited ipv6CandidateRe_all (fun s => ipv6CandidateRe_pos) ?_ ?_, ?_⟩
    · exact fun c hc => (hpre c hc).not_candidate
    · refine head?_lengths_ipv6CandidateRe (IpAddr.isV6Char_of_parse hp) ?_ (IpAddr.head?_of_parse hp) ?_
      · rintro rfl
        cases hp
      · refine fun c hc => ⟨fun hv => ?_, fun he => (hpost c hc).not_candidate (.inr (by simp [he]))⟩
        rcases isV6Char_iff.mp hv with h | rfl | rfl
        · exact (hpost c hc).not_candidate (.inl (isAlphanum_of_isHex h))
        all_goals exact (hpost _ hc).not_candidate (.inr (by simp))
    · rw [hs]
      exact readCandidate_of_parse hp rfl

-- A real address that is visible on a page is noticed, and nothing else is taken for one.
theorem anonymityLevel_transparent (u : Unicode) (real : Finset IpAddr) (marks : Marks) (content : Str) :
    ((∃ ip ∈ real, ∃ t, Spells t ip ∧ Delimited u (u.toLowercase content) t) →
      anonymityLevel u real marks content = .transparent) ∧
    (anonymityLevel u real marks content = .transparent → ∃ ip ∈ real, ∃ t, Spells t ip ∧ t <:+: content) := by
  rw [anonymityLevel_eq_transparent]
  constructor
  case left =>
    rintro ⟨ip, hr, t, ht, hd⟩
    exact ⟨ip, hr, hd.mem_getAllIp ht⟩
  case right =>
    rintro ⟨ip, hr, hf⟩
    obtain ⟨ps, hl, he⟩ := u.lowers content
    obtain ⟨t, hp, ht⟩ := infix_of_mem_getAllIp hf
    rw [he] at ht
    obtain ⟨t', ht', rfl⟩ := Lowers.exists_infix hl ht hp.isV6Char
    exact ⟨ip, hr, t', hp.of_asciiLower, ht'⟩

-- An address is visible in another spelling, before the end of a sentence.
theorem anonymityLevel_transparent_respelled : anonymityLevel .asciiOnly {.v6 0x2001 0xDB8 0 0 0 0 0 1} ⟨0, 0⟩
    "from 2001:DB8:0::0001 (proxy)".toList = .transparent :=
  (anonymityLevel_transparent ..).left
    ⟨_, Finset.mem_singleton_self _, "2001:db8:0::0001".toList, by decide, "from ".toList, " (proxy)".toList, by decide,
      by simp; decide, by simp; decide⟩

end Checker
