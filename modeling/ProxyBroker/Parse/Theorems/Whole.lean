import ProxyBroker.Objects.Theorems.Dotted
import ProxyBroker.Parse.Theorems.Lines
import ProxyBroker.Parse.Theorems.Scan

open IpParse Regular Str

-- What the scanners find in a text that is an address and a port.
namespace Parse

variable {d : Decimal} {a o p : Str}

section Octets

-- The shapes of an octet.
inductive Shape (d : Decimal) : Str → Prop
  | high {z : Char}      : '0' ≤ z → z ≤ '5' → Shape d ['2', '5', z]
  | middle {y z : Char}  : '0' ≤ y → y ≤ '4' → d.isDecimal z → Shape d ['2', y, z]
  | three {x y z : Char} : x = '0' ∨ x = '1' → d.isDecimal y → d.isDecimal z → Shape d [x, y, z]
  | two {y z : Char}     : d.isDecimal y → d.isDecimal z → Shape d [y, z]
  | one {y : Char}       : d.isDecimal y → Shape d [y]

theorem shape_of_matches (h : (octet d).Matches o) : Shape d o := by
  simp only [octet, lit, digit, matches_alt, matches_seq, matches_char, matches_opt, decide_eq_true_eq] at h
  rcases h with ⟨_, _, rfl, ⟨_, rfl, rfl⟩, _, _, rfl, ⟨_, rfl, rfl⟩, z, rfl, hz⟩ |
    ⟨_, _, rfl, ⟨_, rfl, rfl⟩, _, _, rfl, ⟨y, rfl, hy⟩, z, rfl, hz⟩ |
    ⟨_, _, rfl, ⟨x, rfl, hx⟩ | rfl, _, _, rfl, ⟨y, rfl, hy⟩, ⟨z, rfl, hz⟩ | rfl⟩
  · exact .high hz.left hz.right
  · exact .middle hy.left hy.right hz
  · exact .three hx hy hz
  · refine .two ?_ hy
    rcases hx with rfl | rfl <;> exact d.isDecimal_of_isDigit (by decide)
  · exact .two hy hz
  · exact .one hy

theorem lengths_triple {p q r : Char → Bool} (h : o.length < 3) :
    (seq (char p) (seq (char q) (char r))).lengths o = [] := by
  refine List.eq_nil_iff_forall_not_mem.mpr fun n hn => ?_
  have hl := le_length_of_mem_lengths hn
  simp only [mem_lengths_seq, mem_lengths_char] at hn
  obtain ⟨_, ⟨rfl, -⟩, _, ⟨_, ⟨rfl, -⟩, _, ⟨rfl, -⟩, rfl⟩, rfl⟩ := hn
  omega

-- An octet is matched as a whole at the first attempt.
theorem head?_octet (h : (octet d).Matches o) : ((octet d).lengths o).head? = some o.length := by
  cases shape_of_matches h
  case high h₀ h₅        => simp [octet, lit, digit, lengths, h₀, h₅]
  case middle y z h₀ h₄ hz =>
    have h₅ : y ≠ '5' := by
      rintro rfl
      exact absurd h₄ (by decide)
    simp [octet, lit, digit, lengths, h₀, h₄, hz, h₅]
  case three hx hy hz    => rcases hx with rfl | rfl <;> simp [octet, opt, lit, digit, lengths, hy, hz]
  case two x y hx hy     =>
    rw [octet, lit, lit, digit, lengths_alt, lengths_alt, lengths_triple (by simp), lengths_triple (by simp)]
    by_cases h₁ : x = '0' ∨ x = '1' <;> simp [opt, lengths, hx, hy, h₁]
  case one x hx          =>
    rw [octet, lit, lit, digit, lengths_alt, lengths_alt, lengths_triple (by simp), lengths_triple (by simp)]
    by_cases h₁ : x = '0' ∨ x = '1' <;> simp [opt, lengths, hx, h₁]

theorem length_le_of_matches (h : (octet d).Matches o) : o.length ≤ 3 := by
  cases shape_of_matches h <;> simp

theorem value_le {c x : Char} (h : c ≤ x) : (digit? c).getD 0 ≤ x.toNat - '0'.toNat := by
  rw [digit?]
  split_ifs
  · exact Nat.sub_le_sub_right h _
  · exact Nat.zero_le _

theorem octet_bound (h : (octet d).Matches o) (ha : ∀ c ∈ o, c.toNat < 128) : Run o ∧ valueOf o ≤ 255 := by
  have hn : o ≠ [] := by
    rintro rfl
    exact (octet_pos h).ne rfl
  have hd : ∀ c ∈ o, c.isDigit := by
    intro c hc
    have := octet_all.of_matches h c hc
    rwa [d.ascii c (ha c hc)] at this
  have h₉ (c : Char) (hc : c ∈ o) : (digit? c).getD 0 ≤ 9 :=
    value_le (x := '9') (of_decide_eq_true (Bool.and_eq_true_iff.mp (hd c hc)).right)
  refine ⟨⟨hn, hd⟩, ?_⟩
  cases shape_of_matches h
  case high z h₀ h₅      =>
    have hz := value_le h₅
    exact (Nat.add_le_add_left hz 250).trans (by decide)
  case middle y z h₀ h₄ hz =>
    have hy := value_le h₄
    have hz := h₉ z (by simp)
    have hv : valueOf ['2', y, z] = 10 * (10 * 2 + (digit? y).getD 0) + (digit? z).getD 0 := rfl
    have h₄ : '4'.toNat - '0'.toNat = 4 := rfl
    omega
  case three x y z hx _ _ =>
    have hx : (digit? x).getD 0 ≤ 1 := by rcases hx with rfl | rfl <;> decide
    have hy := h₉ y (by simp)
    have hz := h₉ z (by simp)
    have hv : valueOf [x, y, z] = 10 * (10 * (10 * 0 + (digit? x).getD 0) + (digit? y).getD 0) + (digit? z).getD 0 := rfl
    omega
  case two y z _ _       =>
    have hy := h₉ y (by simp)
    have hz := h₉ z (by simp)
    have hv : valueOf [y, z] = 10 * (10 * 0 + (digit? y).getD 0) + (digit? z).getD 0 := rfl
    omega
  case one y _           =>
    have hy := h₉ y (by simp)
    have hv : valueOf [y] = 10 * 0 + (digit? y).getD 0 := rfl
    omega

-- An address is matched as a whole at the first attempt.
theorem head?_ipv4Re (h : (ipv4Re d).Matches a) : ((ipv4Re d).lengths a).head? = some a.length := by
  obtain ⟨b, hb, k, hk, he⟩ := mem_lengths_seq.mp h
  have ht : ((trunk d).lengths a).head? = some b := by
    obtain ⟨n, ns, hn⟩ := List.exists_cons_of_ne_nil (List.ne_nil_of_mem hb)
    have hm : n ∈ (trunk d).lengths a := by
      rw [trunk, hn]
      exact List.mem_cons_self
    rw [trunk, hn, List.head?_cons, trunk_unique hm hb]
  have ho : (octet d).Matches (a.drop b) := by
    have hl : (a.drop b).length = k := by rw [List.length_drop, he, Nat.add_sub_cancel_left]
    rwa [Matches, hl]
  rw [he]
  refine head?_lengths_seq ht ?_
  rw [head?_octet ho, List.length_drop, he, Nat.add_sub_cancel_left]

theorem exists_octets (h : (ipv4Re d).Matches a) :
    ∃ o₀ o₁ o₂ o₃, a = dotted o₀ o₁ o₂ o₃ ∧ ∀ o ∈ [o₀, o₁, o₂, o₃], (octet d).Matches o := by
  simp only [ipv4Re, times, lit, matches_seq, matches_char, matches_eps, decide_eq_true_eq] at h
  obtain ⟨_, o₃, rfl, ⟨_, _, rfl, ⟨o₀, _, rfl, h₀, _, rfl, rfl⟩, _, _, rfl, ⟨o₁, _, rfl, h₁, _, rfl, rfl⟩, _, _, rfl,
    ⟨o₂, _, rfl, h₂, _, rfl, rfl⟩, rfl⟩, h₃⟩ := h
  refine ⟨o₀, o₁, o₂, o₃, ?_, ?_⟩
  · rw [dotted_eq]
    simp
  · simp [h₀, h₁, h₂, h₃]

end Octets

-- The characters of an address.
theorem not_mem_of_matches (h : (ipv4Re d).Matches a) {c : Char} (hc : c.toNat < 128) (hd : c.isDigit = false)
    (hn : c ≠ '.') : c ∉ a := by
  intro hm
  simpa [d.ascii c hc, hd, hn] using ipv4Re_all.of_matches h c hm

section Scanners

variable (ha : (ipv4Re d).Matches a) (hp : ∀ c ∈ p, c.isDigit) (h₂ : 2 ≤ p.length) (h₅ : p.length ≤ 5)
include ha

theorem findAt_address : (ipv4Re d).findAt (a ++ ':' :: p) 0 = some (0, a.length) := by
  have hc : ∀ c ∈ (':' :: p).head?, (ipv4Re d).All (· ≠ c) := by
    rintro _ ⟨⟩
    refine ipv4Re_all.mono fun c hc => ?_
    rintro rfl
    simp [d.ascii ':' (by decide)] at hc
  refine findAt_eq_some.mpr ⟨le_rfl, Nat.zero_le _, ⟨a.length, ?_, (Nat.zero_add _).symm⟩, by simp⟩
  rw [List.drop_zero, lengths_append hc, head?_ipv4Re ha]

include hp h₂ h₅

theorem findAddrsLine_pair : findAddrsLine d (a ++ ':' :: p) = [(a, p)] := by
  have hd : ∀ c ∈ p, d.isDecimal c = true := fun c hc => d.isDecimal_of_isDigit (hp c hc)
  have hl : '\n' ∉ a ++ ':' :: p := by
    have hn : '\n' ∉ p := fun hm => absurd (hp _ hm) (by decide)
    simp [not_mem_of_matches ha, hn]
  have hs : (portRe d).findAt (a ++ ':' :: p) a.length = some (a.length + 1, a.length + 1 + p.length) := by
    refine findAt_eq_some.mpr ⟨Nat.le_succ _, by simp, ⟨p.length, ?_, rfl⟩, fun k hk hk' => ?_⟩
    · simpa using head?_lengths_portRe (t := []) hd h₂ h₅ (by simp)
    · obtain rfl : k = a.length := by dsimp only at hk'; omega
      rw [List.drop_left]
      exact lengths_portRe_eq_nil (by simp [d.ascii ':' (by decide)])
  rw [findAddrsLine_eq, List.splitOn_eq_singleton hl, List.filterMap_cons, scanLine, findAt_address ha]
  simp [hs, slice]

theorem findAddrsGlobal_pair : findAddrsGlobal d (a ++ ':' :: p) = [(a, p)] := by
  have hd : ∀ c ∈ p, d.isDecimal c = true := fun c hc => d.isDecimal_of_isDigit (hp c hc)
  have hf : Free d ':' := ⟨d.ascii ':' (by decide), by decide⟩
  have hq : portAfter d (a ++ ':' :: p) a.length = some p :=
    @portAfter_of_digits d [] p _ _ [':'] (by simp) (by simpa using hf) hd h₂ h₅ (by simp)
  have hn : (ipv4Re d).findAt (a ++ ':' :: p) a.length = none := by
    refine (findAt_eq_none ipv4Re_nil).mpr fun j hj => ?_
    obtain ⟨k, rfl⟩ := Nat.exists_eq_add_of_le hj
    rw [← List.drop_drop, List.drop_left]
    cases k
    case zero   => exact lengths_ipv4Re_of_free (by simpa using hf)
    case succ k =>
      have hk : ∀ c ∈ p.drop k, d.isDecimal c = true := fun c hc => hd c (List.mem_of_mem_drop hc)
      have hn := @lengths_ipv4Re_eq_nil d [] (p.drop k) hk (by simp)
      simpa using hn
  rw [findAddrsGlobal, findAddrsGlobalFrom, findAt_address ha]
  dsimp only
  rw [hq, findAddrsGlobalFrom_of_none hn]
  simp [slice]

end Scanners

end Parse
