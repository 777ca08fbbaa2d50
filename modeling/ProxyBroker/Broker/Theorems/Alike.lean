import ProxyBroker.Broker.Theorems.Extract
import ProxyBroker.Parse.ProxyLines
import ProxyBroker.Parse.Theorems.Whole
import ProxyBroker.Resolver.Theorems.Lenient

open IpParse Parse Regular Str

-- How the addresses on the page of a provider are read, and how those in the list of a user are.
namespace Broker

def addrOf (cand : Candidate) : Option (IpAddr × UInt16) :=
  (IpAddr.parse cand.host).map (·, cand.port)

def scraped (d : Decimal) (protocols : List Proto) (text : Str) : List (IpAddr × UInt16) :=
  (extract protocols (findAddrsGlobal d text)).filterMap addrOf

def pasted (d : Decimal) (text : Str) : List (IpAddr × UInt16) :=
  (parseProxyLines d text).map fun p => (p.host, p.port)

variable {d : Decimal} {protocols : List Proto} {a p o o₀ o₁ o₂ o₃ : Str} {ip : IpAddr}

section Zeros

theorem le_foldl_digits (n : Nat) : n ≤ p.foldl (fun n c => 10 * n + (digit? c).getD 0) n := by
  induction p generalizing n
  case nil         => exact le_rfl
  case cons c p hi => exact (Nat.le_add_right_of_le (by omega)).trans (hi _)

theorem eq_zero_of_value {c : Char} (hd : c.isDigit) (h : (digit? c).getD 0 = 0) : c = '0' := by
  have hc := Char.isDigit_iff_toNat.mp hd
  have hz : '0'.toNat = 48 := rfl
  rw [digit?, if_pos hd, Option.getD_some, hz] at h
  exact Char.toNat_inj.mp (by rw [hz]; omega)

-- There is one way to write zero.
theorem valueOf_eq_zero (h : Run o) (hs : Strict o) : valueOf o = 0 ↔ o = ['0'] := by
  constructor
  case mp =>
    intro hv
    obtain ⟨c, t, rfl⟩ := List.exists_cons_of_ne_nil h.left
    have hc : (digit? c).getD 0 = 0 := by
      have := le_foldl_digits (p := t) (10 * 0 + (digit? c).getD 0)
      exact Nat.eq_zero_of_le_zero (by simpa using this.trans hv.le)
    obtain rfl := eq_zero_of_value (h.right c List.mem_cons_self) hc
    obtain rfl : t = [] := by simpa using hs.right.right rfl
    rfl
  case mpr =>
    rintro rfl
    rfl

theorem isUnspecified_ofRuns (h : ∀ o ∈ [o₀, o₁, o₂, o₃], Resolver.Octet o) (hs : ∀ o ∈ [o₀, o₁, o₂, o₃], Strict o) :
    isUnspecified (ofRuns o₀ o₁ o₂ o₃) = true ↔ [o₀, o₁, o₂, o₃] = [['0'], ['0'], ['0'], ['0']] := by
  have hz (o : Str) (ho : o ∈ [o₀, o₁, o₂, o₃]) : UInt8.ofNat (valueOf o) = 0 ↔ o = ['0'] := by
    have hb := (h o ho).right
    rw [← valueOf_eq_zero (h o ho).left (hs o ho), ← UInt8.toNat_inj]
    simp
    omega
  simp only [List.forall_mem_cons, List.not_mem_nil, IsEmpty.forall_iff, implies_true, and_true] at hz
  obtain ⟨h₀, h₁, h₂, h₃⟩ := hz
  simp [isUnspecified, ofRuns, h₀, h₁, h₂, h₃]

end Zeros

section Lenient

theorem parseIpLenient_dotted (h : ∀ o ∈ [o₀, o₁, o₂, o₃], Resolver.Octet o) :
    Resolver.parseIpLenient (dotted o₀ o₁ o₂ o₃) = some (ofRuns o₀ o₁ o₂ o₃) := by
  have hq : Resolver.Quad (dotted o₀ o₁ o₂ o₃) (ofRuns o₀ o₁ o₂ o₃) := ⟨o₀, o₁, o₂, o₃, rfl, h, rfl⟩
  refine Resolver.parseIpLenient_eq_some.mpr ?_
  cases hp : IpAddr.parse (dotted o₀ o₁ o₂ o₃)
  case none   => exact .inr ⟨rfl, (Resolver.quad_iff hq.not_mem).mpr hq⟩
  case some _ => exact .inl (congrArg some (hq.unique hp))

theorem parseIpLenient_eq_none {c : Char} (hc : c ∈ a) (h : 128 ≤ c.toNat) : Resolver.parseIpLenient a = none := by
  refine Option.eq_none_iff_forall_ne_some.mpr fun ip hp => ?_
  rcases Resolver.parseIpLenient_eq_some.mp hp with hp | ⟨-, hp⟩
  · exact absurd (IpAddr.isV6Char_of_parse hp c hc).toNat_lt (by omega)
  · obtain ⟨o₀, o₁, o₂, o₃, rfl, ho, -⟩ := Resolver.octets_eq_some.mp hp
    have hd : c ≠ '.' ∧ c ≠ '+' := ⟨by rintro rfl; simp at h, by rintro rfl; simp at h⟩
    have hm : ∃ o ∈ [o₀, o₁, o₂, o₃], c ∈ o := by
      rw [dotted_eq] at hc
      simpa [hd.left, or_assoc] using hc
    obtain ⟨o, ho', hc⟩ := hm
    have := Char.isDigit_iff_toNat.mp ((ho o ho').left.right c (Resolver.mem_of_mem_digitsOf hc hd.right))
    have h₉ : '9'.toNat = 57 := rfl
    omega

end Lenient

section Readers

theorem toList_inj {α : Type} {x y : Option α} : x.toList = y.toList ↔ x = y :=
  ⟨fun h => by simpa using congrArg List.head? h, congrArg _⟩

-- The check of a provider.
def usable (ip : IpAddr) (port : UInt16) : Option (IpAddr × UInt16) :=
  if port = 0 ∨ isUnspecified ip then none else some (ip, port)

theorem extract_singleton (pair : Str × Str) :
    extract protocols [pair] = (readPair protocols.toFinset pair).toList := by
  rw [extract_eq]
  cases h : readPair protocols.toFinset pair <;> simp [h, push]

theorem readPair_addrOf (ha : '%' ∉ a) :
    (readPair protocols.toFinset (a, p)).bind addrOf =
      (Str.parseU16 p).bind fun port => (IpAddr.parse a).bind fun ip => usable ip port := by
  have hs : Str.splitOnce ['%'] a = none := Str.splitOnce_eq_none_iff.mpr ha
  cases hp : Str.parseU16 p
  case none      => simp [readPair, hp]
  case some port =>
    cases hi : IpAddr.parse a
    case none    => by_cases hz : port = 0 <;> simp [readPair, canonicalizeIp, hp, hs, hi, hz]
    case some ip =>
      by_cases hz : port = 0 <;> by_cases hu : isUnspecified ip <;>
        simp [readPair, canonicalizeIp, hp, hs, hi, hz, hu, addrOf, usable, IpAddr.parse_display]

theorem parseU16_digits (hp : ∀ c ∈ p, c.isDigit) (hn : p ≠ []) :
    Str.parseU16 p = if valueOf p ≤ 65535 then some (UInt16.ofNat (valueOf p)) else none := by
  rw [Str.parseU16, parseUnsigned_digits hp hn]
  split_ifs <;> rfl

end Readers

theorem splitOn_dotted (h : ∀ o ∈ [o₀, o₁, o₂, o₃], Resolver.Octet o) :
    (dotted o₀ o₁ o₂ o₃).splitOn '.' = [o₀, o₁, o₂, o₃] :=
  List.splitOn_intercalate _ (fun o ho hm => absurd ((h o ho).left.right '.' hm) (by decide)) (by simp)

-- Which addresses with octets of at most three digits pass the check.
theorem usable_dotted_iff {port : UInt16} (h : ∀ o ∈ [o₀, o₁, o₂, o₃], Resolver.Octet o ∧ o.length ≤ 3) :
    ((IpAddr.parse (dotted o₀ o₁ o₂ o₃)).bind fun ip => usable ip port) = some (ofRuns o₀ o₁ o₂ o₃, port) ↔
      port ≠ 0 ∧ dotted o₀ o₁ o₂ o₃ ≠ "0.0.0.0".toList ∧
        ∀ o ∈ (dotted o₀ o₁ o₂ o₃).splitOn '.', o.head? = some '0' → o.length = 1 := by
  have ho : ∀ o ∈ [o₀, o₁, o₂, o₃], Resolver.Octet o := fun o hm => (h o hm).left
  have hs : (∀ o ∈ [o₀, o₁, o₂, o₃], Strict o) ↔ ∀ o ∈ [o₀, o₁, o₂, o₃], o.head? = some '0' → o.length = 1 :=
    forall₂_congr fun o hm => ⟨fun h => h.right.right, fun hz => ⟨(h o hm).right, (ho o hm).right, hz⟩⟩
  have hz : dotted o₀ o₁ o₂ o₃ = "0.0.0.0".toList ↔ [o₀, o₁, o₂, o₃] = [['0'], ['0'], ['0'], ['0']] := by
    constructor
    · exact fun he => (splitOn_dotted ho).symm.trans (he ▸ by decide)
    · exact fun he => congrArg (['.'].intercalate ·) he
  rw [splitOn_dotted ho, ← hs, Ne.eq_def (dotted ..), hz, parse_dotted fun o hm => (ho o hm).left]
  by_cases hst : ∀ o ∈ [o₀, o₁, o₂, o₃], Strict o
  case neg =>
    rw [if_neg hst, Option.bind_none]
    exact ⟨nofun, fun h => absurd h.right.right hst⟩
  case pos =>
    rw [if_pos hst, Option.bind_some, usable, ← isUnspecified_ofRuns ho hst]
    split_ifs with hu
    · exact ⟨nofun, fun h => (hu.elim h.left h.right.left).elim⟩
    · exact ⟨fun _ => ⟨fun hp => hu (.inl hp), fun hz => hu (.inr hz), hst⟩, fun _ => rfl⟩

section Lists

variable (ha : (ipv4Re d).Matches a) (hp : ∀ c ∈ p, c.isDigit) (h₂ : 2 ≤ p.length) (h₅ : p.length ≤ 5)
include ha hp h₂ h₅

theorem scraped_pair : scraped d protocols (a ++ ':' :: p) =
    ((Str.parseU16 p).bind fun port => (IpAddr.parse a).bind fun ip => usable ip port).toList := by
  have hn : '%' ∉ a := not_mem_of_matches ha (by decide) (by decide) (by decide)
  rw [← @readPair_addrOf protocols a p hn, scraped, findAddrsGlobal_pair ha hp h₂ h₅, extract_singleton]
  cases readPair protocols.toFinset (a, p)
  case none   => rfl
  case some c => cases h : addrOf c <;> simp [h]

theorem pasted_pair : pasted d (a ++ ':' :: p) =
    ((Str.parseU16 p).bind fun port => (Resolver.parseIpLenient a).bind fun ip => some (ip, port)).toList := by
  rw [pasted, parseProxyLines, findAddrsLine_pair ha hp h₂ h₅]
  cases hi : Resolver.parseIpLenient a <;> cases hq : Str.parseU16 p <;> simp [readLine, hi, hq, Proxy.new]

-- An address is read from both lists, or from neither of them, unless it or its port is dropped by the provider only.
theorem scraped_eq_pasted_iff : scraped d protocols (a ++ ':' :: p) = pasted d (a ++ ':' :: p) ↔
    (∃ c ∈ a, 128 ≤ c.toNat) ∨ 65535 < valueOf p ∨
    valueOf p ≠ 0 ∧ a ≠ "0.0.0.0".toList ∧ ∀ o ∈ a.splitOn '.', o.head? = some '0' → o.length = 1 := by
  have hn : p ≠ [] := List.ne_nil_of_length_pos (by omega)
  rw [scraped_pair ha hp h₂ h₅, pasted_pair ha hp h₂ h₅, parseU16_digits hp hn]
  by_cases hv : valueOf p ≤ 65535
  case neg => simp [hv, Nat.lt_of_not_le hv]
  case pos =>
    rw [if_pos hv, Option.bind_some, Option.bind_some]
    by_cases hc : ∃ c ∈ a, 128 ≤ c.toNat
    case pos =>
      obtain ⟨c, hca, hc⟩ := hc
      have hl := parseIpLenient_eq_none hca hc
      have hi : IpAddr.parse a = none := by
        refine Option.eq_none_iff_forall_ne_some.mpr fun ip hi => ?_
        rw [Resolver.parseIpLenient_eq_some.mpr (.inl hi)] at hl
        cases hl
      simp only [hl, hi, Option.bind_none, true_iff]
      exact .inl ⟨c, hca, hc⟩
    case neg =>
      obtain ⟨o₀, o₁, o₂, o₃, rfl, ho⟩ := exists_octets ha
      have hb : ∀ o ∈ [o₀, o₁, o₂, o₃], Resolver.Octet o ∧ o.length ≤ 3 := by
        refine fun o hm => ⟨octet_bound (ho o hm) fun c hco => ?_, length_le_of_matches (ho o hm)⟩
        by_contra hlt
        exact hc ⟨c, mem_dotted hm hco, Nat.le_of_not_lt hlt⟩
      have hz : UInt16.ofNat (valueOf p) = 0 ↔ valueOf p = 0 := by
        rw [← UInt16.toNat_inj]
        simp
        omega
      rw [parseIpLenient_dotted fun o hm => (hb o hm).left, Option.bind_some, toList_inj,
        usable_dotted_iff hb, Ne, hz]
      simp [hc, hv]

end Lists

theorem scraped_eq_pasted_plain :
    scraped .asciiOnly [.http] "1.2.3.4:8080".toList = pasted .asciiOnly "1.2.3.4:8080".toList :=
  have hm : (ipv4Re .asciiOnly).Matches "1.2.3.4".toList := by decide +kernel
  have hp : ∀ c ∈ "8080".toList, c.isDigit := List.all_eq_true.mp (by decide)
  (scraped_eq_pasted_iff (p := "8080".toList) hm hp (by decide) (by decide)).mpr (.inr (.inr (by decide)))

-- An address with leading zeros is in the list of the user only.
theorem leading_zeros_differ : ¬∀ a p : Str, (ipv4Re .asciiOnly).Matches a → (∀ c ∈ p, c.isDigit) → 2 ≤ p.length →
    p.length ≤ 5 → scraped .asciiOnly [.http] (a ++ ':' :: p) = pasted .asciiOnly (a ++ ':' :: p) := by
  intro h
  have hs : scraped .asciiOnly [.http] "010.0.0.1:3128".toList = [] := by decide
  have hp : pasted .asciiOnly "010.0.0.1:3128".toList = [(.v4 10 0 0 1, 3128)] := by decide
  have he := h "010.0.0.1".toList "3128".toList (by decide +kernel) (List.all_eq_true.mp (by decide)) (by decide) (by decide)
  exact absurd (hs.symm.trans (he.trans hp)) (by decide)

end Broker
