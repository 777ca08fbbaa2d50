import ProxyBroker.Objects.Theorems.Dotted
import ProxyBroker.Resolver

open IpParse Str

namespace Resolver

variable {s o : Str} {n max : Nat} {ip : IpAddr}

-- The parsers of the unsigned integer types skip a leading plus sign.
def digitsOf (o : Str) : Str :=
  (stripPrefix ['+'] o).getD o

theorem parseUnsigned_eq_some :
    parseUnsigned max o = some n ↔ Run (digitsOf o) ∧ valueOf (digitsOf o) = n ∧ n ≤ max := by
  unfold parseUnsigned
  rw [← digitsOf]
  generalize digitsOf o = ds
  split
  case h_1 => simp [Run]
  case h_2 hn =>
    by_cases hd : ∀ c ∈ ds, c.isDigit
    · have hv : (ds.map fun c => (digit? c).getD 0).foldl (10 * · + ·) 0 = valueOf ds := List.foldl_map
      have hr : Run ds := ⟨hn, hd⟩
      simp only [mapM_digit? hd, Option.bind_eq_bind, Option.bind_some, hv, hr, true_and]
      split_ifs with hm
      · exact ⟨fun h => by cases h; exact ⟨rfl, hm⟩, fun h => by rw [h.left]⟩
      · exact ⟨nofun, fun h => absurd (h.left ▸ h.right) hm⟩
    · have hr : ¬Run ds := fun hr => hd hr.right
      obtain ⟨c, hc, hcd⟩ : ∃ c ∈ ds, c.isDigit = false := by simpa using hd
      simp [mapM_digit?_eq_none hc hcd, hr]

theorem digitsOf_eq (h : '+' ∉ o) : digitsOf o = o := by
  have hp : ¬['+'].isPrefixOf o := fun hp => h ((List.isPrefixOf_iff_prefix.mp hp).subset List.mem_cons_self)
  rw [digitsOf, stripPrefix, if_neg hp]
  rfl

theorem mem_of_mem_digitsOf {c : Char} (hc : c ∈ o) (hp : c ≠ '+') : c ∈ digitsOf o := by
  rw [digitsOf, stripPrefix]
  split_ifs with h
  · obtain ⟨t, rfl⟩ := List.isPrefixOf_iff_prefix.mp h
    simpa [hp] using hc
  · exact hc

-- A run of ASCII digits with a value that fits into a byte.
def Octet (o : Str) : Prop :=
  Run o ∧ valueOf o ≤ 255

-- Four octets, each of which may have leading zeros.
def Quad (s : Str) (ip : IpAddr) : Prop :=
  ∃ o₀ o₁ o₂ o₃, s = dotted o₀ o₁ o₂ o₃ ∧ (∀ o ∈ [o₀, o₁, o₂, o₃], Octet o) ∧ ip = ofRuns o₀ o₁ o₂ o₃

-- Four octets, each of which may have a plus sign in front of it, and one of which does.
def Signed (s : Str) : Prop :=
  ∃ o₀ o₁ o₂ o₃, s = dotted o₀ o₁ o₂ o₃ ∧ (∀ o ∈ [o₀, o₁, o₂, o₃], Octet (digitsOf o)) ∧ '+' ∈ s

theorem mapM_eq_some {α β : Type} {f : α → Option β} {as : List α} {bs : List β} :
    as.mapM f = some bs ↔ List.Forall₂ (fun a b => f a = some b) as bs := by
  induction as generalizing bs
  case nil          => cases bs <;> simp
  case cons a as hi => cases bs <;> simp [List.mapM_cons, Option.bind_eq_some_iff, hi]

theorem octets_eq_some : octets s = some ip ↔
    ∃ o₀ o₁ o₂ o₃, s = dotted o₀ o₁ o₂ o₃ ∧ (∀ o ∈ [o₀, o₁, o₂, o₃], Octet (digitsOf o)) ∧
      ip = ofRuns (digitsOf o₀) (digitsOf o₁) (digitsOf o₂) (digitsOf o₃) := by
  constructor
  case mp =>
    intro h
    unfold octets at h
    split at h
    case h_2 => cases h
    case h_1 a b c d hm =>
      cases h
      simp only [mapM_eq_some, List.forall₂_cons_right_iff, List.forall₂_nil_right_iff] at hm
      obtain ⟨o₀, _, h₀, ⟨o₁, _, h₁, ⟨o₂, _, h₂, ⟨o₃, _, h₃, rfl, rfl⟩, rfl⟩, rfl⟩, hs⟩ := hm
      obtain ⟨r₀, rfl, b₀⟩ := parseUnsigned_eq_some.mp h₀
      obtain ⟨r₁, rfl, b₁⟩ := parseUnsigned_eq_some.mp h₁
      obtain ⟨r₂, rfl, b₂⟩ := parseUnsigned_eq_some.mp h₂
      obtain ⟨r₃, rfl, b₃⟩ := parseUnsigned_eq_some.mp h₃
      have he : s = dotted o₀ o₁ o₂ o₃ := by rw [dotted, ← hs, List.intercalate_splitOn]
      refine ⟨o₀, o₁, o₂, o₃, he, ?_, rfl⟩
      simp [Octet, r₀, r₁, r₂, r₃, b₀, b₁, b₂, b₃]
  case mpr =>
    rintro ⟨o₀, o₁, o₂, o₃, rfl, ho, rfl⟩
    have hd : ∀ o ∈ [o₀, o₁, o₂, o₃], '.' ∉ o := fun o h hm =>
      absurd ((ho o h).left.right '.' (mem_of_mem_digitsOf hm (by decide))) (by decide)
    have hp : ∀ o ∈ [o₀, o₁, o₂, o₃], parseUnsigned 255 o = some (valueOf (digitsOf o)) := fun o h =>
      parseUnsigned_eq_some.mpr ⟨(ho o h).left, rfl, (ho o h).right⟩
    have hm : [o₀, o₁, o₂, o₃].mapM (parseUnsigned 255) = some ([o₀, o₁, o₂, o₃].map fun o => valueOf (digitsOf o)) :=
      mapM_eq_some.mpr (List.forall₂_map_right_iff.mpr (List.forall₂_same.mpr hp))
    rw [octets, dotted, List.splitOn_intercalate _ hd (by simp), hm]
    rfl

theorem parse_of_plus (h : '+' ∈ s) : IpAddr.parse s = none := by
  refine Option.eq_none_iff_forall_ne_some.mpr fun ip hp => ?_
  rcases IpAddr.isV6Char_of_parse hp '+' h with hc | hc | hc
  · exact absurd hc (by decide)
  · cases hc
  · cases hc

theorem parseIpLenient_eq_some :
    parseIpLenient s = some ip ↔ IpAddr.parse s = some ip ∨ IpAddr.parse s = none ∧ octets s = some ip := by
  have hg : octets s = some ip → s ≠ [] ∧ '.' ∈ s ∧ ':' ∉ s := by
    intro h
    obtain ⟨o₀, o₁, o₂, o₃, rfl, ho, -⟩ := octets_eq_some.mp h
    have hc : ∀ o ∈ [o₀, o₁, o₂, o₃], ':' ∉ o := fun o h hm =>
      absurd ((ho o h).left.right ':' (mem_of_mem_digitsOf hm (by decide))) (by decide)
    simp only [List.forall_mem_cons, List.not_mem_nil, IsEmpty.forall_iff, implies_true, and_true] at hc
    rw [dotted_eq]
    simp [hc]
  rw [parseIpLenient]
  by_cases hn : s = []
  · subst hn
    have he : IpAddr.parse [] = none := by decide
    rw [if_pos rfl, he]
    exact ⟨nofun, fun h => h.elim nofun fun h => absurd rfl (hg h.right).left⟩
  · rw [if_neg hn]
    cases hp : IpAddr.parse s
    case some ip' => simp
    case none =>
      simp only [reduceCtorEq, false_or, true_and]
      split_ifs with hc
      · exact Iff.rfl
      · exact ⟨nofun, fun h => absurd (hg h).right hc⟩

-- Such an address has a single meaning.
theorem Quad.unique {ip' : IpAddr} (h : Quad s ip) (hp : IpAddr.parse s = some ip') : ip' = ip := by
  obtain ⟨o₀, o₁, o₂, o₃, rfl, ho, rfl⟩ := h
  rw [parse_dotted fun o hm => (ho o hm).left] at hp
  split_ifs at hp
  exact (Option.some.inj hp).symm

theorem Quad.not_mem (h : Quad s ip) : '+' ∉ s := by
  obtain ⟨o₀, o₁, o₂, o₃, rfl, ho, -⟩ := h
  exact not_mem_dotted (fun o hm => (ho o hm).left) (by decide) (by decide)

-- Without a plus sign, the octets are exactly their digits.
theorem quad_iff (h : '+' ∉ s) : octets s = some ip ↔ Quad s ip := by
  have hn {o₀ o₁ o₂ o₃ : Str} (hs : s = dotted o₀ o₁ o₂ o₃) : ∀ o ∈ [o₀, o₁, o₂, o₃], digitsOf o = o :=
    fun o hm => digitsOf_eq fun hp => h (hs ▸ mem_dotted hm hp)
  rw [octets_eq_some]
  refine exists₄_congr fun o₀ o₁ o₂ o₃ => and_congr_right fun hs => ?_
  have hd := hn hs
  simp only [List.forall_mem_cons, List.not_mem_nil, IsEmpty.forall_iff, implies_true, and_true] at hd
  obtain ⟨d₀, d₁, d₂, d₃⟩ := hd
  simp only [List.forall_mem_cons, List.not_mem_nil, IsEmpty.forall_iff, d₀, d₁, d₂, d₃]

theorem parseIpLenient_iff (s : Str) :
    (∀ ip, parseIpLenient s = some ip ↔ IpAddr.parse s = some ip ∨ Quad s ip) ↔ ¬Signed s := by
  constructor
  case mp =>
    rintro h ⟨o₀, o₁, o₂, o₃, hs, ho, hp⟩
    have hl := parseIpLenient_eq_some.mpr (.inr ⟨parse_of_plus hp, octets_eq_some.mpr ⟨o₀, o₁, o₂, o₃, hs, ho, rfl⟩⟩)
    rcases (h _).mp hl with hr | hq
    · exact absurd hr (by simp [parse_of_plus hp])
    · exact hq.not_mem hp
  case mpr =>
    intro h ip
    rw [parseIpLenient_eq_some]
    by_cases hp : '+' ∈ s
    · have ho : octets s ≠ some ip := by
        intro hs
        obtain ⟨o₀, o₁, o₂, o₃, he, ho, -⟩ := octets_eq_some.mp hs
        exact h ⟨o₀, o₁, o₂, o₃, he, ho, hp⟩
      have hq : ¬Quad s ip := fun hq => hq.not_mem hp
      simp [ho, hq]
    · rw [quad_iff hp]
      constructor
      · exact Or.imp_right And.right
      · rintro (hs | hq)
        · exact .inl hs
        · cases hs : IpAddr.parse s
          case none     => exact .inr ⟨rfl, hq⟩
          case some ip' => exact .inl (by rw [hq.unique hs])

theorem plus_accepted : ¬∀ ip, parseIpLenient "+1.2.3.4".toList = some ip ↔
    IpAddr.parse "+1.2.3.4".toList = some ip ∨ Quad "+1.2.3.4".toList ip := by
  intro h
  have hl : parseIpLenient "+1.2.3.4".toList = some (.v4 1 2 3 4) := by decide
  rcases (h _).mp hl with hp | hq
  · exact absurd hp (by decide)
  · exact hq.not_mem (by decide)

end Resolver
