import ProxyBroker.Parse

open Regular

namespace Decimal

variable {d : Decimal} {c : Char}

theorem isDecimal_of_isDigit (h : c.isDigit) : d.isDecimal c = true := by
  have hc : c.toNat < 128 := by
    simp only [Char.isDigit, ge_iff_le, Bool.and_eq_true, decide_eq_true_eq, UInt32.le_iff_toNat_le] at h
    exact Nat.lt_of_le_of_lt h.right (by decide)
  rw [d.ascii c hc, h]

theorem isDecimal_dot : d.isDecimal '.' = false :=
  d.ascii '.' (by decide)

theorem isDecimal_newline : d.isDecimal '\n' = false :=
  d.ascii '\n' (by decide)

end Decimal

-- The property for texts of ASCII characters.
def Decimal.asciiOnly : Decimal where
  isDecimal := Char.isDigit
  ascii _ _ := rfl

namespace Parse

variable {d : Decimal} {s : Str} {c : Char} {n m b i k : Nat}

-- The three octets that are followed by a dot.
def trunk (d : Decimal) : Regular :=
  (seq (octet d) (lit '.')).times 3

theorem isDigit_of_le (h₀ : '0' ≤ c) (h₉ : c ≤ '9') : c.isDigit := by
  simp only [Char.isDigit, ge_iff_le, Bool.and_eq_true, decide_eq_true_eq]
  exact ⟨h₀, h₉⟩

theorem octet_all : (octet d).All fun c => d.isDecimal c = true := by
  have h₂ : (lit '2').All fun c => d.isDecimal c = true := fun c hc =>
    of_decide_eq_true hc ▸ d.isDecimal_of_isDigit (by decide)
  have hr {x : Char} (hx : x ≤ '9') : (char fun c => '0' ≤ c ∧ c ≤ x).All fun c => d.isDecimal c = true := fun c hc =>
    have h := of_decide_eq_true hc
    d.isDecimal_of_isDigit (isDigit_of_le h.left (le_trans h.right hx))
  have hd : (digit d).All fun c => d.isDecimal c = true := fun _ => id
  refine ⟨⟨h₂, fun c hc => ?_, hr (by decide)⟩, ⟨h₂, hr (by decide), hd⟩, ⟨fun c hc => ?_, trivial⟩, hd, hd, trivial⟩
  · exact of_decide_eq_true hc ▸ d.isDecimal_of_isDigit (by decide)
  · rcases of_decide_eq_true hc with rfl | rfl <;> exact d.isDecimal_of_isDigit (by decide)

theorem ipv4Re_all : (ipv4Re d).All fun c => d.isDecimal c = true ∨ c = '.' := by
  have ho : (octet d).All fun c => d.isDecimal c = true ∨ c = '.' := octet_all.mono fun _ => .inl
  have hs : (seq (octet d) (lit '.')).All fun c => d.isDecimal c = true ∨ c = '.' :=
    ⟨ho, fun c hc => .inr (of_decide_eq_true hc)⟩
  exact ⟨hs.times 3, ho⟩

theorem portRe_all : (portRe d).All fun c => d.isDecimal c = true :=
  have hd : (digit d).All fun c => d.isDecimal c = true := fun _ => id
  ⟨hd.times 2, hd.upTo 3⟩

theorem octet_pos (h : n ∈ (octet d).lengths s) : 0 < n := by
  simp only [octet, lit, digit, mem_lengths_alt, mem_lengths_seq, mem_lengths_char] at h
  rcases h with ⟨_, ⟨rfl, -⟩, _, -, rfl⟩ | ⟨_, ⟨rfl, -⟩, _, -, rfl⟩ | ⟨_, -, _, ⟨_, ⟨rfl, -⟩, _, -, rfl⟩, rfl⟩ <;> omega

theorem one_mem_octet (h : d.isDecimal c) : 1 ∈ (octet d).lengths (c :: s) := by
  refine mem_lengths_alt.mpr <| .inr <| mem_lengths_alt.mpr <| .inr <| mem_lengths_seq.mpr ⟨0, ?_, 1, ?_, rfl⟩
  · exact mem_lengths_alt.mpr (.inr List.mem_cons_self)
  · refine mem_lengths_seq.mpr ⟨1, mem_lengths_char.mpr ⟨rfl, c, rfl, h⟩, 0, ?_, rfl⟩
    exact mem_lengths_alt.mpr (.inr List.mem_cons_self)

-- What comes before a dot.
theorem lengths_dotted (h : n ∈ (seq (octet d) (lit '.')).lengths s) :
    ∃ x t, s = x ++ '.' :: t ∧ (∀ c ∈ x, d.isDecimal c = true) ∧ n = x.length + 1 := by
  obtain ⟨k, hk, m, hm, rfl⟩ := mem_lengths_seq.mp h
  obtain ⟨rfl, c, hc, he⟩ := mem_lengths_char.mp hm
  obtain rfl := of_decide_eq_true he
  obtain ⟨hl, hd⟩ := octet_all.of_mem_lengths hk
  obtain ⟨t, ht⟩ := List.head?_eq_some_iff.mp hc
  exact ⟨s.take k, t, by rw [← ht, List.take_append_drop], hd, by simp [hl]⟩

theorem count_dot (h : ∀ c ∈ s, d.isDecimal c = true) : s.count '.' = 0 :=
  List.count_eq_zero.mpr fun hm => by simpa [d.isDecimal_dot] using h '.' hm

theorem lengths_dotted_times (h : n ∈ ((seq (octet d) (lit '.')).times (k + 1)).lengths s) :
    ∃ x t, s = x ++ '.' :: t ∧ x.count '.' = k ∧ n = x.length + 1 := by
  induction k generalizing s n
  case zero =>
    obtain ⟨a, ha, b, hb, rfl⟩ := mem_lengths_seq.mp h
    obtain rfl : b = 0 := List.mem_singleton.mp hb
    obtain ⟨x, t, hs, hx, rfl⟩ := lengths_dotted ha
    exact ⟨x, t, hs, count_dot hx, rfl⟩
  case succ k hi =>
    obtain ⟨a, ha, b, hb, rfl⟩ := mem_lengths_seq.mp h
    obtain ⟨x, t, rfl, hx, rfl⟩ := lengths_dotted ha
    have hd : (x ++ '.' :: t).drop (x.length + 1) = t := by simp
    obtain ⟨y, u, rfl, hy, rfl⟩ := hi (hd ▸ hb)
    refine ⟨x ++ '.' :: y, u, by simp, ?_, by simp; omega⟩
    rw [List.count_append, List.count_cons_self, count_dot hx, hy]
    omega

theorem length_le_of_count {x y t u : Str} (h : x ++ '.' :: t = y ++ '.' :: u) (hc : y.count '.' ≤ x.count '.') :
    y.length ≤ x.length := by
  rcases List.append_eq_append_iff.mp h with ⟨z, rfl, hz⟩ | ⟨z, rfl, -⟩
  case inl =>
    cases z
    case nil      => simp
    case cons c z =>
      obtain rfl : '.' = c := (List.cons.inj hz).left
      rw [List.count_append, List.count_cons_self] at hc
      omega
  case inr => simp

-- There is one way to get behind the third dot.
theorem trunk_unique (h : n ∈ (trunk d).lengths s) (h' : m ∈ (trunk d).lengths s) : n = m := by
  obtain ⟨x, t, hx, hn, rfl⟩ := lengths_dotted_times h
  obtain ⟨y, u, hy, hm, rfl⟩ := lengths_dotted_times h'
  have := length_le_of_count (hx ▸ hy) (by omega)
  have := length_le_of_count (hy ▸ hx) (by omega)
  omega

-- An IPv4 address up to the last octet, and where it can end at the earliest.
structure Dotted (d : Decimal) (s : Str) (x o t : Str) : Prop where
  eq       : s = x ++ '.' :: (o ++ t)
  dots     : x.count '.' = 2
  octet    : ∀ c ∈ o, d.isDecimal c = true
  ne_nil   : o ≠ []
  least    : x.length + 2 ∈ (ipv4Re d).lengths s
  least_le : ∀ m ∈ (ipv4Re d).lengths s, x.length + 2 ≤ m

theorem exists_dotted (h : n ∈ (ipv4Re d).lengths s) : ∃ x o t, Dotted d s x o t ∧ n = x.length + 1 + o.length := by
  obtain ⟨b, hb, k, hk, rfl⟩ := mem_lengths_seq.mp h
  obtain ⟨x, t, rfl, hx, rfl⟩ := lengths_dotted_times hb
  have ht : (x ++ '.' :: t).drop (x.length + 1) = t := by simp
  rw [ht] at hk
  obtain ⟨hl, hd⟩ := octet_all.of_mem_lengths hk
  have hp := octet_pos hk
  obtain ⟨c, o, ho⟩ : ∃ c o, t.take k = c :: o :=
    List.exists_cons_of_ne_nil (List.ne_nil_of_length_pos (by simp; omega))
  refine ⟨x, t.take k, t.drop k, ⟨by rw [List.take_append_drop], hx, hd, by simp [ho], ?_, fun m hm => ?_⟩, by simp [hl]⟩
  · refine mem_lengths_seq.mpr ⟨_, hb, 1, ?_, rfl⟩
    rw [ht, ← List.take_append_drop k t, ho]
    exact one_mem_octet (hd c (by simp [ho]))
  · obtain ⟨b, hb', j, hj, rfl⟩ := mem_lengths_seq.mp hm
    have := trunk_unique hb hb'
    have := octet_pos hj
    omega

theorem ipv4Re_pos : 0 ∉ (ipv4Re d).lengths s := by
  intro h
  obtain ⟨_, _, _, -, he⟩ := exists_dotted h
  omega

-- An address that starts later does not end earlier.
theorem Dotted.le_of_later {x o t : Str} (h : Dotted d s x o t) (hm : m ∈ (ipv4Re d).lengths (s.drop i)) :
    x.length + 2 ≤ i + m := by
  obtain ⟨y, u, v, hy, rfl⟩ := exists_dotted hm
  have hl : i ≤ s.length := by
    by_contra hl
    have := hy.eq
    rw [List.drop_of_length_le (by omega)] at this
    simp at this
  have he : x ++ '.' :: (o ++ t) = (s.take i ++ y) ++ '.' :: (u ++ v) := by
    rw [← h.eq, List.append_assoc, ← hy.eq, List.take_append_drop]
  have hc := length_le_of_count he.symm (by rw [List.count_append, h.dots, hy.dots]; omega)
  have hu := List.length_pos_iff.mpr hy.ne_nil
  simp only [List.length_append, List.length_take] at hc
  omega

end Parse
