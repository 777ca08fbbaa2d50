import ProxyBroker.Parse.Theorems.Python
import ProxyBroker.Objects.Theorems.IpText

open Regular Str

namespace Parse

variable {d : Decimal} {s t ds text : Str} {i j n : Nat} {c : Char}

-- Neither an address nor a port starts with such a character.
def Free (d : Decimal) (c : Char) : Prop :=
  d.isDecimal c = false ∧ c ≠ '.'

section Heads

theorem lengths_octet_congr {d' : Decimal} (h : ∀ c ∈ s, d.isDecimal c = d'.isDecimal c) :
    (octet d).lengths s = (octet d').lengths s :=
  have hd : SameOn s (digit d) (digit d') := SameOn.char h
  (SameOn.refl.alt <| (SameOn.refl.seq (SameOn.refl.seq hd)).alt <| SameOn.refl.seq (hd.seq (hd.alt .refl))).lengths_eq

-- A number without leading zeroes is matched as a whole.
theorem head?_lengths_octet (a : UInt8) (ht : ∀ c ∈ t.head?, d.isDecimal c = false) :
    ((octet d).lengths (ofNat a.toNat ++ t)).head? = some (ofNat a.toNat).length := by
  have ha : ∀ n < 256, ((octet .asciiOnly).lengths (ofNat n)).head? = some (ofNat n).length := by decide +kernel
  have hd : ∀ c ∈ t.head?, (octet d).All (· ≠ c) := by
    refine fun c hc => octet_all.mono fun x hx he => ?_
    rw [he, ht c hc] at hx
    cases hx
  rw [lengths_append hd, lengths_octet_congr fun c hc => ?_]
  · exact ha a.toNat a.toNat_lt
  · exact (d.isDecimal_of_isDigit (isDigit_of_mem_ofNat hc)).trans (isDigit_of_mem_ofNat hc).symm

theorem head?_lengths_dotted (a : UInt8) :
    ((seq (octet d) (lit '.')).lengths (ofNat a.toNat ++ '.' :: t)).head? = some ((ofNat a.toNat).length + 1) := by
  refine head?_lengths_seq (head?_lengths_octet a (by simp [d.isDecimal_dot])) ?_
  rw [List.drop_left]
  rfl

-- A canonical address is matched as a whole.
theorem head?_lengths_ipv4Re (a₀ a₁ a₂ a₃ : UInt8) (ht : ∀ c ∈ t.head?, d.isDecimal c = false) :
    ((ipv4Re d).lengths (IpAddr.displayV4 a₀ a₁ a₂ a₃ ++ t)).head? = some (IpAddr.displayV4 a₀ a₁ a₂ a₃).length := by
  have hd (a : UInt8) (u : Str) : (ofNat a.toNat ++ '.' :: u).drop ((ofNat a.toNat).length + 1) = u := by simp
  have hn : (IpAddr.displayV4 a₀ a₁ a₂ a₃).length = (ofNat a₀.toNat).length + 1 + ((ofNat a₁.toNat).length + 1 +
      ((ofNat a₂.toNat).length + 1 + 0)) + (ofNat a₃.toNat).length := by
    simp [IpAddr.displayV4, List.intercalate]
    omega
  have h₂ (u : Str) : (((seq (octet d) (lit '.')).times 1).lengths (ofNat a₂.toNat ++ '.' :: u)).head? =
      some ((ofNat a₂.toNat).length + 1 + 0) :=
    head?_lengths_seq (head?_lengths_dotted a₂) rfl
  have h₁ (u : Str) : (((seq (octet d) (lit '.')).times 2).lengths
      (ofNat a₁.toNat ++ '.' :: (ofNat a₂.toNat ++ '.' :: u))).head? = some (_ + 1 + (_ + 1 + 0)) :=
    head?_lengths_seq (head?_lengths_dotted a₁) (by rw [hd, h₂])
  have h₀ (u : Str) : (((seq (octet d) (lit '.')).times 3).lengths
      (ofNat a₀.toNat ++ '.' :: (ofNat a₁.toNat ++ '.' :: (ofNat a₂.toNat ++ '.' :: u)))).head? =
      some (_ + 1 + (_ + 1 + (_ + 1 + 0))) :=
    head?_lengths_seq (head?_lengths_dotted a₀) (by rw [hd, h₁])
  rw [IpParse.displayV4_append, hn]
  refine head?_lengths_seq (h₀ _) ?_
  rw [← List.drop_drop, hd, ← List.drop_drop, hd, Nat.add_zero, hd]
  exact head?_lengths_octet a₃ ht

-- Digits are not the start of an address if they are not followed by a dot.
theorem lengths_ipv4Re_eq_nil (hd : ∀ c ∈ ds, d.isDecimal c = true) (ht : ∀ c ∈ t.head?, Free d c) :
    (ipv4Re d).lengths (ds ++ t) = [] := by
  refine List.eq_nil_iff_forall_not_mem.mpr fun n hn => ?_
  obtain ⟨b, hb, -⟩ := mem_lengths_seq.mp hn
  obtain ⟨k, hk, -⟩ := mem_lengths_seq.mp hb
  obtain ⟨x, u, he, hx, -⟩ := lengths_dotted hk
  rcases List.append_eq_append_iff.mp he with ⟨z, rfl, rfl⟩ | ⟨z, rfl, hz⟩
  case inl =>
    cases z
    case nil      => exact (ht '.' rfl).right rfl
    case cons c z =>
      have hc := hx c (by simp)
      rw [(ht c rfl).left] at hc
      cases hc
  case inr =>
    cases z
    case nil => exact (ht '.' (by simp [← show '.' :: u = t from hz])).right rfl
    case cons c z =>
      obtain rfl : '.' = c := (List.cons.inj hz).left
      have hc := hd '.' (by simp)
      rw [d.isDecimal_dot] at hc
      cases hc

theorem lengths_ipv4Re_of_free (ht : ∀ c ∈ t.head?, Free d c) : (ipv4Re d).lengths t = [] :=
  @lengths_ipv4Re_eq_nil d t [] (by simp) ht

theorem takeWhile_isDecimal (hd : ∀ c ∈ ds, d.isDecimal c = true) (ht : ∀ c ∈ t.head?, d.isDecimal c = false) :
    (ds ++ t).takeWhile d.isDecimal = ds := by
  rw [takeWhile_append_of_head? (by simpa using ht), List.takeWhile_eq_self_iff.mpr hd]

theorem head?_lengths_portRe (hd : ∀ c ∈ ds, d.isDecimal c = true) (h₂ : 2 ≤ ds.length) (h₅ : ds.length ≤ 5)
    (ht : ∀ c ∈ t.head?, d.isDecimal c = false) : ((portRe d).lengths (ds ++ t)).head? = some ds.length := by
  have hl : ds.length = 2 + min 3 (ds.length - 2) := by omega
  rw [hl]
  refine head?_lengths_seq ?_ ?_
  · rw [digit, lengths_times, takeWhile_isDecimal hd ht, if_pos h₂]
    rfl
  · rw [digit, lengths_upTo, List.drop_append_of_le_length h₂,
      takeWhile_isDecimal (fun c hc => hd c (List.mem_of_mem_drop hc)) ht, List.length_drop, List.head?_reverse,
      List.range_succ, List.getLast?_concat]

theorem lengths_portRe_eq_nil (ht : ∀ c ∈ t.head?, d.isDecimal c = false) : (portRe d).lengths t = [] := by
  have hn : t.takeWhile d.isDecimal = [] := @takeWhile_isDecimal d t [] (by simp) ht
  rw [portRe, lengths, digit, lengths_times, hn]
  rfl

end Heads

theorem head?_drop_of_free {u t : Str} (hu : ∀ c ∈ u, Free d c) {k : Nat} (hk : k < u.length) :
    ∀ c ∈ ((u ++ t).drop k).head?, Free d c := by
  intro c hc
  rw [List.drop_append_of_le_length hk.le, List.head?_append_of_ne_nil _ (by simpa using hk)] at hc
  exact hu c (List.mem_of_mem_drop (List.mem_of_mem_head? hc))

theorem slice_of_drop {u : Str} (h : text.drop i = u ++ t) : slice text i (i + u.length) = u := by
  rw [slice, h, Nat.add_sub_cancel_left, List.take_left]

-- The port of an address is the next thing after it.
theorem portAfter_of_digits {sep : Str} (h : text.drop i = sep ++ (ds ++ t)) (hs : ∀ c ∈ sep, Free d c)
    (hd : ∀ c ∈ ds, d.isDecimal c = true) (h₂ : 2 ≤ ds.length) (h₅ : ds.length ≤ 5) (ht : ∀ c ∈ t.head?, Free d c) :
    portAfter d text i = some ds := by
  have hds : text.drop (i + sep.length) = ds ++ t := by rw [← List.drop_drop, h, List.drop_left]
  have hn {s : Str} (hs : ∀ c ∈ s.head?, Free d c) : ∀ c ∈ s.head?, d.isDecimal c = false := fun c hc => (hs c hc).left
  have hl : i + sep.length ≤ text.length := by
    have := congrArg List.length hds
    simp only [List.length_drop, List.length_append] at this
    omega
  have hsep {k : Nat} (hi : i ≤ k) (hk : k < i + sep.length) : ∀ c ∈ (text.drop k).head?, Free d c := by
    obtain ⟨k, rfl⟩ := Nat.exists_eq_add_of_le hi
    rw [← List.drop_drop, h]
    exact head?_drop_of_free hs (by omega)
  have hp : token d text (i + sep.length) = some (some ds) := by
    rw [token_of_port (n := ds.length), slice_of_drop hds]
    · rw [hds]
      exact lengths_ipv4Re_eq_nil hd ht
    · rw [hds]
      exact head?_lengths_portRe hd h₂ h₅ (hn ht)
  rw [Parse.portAfter_eq, nextToken_eq (Nat.le_add_right ..) hl hp
    (fun k hi hk => lengths_ipv4Re_of_free (hsep hi hk))
    fun k hi hk => lengths_portRe_eq_nil (hn (hsep hi hk))]
  rfl

-- A proxy in a list, with the text up to its port and the text up to the next proxy.
structure Listed (d : Decimal) where
  a₀ : UInt8
  a₁ : UInt8
  a₂ : UInt8
  a₃ : UInt8
  port     : UInt16
  sep      : Str
  gap      : Str
  host_ne  : (a₀, a₁, a₂, a₃) ≠ (0, 0, 0, 0)
  port_ge  : 10 ≤ port.toNat
  sep_ne   : sep ≠ []
  sep_free : ∀ c ∈ sep, Free d c
  gap_free : ∀ c ∈ gap, Free d c

namespace Listed

def host (e : Listed d) : Str :=
  IpAddr.displayV4 e.a₀ e.a₁ e.a₂ e.a₃

def digits (e : Listed d) : Str :=
  ofNat e.port.toNat

-- What is between the address and the next one.
def rest (e : Listed d) : Str :=
  e.sep ++ (e.digits ++ e.gap)

theorem digits_decimal (e : Listed d) : ∀ c ∈ e.digits, d.isDecimal c = true :=
  fun _ hc => d.isDecimal_of_isDigit (isDigit_of_mem_ofNat hc)

theorem le_length_digits (e : Listed d) : 2 ≤ e.digits.length := by
  by_contra hl
  have := (Nat.length_toDigits_le_iff (b := 10) (k := 1) (n := e.port.toNat) (by decide) (by decide)).mp
    (Nat.le_of_lt_succ (Nat.lt_of_not_le hl))
  have := e.port_ge
  omega

theorem length_digits_le (e : Listed d) : e.digits.length ≤ 5 := by
  refine (Nat.length_toDigits_le_iff (by decide) (by decide)).mpr ?_
  have := e.port.toNat_lt
  omega

theorem head?_sep (e : Listed d) {t : Str} : ∀ c ∈ (e.sep ++ t).head?, Free d c := by
  intro c hc
  rw [List.head?_append_of_ne_nil _ e.sep_ne] at hc
  exact e.sep_free c (List.mem_of_mem_head? hc)

theorem head?_gap (e : Listed d) {t : Str} (h : e.gap ≠ [] ∨ t = []) : ∀ c ∈ (e.gap ++ t).head?, Free d c := by
  intro c hc
  cases hg : e.gap
  case nil =>
    obtain rfl := h.resolve_left (by simp [hg])
    simp [hg] at hc
  case cons b gap =>
    obtain rfl : b = c := by simpa [hg] using hc
    exact e.gap_free b (hg ▸ List.mem_cons_self)

-- No address starts between two listed addresses.
theorem lengths_rest (e : Listed d) {t : Str} (h : e.gap ≠ [] ∨ t = []) {k : Nat} (hk : k < e.rest.length) :
    (ipv4Re d).lengths ((e.rest ++ t).drop k) = [] := by
  have he : e.rest ++ t = e.sep ++ (e.digits ++ (e.gap ++ t)) := by simp [rest]
  have hn {s : Str} (hs : ∀ c ∈ s.head?, Free d c) : (ipv4Re d).lengths s = [] :=
    lengths_ipv4Re_of_free hs
  rw [he]
  rcases Nat.lt_or_ge k e.sep.length with hs | hs
  · exact hn (head?_drop_of_free e.sep_free hs)
  · obtain ⟨k, rfl⟩ := Nat.exists_eq_add_of_le hs
    simp only [rest, List.length_append] at hk
    rw [← List.drop_drop, List.drop_left]
    rcases Nat.lt_or_ge k e.digits.length with hd | hd
    · rw [List.drop_append_of_le_length hd.le]
      exact lengths_ipv4Re_eq_nil (fun c hc => e.digits_decimal c (List.mem_of_mem_drop hc)) (e.head?_gap h)
    · obtain ⟨k, rfl⟩ := Nat.exists_eq_add_of_le hd
      rw [← List.drop_drop, List.drop_left]
      exact hn (head?_drop_of_free e.gap_free (by omega))

end Listed

def render (es : List (Listed d)) : Str :=
  es.flatMap fun e => e.host ++ e.rest

namespace Listed

-- The port of a listed address is the next thing after it.
theorem portAfter_eq (e : Listed d) (h : text.drop i = e.rest ++ t) (ht : e.gap ≠ [] ∨ t = []) :
    portAfter d text i = some e.digits := by
  have hs : text.drop i = e.sep ++ (e.digits ++ (e.gap ++ t)) := by simp [h, rest]
  exact portAfter_of_digits hs e.sep_free e.digits_decimal e.le_length_digits e.length_digits_le (e.head?_gap ht)

end Listed

-- The scanner finds the listed addresses with their ports.
theorem findAddrsGlobalFrom_render {es : List (Listed d)} (hg : ∀ e ∈ es.dropLast, e.gap ≠ []) {lead : Str} {fuel : Nat}
    (h : text.drop i = lead ++ render es) (hl : ∀ k < lead.length, (ipv4Re d).lengths (text.drop (i + k)) = [])
    (hf : es.length < fuel) : findAddrsGlobalFrom d text fuel i = es.map fun e => (e.host, e.digits) := by
  induction es generalizing i lead fuel
  case nil =>
    have hn : (ipv4Re d).findAt text i = none := by
      refine (findAt_eq_none ipv4Re_nil).mpr fun j hj => ?_
      obtain ⟨k, rfl⟩ := Nat.exists_eq_add_of_le hj
      rcases Nat.lt_or_ge k lead.length with hk | hk
      · exact hl k hk
      · rw [← List.drop_drop, h, render, List.flatMap_nil, List.append_nil, List.drop_of_length_le hk]
        rfl
    exact findAddrsGlobalFrom_of_none hn
  case cons e es hi =>
    obtain ⟨fuel, rfl⟩ : ∃ n, fuel = n + 1 := ⟨fuel - 1, by omega⟩
    have hp : text.drop (i + lead.length) = e.host ++ (e.rest ++ render es) := by
      rw [← List.drop_drop, h, List.drop_left, render, List.flatMap_cons, List.append_assoc]
      rfl
    have hq : text.drop (i + lead.length + e.host.length) = e.rest ++ render es := by
      rw [← List.drop_drop, hp, List.drop_left]
    have ht : e.gap ≠ [] ∨ render es = [] := by
      cases es
      case nil  => exact .inr rfl
      case cons => exact .inl (hg e List.mem_cons_self)
    have hr : 0 < e.rest.length := by
      have := List.length_pos_iff.mpr e.sep_ne
      simp only [Listed.rest, List.length_append]
      omega
    have hm : (ipv4Re d).findAt text i = some (i + lead.length, i + lead.length + e.host.length) := by
      refine findAt_eq_some.mpr ⟨Nat.le_add_right .., ?_, ⟨_, ?_, rfl⟩, fun k hk hl' => ?_⟩
      · have := congrArg List.length hp
        simp only [List.length_drop, List.length_append] at this
        omega
      · rw [hp]
        refine head?_lengths_ipv4Re _ _ _ _ fun c hc => (e.head?_sep (t := e.digits ++ e.gap ++ render es) c ?_).left
        simpa [Listed.rest] using hc
      · obtain ⟨k, rfl⟩ := Nat.exists_eq_add_of_le hk
        exact hl k (by omega)
    rw [findAddrsGlobalFrom, hm]
    dsimp only
    rw [e.portAfter_eq hq ht, slice_of_drop hp, hi ?_ hq ?_ (by simpa using hf)]
    · rfl
    · cases es
      case nil  => simp
      case cons => exact fun x hx => hg x (List.mem_cons_of_mem _ hx)
    · intro k hk
      rw [← List.drop_drop, hq]
      exact e.lengths_rest ht hk

end Parse
