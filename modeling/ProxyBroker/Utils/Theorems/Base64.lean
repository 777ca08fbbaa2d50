import ProxyBroker.Text.Base64
import ProxyBroker.Utils
import Mathlib.Data.Bool.AllAny

theorem base64Sextet_eq (n : UInt32) : base64Sextet n = base64Alphabet.getD (n.toNat % 64) '=' := by
  rw [base64Sextet, show 0x3F = 2 ^ 6 - 1 from rfl, Nat.and_two_pow_sub_one_eq_mod]

theorem values_base64Alphabet : base64Alphabet.map Base64.value = (List.range 64).map some := by
  decide +kernel

theorem value_base64Sextet (n : UInt32) : Base64.value (base64Sextet n) = some (n.toNat % 64) := by
  have hl : n.toNat % 64 < 64 := Nat.mod_lt _ (by decide)
  have h := congrArg (fun vs => vs[n.toNat % 64]?) values_base64Alphabet
  rw [base64Sextet_eq, List.getD_eq_getElem?_getD]
  cases hc : base64Alphabet[n.toNat % 64]?
  case none   => simp [hc, hl] at h
  case some c => simpa [hc, hl] using h

-- The padding is not part of the alphabet.
theorem base64Sextet_ne (n : UInt32) : base64Sextet n ≠ '=' := by
  intro h
  have hv := value_base64Sextet n
  rw [h] at hv
  exact absurd hv.symm (Option.some_ne_none _)

theorem value_shiftRight (n k : UInt32) :
    Base64.value (base64Sextet (n >>> k)) = some (n.toNat / 2 ^ (k.toNat % 32) % 64) := by
  rw [value_base64Sextet, UInt32.toNat_shiftRight, Nat.shiftRight_eq_div_pow]

-- The 24-bit group of a chunk.
def base64Group (b₀ b₁ b₂ : UInt8) : UInt32 :=
  (b₀.toUInt32 <<< 16) ||| (b₁.toUInt32 <<< 8) ||| b₂.toUInt32

theorem toNat_base64Group (b₀ b₁ b₂ : UInt8) :
    (base64Group b₀ b₁ b₂).toNat = b₀.toNat * 65536 + b₁.toNat * 256 + b₂.toNat := by
  have h₀ := b₀.toNat_lt
  have h₁ := b₁.toNat_lt
  have h₂ := b₂.toNat_lt
  have hs₀ : b₀.toNat <<< 16 < 2 ^ 32 := by rw [Nat.shiftLeft_eq]; omega
  have hs₁ : b₁.toNat <<< 8 < 2 ^ 32 := by rw [Nat.shiftLeft_eq]; omega
  have hs₂ : b₁.toNat <<< 8 + b₂.toNat < 2 ^ 16 := by rw [Nat.shiftLeft_eq]; omega
  simp only [base64Group, UInt32.toNat_or, UInt32.toNat_shiftLeft, UInt8.toNat_toUInt32, UInt32.reduceToNat,
    Nat.reduceMod]
  rw [Nat.mod_eq_of_lt hs₀, Nat.mod_eq_of_lt hs₁, Nat.or_assoc, ← Nat.shiftLeft_add_eq_or_of_lt h₂,
    ← Nat.shiftLeft_add_eq_or_of_lt hs₂, Nat.shiftLeft_eq, Nat.shiftLeft_eq]
  omega

def base64Group.ofChunk (chunk : Bytes) : UInt32 :=
  base64Group (chunk.getD 0 0) (chunk.getD 1 0) (chunk.getD 2 0)

section Chunk

variable {x : Bytes}

theorem toNat_ofChunk (x : Bytes) :
    (base64Group.ofChunk x).toNat =
    (x.getD 0 0).toNat * 65536 + (x.getD 1 0).toNat * 256 + (x.getD 2 0).toNat :=
  toNat_base64Group ..

theorem ofChunk_lt (x : Bytes) : (base64Group.ofChunk x).toNat < 2 ^ 24 := by
  have h₀ := (x.getD 0 0).toNat_lt
  have h₁ := (x.getD 1 0).toNat_lt
  have h₂ := (x.getD 2 0).toNat_lt
  rw [toNat_ofChunk]
  omega

theorem octets_ofChunk (x : Bytes) :
    Base64.octets (base64Group.ofChunk x).toNat = [x.getD 0 0, x.getD 1 0, x.getD 2 0] := by
  have h₀ := (x.getD 0 0).toNat_lt
  have h₁ := (x.getD 1 0).toNat_lt
  have h₂ := (x.getD 2 0).toNat_lt
  rw [Base64.octets, toNat_ofChunk]
  simp only [List.cons.injEq, ← UInt8.toNat_inj, UInt8.toNat_ofNat', and_true]
  omega

theorem decode_chunk₁ (b₀ : UInt8) : Base64.decode (base64Chunk [b₀]) = some [b₀] := by
  have h₀ : (base64Group.ofChunk [b₀]).toNat % 2 ^ 16 = 0 := by
    rw [toNat_ofChunk]
    simp
  have hq := Base64.lastQuantum_one (ofChunk_lt [b₀]) (value_shiftRight _ 18) (value_shiftRight _ 12) h₀
  rw [octets_ofChunk] at hq
  exact hq

theorem decode_chunk₂ (b₀ b₁ : UInt8) : Base64.decode (base64Chunk [b₀, b₁]) = some [b₀, b₁] := by
  have h₀ : (base64Group.ofChunk [b₀, b₁]).toNat % 2 ^ 8 = 0 := by
    rw [toNat_ofChunk]
    simp
    omega
  have hq := Base64.lastQuantum_two (ofChunk_lt [b₀, b₁]) (value_shiftRight _ 18) (value_shiftRight _ 12)
    (value_shiftRight _ 6) h₀
  rw [octets_ofChunk] at hq
  exact hq

theorem decode_chunk₃ (b₀ b₁ b₂ : UInt8) (cs : Str) :
    Base64.decode (base64Chunk [b₀, b₁, b₂] ++ cs) = (Base64.decode cs).map ([b₀, b₁, b₂] ++ ·) := by
  have hq := Base64.quantum_eq (ofChunk_lt [b₀, b₁, b₂]) (value_shiftRight _ 18) (value_shiftRight _ 12)
    (value_shiftRight _ 6) (value_base64Sextet _)
  rw [octets_ofChunk] at hq
  exact (Base64.decode_quantum (base64Sextet_ne _) cs).trans
    (congrArg (Option.bind · fun bs => (Base64.decode cs).map (bs ++ ·)) hq)

end Chunk

-- The chunks of the loop over `input.chunks(3)`, of which only the last one can be shorter.
theorem base64Encode_induction {P : Bytes → Prop} (bs : Bytes) (nil : P []) (one : ∀ b₀, P [b₀])
    (two : ∀ b₀ b₁, P [b₀, b₁]) (three : ∀ b₀ b₁ b₂ bs, P bs → P (b₀ :: b₁ :: b₂ :: bs)) : P bs := by
  induction bs using base64Encode.induct
  case case1             => exact nil
  case case2 bs hi       => exact three _ _ _ bs hi
  case case3 chunk h₁ h₂ =>
    rcases chunk with _ | ⟨b₀, _ | ⟨b₁, _ | ⟨b₂, bs⟩⟩⟩
    · exact nil
    · exact one b₀
    · exact two b₀ b₁
    · exact absurd rfl (h₂ b₀ b₁ b₂ bs)

theorem base64Encode_one (b₀ : UInt8) : base64Encode [b₀] = base64Chunk [b₀] := by
  simp [base64Encode]

theorem base64Encode_two (b₀ b₁ : UInt8) : base64Encode [b₀, b₁] = base64Chunk [b₀, b₁] := by
  simp [base64Encode]

theorem decode_base64Encode (bs : Bytes) : Base64.decode (base64Encode bs) = some bs := by
  induction bs using base64Encode_induction
  case nil               => rfl
  case one b₀            => rw [base64Encode_one, decode_chunk₁]
  case two b₀ b₁         => rw [base64Encode_two, decode_chunk₂]
  case three b₀ b₁ b₂ bs hi => rw [base64Encode, decode_chunk₃, hi]; rfl

theorem base64Encode_injective : Function.Injective base64Encode := by
  intro bs cs h
  have hd := decode_base64Encode bs
  rw [h, decode_base64Encode cs] at hd
  exact (Option.some.inj hd).symm

theorem length_base64Encode (bs : Bytes) : (base64Encode bs).length = 4 * ((bs.length + 2) / 3) := by
  induction bs using base64Encode_induction
  case nil => rfl
  case one => simp [base64Encode_one, base64Chunk]
  case two => simp [base64Encode_two, base64Chunk]
  case three b₀ b₁ b₂ bs hi =>
    rw [base64Encode, List.length_append, hi, show (base64Chunk [b₀, b₁, b₂]).length = 4 from rfl]
    simp only [List.length_cons]
    omega

-- The padding that is missing to a multiple of three bytes.
theorem exists_padding (bs : Bytes) :
    ∃ body, base64Encode bs = body ++ List.replicate ((3 - bs.length % 3) % 3) '=' ∧ '=' ∉ body := by
  induction bs using base64Encode_induction
  case nil => exact ⟨[], rfl, List.not_mem_nil⟩
  case one b₀ =>
    refine ⟨(base64Chunk [b₀]).take 2, base64Encode_one b₀, ?_⟩
    simp [base64Chunk, (base64Sextet_ne _).symm]
  case two b₀ b₁ =>
    refine ⟨(base64Chunk [b₀, b₁]).take 3, base64Encode_two b₀ b₁, ?_⟩
    simp [base64Chunk, (base64Sextet_ne _).symm]
  case three b₀ b₁ b₂ bs hi =>
    obtain ⟨body, he, hb⟩ := hi
    refine ⟨base64Chunk [b₀, b₁, b₂] ++ body, ?_, ?_⟩
    · rw [base64Encode, he, List.append_assoc, List.length_cons, List.length_cons, List.length_cons,
        show bs.length + 1 + 1 + 1 = bs.length + 3 from rfl, Nat.add_mod_right]
    · simp [base64Chunk, (base64Sextet_ne _).symm, hb]

theorem base64Encode_rfc4648 :
    Function.Injective base64Encode ∧
    ∀ bs, Base64.decode (base64Encode bs) = some bs ∧
      (base64Encode bs).length = 4 * ((bs.length + 2) / 3) ∧
      (∃ body, base64Encode bs = body ++ List.replicate ((3 - bs.length % 3) % 3) '=' ∧ '=' ∉ body) ∧
      ∀ c ∈ base64Encode bs, c ≠ '\r' ∧ c ≠ '\n' ∧ c ≠ ' ' ∧ c ≠ ':' := by
  have ha : ∀ c ∈ '=' :: base64Alphabet, c ≠ '\r' ∧ c ≠ '\n' ∧ c ≠ ' ' ∧ c ≠ ':' :=
    List.all_iff_forall_prop.mp (by decide)
  exact ⟨base64Encode_injective, fun bs => ⟨decode_base64Encode bs, length_base64Encode bs, exists_padding bs,
    fun c hc => ha c (base64Encode_mem bs c hc)⟩⟩
