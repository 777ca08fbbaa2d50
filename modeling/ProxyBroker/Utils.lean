import ProxyBroker.Text.Lines

open Utf8

-- `str::from_utf8`. Only a valid buffer is what its decoding encodes to.
def fromUtf8 (bs : Bytes) : Option Str :=
  if encode (lossy bs) = bs then some (lossy bs) else none

theorem fromUtf8_encode (s : Str) : fromUtf8 (encode s) = some s := by
  rw [fromUtf8, lossy_encode, if_pos rfl]

def getStatusCode (resp : Bytes) (start stop : Nat) : UInt16 :=
  let stop := min stop resp.length
  if stop ≤ start then 400
  else match fromUtf8 ((resp.take stop).drop start) with
    | some s => (Str.parseU16 (Str.trim s)).getD 400
    | none   => 400

def base64Alphabet : Str :=
  "ABCDEFGHIJKLMNOPQRSTUVWXYZabcdefghijklmnopqrstuvwxyz0123456789+/".toList

def base64Sextet (n : UInt32) : Char :=
  base64Alphabet.getD (n.toNat &&& 0x3F) '='

-- The four characters for a chunk of one to three bytes.
def base64Chunk (chunk : Bytes) : Str :=
  let b₀ := (chunk.getD 0 0).toUInt32
  let b₁ := (chunk.getD 1 0).toUInt32
  let b₂ := (chunk.getD 2 0).toUInt32
  let n := (b₀ <<< 16) ||| (b₁ <<< 8) ||| b₂
  [base64Sextet (n >>> 18), base64Sextet (n >>> 12),
   if 1 < chunk.length then base64Sextet (n >>> 6) else '=',
   if 2 < chunk.length then base64Sextet n else '=']

def base64Encode : Bytes → Str
  | []                     => []
  | b₀ :: b₁ :: b₂ :: rest => base64Chunk [b₀, b₁, b₂] ++ base64Encode rest
  | chunk                  => base64Chunk chunk

example : base64Encode (encode "user:pass".toList) = "dXNlcjpwYXNz".toList := by decide
example : base64Encode (encode "fooba".toList) = "Zm9vYmE=".toList := by decide

theorem base64Sextet_mem (n : UInt32) : base64Sextet n ∈ '=' :: base64Alphabet := by
  rw [base64Sextet, List.getD_eq_getElem?_getD]
  cases h : base64Alphabet[n.toNat &&& 0x3F]?
  case none   => exact List.mem_cons_self
  case some c => exact List.mem_cons_of_mem _ (List.mem_of_getElem? h)

theorem base64Encode_mem (bs : Bytes) : ∀ c ∈ base64Encode bs, c ∈ '=' :: base64Alphabet := by
  have hc (bs : Bytes) : ∀ c ∈ base64Chunk bs, c ∈ '=' :: base64Alphabet := by
    simp only [base64Chunk, List.forall_mem_cons, base64Sextet_mem, true_and]
    refine ⟨?_, ?_, by simp⟩ <;> split_ifs <;> first | exact base64Sextet_mem _ | exact List.mem_cons_self
  induction bs using base64Encode.induct
  case case1          => simp [base64Encode]
  case case2 hi       =>
    intro c h
    rw [base64Encode] at h
    exact (List.mem_append.mp h).elim (hc _ c) (hi c)
  case case3 bs h₁ h₂ =>
    rw [base64Encode.eq_3 bs h₁ h₂]
    exact hc bs
