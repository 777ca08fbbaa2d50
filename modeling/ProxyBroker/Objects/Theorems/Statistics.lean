import ProxyBroker.Objects.Proxy
import Mathlib.Tactic.Linarith

open Binary64

theorem round2_mem {x : ℚ} (h₀ : 0 ≤ x) (h₁ : x ≤ 1) : 0 ≤ round2 x ∧ round2 x ≤ 1 := by
  have hl : (0 : ℤ) ≤ roundHalfEven (x * 100) := le_roundHalfEven (by simpa using h₀)
  have hu : roundHalfEven (x * 100) ≤ (100 : ℤ) := roundHalfEven_le (by push_cast; linarith)
  have hl : (0 : ℚ) ≤ roundHalfEven (x * 100) / 100 := by
    exact div_nonneg (Int.cast_nonneg hl) (by norm_num)
  have hu : (roundHalfEven (x * 100) : ℚ) / 100 ≤ 1 := by
    rw [div_le_one (by norm_num)]
    exact_mod_cast hu
  exact ⟨nearest_nonneg hl, nearest_le hl hu nearest_one⟩

namespace ErrorCounts

-- The exact number of recorded errors.
def sum (h : ErrorCounts) : Nat :=
  (h.map fun c => c.2.toNat).sum

theorem sum_cons (c : ProxyError × UInt32) (cs : ErrorCounts) : sum (c :: cs) = c.2.toNat + sum cs := by
  simp [sum]

theorem foldl_total (h : ErrorCounts) (m : UInt32) :
    (h.foldl (fun n c => n + c.2) m).toNat = (m.toNat + sum h) % 2 ^ 32 := by
  induction h generalizing m
  case nil          => exact (Nat.mod_eq_of_lt m.toNat_lt).symm
  case cons c cs hi =>
    rw [List.foldl_cons, hi, UInt32.toNat_add, sum_cons, Nat.mod_add_mod, Nat.add_assoc]

theorem toNat_total (h : ErrorCounts) : h.total.toNat = sum h % 2 ^ 32 := by
  rw [total, foldl_total, UInt32.toNat_zero, Nat.zero_add]

theorem total_le_sum (h : ErrorCounts) : h.total.toNat ≤ sum h := by
  rw [toNat_total]
  exact Nat.mod_le ..

-- A counter that wraps around makes the sum smaller.
theorem sum_bump_le (h : ErrorCounts) (e : ProxyError) : sum (h.bump e) ≤ sum h + 1 := by
  induction h
  case nil          => exact le_rfl
  case cons c cs hi =>
    simp only [bump]
    split_ifs
    · have : (c.2 + 1).toNat ≤ c.2.toNat + 1 := Nat.mod_le ..
      simp only [sum_cons]
      omega
    · simp only [sum_cons]
      omega

end ErrorCounts

namespace Proxy

-- A proxy that does not fail more often than it is tried.
def Sound (p : Proxy) : Prop :=
  p.errors.sum ≤ p.requests.toNat

variable {p : Proxy}

theorem sound_new (host : IpAddr) (port : UInt16) (expectedTypes : Finset Proto) :
    (Proxy.new host port expectedTypes).Sound :=
  Nat.zero_le _

theorem Sound.recordAttempt (h : p.Sound) (hn : p.requests.toNat + 1 < 2 ^ 32) (runtime : Option ℚ)
    (err : Option ProxyError) : (p.recordAttempt runtime err).Sound := by
  have hr : (p.requests + 1).toNat = p.requests.toNat + 1 := Nat.mod_eq_of_lt hn
  rw [Sound, recordAttempt_requests, hr]
  cases err
  case none   => exact Nat.le_succ_of_le h
  case some e => exact (p.errors.sum_bump_le e).trans (Nat.succ_le_succ h)

theorem Sound.errorRate (h : p.Sound) : 0 ≤ p.errorRate ∧ p.errorRate ≤ 1 := by
  unfold Proxy.errorRate
  split_ifs with hr
  case pos => decide
  case neg =>
    have ht : p.errors.total.toNat ≤ p.requests.toNat := p.errors.total_le_sum.trans h
    have hp : 0 < p.requests.toNat := Nat.pos_of_ne_zero fun h => hr (UInt32.toNat_inj.mp h)
    have h₀ : (0 : ℚ) ≤ p.errors.total.toNat / p.requests.toNat := by positivity
    refine round2_mem (nearest_nonneg h₀) (nearest_le h₀ ?_ nearest_one)
    rw [div_le_one (by exact_mod_cast hp)]
    exact_mod_cast ht

theorem sum_restored (host : IpAddr) (port : UInt16) (types : Proto → Option (Option AnonLevel))
    (requests errorsTotal : UInt32) (avgRespTime : ℚ) :
    (Proxy.restored host port types requests errorsTotal avgRespTime).errors.sum = errorsTotal.toNat := by
  simp only [Proxy.restored]
  split_ifs with h
  case pos => simp [ErrorCounts.sum]
  case neg =>
    have : errorsTotal.toNat = 0 := Nat.eq_zero_of_not_pos h
    simp [ErrorCounts.sum, this]

end Proxy
