import ProxyBroker.Persist.Theorems.Loading
import Mathlib.Algebra.Order.BigOperators.Group.List

namespace Persist

section Counters

variable {ps : List Proxy} {k : Key} {a : Aggregate}

def requestsOf (ps : List Proxy) : Nat :=
  (ps.map (·.requests.toNat)).sum

def errorsOf (ps : List Proxy) : Nat :=
  (ps.map fun p => (errorsTotal p).toNat).sum

theorem exact_requests (h : exact ps k = some a) : a.requests = requestsOf (history k ps) := by
  have hs (r : Option Aggregate) (p : Proxy) :
      (Aggregate.step r p).requests = (r.map Aggregate.requests).getD 0 + p.requests.toNat := by
    cases r <;> simp [Aggregate.step, Aggregate.first, Aggregate.next]
  have := Table.rowOf_sum none (history k ps) _ _ hs
  rw [← exact, h] at this
  simpa [requestsOf] using this

theorem exact_errors (h : exact ps k = some a) : a.errors = errorsOf (history k ps) := by
  have hs (r : Option Aggregate) (p : Proxy) :
      (Aggregate.step r p).errors = (r.map Aggregate.errors).getD 0 + (errorsTotal p).toNat := by
    cases r <;> simp [Aggregate.step, Aggregate.first, Aggregate.next]
  have := Table.rowOf_sum none (history k ps) _ _ hs
  rw [← exact, h] at this
  simpa [errorsOf] using this

-- The total of an address is part of the total of all of them.
theorem sum_history_le (f : Proxy → Nat) (k : Key) (ps : List Proxy) :
    ((history k ps).map f).sum ≤ (ps.map f).sum :=
  (List.filter_sublist.map f).sum_le_sum fun _ _ => Nat.zero_le _

-- Counters of 32 bits are enough for these aggregates.
def Aggregate.Small (a : Aggregate) : Prop :=
  a.requests < 2 ^ 32 ∧ a.errors < 2 ^ 32

theorem Aggregate.Small.view_eq (h : a.Small) (b : Backend) : b.view a = a := by
  cases b
  case memory =>
    have hr : min a.requests (2 ^ 32 - 1) = a.requests := Nat.min_eq_left (Nat.le_sub_one_of_lt h.left)
    have he : min a.errors (2 ^ 32 - 1) = a.errors := Nat.min_eq_left (Nat.le_sub_one_of_lt h.right)
    exact Aggregate.ext rfl hr he rfl rfl rfl
  all_goals rfl

theorem Aggregate.Small.readable (h : a.Small) (b : Backend) : b.Readable a := by
  cases b
  case sqlite => exact ⟨Nat.lt_of_lt_of_le h.left (by decide), Nat.lt_of_lt_of_le h.right (by decide)⟩
  all_goals trivial

theorem count_eq {n : Nat} (h : n < 2 ^ 32) (b : Backend) : b.count n = .ofNat n := by
  cases b
  case sqlite => rfl
  case memory => rw [Backend.count, Nat.min_eq_left (Nat.le_sub_one_of_lt h)]
  case redis  => rw [Backend.count, RedisStore.parseU32, if_pos h]

theorem Aggregate.Small.restored_eq (h : a.Small) (b b' : Backend) : b.restored k a = b'.restored k a := by
  simp only [Backend.restored, count_eq h.left, count_eq h.right]

end Counters

variable {S : Serde}

-- As long as the counters of an address stay below `2 ^ 32`, the stores cannot be told apart.
theorem backends_agree (hS : S.Faithful) {ps : List Proxy}
    (hr : ∀ k, requestsOf (history k ps) < 2 ^ 32) (he : ∀ k, errorsOf (history k ps) < 2 ^ 32) (b b' : Backend) :
    (∀ k, b.aggregate S (b.after S ps) k = b'.aggregate S (b'.after S ps) k) ∧
    ∃ qs qs', b.load S (b.after S ps) = some qs ∧ b'.load S (b'.after S ps) = some qs' ∧ qs.Perm qs' := by
  have hm {k a} (h : exact ps k = some a) : a.Small :=
    ⟨exact_requests h ▸ hr k, exact_errors h ▸ he k⟩
  have ha (b : Backend) (k : Key) : b.aggregate S (b.after S ps) k = exact ps k := by
    rw [aggregate_after hS]
    cases h : exact ps k
    case none   => rfl
    case some a => exact congrArg some ((hm h).view_eq b)
  have hl (b : Backend) : ∃ ks, Lists ps ks ∧ b.load S (b.after S ps) = some (b.listing ps ks) := by
    obtain ⟨ks, hk, h | ⟨-, k, a, h, hn⟩⟩ := load_after hS b ps
    · exact ⟨ks, hk, h⟩
    · exact absurd ((hm h).readable b) hn
  refine ⟨fun k => (ha b k).trans (ha b' k).symm, ?_⟩
  obtain ⟨ks, ⟨hn, hk⟩, h⟩    := hl b
  obtain ⟨ks', ⟨hn', hk'⟩, h'⟩ := hl b'
  refine ⟨_, _, h, h', ?_⟩
  have hp : ks.Perm ks' := (List.perm_ext_iff_of_nodup hn hn').mpr fun k => (hk k).trans (hk' k).symm
  have he : b.listing ps ks = b'.listing ps ks := by
    refine List.filterMap_congr fun k _ => ?_
    cases h : exact ps k
    case none   => rfl
    case some a => exact congrArg some ((hm h).restored_eq b b')
  rw [he]
  exact hp.filterMap _

-- An address of either family.
theorem backends_agree_v4_v6 :
    let p := { Proxy.new (.v4 1 2 3 4) 8080 ∅ with requests := 3, errors := [(.timeout, 1)], runtimes := [1 / 4] }
    let q := { Proxy.new (.v6 0x2001 0xdb8 0 0 0 0 0 1) 1080 ∅ with requests := 1 }.addType .http (some .high)
    let ps := [p, q.addType .socks5 none, p]
    (∀ k, requestsOf (history k ps) < 2 ^ 32) ∧ (∀ k, errorsOf (history k ps) < 2 ^ 32) ∧
    (∀ k, Backend.sqlite.aggregate .compact (Backend.sqlite.after .compact ps) k =
      Backend.redis.aggregate .compact (Backend.redis.after .compact ps) k) ∧
    ∃ qs qs', Backend.sqlite.load .compact (Backend.sqlite.after .compact ps) = some qs ∧
      Backend.redis.load .compact (Backend.redis.after .compact ps) = some qs' ∧ qs.Perm qs' := by
  intro p q ps
  have hr (k : Key) : requestsOf (history k ps) < 2 ^ 32 :=
    Nat.lt_of_le_of_lt (sum_history_le _ k ps) (by decide)
  have he (k : Key) : errorsOf (history k ps) < 2 ^ 32 :=
    Nat.lt_of_le_of_lt (sum_history_le _ k ps) (by decide)
  exact ⟨hr, he, backends_agree Serde.compact_faithful hr he .sqlite .redis⟩

end Persist
