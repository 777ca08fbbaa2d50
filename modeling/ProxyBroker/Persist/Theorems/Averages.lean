import ProxyBroker.Persist.Theorems.Refinement
import Mathlib.Tactic.Linarith

namespace Persist

-- The latencies that have been measured.
def latencies (ps : List Proxy) : List ℚ :=
  (ps.map Proxy.avgRespTime).filter (0 < ·)

-- A value between the smallest and the largest one of a list.
def Between (ls : List ℚ) (x : ℚ) : Prop :=
  ∃ l ∈ ls, ∃ u ∈ ls, l ≤ x ∧ x ≤ u

structure Aggregate.InRange (a : Aggregate) (ls : List ℚ) : Prop where
  ewma    : 0 ≤ a.ewmaSuccess ∧ a.ewmaSuccess ≤ 1
  latency : ls ≠ [] → Between ls a.avgLatency

section Fold

variable {ps : List Proxy} {a : Aggregate} {p : Proxy}

theorem sample_mem (p : Proxy) : 0 ≤ sample p ∧ sample p ≤ 1 := by
  unfold sample
  split_ifs <;> decide

theorem mem_latencies {l : ℚ} : l ∈ latencies ps ↔ (∃ p ∈ ps, p.avgRespTime = l) ∧ 0 < l := by
  simp [latencies]

theorem step_ewma {r : Option Aggregate} (h : ∀ a ∈ r, 0 ≤ a.ewmaSuccess ∧ a.ewmaSuccess ≤ 1) (p : Proxy) :
    0 ≤ (Aggregate.step r p).ewmaSuccess ∧ (Aggregate.step r p).ewmaSuccess ≤ 1 := by
  have hp := sample_mem p
  cases r
  case none => exact hp
  case some a =>
    have ha := h a rfl
    simp only [Aggregate.step, Aggregate.next]
    constructor <;> linarith

theorem rowOf_ewma {r : Option Aggregate} (h : ∀ a ∈ r, 0 ≤ a.ewmaSuccess ∧ a.ewmaSuccess ≤ 1) :
    ∀ a ∈ Table.rowOf Aggregate.step r ps, 0 ≤ a.ewmaSuccess ∧ a.ewmaSuccess ≤ 1 := by
  induction ps generalizing r
  case nil          => exact h
  case cons p ps hi =>
    refine hi fun a ha => ?_
    cases ha
    exact step_ewma h p

-- An average moves towards a latency, but not beyond it.
theorem Between.mix {ls : List ℚ} {x y : ℚ} (h : Between ls x) (hy : y ∈ ls) :
    Between ls (3 / 10 * y + 7 / 10 * x) := by
  obtain ⟨l, hl, u, hu, hlx, hxu⟩ := h
  rcases le_total x y with hxy | hxy
  · exact ⟨l, hl, y, hy, by linarith, by linarith⟩
  · exact ⟨y, hy, u, hu, by linarith, by linarith⟩

theorem rowOf_between {ls : List ℚ} (hl : ∀ l ∈ latencies ps, l ∈ ls) {a a' : Aggregate} (h : Between ls a.avgLatency)
    (ha : Table.rowOf Aggregate.step (some a) ps = some a') : Between ls a'.avgLatency := by
  induction ps generalizing a
  case nil =>
    cases ha
    exact h
  case cons p ps hi =>
    refine hi (fun l hm => hl l ?_) ?_ ha
    · obtain ⟨⟨q, hq, he⟩, hp⟩ := mem_latencies.mp hm
      exact mem_latencies.mpr ⟨⟨q, List.mem_cons_of_mem _ hq, he⟩, hp⟩
    · simp only [Aggregate.step, Aggregate.next]
      split_ifs with hp
      · exact h.mix (hl _ (mem_latencies.mpr ⟨⟨p, List.mem_cons_self, rfl⟩, hp⟩))
      · exact h

-- Without a measurement, the average stays what it is.
theorem rowOf_unmeasured {a a' : Aggregate} (h : ∀ p ∈ ps, ¬0 < p.avgRespTime)
    (ha : Table.rowOf Aggregate.step (some a) ps = some a') : a'.avgLatency = a.avgLatency := by
  induction ps generalizing a
  case nil =>
    cases ha
    rfl
  case cons p ps hi =>
    rw [hi (fun q hq => h q (List.mem_cons_of_mem _ hq)) ha]
    exact if_neg (h p List.mem_cons_self)

end Fold

section History

variable {S : Serde} {ps : List Proxy} {k : Key}

-- An average that starts with a measurement, or never has one, is in range.
theorem rowOf_inRange (h : (∀ p ∈ ps.head?, 0 < p.avgRespTime) ∨ latencies ps = []) :
    ∀ a ∈ Table.rowOf Aggregate.step none ps, a.InRange (latencies ps) := by
  intro a ha
  refine ⟨rowOf_ewma (r := none) (by simp) a ha, fun hn => ?_⟩
  replace h := h.resolve_right hn
  cases ps
  case nil => simp [latencies] at hn
  case cons p ps =>
    have hp : p.avgRespTime ∈ latencies (p :: ps) :=
      mem_latencies.mpr ⟨⟨p, List.mem_cons_self, rfl⟩, h p rfl⟩
    refine rowOf_between (fun l hl => ?_) ⟨_, hp, _, hp, le_rfl, le_rfl⟩ ha
    obtain ⟨⟨q, hq, he⟩, hp⟩ := mem_latencies.mp hl
    exact mem_latencies.mpr ⟨⟨q, List.mem_cons_of_mem _ hq, he⟩, hp⟩

-- The first measurement is averaged with a value that has not been measured.
theorem rowOf_not_inRange {p q : Proxy} (hp : ¬0 < p.avgRespTime) (hs : ∀ p ∈ ps, ¬0 < p.avgRespTime)
    (hq : 0 < q.avgRespTime) :
    ∃ a ∈ Table.rowOf Aggregate.step none (p :: ps ++ [q]), ¬a.InRange (latencies (p :: ps ++ [q])) := by
  have hl : latencies (p :: ps ++ [q]) = [q.avgRespTime] := by
    have hn : (ps.map Proxy.avgRespTime).filter (0 < ·) = [] := by simpa using hs
    simp [latencies, hp, hq, hn]
  obtain ⟨a, ha⟩ := Table.exists_rowOf_some Aggregate.step ps (Aggregate.first p)
  have he : a.avgLatency = p.avgRespTime := rowOf_unmeasured hs ha
  refine ⟨a.next q, ?_, fun h => ?_⟩
  · rw [Option.mem_def, Table.rowOf_snoc, Table.rowOf_cons]
    simp only [Aggregate.step, ha]
  · rw [hl] at h
    have hb := h.latency (by simp)
    simp only [Between, List.mem_singleton, exists_eq_left] at hb
    have hn : (a.next q).avgLatency = 3 / 10 * q.avgRespTime + 7 / 10 * a.avgLatency := if_pos hq
    linarith [hb.left]

-- The property of the averages that is at stake. It is to hold after each upsert.
def AveragesInRange (S : Serde) (b : Backend) (ps : List Proxy) (k : Key) : Prop :=
  ∀ qs, qs <+: ps → ∀ a ∈ b.aggregate S (b.after S qs) k, a.InRange (latencies (history k qs))

theorem inRange_view {ls : List ℚ} {a : Aggregate} (b : Backend) : (b.view a).InRange ls ↔ a.InRange ls := by
  cases b
  case memory => exact ⟨fun h => ⟨h.ewma, h.latency⟩, fun h => ⟨h.ewma, h.latency⟩⟩
  all_goals rfl

theorem averagesInRange_iff_exact (hS : S.Faithful) (b : Backend) :
    AveragesInRange S b ps k ↔ ∀ qs, qs <+: ps → ∀ a ∈ exact qs k, a.InRange (latencies (history k qs)) := by
  refine forall₂_congr fun qs _ => ?_
  rw [aggregate_after hS]
  cases exact qs k
  case none   => simp
  case some a => simpa using inRange_view b

-- The averages of an address are in range iff the latency of its first upsert has been measured, or no
-- latency has.
theorem averages_in_range_iff (hS : S.Faithful) (b : Backend) (ps : List Proxy) (k : Key) :
    AveragesInRange S b ps k ↔
    (∀ p ∈ (history k ps).head?, 0 < p.avgRespTime) ∨ latencies (history k ps) = [] := by
  rw [averagesInRange_iff_exact hS]
  constructor
  · intro h
    by_contra hn
    push Not at hn
    obtain ⟨⟨p, hh, hp⟩, hl⟩ := hn
    replace hp := not_lt.mpr hp
    obtain ⟨rest, hc⟩ := List.head?_eq_some_iff.mp hh
    -- The prefix that ends with the first measurement is out of range.
    obtain ⟨q, hf⟩ : ∃ q, rest.find? (0 < ·.avgRespTime) = some q := by
      obtain ⟨l, hl⟩ := List.exists_mem_of_ne_nil _ hl
      obtain ⟨⟨q, hm, rfl⟩, hq⟩ := mem_latencies.mp hl
      rw [hc] at hm
      rcases List.mem_cons.mp hm with rfl | hm
      · exact absurd hq hp
      · exact Option.isSome_iff_exists.mp (List.find?_isSome.mpr ⟨q, hm, by simpa using hq⟩)
    obtain ⟨hq, as, bs, rfl, has⟩ := List.find?_eq_some_iff_append.mp hf
    have hs : history k ps = (p :: as ++ [q]) ++ bs := by simp [hc]
    obtain ⟨qs, rs, rfl, hqs, -⟩ := List.filter_eq_append_iff.mp hs
    obtain ⟨a, ha, hn⟩ := rowOf_not_inRange hp (fun p hm => by simpa using has p hm) (by simpa using hq)
    rw [← hqs] at ha hn
    exact hn (h qs ⟨rs, rfl⟩ a ha)
  · rintro h qs ⟨rs, rfl⟩
    have ha : history k (qs ++ rs) = history k qs ++ history k rs := List.filter_append ..
    rw [ha] at h
    refine rowOf_inRange (h.imp (fun h p hp => ?_) fun h => ?_)
    · exact h p (by simp [Option.mem_def.mp hp])
    · simp only [latencies, List.map_append, List.filter_append, List.append_eq_nil_iff] at h
      exact h.left

-- Four checks of a proxy, of which the third one fails, and one of another proxy.
theorem averages_in_range_iff_measured :
    let p := { Proxy.new (.v4 1 2 3 4) 8080 ∅ with runtimes := [2] }
    let q := Proxy.new (.v4 1 2 3 5) 8080 ∅
    let ps := [q, p, { p with runtimes := [1 / 2] }, { p with runtimes := [] }, { p with runtimes := [5] }]
    latencies (history p.key ps) = [2, 1 / 2, 5] ∧ AveragesInRange .compact .memory ps p.key :=
  ⟨by decide +kernel, (averages_in_range_iff Serde.compact_faithful ..).mpr (.inl (by decide +kernel))⟩

-- An unsuccessful check is followed by a successful one that takes 100 seconds. The average becomes 30.
theorem averages_out_of_range :
    let p := Proxy.new (.v4 1 2 3 4) 8080 ∅
    let q := { p with runtimes := [100] }
    ∀ b, ¬AveragesInRange .compact b [p, q] p.key := by
  intro p q b h
  have hp : ¬0 < p.avgRespTime := by decide
  have hq : 0 < q.avgRespTime := by decide +kernel
  have hs : ∀ r ∈ ([] : List Proxy), ¬0 < r.avgRespTime := by simp
  obtain ⟨a, ha, hn⟩ := rowOf_not_inRange hp hs hq
  exact hn ((averagesInRange_iff_exact Serde.compact_faithful b).mp h _ (List.prefix_refl _) a ha)

end History

end Persist
