import ProxyBroker.Objects.Theorems.Percentile
import ProxyBroker.Objects.Theorems.Statistics
import ProxyBroker.Stats

namespace StatsCollector

section Contributions

variable (p : Proxy)

-- What a proxy adds to each of the maps, and to the times.
def protocolsOf : List (Proto × Nat) :=
  p.typeList.map fun t => (t.1, 1)

def levelsOf : List (AnonLevel × Nat) :=
  (p.typeList.filter (·.1 = .http)).filterMap fun t => t.2.map (·, 1)

def errorsOf : List (Str × UInt32) :=
  p.errors.map fun e => (e.1.asStr, e.2)

def timesOf : List ℚ :=
  if 0 < p.avgRespTime then [p.avgRespTime] else []

end Contributions

theorem foldl_levels (m : Counts AnonLevel Nat) (ts : List (Proto × Option AnonLevel)) :
    ts.foldl (fun m t => if t.1 = .http then t.2.elim m (m.add · 1) else m) m =
    m.addAll ((ts.filter (·.1 = .http)).filterMap fun t => t.2.map (·, 1)) := by
  induction ts generalizing m
  case nil => rfl
  case cons t ts hi =>
    obtain ⟨t, l⟩ := t
    rw [List.foldl_cons, hi, List.filter_cons]
    by_cases ht : t = .http
    · cases l <;> simp [ht]
    · simp [ht]

-- The collector depends on what all of the proxies contribute.
theorem recordAll_eq (ps : List Proxy) :
    recordAll ps = {
      total       := ps.length
      working     := ps.countP Proxy.isWorking
      byProtocol  := Counts.addAll (fun _ => none) (ps.flatMap protocolsOf)
      byAnonymity := Counts.addAll (fun _ => none) (ps.flatMap levelsOf)
      byCountry   := Counts.addAll (fun _ => none) (ps.map fun p => (countryOf p, 1))
      errors      := Counts.addAll (fun _ => none) (ps.flatMap errorsOf)
      respTimes   := ps.flatMap timesOf
    } := by
  induction ps using List.reverseRecOn
  case nil => rfl
  case append_singleton ps p hi =>
    rw [recordAll_snoc, hi, record]
    simp only [foldl_levels, List.flatMap_append, List.flatMap_singleton, List.map_append, Counts.addAll_append,
      List.countP_append, List.countP_singleton, List.length_append, List.length_singleton, List.map_cons, List.map_nil,
      Counts.addAll_cons, Counts.addAll_nil, mk.injEq, true_and]
    refine ⟨?working, ?protocols, rfl, ?errors, ?times⟩
    case working   => split_ifs <;> rfl
    case protocols => exact Counts.foldl_add _ (fun t : Proto × Option AnonLevel => (t.1, 1)) _
    case errors    => exact Counts.foldl_add _ (fun e : ProxyError × UInt32 => (e.1.asStr, e.2)) _
    case times     => rw [timesOf]; split_ifs <;> simp

theorem finish_isSome (s : StatsCollector) : s.finish.isSome := by
  have hp {q : ℚ} (h : q ≤ 1) : ∃ v, percentile s.respTimes q = some v := by
    by_cases hn : s.respTimes = []
    · exact ⟨_, by rw [percentile, percentile.unrounded, if_pos hn]; rfl⟩
    · exact ⟨_, by rw [percentile, percentile.unrounded_eq hn h]; rfl⟩
  obtain ⟨_, h50⟩ := hp (q := 50 / 100) (by norm_num)
  obtain ⟨_, h90⟩ := hp (q := 90 / 100) (by norm_num)
  obtain ⟨_, h95⟩ := hp (q := 95 / 100) (by norm_num)
  simp [finish, h50, h90, h95]

theorem finish_counts {c : StatsCollector} {s : Stats} (h : c.finish = some s) :
    s.total = c.total ∧ s.working = c.working ∧ s.byProtocol = c.byProtocol ∧ s.byAnonymity = c.byAnonymity ∧
    s.byCountry = c.byCountry ∧ s.errors = c.errors := by
  simp only [finish, Option.bind_eq_bind, Option.bind_eq_some_iff, Option.pure_def] at h
  obtain ⟨_, _, _, _, _, _, h⟩ := h
  cases h
  exact ⟨rfl, rfl, rfl, rfl, rfl, rfl⟩

-- The times of some proxies in another order have the same percentiles.
theorem finish_perm {ps qs : List Proxy} (h : ps.Perm qs) : (recordAll ps).finish = (recordAll qs).finish := by
  have ht : (ps.flatMap timesOf).Perm (qs.flatMap timesOf) := h.flatMap_right _
  have hn : ps.flatMap timesOf = [] ↔ qs.flatMap timesOf = [] := by
    rw [← List.length_eq_zero_iff, ht.length_eq, List.length_eq_zero_iff]
  simp only [finish, recordAll_eq, percentile, percentile.unrounded_perm ht, ht.sum_eq, ht.length_eq, hn, h.length_eq,
    h.countP_eq, Counts.addAll_perm (h.flatMap_right protocolsOf), Counts.addAll_perm (h.flatMap_right levelsOf),
    Counts.addAll_perm (h.flatMap_right errorsOf), Counts.addAll_perm (h.map fun p => (countryOf p, 1))]

section Sums

variable (ps : List Proxy)

theorem countP_typeList (p : Proxy) (t : Proto) :
    p.typeList.countP (·.1 = t) = if p.hasType t then 1 else 0 := by
  have hf : (fun u => (Option.map (fun a => decide (a.1 = t)) ((p.types u).map (u, ·))).getD false) =
      fun u => decide (u = t) && p.hasType t := by
    funext u
    by_cases hu : u = t
    · subst hu
      cases h : p.types u <;> simp [Proxy.hasType, h]
    · cases h : p.types u <;> simp [hu]
  rw [Proxy.typeList, List.countP_filterMap, hf]
  cases h : p.hasType t
  · simp
  · cases t <;> decide

theorem sum_protocols (t : Proto) :
    (((ps.flatMap protocolsOf).filter (·.1 = t)).map Prod.snd).sum = ps.countP (·.hasType t) := by
  have hp (p : Proxy) : (((protocolsOf p).filter (·.1 = t)).map Prod.snd).sum = if p.hasType t then 1 else 0 := by
    rw [← countP_typeList, List.countP_eq_length_filter, protocolsOf, List.filter_map, List.map_map]
    simp [Function.comp_def]
  induction ps
  case nil => rfl
  case cons p ps hi =>
    rw [List.flatMap_cons, List.filter_append, List.map_append, List.sum_append, hp, hi, List.countP_cons, add_comm]

theorem sum_levels_le : ((ps.flatMap levelsOf).map Prod.snd).sum ≤ ps.countP (·.hasType .http) := by
  have hs (ts : List (Proto × Option AnonLevel)) :
      ((ts.filterMap fun t => t.2.map ((·, 1) : AnonLevel → AnonLevel × Nat)).map Prod.snd).sum ≤ ts.length := by
    induction ts
    case nil          => rfl
    case cons t ts hi => cases h : t.2 <;> simp [h] <;> omega
  have hp (p : Proxy) : ((levelsOf p).map Prod.snd).sum ≤ if p.hasType .http then 1 else 0 := by
    rw [← countP_typeList, List.countP_eq_length_filter]
    exact hs _
  induction ps
  case nil => rfl
  case cons p ps hi =>
    rw [List.flatMap_cons, List.map_append, List.sum_append, List.countP_cons, add_comm]
    exact Nat.add_le_add hi (hp p)

-- The exact number of the errors that are counted under a label.
def errorSum (l : Str) : Nat :=
  (ps.map fun p => ErrorCounts.sum (p.errors.filter (·.1.asStr = l))).sum

theorem toNat_sum (ns : List UInt32) : ns.sum.toNat = (ns.map UInt32.toNat).sum % 2 ^ 32 := by
  induction ns
  case nil          => rfl
  case cons n ns hi => rw [List.sum_cons, UInt32.toNat_add, hi, List.map_cons, List.sum_cons, Nat.add_mod_mod]

theorem sum_errors (l : Str) :
    (((ps.flatMap errorsOf).filter (·.1 = l)).map Prod.snd).sum.toNat = errorSum ps l % 2 ^ 32 := by
  rw [toNat_sum, errorSum]
  congr 1
  induction ps
  case nil => rfl
  case cons p ps hi =>
    rw [List.flatMap_cons, List.filter_append, List.map_append, List.map_append, List.sum_append, hi, List.map_cons,
      List.sum_cons, errorsOf, List.filter_map, List.map_map, List.map_map]
    rfl

end Sums

-- The counters of the errors are exact as long as they do not wrap around.
theorem stats_sound (ps : List Proxy) : ∃ s, Stats.fromProxies ps = some s ∧
    (∀ qs, ps.Perm qs → Stats.fromProxies qs = some s) ∧
    (∃ keys : Finset Str, (∀ c, c ∈ keys ↔ (s.byCountry c).isSome) ∧
      ∑ c ∈ keys, (s.byCountry c).getD 0 = s.total) ∧
    s.working ≤ s.total ∧
    (∀ t, (s.byProtocol t).getD 0 = ps.countP (·.hasType t)) ∧
    ∑ l, (s.byAnonymity l).getD 0 ≤ (s.byProtocol .http).getD 0 ∧
    (∀ l, ((s.errors l).getD 0).toNat = errorSum ps l % 2 ^ 32) ∧
    ∀ l, errorSum ps l < 2 ^ 32 → ((s.errors l).getD 0).toNat = errorSum ps l := by
  obtain ⟨s, hs⟩ := Option.isSome_iff_exists.mp (finish_isSome (recordAll ps))
  obtain ⟨ht, hw, hp, ha, hc, he⟩ := finish_counts hs
  rw [recordAll_eq] at ht hw hp ha hc he
  have hh (t : Proto) : (s.byProtocol t).getD 0 = ps.countP (·.hasType t) := by
    rw [hp, Counts.getD_addAll, Option.getD_none, zero_add, sum_protocols]
  have hn (l : Str) : ((s.errors l).getD 0).toNat = errorSum ps l % 2 ^ 32 := by
    rw [he, Counts.getD_addAll, Option.getD_none, zero_add, sum_errors]
  refine ⟨s, hs, fun qs h => (finish_perm h).symm.trans hs, ⟨(ps.map countryOf).toFinset, fun c => ?keys, ?countries⟩,
    ?working, hh, ?levels, hn, fun l hl => (hn l).trans (Nat.mod_eq_of_lt hl)⟩
  case keys =>
    simp [hc, Counts.isSome_addAll]
  case countries =>
    have hm : ∀ e ∈ ps.map fun p => (countryOf p, 1), e.1 ∈ (ps.map countryOf).toFinset := by
      intro e he
      obtain ⟨p, hp, rfl⟩ := List.mem_map.mp he
      exact List.mem_toFinset.mpr (List.mem_map_of_mem hp)
    rw [hc, ht, Counts.sum_addAll hm]
    simp [Function.comp_def]
  case working =>
    rw [hw, ht]
    exact List.countP_le_length
  case levels =>
    rw [hh, ha, Counts.sum_addAll fun _ _ => Finset.mem_univ _]
    simpa using sum_levels_le ps

end StatsCollector
