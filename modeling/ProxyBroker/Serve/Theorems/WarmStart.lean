import ProxyBroker.Serve.Theorems.Merge
import ProxyBroker.Persist.Backends

namespace Persist

variable {S : Serde} {p : Proxy} {ps : List Proxy}

theorem geo_restoreRow {row : Str × Nat × Str × Nat × Nat × ℚ × ℚ} (h : SqliteStore.restoreRow S row = some p) :
    p.geo = none := by
  obtain ⟨host, port, types, requests, errors, avg, ewma⟩ := row
  obtain ⟨host, -, hp⟩ := Option.bind_eq_some_iff.mp h
  cases hp
  rfl

theorem geo_restoreMember {s : RedisStore} {m : Str} (h : RedisStore.restoreMember S s m = some p) : p.geo = none := by
  obtain ⟨k, -, hp⟩ := Option.bind_eq_some_iff.mp h
  obtain ⟨hash, -, hp⟩ := Option.bind_eq_some_iff.mp hp
  cases hp
  rfl

-- No store knows where its proxies are.
theorem geo_load (b : Backend) (s : b.State) (h : b.load S s = some ps) : ∀ p ∈ ps, p.geo = none := by
  cases b
  case sqlite =>
    obtain ⟨rows, -, hr⟩ := Option.bind_eq_some_iff.mp h
    cases hr
    intro p hp
    obtain ⟨row, -, hp⟩ := List.mem_filterMap.mp hp
    exact geo_restoreRow hp
  case memory =>
    cases h
    intro p hp
    obtain ⟨e, -, rfl⟩ := List.mem_map.mp hp
    rfl
  case redis =>
    cases h
    intro p hp
    obtain ⟨m, -, hp⟩ := List.mem_filterMap.mp hp
    exact geo_restoreMember hp

end Persist

namespace Serve

variable {c : Pool.Config} {history loaded ps : List Proxy} {k : Key} {p : Proxy}

-- There is an admissible proxy with the given address.
def Allows (c : Pool.Config) (ps : List Proxy) (k : Key) : Prop :=
  ∃ p ∈ ps, p.key = k ∧ Pool.countryOk c p

theorem allows_append : Allows c (history ++ loaded) k ↔ Allows c history k ∨ Allows c loaded k := by
  simp only [Allows, List.mem_append, or_and_right, exists_or]

theorem allows_unionDedup : Allows c (unionDedup history loaded) k ↔
    Allows c history k ∨ Allows c loaded k ∧ k ∉ history.map Proxy.key := by
  rw [unionDedup, allows_append]
  refine or_congr_right ?_
  simp only [Allows, List.mem_filter, decide_eq_true_iff]
  constructor
  · rintro ⟨p, ⟨hp, hn⟩, rfl, ho⟩
    exact ⟨⟨p, hp, rfl, ho⟩, hn⟩
  · rintro ⟨⟨p, hp, rfl, ho⟩, hn⟩
    exact ⟨p, ⟨hp, hn⟩, rfl, ho⟩

theorem mem_load : k ∈ (load c history loaded).proxies.map Proxy.key ↔
    Allows c history k ∨ Allows c loaded k ∧ k ∉ history.map Proxy.key := by
  rw [load, proxies_fromProxies, List.mem_map, ← allows_unionDedup]
  exact exists_congr fun p => by rw [List.mem_filter]; tauto

theorem countryOk_of_none (h : c.countries = none) : Pool.countryOk c p := by
  rw [Pool.countryOk, h]

theorem countryOk_of_geo_none (h : c.countries ≠ none) (hp : p.geo = none) : ¬Pool.countryOk c p := by
  obtain ⟨set, h⟩ := Option.ne_none_iff_exists'.mp h
  simp [Pool.countryOk, h, hp]

-- The proxies of a history are only admissible if there is no list of countries. Otherwise they can but hide
-- those of the file.
theorem hides_nothing_iff (hg : ∀ p ∈ history, p.geo = none) :
    (∀ k, Allows c loaded k → k ∈ history.map Proxy.key → Allows c history k) ↔
    c.countries = none ∨ ∀ p ∈ loaded, Pool.countryOk c p → p.key ∉ history.map Proxy.key := by
  by_cases hc : c.countries = none
  case pos =>
    simp only [hc, true_or, iff_true]
    intro k _ hk
    obtain ⟨p, hp, rfl⟩ := List.mem_map.mp hk
    exact ⟨p, hp, rfl, countryOk_of_none hc⟩
  case neg =>
    have hn (k : Key) : ¬Allows c history k := by
      rintro ⟨p, hp, -, ho⟩
      exact countryOk_of_geo_none hc (hg p hp) ho
    simp only [hc, false_or, hn, imp_false]
    constructor
    · exact fun h p hp ho => h _ ⟨p, hp, rfl, ho⟩
    · rintro h _ ⟨p, hp, rfl, ho⟩
      exact h p hp ho

-- A warm start hides proxies of the file if there is a list of countries, since the stores do not remember
-- any locations.
theorem warm_start_iff (S : Serde) (b : Persist.Backend) (s : b.State) (c : Pool.Config) (history loaded : List Proxy)
    (h : b.load S s = some history) :
    ((∀ k, k ∈ (load c history loaded).proxies.map Proxy.key ↔ Allows c (history ++ loaded) k) ∧
      ∀ k ∈ (load c [] loaded).proxies.map Proxy.key, k ∈ (load c history loaded).proxies.map Proxy.key) ↔
    c.countries = none ∨ ∀ p ∈ loaded, Pool.countryOk c p → p.key ∉ history.map Proxy.key := by
  rw [← hides_nothing_iff (Persist.geo_load b s h)]
  simp only [mem_load, allows_append]
  constructor
  · rintro ⟨hi, -⟩ k ha hk
    exact ((hi k).mpr (.inr ha)).resolve_right fun h => h.right hk
  · intro hh
    have hi (k : Key) (ha : Allows c loaded k) : Allows c history k ∨ Allows c loaded k ∧ k ∉ history.map Proxy.key := by
      by_cases hk : k ∈ history.map Proxy.key
      · exact .inl (hh k ha hk)
      · exact .inr ⟨ha, hk⟩
    refine ⟨fun k => ⟨Or.imp_right And.left, fun h => h.elim .inl (hi k)⟩, ?_⟩
    rintro k (⟨_, hp, -⟩ | ⟨ha, -⟩)
    · cases hp
    · exact hi k ha

def domestic : Proxy :=
  { Proxy.new (.v4 1 2 3 4) 80 ∅ with geo := some ⟨"US".toList, "United States".toList, none, none⟩ }

-- A proxy of the file that is in the history as well, but there is no list of countries.
theorem warm_start_iff_overlap :
    let b := Persist.Backend.memory
    ∃ history, b.load .compact (b.after .compact [domestic]) = some history ∧ history.map Proxy.key = [domestic.key] ∧
    ∀ k, k ∈ (load .default history [domestic]).proxies.map Proxy.key ↔
      Allows .default (history ++ [domestic]) k := by
  intro b
  refine ⟨_, rfl, by decide, fun k => ?_⟩
  have h := warm_start_iff .compact b (b.after .compact [domestic]) .default _ [domestic] rfl
  exact (h.mpr (.inl rfl)).left k

-- The file alone would have filled the pool.
theorem warm_start_hides :
    let c := { Pool.Config.default with countries := some {"US".toList} }
    let b := Persist.Backend.memory
    ∃ history, b.load .compact (b.after .compact [domestic]) = some history ∧
    Allows c (history ++ [domestic]) domestic.key ∧
    domestic.key ∈ (load c [] [domestic]).proxies.map Proxy.key ∧
    domestic.key ∉ (load c history [domestic]).proxies.map Proxy.key := by
  intro c b
  exact ⟨_, rfl, ⟨domestic, by simp, rfl, by decide⟩, by decide, by decide⟩

end Serve
