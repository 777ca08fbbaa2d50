import ProxyBroker.Pool.Theorems.Checkout

namespace Pool

variable {c : Config} {s s' : State} {scheme : Scheme} {country : Option Str} {now : Instant} {r : Option Proxy}

-- The entries that can be checked out without waiting.
def matching (pool : List Pooled) (scheme : Scheme) (country : Option Str) : Set Nat :=
  indices pool fun e => eligible scheme e = true ∧
    country.all (fun cc => e.proxy.geo.any fun g => Str.eqIgnoreAsciiCase g.code cc) = true

theorem matching_none {pool : List Pooled} : matching pool scheme none = supporting pool scheme := by
  simp [matching, supporting]

-- Such a checkout takes the best entry out of the pool, be it ready or not.
theorem State.tryGet_cases (h : (r, s') = s.tryGet c scheme country) :
    (r = none ∧ s' = s ∧ matching s.state scheme country = ∅) ∨
    ∃ i e, IsBest s.state c.preferConnect (matching s.state scheme country) i ∧ s.state[i]? = some e ∧
      r = some e.proxy ∧ s' = { s with state := s.state.eraseIdx i } := by
  unfold State.tryGet at h
  dsimp only at h
  set l := ((s.state.zipIdx.filter fun x => Pool.eligible scheme x.1).filter fun x =>
    country.all fun cc => x.1.proxy.geo.any fun g => Str.eqIgnoreAsciiCase g.code cc).map Prod.snd with hl
  have hs : l.SortedLT := List.sortedLT_map_snd <| List.filter_sublist.trans List.filter_sublist
  have hm (i : Nat) : i ∈ l ↔ i ∈ matching s.state scheme country := by
    simp only [hl, List.mem_map, List.mem_filter, Prod.exists, List.mk_mem_zipIdx_iff_getElem?, matching, indices,
      Set.mem_ofPred_eq, and_assoc]
    constructor
    · rintro ⟨e, _, he, hs, hc, rfl⟩
      exact ⟨e, he, hs, hc⟩
    · rintro ⟨e, he, hs, hc⟩
      exact ⟨e, i, he, hs, hc, rfl⟩
  have hi (i : Nat) (h : i ∈ l) : i < s.state.length := by
    obtain ⟨e, he, -⟩ := (hm i).mp h
    exact (List.getElem?_eq_some_iff.mp he).choose
  split at h
  case h_1 hb =>
    cases h
    refine .inl ⟨rfl, rfl, Set.eq_empty_iff_forall_notMem.mpr fun i h => ?_⟩
    rw [bestByPriority_eq_none_iff] at hb
    simpa [hb] using (hm i).mpr h
  case h_2 i hb =>
    rw [bestByPriority_eq_some_iff hs hi] at hb
    simp only [hm, Set.ofPred_mem_eq] at hb
    obtain ⟨e, he, -⟩ := hb.mem
    simp only [he, Option.map_some, Prod.mk.injEq] at h
    exact .inr ⟨i, e, hb, he, h.left, h.right⟩

-- The checkout that does not wait returns what the one that does would have returned.
structure Agrees (c : Config) (s : State) (scheme : Scheme) (now : Instant) : Prop where
  same : ∀ key fuel tr s' r, (machine c).Exec s (get c fuel scheme key) tr s' (.ret r) → tr.At now →
    (s.tryGet c scheme none).1 = r
  none : ∀ key tr s' r, (machine c).Exec s (trySelect c scheme key) tr s' (.ret r) → tr.At now →
    ((s.tryGet c scheme none).1 = none ↔ r = none)

-- If an entry is ready, then the best one is, or the best one among the ready ones holds the same proxy.
def ReadyFirst (c : Config) (pool : List Pooled) (scheme : Scheme) (now : Instant) : Prop :=
  (ready pool scheme now).Nonempty → ∀ i, IsBest pool c.preferConnect (supporting pool scheme) i →
    i ∈ ready pool scheme now ∨
    ∃ j, IsBest pool c.preferConnect (ready pool scheme now) j ∧
      pool[j]?.map Pooled.proxy = pool[i]?.map Pooled.proxy

section Agreement

variable {key : ClientKey}

-- What is drawn is the best entry that is ready, if there is one.
theorem Draws.best (hs : c.strategy = .best) (h : Draws c scheme key s now r s') :
    (r = none ∧ supporting s.state scheme = ∅) ∨
    ∃ i e, IsBest s.state c.preferConnect (tier s.state (ctxOf c scheme key s now)) i ∧ s.state[i]? = some e ∧
      r = some e.proxy := by
  obtain ⟨s₁, hd, -⟩ := h
  rcases State.select_cases hd with ⟨rfl, -, he⟩ | ⟨i, e, -, hi, he, rfl, -⟩
  · exact .inl ⟨rfl, he⟩
  · exact .inr ⟨i, e, hi.best hs, he, rfl⟩

theorem Draws.of_best (hs : c.strategy = .best) :
    ∃ s', Draws c scheme key s now (s.select (ctxOf c scheme key s now)).1 s' := by
  refine ⟨(s.select (ctxOf c scheme key s now)).2, (s.select (ctxOf c scheme key s now)).2, rfl, ?_⟩
  split
  · rfl
  · simp [Settles, hs]

theorem tryGet_best (c : Config) (s : State) (scheme : Scheme) :
    ((s.tryGet c scheme none).1 = none ∧ supporting s.state scheme = ∅) ∨
    ∃ i e, IsBest s.state c.preferConnect (supporting s.state scheme) i ∧ s.state[i]? = some e ∧
      (s.tryGet c scheme none).1 = some e.proxy := by
  have h : ((s.tryGet c scheme none).1, (s.tryGet c scheme none).2) = s.tryGet c scheme none := rfl
  rcases State.tryGet_cases h with ⟨hr, -, he⟩ | ⟨i, e, hi, he, hr, -⟩
  · exact .inl ⟨hr, matching_none ▸ he⟩
  · exact .inr ⟨i, e, matching_none ▸ hi, he, hr⟩

theorem Draws.agrees (hs : c.strategy = .best) (hf : ReadyFirst c s.state scheme now)
    (h : Draws c scheme key s now r s') : (s.tryGet c scheme none).1 = r := by
  rcases tryGet_best c s scheme with ⟨hr, hn⟩ | ⟨i, e, hi, he, hr⟩
  · rcases h.best hs with ⟨rfl, -⟩ | ⟨j, e', hj, -⟩
    · exact hr
    · exact absurd hj.mem.left (hn ▸ Set.notMem_empty j)
  · rcases h.best hs with ⟨-, hn⟩ | ⟨j, e', hj, he', rfl⟩
    · exact absurd hi.mem (hn ▸ Set.notMem_empty i)
    · by_cases hne : (ready s.state scheme now).Nonempty
      · rw [tier_of_ready hne] at hj
        rcases hf hne i hi with hm | ⟨k, hk, hp⟩
        · cases (hi.of_subset ready_subset hm).unique hj
          rw [hr, Option.some_inj.mp (he.symm.trans he')]
        · cases hk.unique hj
          rw [he, he', Option.map_some, Option.map_some] at hp
          rw [hr, hp]
      · rw [tier_of_not_ready hne] at hj
        cases hi.unique hj
        rw [hr, Option.some_inj.mp (he.symm.trans he')]

end Agreement

-- The checkout that does not wait agrees with the other one exactly if no benched entry is better than all
-- of the ready ones.
theorem tryGet_agrees_iff (hs : c.strategy = .best) (hv : c.verifyOnLease = none) (s : State) (scheme : Scheme)
    (now : Instant) : Agrees c s scheme now ↔ ReadyFirst c s.state scheme now := by
  constructor
  · intro h hne i hi
    obtain ⟨s', hd⟩ : ∃ s', Draws c scheme (.header []) s now (s.select (ctxOf c scheme (.header []) s now)).1 s' :=
      Draws.of_best hs
    rcases hd.best hs with ⟨-, hn⟩ | ⟨j, e', hj, he', hr⟩
    · exact absurd hi.mem (hn ▸ Set.notMem_empty i)
    · rw [hr] at hd
      obtain ⟨tr, hx, ha, -⟩ := hd.get
      have hp := h.same _ _ _ _ _ hx ha
      rcases tryGet_best c s scheme with ⟨-, hn⟩ | ⟨i', e, hi', he, hr⟩
      · exact absurd hi.mem (hn ▸ Set.notMem_empty i)
      · cases hi.unique hi'
        rw [tier_of_ready hne] at hj
        exact .inr ⟨j, hj, by rw [he, he', Option.map_some, Option.map_some, ← hr, hp]⟩
  · intro hf
    constructor
    · intro key fuel tr s' r h ha
      obtain ⟨t, hm, hd⟩ := get_draws h (by simp [hv])
      cases (ha _ hm : t = now)
      exact hd.agrees hs hf
    · intro key tr s' r h ha
      obtain ⟨t, hm, hd⟩ := trySelect_draws h
      cases (ha _ hm : t = now)
      rw [hd.agrees hs hf]

open SelectionExample in
theorem tryGet_benched : ¬Agrees .default pool .http 0 := by
  intro h
  have hd : Draws .default .http (.header []) pool 0 (some worse) { pool with state := [⟨benched, some 1⟩] } :=
    ⟨_, by decide, rfl⟩
  obtain ⟨tr, he, ha, -⟩ := hd.get
  exact absurd (congrArg (Option.map Proxy.key) (h.same _ _ _ _ _ he ha)) (by decide +kernel)

open SelectionExample in
-- The time for which the proxy is benched has passed.
theorem tryGet_agrees_unbenched : Agrees .default pool .http 1 := by
  refine (tryGet_agrees_iff rfl rfl pool .http 1).mpr fun _ i hi => .inl ?_
  obtain ⟨e, he, hs⟩ := hi.mem
  refine ⟨e, he, hs, ?_⟩
  have hm : e ∈ pool.state := List.mem_of_getElem? he
  simp only [pool, List.mem_cons, List.not_mem_nil, or_false] at hm
  rcases hm with rfl | rfl <;> rfl

end Pool
