import ProxyBroker.Pool.Theorems.Checkout

open Prog Negotiator

namespace Pool

variable {c : Config} {scheme : Scheme} {key : ClientKey} {s s' s'' : State} {p q : Proxy}
variable {ps qs : List Proxy} {tr : Trace Effects} {e : Pooled}

section Selection

variable {pool : List Pooled} {ctx : SelectCtx}

-- If all entries are eligible and none is benched, then all of them can be chosen.
theorem tierOf_ready (he : ∀ e ∈ pool, eligible ctx.scheme e = true)
    (hb : ∀ e ∈ pool, e.blockedUntil = none) : tierOf pool ctx true = List.range pool.length := by
  have hp (x : Pooled × Nat) (hx : x ∈ pool.zipIdx) : x.1 ∈ pool := List.fst_mem_of_mem_zipIdx hx
  unfold tierOf
  rw [List.filter_eq_self.mpr fun x hx => he _ (hp x hx), List.filter_eq_self.mpr fun x hx => ?_]
  · rw [List.zipIdx_map_snd, List.range_eq_range']
  · simp [isReady, hb _ (hp x hx)]

theorem bestFor_roundRobin {rand : Nat → Nat} (hs : ctx.strategy = .roundRobin)
    (hc : ctx.preferConnect = false) (he : ∀ e ∈ pool, eligible ctx.scheme e = true)
    (hb : ∀ e ∈ pool, e.blockedUntil = none) (hp : pool ≠ []) :
    bestFor pool ctx rand = some (ctx.roundRobinCursor.toNat % pool.length) := by
  have hn : 0 < pool.length := List.length_pos_iff.mpr hp
  have hr : List.range pool.length ≠ [] := by simpa using hp
  have hi := Nat.mod_lt ctx.roundRobinCursor.toNat hn
  simp [bestFor, tierOf_ready he hb, hr, hs, connectBiased, hc, hi]

end Selection

-- A pool whose proxies are all alike as far as the choice among them is concerned.
structure Rotating (c : Config) (scheme : Scheme) (s : State) : Prop where
  strategy      : c.strategy = .roundRobin
  preferConnect : c.preferConnect = false
  nonempty      : s.state ≠ []
  distinct      : (s.proxies.map Proxy.key).Nodup
  eligible      : ∀ e ∈ s.state, eligible scheme e = true
  unbenched     : ∀ e ∈ s.state, e.blockedUntil = none
  healthy       : ∀ e ∈ s.state, unhealthy c e.proxy = false

-- A `get` that leases `p` (without having handed back any other proxy), followed by a `put_ok` of that
-- proxy. Its statistics can have changed in between, but they do not exceed the limits.
def Cycle (c : Config) (scheme : Scheme) (s : State) (p : Proxy) (s' : State) : Prop :=
  ∃ fuel key tr₁ s₁ p' tr₂,
    (machine c).Exec s (get c fuel scheme key) tr₁ s₁ (.ret (some p)) ∧ tr₁.returned = [] ∧
    p'.ident = p.ident ∧ unhealthy c p' = false ∧
    (machine c).Exec s₁ (putOk c p') tr₂ s' (.ret ())

-- The proxies that are leased by consecutive cycles.
inductive Cycles (c : Config) (scheme : Scheme) : State → List Proxy → State → Prop
  | nil {s : State} : Cycles c scheme s [] s
  | cons {s s' s'' : State} {p : Proxy} {ps : List Proxy} :
    Cycle c scheme s p s' → Cycles c scheme s' ps s'' → Cycles c scheme s (p :: ps) s''

-- As many cycles as there are proxies lease all of them, and the next one starts over.
def Fair (c : Config) (scheme : Scheme) (s : State) : Prop :=
  ∀ ps p s', Cycles c scheme s (ps ++ [p]) s' → ps.length = s.state.length →
    (ps.map Proxy.key).Nodup ∧ ps.head?.map Proxy.key = some p.key

section Cycle

theorem swapRemove_length {α : Type} {l : List α} {i : Nat} : (swapRemove l i).length = l.length - 1 := by
  cases l using List.reverseRecOn <;> simp [swapRemove]

-- The entry that is next, and what is left of the pool when it is taken out.
def next? (s : State) : Option Pooled :=
  s.state[s.roundRobin.toNat % s.state.length]?

def rest (s : State) : State :=
  { s with
    state      := swapRemove s.state (s.roundRobin.toNat % s.state.length)
    roundRobin := s.roundRobin + 1 }

-- The selection of a proxy in a rotating pool. The cursor is advanced only afterwards.
theorem Rotating.select (h : Rotating c scheme s) (now : Instant) :
    ∃ e, next? s = some e ∧ s.select ⟨scheme, c.strategy, none, s.roundRobin, now, c.preferConnect⟩ =
      (some e.proxy, { rest s with roundRobin := s.roundRobin }) := by
  have hn : 0 < s.state.length := List.length_pos_iff.mpr h.nonempty
  obtain ⟨e, he⟩ : ∃ e, s.state[s.roundRobin.toNat % s.state.length]? = some e :=
    ⟨_, List.getElem?_eq_getElem (Nat.mod_lt _ hn)⟩
  refine ⟨e, he, ?_⟩
  rw [State.select, bestFor_roundRobin h.strategy h.preferConnect h.eligible h.unbenched h.nonempty]
  simp [h.strategy, he, rest]

theorem Rotating.draws_iff (h : Rotating c scheme s) {now : Instant} {r : Option Proxy} :
    Draws c scheme key s now r s' ↔ ∃ e, next? s = some e ∧ r = some e.proxy ∧ s' = rest s := by
  obtain ⟨e, hn, hs⟩ := h.select now
  have hc : s.select (ctxOf c scheme key s now) = (some e.proxy, { rest s with roundRobin := s.roundRobin }) := by
    rw [← hs, ctxOf, h.strategy]
    rfl
  constructor
  · rintro ⟨s₁, hd, h'⟩
    rw [hc] at hd
    cases hd
    simp only [Settles, h.strategy] at h'
    exact ⟨e, hn, rfl, h'⟩
  · rintro ⟨e', hn', rfl, rfl⟩
    cases hn.symm.trans hn'
    refine ⟨_, hc.symm, ?_⟩
    simp only [Settles, h.strategy]
    rfl

-- A cycle moves the entry that the cursor points to to the end of the pool, and what was at the end takes
-- its place.
theorem Cycle.spec (h : Rotating c scheme s) (hc : Cycle c scheme s p s') :
    ∃ e p', next? s = some e ∧ p = e.proxy ∧ p'.ident = p.ident ∧ unhealthy c p' = false ∧
      s' = (rest s).push ⟨p', none⟩ := by
  obtain ⟨fuel, key, tr₁, s₁, p', tr₂, hc⟩ := hc
  have hv : Visit c ⟨s, key, scheme, p⟩ s' := ⟨fuel, tr₁, s₁, p', tr₂, hc⟩
  obtain ⟨now, s₁, p', hd, hi, hu, rfl⟩ := hv.draws
  obtain ⟨e, hn, hp, rfl⟩ := h.draws_iff.mp hd
  exact ⟨e, p', hn, Option.some_inj.mp hp, hi, hu, rfl⟩

theorem Cycle.roundRobin (h : Rotating c scheme s) (hc : Cycle c scheme s p s') :
    s'.roundRobin = s.roundRobin + 1 := by
  obtain ⟨e, p', -, -, -, -, rfl⟩ := hc.spec h
  rfl

theorem Cycle.length (h : Rotating c scheme s) (hc : Cycle c scheme s p s') :
    s'.state.length = s.state.length := by
  obtain ⟨e, p', -, -, -, -, rfl⟩ := hc.spec h
  have := List.length_pos_iff.mpr h.nonempty
  simp only [State.push, rest, List.length_append, swapRemove_length, List.length_singleton]
  omega

theorem Cycle.rotating (h : Rotating c scheme s) (hc : Cycle c scheme s p s') : Rotating c scheme s' := by
  obtain ⟨e, p', hn, rfl, hi, hu, rfl⟩ := hc.spec h
  have hp := swapRemove_perm hn
  have he : e ∈ s.state := List.mem_of_getElem? hn
  have hm : ∀ e' ∈ ((rest s).push ⟨p', none⟩).state, e' ∈ s.state ∨ e' = ⟨p', none⟩ := by
    intro e' he'
    simp only [State.push, rest, List.mem_append, List.mem_singleton] at he'
    exact he'.imp_left fun h => hp.subset (.tail _ h)
  refine ⟨h.strategy, h.preferConnect, by simp [State.push], ?_, ?_, ?_, ?_⟩
  · refine (List.Perm.nodup_iff ?_).mpr h.distinct
    simp only [State.proxies, State.push, rest, List.map_append, List.map_cons, List.map_nil,
      Proxy.key_eq_of_ident_eq hi]
    refine (List.perm_append_singleton ..).trans ?_
    simpa using (hp.map Pooled.proxy).map Proxy.key
  · intro e' he'
    rcases hm e' he' with he' | rfl
    · exact h.eligible e' he'
    · have ht : p'.ident.types = e.proxy.ident.types := congrArg Proxy.types hi
      replace ht : p'.types = e.proxy.types := ht
      have hs := h.eligible e he
      simpa [eligible, Proxy.schemes, Proxy.hasType, ht] using hs
  · intro e' he'
    rcases hm e' he' with he' | rfl
    · exact h.unbenched e' he'
    · rfl
  · intro e' he'
    rcases hm e' he' with he' | rfl
    · exact h.healthy e' he'
    · exact hu

-- The entry that was just handed back is the last one, so a cursor that reaches the end of the pool
-- points to it.
theorem Cycle.repeated (h : Rotating c scheme s) (h₁ : Cycle c scheme s p s') (h₂ : Cycle c scheme s' q s'')
    (hc : s'.roundRobin.toNat % s.state.length = s.state.length - 1) : q.key = p.key := by
  obtain ⟨e, -, hn, rfl, -⟩ := h₂.spec (h₁.rotating h)
  rw [next?, h₁.length h, hc] at hn
  obtain ⟨e', p', -, rfl, hi, -, rfl⟩ := h₁.spec h
  simp only [State.push, rest] at hn
  rw [List.getElem?_append_right (by simp [swapRemove_length])] at hn
  simp only [swapRemove_length, Nat.sub_self, List.getElem?_cons_zero, Option.some.injEq] at hn
  cases hn
  exact Proxy.key_eq_of_ident_eq hi

-- The proxy that is next can be leased, and it can be handed back as it is.
theorem Cycle.next (h : Rotating c scheme s) (hn : next? s = some e) :
    Cycle c scheme s e.proxy ((rest s).push ⟨e.proxy, none⟩) := by
  have key : ClientKey := .header []
  have hu : unhealthy c e.proxy = false := h.healthy e (List.mem_of_getElem? hn)
  have hd : Draws c scheme key s 0 (some e.proxy) (rest s) := h.draws_iff.mpr ⟨e, hn, rfl, rfl⟩
  obtain ⟨fuel, tr₁, s₁, p', tr₂, hc⟩ := hd.visit hu
  exact ⟨fuel, key, tr₁, s₁, p', tr₂, hc⟩

end Cycle

namespace Cycles

theorem of_append (h : Cycles c scheme s (ps ++ qs) s'') :
    ∃ s', Cycles c scheme s ps s' ∧ Cycles c scheme s' qs s'' := by
  induction ps generalizing s
  case nil => exact ⟨s, .nil, h⟩
  case cons p ps hi =>
    cases h
    case cons h₁ h₂ =>
      obtain ⟨s', h₂, h₃⟩ := hi h₂
      exact ⟨s', .cons h₁ h₂, h₃⟩

-- What a cycle preserves is preserved by all of them.
theorem spec (h : Rotating c scheme s) (hc : Cycles c scheme s ps s') :
    Rotating c scheme s' ∧ s'.state.length = s.state.length ∧
    s'.roundRobin = s.roundRobin + UInt64.ofNat ps.length := by
  induction hc
  case nil => exact ⟨h, rfl, by simp⟩
  case cons h₁ _ hi =>
    obtain ⟨hr, hl, hc⟩ := hi (h₁.rotating h)
    refine ⟨hr, hl.trans (h₁.length h), ?_⟩
    rw [hc, h₁.roundRobin h]
    simp [UInt64.ofNat_add, add_assoc, UInt64.add_comm 1]

theorem exists_length (h : Rotating c scheme s) (n : Nat) :
    ∃ ps s', ps.length = n ∧ Cycles c scheme s ps s' := by
  induction n generalizing s
  case zero => exact ⟨[], s, rfl, .nil⟩
  case succ n hi =>
    obtain ⟨e, he, -⟩ := h.select 0
    have h₁ := Cycle.next h he
    obtain ⟨ps, s', rfl, h₂⟩ := hi (h₁.rotating h)
    exact ⟨e.proxy :: ps, s', rfl, .cons h₁ h₂⟩

-- The cursor reaches the end of the pool with the cycle of `q`, so that the proxy which was just handed
-- back is leased again.
theorem repeated (h : Rotating c scheme s) (hc : Cycles c scheme s (ps ++ p :: q :: qs) s')
    (hn : s.roundRobin.toNat + ps.length + 1 < 2 ^ 64)
    (he : (s.roundRobin.toNat + ps.length + 1) % s.state.length = s.state.length - 1) : q.key = p.key := by
  obtain ⟨s₁, h₁, h₂⟩ := hc.of_append
  obtain ⟨hr, hl, hc⟩ := h₁.spec h
  cases h₂
  case cons h₂ h₃ =>
    cases h₃
    case cons h₃ _ =>
      refine h₂.repeated hr h₃ ?_
      have ht : (s.roundRobin + UInt64.ofNat ps.length + 1).toNat = s.roundRobin.toNat + ps.length + 1 := by
        simp only [UInt64.toNat_add, UInt64.toNat_ofNat', UInt64.toNat_one]
        omega
      rw [h₂.roundRobin hr, hc, hl, ht, he]

end Cycles

theorem Rotating.fair (h : Rotating c scheme s) (h₁ : s.state.length = 1) : Fair c scheme s := by
  intro ps p s' hc hl
  rw [h₁] at hl
  obtain ⟨q, rfl⟩ := List.length_eq_one_iff.mp hl
  cases hc
  case cons hq hc =>
    cases hc
    case cons hp _ =>
      have hk := hq.repeated h hp (by simp [h₁, Nat.mod_one])
      simp [hk]

-- The cycle in which the cursor is at the second to last entry is followed by one in which it is at the
-- last one. Among one cycle more than there are proxies, there is such a cycle.
theorem Rotating.not_fair (h : Rotating c scheme s) (hn : s.roundRobin.toNat + s.state.length < 2 ^ 64)
    (h₂ : 1 < s.state.length) : ¬Fair c scheme s := by
  intro hf
  obtain ⟨all, s', hl, hc⟩ := Cycles.exists_length h (s.state.length + 1)
  obtain ⟨ps, p, rfl⟩ : ∃ ps p, all = ps ++ [p] :=
    ⟨_, _, (List.dropLast_concat_getLast (List.ne_nil_of_length_eq_add_one hl)).symm⟩
  replace hl : ps.length = s.state.length := by simpa using hl
  obtain ⟨hd, hh⟩ := hf ps p s' hc hl
  obtain ⟨j, hj, he⟩ : ∃ j < ps.length, (s.roundRobin.toNat + j + 1) % ps.length = ps.length - 1 := by
    have hm := Nat.mod_lt (s.roundRobin.toNat + 1) (show 0 < ps.length by omega)
    have hd := Nat.div_add_mod (s.roundRobin.toNat + 1) ps.length
    refine ⟨ps.length - 1 - (s.roundRobin.toNat + 1) % ps.length, by omega, ?_⟩
    rw [show s.roundRobin.toNat + (ps.length - 1 - (s.roundRobin.toNat + 1) % ps.length) + 1 =
      ps.length * ((s.roundRobin.toNat + 1) / ps.length) + (ps.length - 1) by omega]
    rw [Nat.mul_add_mod, Nat.mod_eq_of_lt (by omega)]
  have hj₁ : j + 1 < (ps ++ [p]).length := by simpa using hj
  have hk : (ps ++ [p])[j + 1].key = ps[j].key := by
    have hp : (ps ++ [p])[j] = ps[j] := List.getElem_append_left hj
    rw [← hp]
    have hs : ps ++ [p] = (ps ++ [p]).take j ++ (ps ++ [p])[j] :: (ps ++ [p])[j + 1] :: (ps ++ [p]).drop (j + 2) := by
      rw [← List.drop_eq_getElem_cons, ← List.drop_eq_getElem_cons, List.take_append_drop]
    rw [hs] at hc
    have ht : ((ps ++ [p]).take j).length = j := by simp; omega
    exact hc.repeated h (by omega) (by rw [ht, ← hl, he])
  have hd {i j : Nat} (hi : i < ps.length) (hj : j < ps.length) (hk : ps[i].key = ps[j].key) : i = j := by
    have hi' : i < (ps.map Proxy.key).length := by simpa
    have hj' : j < (ps.map Proxy.key).length := by simpa
    have hm : (ps.map Proxy.key)[i] = (ps.map Proxy.key)[j] := by simpa using hk
    exact hd.getElem_inj_iff.mp hm
  by_cases hj₂ : j + 1 < ps.length
  · rw [List.getElem_append_left hj₂] at hk
    have := hd _ _ hk
    omega
  · have hp : (ps ++ [p])[j + 1] = p := List.getElem_concat_length (by omega) hj₁
    have h₀ : ps[0].key = p.key := by
      rw [List.head?_eq_getElem?, List.getElem?_eq_getElem (by omega)] at hh
      simpa using hh
    have := hd _ _ (h₀.trans (hp ▸ hk))
    omega

-- With an arbitrary cursor, a rotation is fair only if there is nothing to rotate. The same holds for each
-- of the cursors that do not overflow meanwhile.
theorem roundRobin_fair_iff (h : Rotating c scheme s) (hn : s.state.length < 2 ^ 64) :
    ((∀ cursor, Fair c scheme { s with roundRobin := cursor }) ↔ s.state.length = 1) ∧
    ∀ cursor : UInt64, cursor.toNat + s.state.length < 2 ^ 64 →
      (Fair c scheme { s with roundRobin := cursor } ↔ s.state.length = 1) := by
  have hl : 0 < s.state.length := List.length_pos_iff.mpr h.nonempty
  have hr (cursor : UInt64) : Rotating c scheme { s with roundRobin := cursor } :=
    ⟨h.strategy, h.preferConnect, h.nonempty, h.distinct, h.eligible, h.unbenched, h.healthy⟩
  have hi (cursor : UInt64) (hc : cursor.toNat + s.state.length < 2 ^ 64) :
      Fair c scheme { s with roundRobin := cursor } ↔ s.state.length = 1 := by
    refine ⟨fun hf => ?_, (hr cursor).fair⟩
    by_contra h₁
    exact (hr cursor).not_fair hc (show 1 < s.state.length by omega) hf
  refine ⟨⟨fun hf => (hi 0 ?_).mp (hf 0), fun h₁ cursor => (hr cursor).fair h₁⟩, hi⟩
  simpa using hn

namespace RoundRobinExample

def config : Config :=
  { Config.default with strategy := .roundRobin }

def p₁ : Proxy :=
  (Proxy.new (.v4 10 0 0 1) 8080 ∅).addType .http none

def p₂ : Proxy :=
  (Proxy.new (.v4 10 0 0 2) 8080 ∅).addType .http none

def pool : State :=
  .fromProxies config [p₁, p₂]

theorem rotating : Rotating config .http pool where
  strategy      := rfl
  preferConnect := rfl
  nonempty      := by decide
  distinct      := by decide
  eligible      := by decide
  unbenched     := by decide
  healthy       := by decide

end RoundRobinExample

open RoundRobinExample in
-- The proxy that was leased first is leased again before the other one is.
theorem roundRobin_unfair : (∃ s', Cycles config .http pool [p₁, p₁, p₂] s') ∧ ¬Fair config .http pool := by
  have h₁ := Cycle.next rotating (e := ⟨p₁, none⟩) rfl
  have hr := h₁.rotating rotating
  have h₂ := Cycle.next hr (e := ⟨p₁, none⟩) rfl
  have h₃ := Cycle.next (h₂.rotating hr) (e := ⟨p₂, none⟩) rfl
  have hc := Cycles.cons h₁ <| .cons h₂ <| .cons h₃ .nil
  refine ⟨⟨_, hc⟩, fun hf => ?_⟩
  have := (hf [p₁, p₁] p₂ _ hc rfl).left
  simp at this

open RoundRobinExample in
theorem roundRobin_fair_iff_two : ¬∀ cursor, Fair config .http { pool with roundRobin := cursor } :=
  fun h => absurd ((roundRobin_fair_iff rotating (by decide)).left.mp h) (by decide)

end Pool
