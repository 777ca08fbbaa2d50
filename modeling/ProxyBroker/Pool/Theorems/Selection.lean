import ProxyBroker.Keyed.Argmin
import ProxyBroker.Pool.Theorems.State
import Mathlib.Data.Prod.Lex

namespace Pool

-- How the entries of a pool are ranked: by the priority of their proxies, and then by whether they lack
-- the preferred protocol.
def rankOf (preferConnect : Bool) (e : Pooled) : ℚ ×ₗ ℚ ×ₗ Nat :=
  let (error, time) := e.proxy.priority
  toLex (error, toLex (time, (preferConnect && !e.proxy.hasType .connect80).toNat))

section Ranking

variable (pool : List Pooled) (preferConnect : Bool)

-- The rank at an index. It does not matter outside of the pool.
def rank (i : Nat) : ℚ ×ₗ ℚ ×ₗ Nat :=
  pool[i]?.elim (toLex (0, toLex (0, 0))) (rankOf preferConnect)

-- The lowest index with the least rank.
def IsBest (s : Set Nat) (i : Nat) : Prop :=
  IsFirst (rank pool preferConnect) s i

variable {pool preferConnect} {i : Nat} {e : Pooled} {l : List Nat}

theorem rank_of_getElem? (h : pool[i]? = some e) : rank pool preferConnect i = rankOf preferConnect e := by
  rw [rank, h]
  rfl

-- The iterator keeps the element that it has until there is a strictly better one, as `argmin` does.
theorem minBy_eq_argmin {α κ : Type} [LinearOrder κ] {compare : α → α → Ordering} {key : α → κ} {l : List α}
    (h : ∀ a ∈ l, ∀ b ∈ l, compare a b = .gt ↔ key b < key a) : minBy compare l = l.argmin key := by
  have fold (l : List α) (m : α) (h : ∀ a ∈ m :: l, ∀ b ∈ m :: l, compare a b = .gt ↔ key b < key a) :
      some (l.foldl (fun m b => if compare m b = .gt then b else m) m) =
      l.foldl (List.argAux fun b c => key b < key c) (some m) := by
    induction l generalizing m
    case nil => rfl
    case cons b l hi =>
      have hb := h m List.mem_cons_self b (by simp)
      simp only [List.foldl_cons, List.argAux, hb]
      split_ifs <;> exact hi _ fun a ha b hb => h a (by grind) b (by grind)
  cases l
  case nil       => rfl
  case cons m l  => exact fold l m h

theorem then_cmp_eq_gt (a a' b b' : ℚ) (n n' : Nat) : ((cmp a a').then (cmp b b')).then (cmp n n') = .gt ↔
    toLex (a', toLex (b', n')) < toLex (a, toLex (b, n)) := by
  rw [Ordering.then_eq_gt, Ordering.then_eq_gt, Ordering.then_eq_eq, cmp_eq_gt_iff, cmp_eq_gt_iff, cmp_eq_gt_iff,
    cmp_eq_eq_iff, cmp_eq_eq_iff, Prod.Lex.toLex_lt_toLex, Prod.Lex.toLex_lt_toLex]
  grind

theorem bestByPriority_eq_argmin (h : ∀ i ∈ l, i < pool.length) :
    bestByPriority pool l preferConnect = l.argmin (rank pool preferConnect) := by
  refine minBy_eq_argmin fun i hi j hj => ?_
  have he (i : Nat) (hi : i ∈ l) : pool[i]? = some (pool.get ⟨i, h i hi⟩) :=
    List.getElem?_eq_getElem (h i hi)
  have hp (i : Nat) (hi : i ∈ l) : priorityOf pool i = (pool.get ⟨i, h i hi⟩).proxy.priority := by
    rw [priorityOf, he i hi]
    rfl
  have hc (i : Nat) (hi : i ∈ l) : hasConnect pool i = (pool.get ⟨i, h i hi⟩).proxy.hasType .connect80 := by
    rw [hasConnect, he i hi]
    rfl
  rw [rank_of_getElem? (he i hi), rank_of_getElem? (he j hj), hp i hi, hp j hj, hc i hi, hc j hj]
  exact then_cmp_eq_gt ..

theorem bestByPriority_eq_some_iff (hs : l.SortedLT) (h : ∀ i ∈ l, i < pool.length) :
    bestByPriority pool l preferConnect = some i ↔ IsBest pool preferConnect {j | j ∈ l} i := by
  rw [bestByPriority_eq_argmin h, List.argmin_eq_some_iff_isFirst hs, IsBest]

end Ranking

section Tiers

variable (pool : List Pooled) (ctx : SelectCtx)

-- The indices of the entries with a property.
def indices (P : Pooled → Prop) : Set Nat :=
  {i | ∃ e, pool[i]? = some e ∧ P e}

def supporting (scheme : Scheme) : Set Nat :=
  indices pool fun e => eligible scheme e = true

def ready (scheme : Scheme) (now : Instant) : Set Nat :=
  indices pool fun e => eligible scheme e = true ∧ isReady now e = true

-- The entries that can be chosen: those that are ready, or all of them if none is.
def tier : Set Nat :=
  {i | i ∈ supporting pool ctx.scheme ∧
    ((ready pool ctx.scheme ctx.now).Nonempty → i ∈ ready pool ctx.scheme ctx.now)}

def connecting : Set Nat :=
  indices pool fun e => e.proxy.hasType .connect80 = true

-- The entries among which is rotated.
def candidates : Set Nat :=
  {i | i ∈ tier pool ctx ∧
    (ctx.preferConnect = true → (tier pool ctx ∩ connecting pool).Nonempty → i ∈ connecting pool)}

-- The entries at the address that the client is pinned to.
def pinnedTo : Set Nat :=
  {i | i ∈ tier pool ctx ∧ ∃ k, ctx.sticky = some k ∧ i ∈ indices pool fun e => e.proxy.key = k}

-- What is known of the index that is selected.
structure Selects (i : Nat) : Prop where
  tier       : i ∈ tier pool ctx
  best       : ctx.strategy = .best → IsBest pool ctx.preferConnect (Pool.tier pool ctx) i
  rotating   : ctx.strategy = .roundRobin ∨ ctx.strategy = .random → i ∈ candidates pool ctx
  roundRobin : ctx.strategy = .roundRobin → ∃ pick : List Nat, pick.SortedLT ∧
    (∀ j, j ∈ pick ↔ j ∈ candidates pool ctx) ∧ pick[ctx.roundRobinCursor.toNat % pick.length]? = some i
  sticky     : ctx.strategy = .sticky → (pinnedTo pool ctx).Nonempty → IsLeast (pinnedTo pool ctx) i
  unpinned   : ctx.strategy = .sticky → ¬(pinnedTo pool ctx).Nonempty →
    IsBest pool ctx.preferConnect (Pool.tier pool ctx) i

def tierList : List Nat :=
  if tierOf pool ctx true = [] then tierOf pool ctx false else tierOf pool ctx true

variable {pool ctx} {i : Nat} {b : Bool} {l : List Nat}

theorem tierOf_sorted : (tierOf pool ctx b).SortedLT :=
  List.sortedLT_map_snd <| List.filter_sublist.trans List.filter_sublist

theorem tierList_sorted : (tierList pool ctx).SortedLT := by
  unfold tierList
  split_ifs <;> exact tierOf_sorted

theorem mem_ready : i ∈ ready pool ctx.scheme ctx.now ↔ i ∈ tierOf pool ctx true :=
  mem_tierOf.symm

theorem mem_supporting {s : Scheme} (h : ctx.scheme = s) :
    i ∈ supporting pool s ↔ i ∈ tierOf pool ctx true ∨ i ∈ tierOf pool ctx false := by
  subst h
  simp only [mem_tierOf, supporting, indices, Set.mem_ofPred_eq]
  constructor
  · rintro ⟨e, he, hs⟩
    cases hr : isReady ctx.now e
    · exact .inr ⟨e, he, hs, hr⟩
    · exact .inl ⟨e, he, hs, hr⟩
  · rintro (⟨e, he, hs, -⟩ | ⟨e, he, hs, -⟩) <;> exact ⟨e, he, hs⟩

theorem mem_tierList : i ∈ tierList pool ctx ↔ i ∈ tier pool ctx := by
  have hr : (ready pool ctx.scheme ctx.now).Nonempty ↔ tierOf pool ctx true ≠ [] := by
    rw [← List.length_pos_iff, List.length_pos_iff_exists_mem]
    simp only [Set.Nonempty, mem_ready]
  simp only [tier, Set.mem_ofPred_eq, mem_supporting rfl, hr, mem_ready, tierList]
  split_ifs with h
  · simp [h]
  · simp only [ne_eq, h, not_false_eq_true, true_imp_iff]
    exact ⟨fun h => ⟨.inl h, h⟩, And.right⟩

theorem ready_subset {scheme : Scheme} {now : Instant} : ready pool scheme now ⊆ supporting pool scheme := by
  rintro i ⟨e, he, hs, -⟩
  exact ⟨e, he, hs⟩

theorem tier_of_ready (h : (ready pool ctx.scheme ctx.now).Nonempty) :
    tier pool ctx = ready pool ctx.scheme ctx.now := by
  ext i
  exact ⟨fun hi => hi.right h, fun hi => ⟨ready_subset hi, fun _ => hi⟩⟩

theorem tier_of_not_ready (h : ¬(ready pool ctx.scheme ctx.now).Nonempty) :
    tier pool ctx = supporting pool ctx.scheme := by
  ext i
  exact ⟨And.left, fun hi => ⟨hi, fun hr => absurd hr h⟩⟩

theorem lt_of_mem_tierList (h : i ∈ tierList pool ctx) : i < pool.length := by
  obtain ⟨⟨e, he, -⟩, -⟩ := mem_tierList.mp h
  exact (List.getElem?_eq_some_iff.mp he).choose

theorem tierList_eq_nil_iff : tierList pool ctx = [] ↔ supporting pool ctx.scheme = ∅ := by
  rw [Set.eq_empty_iff_forall_notMem]
  simp only [mem_supporting rfl, tierList]
  split_ifs with h
  · simp [h, List.eq_nil_iff_forall_not_mem]
  · obtain ⟨j, hj⟩ := List.exists_mem_of_ne_nil _ h
    exact ⟨fun hn => absurd hn h, fun hn => absurd (.inl hj) (hn j)⟩

theorem hasConnect_iff : hasConnect pool i = true ↔ i ∈ connecting pool := by
  rw [hasConnect, Option.any_eq_true]
  rfl

theorem mem_connectBiased :
    i ∈ connectBiased pool (tierList pool ctx) ctx.preferConnect ↔ i ∈ candidates pool ctx := by
  have hn : (tier pool ctx ∩ connecting pool).Nonempty ↔ (tierList pool ctx).filter (hasConnect pool) ≠ [] := by
    rw [← List.length_pos_iff, List.length_pos_iff_exists_mem]
    simp only [Set.Nonempty, Set.mem_inter_iff, ← mem_tierList, ← hasConnect_iff, List.mem_filter]
  simp only [candidates, Set.mem_ofPred_eq, hn, ← mem_tierList, connectBiased]
  split_ifs with hp hc
  · simp_all
  · simp [hc]
  · simp only [ne_eq, hc, not_false_eq_true, true_imp_iff, List.mem_filter, hasConnect_iff]
    simp_all

theorem connectBiased_sorted : (connectBiased pool (tierList pool ctx) b).SortedLT := by
  unfold connectBiased
  dsimp only
  split_ifs
  · exact tierList_sorted
  · exact tierList_sorted
  · exact (tierList_sorted.pairwise.filter _).sortedLT

theorem isBest_of_bestByPriority (h : bestByPriority pool (tierList pool ctx) b = some i) :
    IsBest pool b (tier pool ctx) i := by
  rw [bestByPriority_eq_some_iff tierList_sorted fun i => lt_of_mem_tierList] at h
  simpa only [mem_tierList, Set.ofPred_mem_eq] using h

end Tiers

section Strategies

variable {pool : List Pooled} {ctx : SelectCtx} {rand : Nat → Nat} {i : Nat}

theorem bestFor_eq : bestFor pool ctx rand =
    if tierList pool ctx = [] then none
    else
      let best := bestByPriority pool (tierList pool ctx) ctx.preferConnect
      let pick := connectBiased pool (tierList pool ctx) ctx.preferConnect
      match ctx.strategy with
      | .best       => best
      | .roundRobin => pick[ctx.roundRobinCursor.toNat % pick.length]?
      | .random     => pick[rand pick.length]?
      | .sticky     =>
        (ctx.sticky.bind fun k => (tierList pool ctx).find? fun i => pool[i]?.any (·.proxy.key = k)).or best := by
  unfold bestFor
  cases ctx.strategy <;> simp only [Option.orElse_eq_or] <;> rfl

theorem connectBiased_ne_nil (h : tierList pool ctx ≠ []) :
    connectBiased pool (tierList pool ctx) ctx.preferConnect ≠ [] := by
  unfold connectBiased
  dsimp only
  split_ifs with hp hc
  · exact h
  · exact h
  · exact hc

theorem bestByPriority_eq_none_iff {l : List Nat} {b : Bool} : bestByPriority pool l b = none ↔ l = [] := by
  cases l
  case nil  => exact ⟨fun _ => rfl, fun _ => rfl⟩
  case cons => exact ⟨fun h => absurd h (Option.some_ne_none _), fun h => by cases h⟩

theorem nextRand_lt {n : Nat} (rng : UInt64) (hn : 0 < n) : nextRand rng n < n := by
  rw [nextRand, max_eq_left hn]
  exact Nat.mod_lt _ hn

-- Every strategy finds an entry if there is one to be chosen.
theorem bestFor_eq_none_iff {rng : UInt64} :
    bestFor pool ctx (nextRand rng) = none ↔ supporting pool ctx.scheme = ∅ := by
  rw [← tierList_eq_nil_iff]
  rw [bestFor_eq]
  by_cases hn : tierList pool ctx = []
  · rw [if_pos hn]
    exact iff_of_true rfl hn
  · rw [if_neg hn]
    have hl := List.length_pos_iff.mpr (connectBiased_ne_nil hn)
    refine iff_of_false ?_ hn
    cases ctx.strategy
    case best       => exact mt bestByPriority_eq_none_iff.mp hn
    case roundRobin => simpa using Nat.mod_lt _ hl
    case random     => simpa using nextRand_lt rng hl
    case sticky     =>
      rw [Option.or_eq_none_iff, not_and]
      exact fun _ => mt bestByPriority_eq_none_iff.mp hn

theorem mem_pinnedTo : i ∈ pinnedTo pool ctx ↔
    ∃ k, ctx.sticky = some k ∧ i ∈ tierList pool ctx ∧ pool[i]?.any (·.proxy.key = k) = true := by
  simp only [pinnedTo, indices, Set.mem_ofPred_eq, mem_tierList, Option.any_eq_true, decide_eq_true_eq]
  tauto

theorem bestFor_selects {rng : UInt64} (h : bestFor pool ctx (nextRand rng) = some i) : Selects pool ctx i := by
  rw [bestFor_eq] at h
  split_ifs at h with hn
  split at h
  case h_1 hs =>
    have hb := isBest_of_bestByPriority h
    refine ⟨hb.mem, fun _ => hb, ?_, ?_, ?_, ?_⟩ <;> simp [hs]
  case h_2 hs =>
    have hc := mem_connectBiased.mp (List.mem_of_getElem? h)
    have hp : ∀ j, j ∈ connectBiased pool (tierList pool ctx) ctx.preferConnect ↔ j ∈ candidates pool ctx :=
      fun _ => mem_connectBiased
    refine ⟨hc.left, ?_, fun _ => hc, fun _ => ⟨_, connectBiased_sorted, hp, h⟩, ?_, ?_⟩ <;> simp [hs]
  case h_3 hs =>
    have hc := mem_connectBiased.mp (List.mem_of_getElem? h)
    refine ⟨hc.left, ?_, fun _ => hc, ?_, ?_, ?_⟩ <;> simp [hs]
  case h_4 hs =>
    have hp (k : Key) (j : Nat) (hj : (tierList pool ctx).find? (fun i => pool[i]?.any (·.proxy.key = k)) = some j)
        (hk : ctx.sticky = some k) : IsLeast (pinnedTo pool ctx) j := by
      have he : pinnedTo pool ctx = {i | i ∈ tierList pool ctx ∧ pool[i]?.any (·.proxy.key = k) = true} := by
        ext i
        simp only [mem_pinnedTo, hk, Option.some_inj, exists_eq_left', Set.mem_ofPred_eq]
      exact he ▸ tierList_sorted.isLeast_of_find?_eq_some hj
    rw [Option.or_eq_some_iff, Option.bind_eq_some_iff, Option.bind_eq_none_iff] at h
    rcases h with ⟨k, hk, h⟩ | ⟨hn, h⟩
    · have hl := hp k i h hk
      refine ⟨hl.left.left, ?_, ?_, ?_, fun _ _ => hl, ?_⟩ <;> simp [hs, Set.nonempty_of_mem hl.left]
    · have hb := isBest_of_bestByPriority h
      have he : ¬(pinnedTo pool ctx).Nonempty := by
        rintro ⟨j, hj⟩
        obtain ⟨k, hk, hm, ha⟩ := mem_pinnedTo.mp hj
        exact List.find?_eq_none.mp (hn k hk) j hm ha
      refine ⟨hb.mem, ?_, ?_, ?_, ?_, fun _ _ => hb⟩ <;> simp [hs, he]

end Strategies

theorem supporting_eq_empty_iff {pool : List Pooled} {scheme : Scheme} :
    supporting pool scheme = ∅ ↔ ∀ e ∈ pool, scheme ∉ e.proxy.schemes := by
  simp only [Set.eq_empty_iff_forall_notMem, supporting, indices, Set.mem_ofPred_eq, eligible, decide_eq_true_eq,
    not_exists, not_and, List.mem_iff_getElem?]
  exact ⟨fun h e ⟨i, hi⟩ => h i e hi, fun h i e hi => h e ⟨i, hi⟩⟩

-- A selection takes the entry out of the pool.
theorem State.select_cases {s s' : State} {ctx : SelectCtx} {r : Option Proxy} (h : (r, s') = s.select ctx) :
    (r = none ∧ s' = s ∧ supporting s.state ctx.scheme = ∅) ∨
    ∃ i e rng, Selects s.state ctx i ∧ s.state[i]? = some e ∧ r = some e.proxy ∧
      s' = { s with state := swapRemove s.state i, rng := rng } := by
  unfold State.select at h
  split at h
  case h_1 hb =>
    cases h
    exact .inl ⟨rfl, rfl, bestFor_eq_none_iff.mp hb⟩
  case h_2 i hb =>
    obtain ⟨e, he, -⟩ := bestFor_spec hb
    simp only [he, Option.map_some, Prod.mk.injEq] at h
    exact .inr ⟨i, e, _, bestFor_selects hb, he, h.left, h.right⟩

-- An entry is selected unless none of them supports the scheme, and it is the one that the strategy demands.
theorem bestFor_sound_complete (pool : List Pooled) (ctx : SelectCtx) (rng : UInt64) :
    (bestFor pool ctx (nextRand rng) = none ↔ ∀ e ∈ pool, ctx.scheme ∉ e.proxy.schemes) ∧
    ∀ i, bestFor pool ctx (nextRand rng) = some i → Selects pool ctx i :=
  ⟨bestFor_eq_none_iff.trans supporting_eq_empty_iff, fun _ => bestFor_selects⟩

namespace SelectionExample

-- The proxy that is benched would be the best one.
def benched : Proxy :=
  (Proxy.new (.v4 10 0 0 1) 8080 ∅).addType .http none

def worse : Proxy :=
  ((Proxy.new (.v4 10 0 0 2) 8080 ∅).addType .http none).withEwma (some 0)

def pool : State :=
  { State.fromProxies .default [] with state := [⟨benched, some 1⟩, ⟨worse, none⟩] }

end SelectionExample

open SelectionExample in
theorem bestFor_sound_complete_benched : Selects pool.state ⟨.http, .best, none, 0, 0, false⟩ 1 :=
  (bestFor_sound_complete pool.state ⟨.http, .best, none, 0, 0, false⟩ 0).right 1 (by decide +kernel)

end Pool
