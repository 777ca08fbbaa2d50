import ProxyBroker.Persist.Theorems.Refinement

namespace Persist

variable {S : Serde} {ps : List Proxy}

-- Whether a store can read the counters again.
def Backend.Readable : Backend → Aggregate → Prop
  | sqlite, a => a.requests < 2 ^ 63 ∧ a.errors < 2 ^ 63
  | _, _      => True

-- What a store yields for the addresses that it knows.
def Backend.listing (b : Backend) (ps : List Proxy) (ks : List Key) : List Proxy :=
  ks.filterMap fun k => (exact ps k).map (b.restored k)

-- The addresses that a store knows in some order.
def Lists (ps : List Proxy) (ks : List Key) : Prop :=
  ks.Nodup ∧ ∀ k, k ∈ ks ↔ k ∈ ps.map Proxy.key

theorem mem_exact {k : Key} : (exact ps k).isSome ↔ k ∈ ps.map Proxy.key := by
  rw [exact, Table.rowOf_isSome, history, ne_eq, List.filter_eq_nil_iff]
  simp

-- What looks the same in one way also looks the same in any coarser way.
theorem map_eq_map {α β γ δ : Type} {x : Option α} {y : Option β} {f : α → γ} {g : β → γ} {f' : α → δ} {g' : β → δ}
    (h : x.map f = y.map g) (hc : ∀ a b, f a = g b → f' a = g' b) : x.map f' = y.map g' := by
  cases x <;> cases y <;> simp only [Option.map_none, Option.map_some, reduceCtorEq, Option.some_inj] at h ⊢
  case some.some a b => exact hc a b h

theorem memory_load (hS : S.Faithful) (ps : List Proxy) :
    ∃ ks, Lists ps ks ∧ Backend.memory.load S (Backend.memory.after S ps) = some (Backend.memory.listing ps ks) := by
  let t : MemoryStore := Backend.memory.after S ps
  have hm (k : Key) : k ∈ t.keys ↔ k ∈ ps.map Proxy.key :=
    (Table.mem_foldl_absorb Proxy.key MemoryStore.entry ∅ ps k).trans (by simp)
  refine ⟨t.keys, ⟨t.keys_nodup, hm⟩, congrArg some ?_⟩
  let restore (k : Key) (r : Record) : Proxy :=
    (Proxy.restored k.host k.port r.types r.requests r.errors r.avgLatency).withEwma (some r.ewmaSuccess)
  calc
    t.entries.map (fun e => restore e.1 e.2)
    _ = t.keys.filterMap fun k => (t.lookup k).map (restore k) := by
      have hk : ∀ k ∈ t.keys, ∃ j, id j = k := fun k _ => ⟨k, rfl⟩
      have h := Table.filterMap_entries id some (fun _ => rfl) hk fun k r => some (restore k r)
      rw [List.filterMap_some] at h
      rw [← List.filterMap_eq_map]
      exact h.trans (List.filterMap_congr fun k _ => Option.map_eq_bind.symm)
    _ = Backend.memory.listing ps t.keys := by
      refine List.filterMap_congr fun k _ => map_eq_map (aggregate_after hS .memory ps k) fun r a h => ?_
      obtain ⟨ht, hn, he, hs, hl, -⟩ := Aggregate.mk.inj h
      have hr : r.requests = Backend.memory.count a.requests := by rw [Backend.count, ← hn, UInt32.ofNat_toNat]
      have he : r.errors = Backend.memory.count a.errors := by rw [Backend.count, ← he, UInt32.ofNat_toNat]
      simp only [restore, Backend.restored, ht, hr, he, hs, hl]

section Sqlite

open SqliteStore

def columns (e : Sigma fun _ : Str × Nat => Row) : Str × Nat × Str × Nat × Nat × ℚ × ℚ :=
  (e.1.1, e.1.2, e.2.types, e.2.requests, e.2.errors, e.2.avgLatency, e.2.ewmaSuccess)

theorem getRow_eq (e : Sigma fun _ : Str × Nat => Row) :
    getRow e = if e.2.requests < 2 ^ 63 ∧ e.2.errors < 2 ^ 63 then some (columns e) else none := by
  simp only [getRow, getI64, columns]
  by_cases hr : e.2.requests < 2 ^ 63 <;> by_cases he : e.2.errors < 2 ^ 63 <;> simp only [hr, he] <;> rfl

def readKey (k : Str × Nat) : Option Key :=
  (IpAddr.parse k.1).map (⟨·, .ofNat k.2⟩)

theorem readKey_rowKey (k : Key) : readKey (rowKey k) = some k := by
  simp [readKey, rowKey, IpAddr.parse_display]

theorem restoreRow_columns (e : Sigma fun _ : Str × Nat => Row) :
    restoreRow S (columns e) =
    (readKey e.1).bind fun k => some (Backend.sqlite.restored k (e.2.aggregate S)) := by
  rw [columns, restoreRow, readKey]
  cases IpAddr.parse e.1.1 <;> rfl

theorem sqlite_load (hS : S.Faithful) (ps : List Proxy) :
    ∃ ks, Lists ps ks ∧ (Backend.sqlite.load S (Backend.sqlite.after S ps) = some (Backend.sqlite.listing ps ks) ∨
      Backend.sqlite.load S (Backend.sqlite.after S ps) = none ∧
        ∃ k, ∃ a ∈ exact ps k, ¬Backend.sqlite.Readable a) := by
  let t : SqliteStore := Backend.sqlite.after S ps
  have hm (k : Str × Nat) : k ∈ t.keys ↔ k ∈ ps.map fun p => rowKey p.key :=
    (Table.mem_foldl_absorb (fun p : Proxy => rowKey p.key) (insertRow S) ∅ ps k).trans (by simp)
  have hk : ∀ k ∈ t.keys, ∃ j, rowKey j = k := by
    intro k h
    obtain ⟨p, -, hp⟩ := List.mem_map.mp ((hm k).mp h)
    exact ⟨p.key, hp⟩
  have hl : Lists ps (t.keys.filterMap readKey) := by
    refine ⟨t.keys_nodup.filterMap_decode readKey_rowKey hk, fun k => ?_⟩
    rw [List.mem_filterMap_decode readKey_rowKey hk, hm, ← Function.comp_def, ← List.map_map,
      List.mem_map_of_injective rowKey_injective]
  refine ⟨_, hl, ?_⟩
  have ha (k : Key) : (t.lookup (rowKey k)).map (Row.aggregate S) = exact ps k :=
    (aggregate_after hS .sqlite ps k).trans (congrFun Option.map_id _)
  have hg : t.entries.mapM getRow = if ∀ e ∈ t.entries, e.2.requests < 2 ^ 63 ∧ e.2.errors < 2 ^ 63
      then some (t.entries.map columns) else none := by
    rw [← List.mapM_ite, funext getRow_eq]
  by_cases hr : ∀ e ∈ t.entries, e.2.requests < 2 ^ 63 ∧ e.2.errors < 2 ^ 63
  case pos =>
    rw [if_pos hr] at hg
    refine .inl ?_
    calc
      (t.entries.mapM getRow).bind (fun rows => some (rows.filterMap (restoreRow S)))
      _ = some (t.entries.filterMap fun e => restoreRow S (columns e)) := by
        rw [hg, Option.bind_some, List.filterMap_map, Function.comp_def]
      _ = some (Backend.sqlite.listing ps (t.keys.filterMap readKey)) := by
        rw [funext restoreRow_columns, Table.filterMap_entries rowKey readKey readKey_rowKey hk
          fun k r => some (Backend.sqlite.restored k (r.aggregate S))]
        refine congrArg some (List.filterMap_congr fun k _ => ?_)
        rw [← ha k, Option.map_map]
        exact Option.map_eq_bind.symm
  case neg =>
    rw [if_neg hr] at hg
    have hf : ((t.entries.mapM getRow).bind fun rows => some (rows.filterMap (restoreRow S))) = none := by
      rw [hg, Option.bind_none]
    refine .inr ⟨hf, ?_⟩
    push Not at hr
    obtain ⟨e, he, hn⟩ := hr
    obtain ⟨k, hk⟩ := hk e.1 (List.mem_map_of_mem he)
    have hl : t.lookup e.1 = some e.2 := AList.mem_lookup_iff.mpr he
    refine ⟨k, e.2.aggregate S, ?_, fun h => Nat.not_lt.mpr (hn h.left) h.right⟩
    rw [← ha k, hk, hl]
    rfl

end Sqlite

section Redis

open RedisStore

theorem restoreMember_eq (s : RedisStore) (m : Str) :
    restoreMember S s m = (readMember m).bind fun k =>
      (s.hashes.lookup (proxyKey k)).map fun h => Backend.redis.restored k (h.aggregate S) := by
  rw [restoreMember]
  cases readMember m
  case none   => rfl
  case some k => cases h : s.hashes.lookup (proxyKey k) <;> simp only [Option.bind_eq_bind, Option.bind_some, h] <;> rfl

theorem redis_load (hS : S.Faithful) (ps : List Proxy) :
    ∃ ks, Lists ps ks ∧ Backend.redis.load S (Backend.redis.after S ps) = some (Backend.redis.listing ps ks) := by
  let s : RedisStore := Backend.redis.after S ps
  have hm (m : Str) : m ∈ s.members ↔ m ∈ ps.map (·.key.display) :=
    (mem_members_foldl_upsert .empty ps m).trans (by simp [RedisStore.empty])
  have hk : ∀ m ∈ s.members, ∃ k : Key, k.display = m := by
    intro m h
    obtain ⟨p, -, hp⟩ := List.mem_map.mp ((hm m).mp h)
    exact ⟨p.key, hp⟩
  have hl : Lists ps (s.members.filterMap readMember) := by
    refine ⟨s.nodup.filterMap_decode readMember_display hk, fun k => ?_⟩
    rw [List.mem_filterMap_decode readMember_display hk, hm, ← Function.comp_def, ← List.map_map,
      List.mem_map_of_injective Key.display_injective]
  have ha (k : Key) : (s.hashes.lookup (proxyKey k)).map (Hash.aggregate S) = exact ps k :=
    (aggregate_after hS .redis ps k).trans (congrFun Option.map_id _)
  refine ⟨_, hl, congrArg some ?_⟩
  calc
    s.members.filterMap (restoreMember S s)
    _ = (s.members.filterMap readMember).filterMap fun k =>
          (s.hashes.lookup (proxyKey k)).map fun h => Backend.redis.restored k (h.aggregate S) := by
      rw [funext (restoreMember_eq s), List.filterMap_filterMap]
    _ = Backend.redis.listing ps (s.members.filterMap readMember) := by
      refine List.filterMap_congr fun k _ => ?_
      rw [← ha k, Option.map_map, Function.comp_def]

end Redis

-- A store lists its addresses once each, unless one of its counters cannot be read.
theorem load_after (hS : S.Faithful) (b : Backend) (ps : List Proxy) :
    ∃ ks, Lists ps ks ∧ (b.load S (b.after S ps) = some (b.listing ps ks) ∨
      b.load S (b.after S ps) = none ∧ ∃ k, ∃ a ∈ exact ps k, ¬b.Readable a) := by
  cases b
  case sqlite => exact sqlite_load hS ps
  case memory =>
    obtain ⟨ks, hl, h⟩ := memory_load hS ps
    exact ⟨ks, hl, .inl h⟩
  case redis =>
    obtain ⟨ks, hl, h⟩ := redis_load hS ps
    exact ⟨ks, hl, .inl h⟩

end Persist
