import ProxyBroker.Persist.Aggregate
import ProxyBroker.Objects.Theorems.IpText

namespace Persist

section Keys

theorem SqliteStore.rowKey_injective : Function.Injective rowKey := by
  intro j k h
  obtain ⟨hh, hp⟩ := Prod.mk.inj h
  obtain ⟨_, _⟩ := j
  obtain ⟨_, _⟩ := k
  exact congrArg₂ Key.mk (IpAddr.display_injective hh) (UInt16.toNat_inj.mp hp)

theorem RedisStore.proxyKey_injective : Function.Injective proxyKey :=
  fun _ _ h => Key.display_injective (List.append_cancel_left h)

theorem RedisStore.readMember_display (k : Key) : readMember k.display = some k := by
  simp [readMember, Key.rsplitOnce_display, IpAddr.parse_display, Str.parseU16_ofNat]

-- If addresses are encoded differently, then the samples for a code are those for its address.
theorem filter_encode {κ : Type} [DecidableEq κ] {encode : Key → κ} (h : Function.Injective encode) (k : Key)
    (ps : List Proxy) : ps.filter (fun p => encode p.key = encode k) = history k ps := by
  simp [history, h.eq_iff]

end Keys

section Refinement

variable {S : Serde}

theorem types_kept (hS : S.Faithful) (types : Types) (s : Str) :
    typesFromJson S (if typesToJson S types ≠ "[]".toList then typesToJson S types else s) =
    if types = Types.empty then typesFromJson S s else types := by
  by_cases h : types = Types.empty
  · rw [if_neg (not_not.mpr ((typesToJson_eq_iff hS).mpr h)), if_pos h]
  · rw [if_pos (mt (typesToJson_eq_iff hS).mp h), if_neg h, typesFromJson_typesToJson hS]

theorem Row.aggregate_insertRow (hS : S.Faithful) (r : Option Row) (a : Option Aggregate) (p : Proxy)
    (h : r.map (Row.aggregate S) = a.map id) : (SqliteStore.insertRow S r p).aggregate S = Aggregate.step a p := by
  rw [Option.map_id] at h
  subst h
  cases r
  case none   => exact Aggregate.ext (typesFromJson_typesToJson hS _) rfl rfl rfl rfl rfl
  case some r => exact Aggregate.ext (types_kept hS ..) rfl rfl rfl rfl rfl

theorem Hash.aggregate_invoke (hS : S.Faithful) (r : Option Hash) (a : Option Aggregate) (p : Proxy)
    (h : r.map (Hash.aggregate S) = a.map id) : (RedisStore.invoke S r p).aggregate S = Aggregate.step a p := by
  rw [Option.map_id] at h
  subst h
  cases r
  case none =>
    have ht : typesFromJson S (RedisStore.invoke S none p).types = p.types := by
      simp [RedisStore.invoke, RedisStore.upsertLua, typesFromJson_typesToJson hS]
    exact Aggregate.ext ht (Nat.zero_add _) (Nat.zero_add _) rfl rfl (Nat.zero_add _)
  case some r => exact Aggregate.ext (types_kept hS ..) rfl rfl rfl rfl rfl

theorem MemoryStore.toNat_saturatingAdd {m n : UInt32} {k : Nat} (h : m.toNat = min k (2 ^ 32 - 1)) :
    (saturatingAdd m n).toNat = min (k + n.toNat) (2 ^ 32 - 1) := by
  have hs : (saturatingAdd m n).toNat = min (m.toNat + n.toNat) (2 ^ 32 - 1) := Nat.mod_eq_of_lt (by omega)
  omega

-- The counters of 32 bits, and the exact ones that are cut off at the same point, agree.
theorem Record.aggregate_entry (r : Option Record) (a : Option Aggregate) (p : Proxy)
    (h : r.map Record.aggregate = a.map Aggregate.saturated) :
    (MemoryStore.entry r p).aggregate = (Aggregate.step a p).saturated := by
  cases r <;> cases a <;> simp only [Option.map_none, Option.map_some, reduceCtorEq, Option.some_inj] at h
  case none.none =>
    have hm (n : UInt32) : n.toNat = min n.toNat (2 ^ 32 - 1) := by have := n.toNat_lt; omega
    exact Aggregate.ext rfl (hm p.requests) (hm (errorsTotal p)) rfl rfl rfl
  case some.some r a =>
    obtain ⟨ht, hn, he, hs, hl, hu⟩ := Aggregate.mk.inj h
    refine Aggregate.ext ?types (MemoryStore.toNat_saturatingAdd hn) (MemoryStore.toNat_saturatingAdd he) ?ewma ?avg ?uptime
    case types  => exact (Types.ite_isEmpty ..).trans (congrArg (if p.types = Types.empty then · else p.types) ht)
    case ewma   => exact congrArg (3 / 10 * sample p + 7 / 10 * ·) hs
    case avg    => exact congrArg (fun l => if 0 < p.avgRespTime then 3 / 10 * p.avgRespTime + 7 / 10 * l else l) hl
    case uptime => exact congrArg (· + working p) hu

theorem RedisStore.hashes_foldl_upsert (s : RedisStore) (ps : List Proxy) :
    (ps.foldl (upsert S) s).hashes = ps.foldl (Table.absorb (fun p => proxyKey p.key) (invoke S)) s.hashes := by
  induction ps generalizing s
  case nil       => rfl
  case cons p hi => exact hi _

theorem RedisStore.mem_members_foldl_upsert (s : RedisStore) (ps : List Proxy) (m : Str) :
    m ∈ (ps.foldl (upsert S) s).members ↔ m ∈ ps.map (·.key.display) ∨ m ∈ s.members := by
  induction ps generalizing s
  case nil          => simp
  case cons p ps hi =>
    rw [List.foldl_cons, hi, upsert, List.mem_insert_iff, List.map_cons, List.mem_cons]
    tauto

-- The stores refine the exact numbers.
theorem aggregate_after (hS : S.Faithful) (b : Backend) (ps : List Proxy) (k : Key) :
    b.aggregate S (b.after S ps) k = (exact ps k).map b.view := by
  cases b
  case sqlite =>
    have h := Table.lookup_foldl_absorb (fun p : Proxy => SqliteStore.rowKey p.key) (SqliteStore.insertRow S)
      ∅ ps (SqliteStore.rowKey k)
    rw [filter_encode SqliteStore.rowKey_injective] at h
    exact (congrArg (Option.map (Row.aggregate S)) h).trans (Table.rowOf_map (Row.aggregate_insertRow hS) rfl)
  case memory =>
    have h := Table.lookup_foldl_absorb Proxy.key MemoryStore.entry ∅ ps k
    exact (congrArg (Option.map Record.aggregate) h).trans (Table.rowOf_map Record.aggregate_entry rfl)
  case redis =>
    have h := Table.lookup_foldl_absorb (fun p : Proxy => RedisStore.proxyKey p.key) (RedisStore.invoke S)
      RedisStore.empty.hashes ps (RedisStore.proxyKey k)
    rw [filter_encode RedisStore.proxyKey_injective, ← RedisStore.hashes_foldl_upsert] at h
    exact (congrArg (Option.map (Hash.aggregate S)) h).trans (Table.rowOf_map (Hash.aggregate_invoke hS) rfl)

end Refinement

end Persist
