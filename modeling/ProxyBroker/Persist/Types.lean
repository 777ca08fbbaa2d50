import ProxyBroker.Json.Serde
import ProxyBroker.Objects.Proxy

-- Confirmed protocols are stored as text such as `[{"level":"High","type":"HTTP"}]`.
namespace Persist

open Json

abbrev Types := Proto → Option (Option AnonLevel)

namespace Types

def empty : Types :=
  fun _ => none

def isEmpty (types : Types) : Bool :=
  Proto.all.all fun t => (types t).isNone

def entries (types : Types) : List (Proto × Option AnonLevel) :=
  Proto.all.filterMap fun t => (types t).map (t, ·)

def insert (types : Types) (e : Proto × Option AnonLevel) : Types :=
  Function.update types e.1 (some e.2)

end Types

variable (S : Serde)

def entryToJson (e : Proto × Option AnonLevel) : Json :=
  obj [("level".toList, str ((e.2.map AnonLevel.asStr).getD [])), ("type".toList, str e.1.asStr)]

def typesToJson (types : Types) : Str :=
  S.toText (arr (types.entries.map entryToJson))

def readLevel (v : Json) : Option AnonLevel := do
  let s ← v.asStr
  if s = [] then none else AnonLevel.parse s

-- A value that does not name a protocol is skipped.
def entryFromJson (v : Json) : Option (Proto × Option AnonLevel) := do
  let t ← (v.get "type".toList).asStr
  let proto ← Proto.parse t
  some (proto, readLevel (v.get "level".toList))

def typesFromJson (s : Str) : Types :=
  match S.fromText s with
  | some (arr vs) => (vs.filterMap entryFromJson).foldl Types.insert Types.empty
  | _             => Types.empty

section RoundTrip

variable {S}

@[simp]
theorem entryFromJson_core (v : Json) : entryFromJson v.core = entryFromJson v := by
  simp [entryFromJson, readLevel]

@[simp]
theorem entryFromJson_entryToJson (e : Proto × Option AnonLevel) : entryFromJson (entryToJson e) = some e := by
  obtain ⟨t, l⟩ := e
  have hl : (entryToJson (t, l)).get "level".toList = str ((l.map AnonLevel.asStr).getD []) := rfl
  have ht : (entryToJson (t, l)).get "type".toList = str t.asStr := rfl
  rw [entryFromJson, hl, ht]
  cases l <;> simp [Proto.parse_asStr, readLevel, AnonLevel.parse_asStr, AnonLevel.asStr_ne_nil]

theorem depth_entries (types : Types) : (arr (types.entries.map entryToJson)).depth < 128 := by
  have h : (arr (types.entries.map entryToJson)).depth ≤ 1 + 1 := by
    refine depth_arr_le.mpr fun v hv => ?_
    obtain ⟨e, -, rfl⟩ := List.mem_map.mp hv
    simp [entryToJson, depth, depthFields]
  omega

theorem mem_entries {types : Types} {e : Proto × Option AnonLevel} : e ∈ types.entries ↔ types e.1 = some e.2 := by
  obtain ⟨t, l⟩ := e
  simp [Types.entries, Proto.mem_all]

theorem foldl_insert {types : Types} {es : List (Proto × Option AnonLevel)} (h : ∀ e ∈ es, types e.1 = some e.2)
    (f : Types) (t : Proto) : es.foldl Types.insert f t = if t ∈ es.map Prod.fst then types t else f t := by
  induction es generalizing f
  case nil          => simp
  case cons e es hi =>
    obtain ⟨he, hs⟩ := List.forall_mem_cons.mp h
    rw [List.foldl_cons, hi hs, Types.insert]
    by_cases ht : t = e.1
    case pos => simp [ht, he]
    case neg => simp only [Function.update_of_ne ht, List.map_cons, List.mem_cons, ht, false_or]

-- The order in which the entries are inserted does not matter.
theorem foldl_insert_perm {types : Types} {es : List (Proto × Option AnonLevel)} (h : es.Perm types.entries) :
    es.foldl Types.insert Types.empty = types := by
  funext t
  rw [foldl_insert fun e he => mem_entries.mp (h.subset he)]
  cases ht : types t
  case none   => simp [Types.empty]
  case some l =>
    have hm : (t, l) ∈ es := h.symm.subset (mem_entries.mpr ht)
    exact if_pos (List.mem_map_of_mem hm)

theorem typesFromJson_typesToJson (h : S.Faithful) (types : Types) : typesFromJson S (typesToJson S types) = types := by
  obtain ⟨w, hr, hw⟩ := h.reads _ (depth_entries types)
  rw [core_arr] at hw
  obtain ⟨ws, rfl⟩ : ∃ ws, w = arr ws := by
    cases w <;> simp only [core, reduceCtorEq] at hw
    case num => split_ifs at hw
    case arr ws => exact ⟨ws, rfl⟩
  rw [core_arr, arr.injEq] at hw
  have he : ws.filterMap entryFromJson = types.entries := by
    calc
      _ = (ws.map core).filterMap entryFromJson                              := by simp [List.filterMap_map]
      _ = ((types.entries.map entryToJson).map core).filterMap entryFromJson := by rw [hw]
      _ = types.entries                                                      := by simp [List.filterMap_map]
  rw [typesFromJson, typesToJson, hr]
  simp only [he, foldl_insert_perm (.refl _)]

theorem Types.isEmpty_iff {types : Types} : types.isEmpty ↔ types = Types.empty := by
  simp [Types.isEmpty, funext_iff, Types.empty, Proto.mem_all]

theorem Types.ite_isEmpty (types types' : Types) :
    (if !types.isEmpty then types else types') = if types = Types.empty then types' else types := by
  by_cases h : types = Types.empty
  · simp [h, Types.isEmpty_iff.mpr rfl]
  · simp [h, mt Types.isEmpty_iff.mp h]

-- The text of no protocols is recognized by comparing it.
theorem typesToJson_eq_iff (h : S.Faithful) {types : Types} :
    typesToJson S types = "[]".toList ↔ types = Types.empty := by
  have he : typesToJson S Types.empty = "[]".toList := h.empty
  constructor
  · intro ht
    rw [← typesFromJson_typesToJson h types, ht, ← he, typesFromJson_typesToJson h]
  · exact fun ht => ht ▸ he

end RoundTrip

end Persist
