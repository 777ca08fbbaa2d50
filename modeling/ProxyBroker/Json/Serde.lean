import ProxyBroker.Json.RoundTrip

namespace Json

section Shape

mutual

def depth : Json → Nat
  | arr vs => 1 + depthItems vs
  | obj fs => 1 + depthFields fs
  | _      => 0

def depthItems : List Json → Nat
  | []      => 0
  | v :: vs => max (depth v) (depthItems vs)

def depthFields : List (Str × Json) → Nat
  | []           => 0
  | (_, v) :: fs => max (depth v) (depthFields fs)

end

theorem depthItems_le {vs : List Json} {n : Nat} : depthItems vs ≤ n ↔ ∀ v ∈ vs, v.depth ≤ n := by
  induction vs <;> simp_all [depthItems]

theorem depthFields_le {fs : List (Str × Json)} {n : Nat} : depthFields fs ≤ n ↔ ∀ f ∈ fs, f.2.depth ≤ n := by
  induction fs <;> simp_all [depthFields]

theorem depth_arr_le {vs : List Json} {n : Nat} : (arr vs).depth ≤ n + 1 ↔ ∀ v ∈ vs, v.depth ≤ n := by
  rw [depth, Nat.add_comm, Nat.add_le_add_iff_right, depthItems_le]

theorem depth_obj_le {fs : List (Str × Json)} {n : Nat} : (obj fs).depth ≤ n + 1 ↔ ∀ f ∈ fs, f.2.depth ≤ n := by
  rw [depth, Nat.add_comm, Nat.add_le_add_iff_right, depthFields_le]

-- What is kept of a document if all numbers other than the integers of 64 bits are disregarded.
mutual

def core : Json → Json
  | num m scale => if scale = 0 ∧ -2 ^ 63 ≤ m ∧ m < 2 ^ 64 then num m 0 else num 0 1
  | arr vs      => arr (coreItems vs)
  | obj fs      => obj (coreFields fs)
  | v           => v

def coreItems : List Json → List Json
  | []      => []
  | v :: vs => core v :: coreItems vs

def coreFields : List (Str × Json) → List (Str × Json)
  | []           => []
  | (n, v) :: fs => (n, core v) :: coreFields fs

end

theorem coreItems_eq (vs : List Json) : coreItems vs = vs.map core := by
  induction vs <;> simp_all [coreItems]

theorem coreFields_eq (fs : List (Str × Json)) : coreFields fs = fs.map (Prod.map id core) := by
  induction fs
  case nil        => rfl
  case cons hi    => rw [coreFields, hi, List.map_cons, Prod.map, id]

@[simp]
theorem core_arr (vs : List Json) : (arr vs).core = arr (vs.map core) := by
  rw [core, coreItems_eq]

@[simp]
theorem core_obj (fs : List (Str × Json)) : (obj fs).core = obj (fs.map (Prod.map id core)) := by
  rw [core, coreFields_eq]

@[simp]
theorem core_null : null.core = null := by
  simp [core]

@[simp]
theorem core_str (s : Str) : (str s).core = str s := by
  simp [core]

end Shape

section Access

def asStr : Json → Option Str
  | str s => some s
  | _     => none

-- The value `v[n]`. If a field is repeated, then its last occurrence counts.
def get (n : Str) : Json → Json
  | obj fs => (fs.reverse.lookup n).getD null
  | _      => null

@[simp]
theorem asStr_str (s : Str) : (str s).asStr = some s :=
  rfl

@[simp]
theorem asStr_core (v : Json) : v.core.asStr = v.asStr := by
  cases v <;> simp only [core] <;> try rfl
  split_ifs <;> rfl

theorem lookup_map_snd {κ α β : Type} [BEq κ] (f : α → β) (n : κ) (fs : List (κ × α)) :
    (fs.map (Prod.map id f)).lookup n = (fs.lookup n).map f := by
  induction fs
  case nil           => rfl
  case cons nv fs hi =>
    obtain ⟨n', v⟩ := nv
    cases h : n == n' <;> simp [List.lookup_cons, h, hi]

@[simp]
theorem get_core (n : Str) (v : Json) : v.core.get n = (v.get n).core := by
  cases v
  case obj fs =>
    rw [core_obj, get, get, ← List.map_reverse, lookup_map_snd]
    cases fs.reverse.lookup n <;> simp
  case num m scale =>
    rw [core]
    split_ifs <;> simp [get]
  all_goals simp [core, get]

end Access

end Json

-- A library that turns documents into text and back.
structure Serde where
  toText   : Json → Str
  fromText : Str → Option Json

namespace Serde

-- Documents survive being turned into text, if they are not nested deeper than the parser allows.
-- The only numbers that are relied upon are integers. There are no line breaks in the text.
structure Faithful (S : Serde) : Prop where
  reads   : ∀ v, v.depth < 128 → ∃ w, S.fromText (S.toText v) = some w ∧ w.core = v.core
  oneLine : ∀ v, '\n' ∉ S.toText v ∧ '\r' ∉ S.toText v
  empty   : S.toText (.arr []) = "[]".toList
  object  : ∀ fs, ∃ s, S.toText (.obj fs) = '\x7b' :: s

-- The compact format.
def compact : Serde where
  toText   := Json.print
  fromText := Json.parse

theorem compact_faithful : compact.Faithful where
  reads v _ := ⟨v, Json.parse_print v, rfl⟩
  oneLine v := by
    have h (c : Char) (hc : Json.isControl c = true) : c ∉ v.print := fun hm => by
      simp [Json.plain_print v c hm] at hc
    exact ⟨h '\n' (by decide), h '\r' (by decide)⟩
  empty := rfl
  object fs := by cases fs <;> exact ⟨_, rfl⟩

end Serde
