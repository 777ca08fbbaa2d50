import ProxyBroker.Json.Serde

-- How `serde` reads a document as a value of a type.
namespace Json

variable {α β γ : Type}

-- An integer of an unsigned type with the given largest value.
def readUnsigned (max : Nat) : Json → Option Nat
  | num m 0 => if 0 ≤ m ∧ m ≤ max then some m.toNat else none
  | _       => none

def readOption (read : Json → Option α) : Json → Option (Option α)
  | null => some none
  | v    => (read v).map some

def readList (read : Json → Option α) : Json → Option (List α)
  | arr vs => vs.mapM read
  | _      => none

-- The values of the fields of a struct. Unknown fields of an object are ignored, but a known field
-- must not be repeated. An array holds the values of the first fields.
def fields (names : List Str) : Json → Option (Str → Option Json)
  | obj fs => if ((fs.map Prod.fst).filter (· ∈ names)).Nodup then some fun n => fs.lookup n else none
  | arr vs => if vs.length ≤ names.length then some fun n => (names.zip vs).lookup n else none
  | _      => none

def required (read : Json → Option α) (v : Option Json) : Option α :=
  v.bind read

def withDefault (read : Json → Option α) (dflt : α) : Option Json → Option α
  | none   => some dflt
  | some v => read v

section Blind

-- The values of numbers other than integers do not matter to what is read.
def Blind (read : Json → α) : Prop :=
  ∀ v, read v.core = read v

theorem blind_asStr : Blind asStr :=
  asStr_core

theorem blind_readUnsigned {max : Nat} (h : max < 2 ^ 64) : Blind (readUnsigned max) := by
  intro v
  cases v
  case num m scale =>
    rw [core]
    split_ifs with hm
    · rw [hm.left]
    · cases scale
      case zero   => simp only [true_and] at hm; simp only [readUnsigned]; rw [if_neg (by omega)]
      case succ n => rfl
  all_goals simp [core, readUnsigned]

theorem core_eq_null {v : Json} : v.core = null ↔ v = null := by
  cases v <;> simp only [core, reduceCtorEq]
  split_ifs <;> simp

theorem readOption_eq {read : Json → Option α} {v : Json} (h : v ≠ null) : readOption read v = (read v).map some := by
  cases v <;> first | rfl | exact absurd rfl h

theorem Blind.readOption {read : Json → Option α} (h : Blind read) : Blind (readOption read) := by
  intro v
  by_cases hv : v = null
  · rw [hv, core_null]
  · rw [readOption_eq hv, readOption_eq (mt core_eq_null.mp hv), h]

theorem Blind.readList {read : Json → Option α} (h : Blind read) : Blind (readList read) := by
  intro v
  cases v
  case arr vs =>
    rw [core_arr, Json.readList, Json.readList, List.mapM_map]
    exact congrArg (List.mapM · vs) (funext h)
  case num m scale =>
    rw [core]
    split_ifs <;> rfl
  all_goals simp [core, Json.readList]

theorem fields_core (names : List Str) (v : Json) :
    fields names v.core = (fields names v).map fun f n => (f n).map core := by
  cases v
  case obj fs =>
    have hf : (fs.map (Prod.map id core)).map Prod.fst = fs.map Prod.fst := by simp
    rw [core_obj, fields, fields, hf]
    split_ifs
    · simp [lookup_map_snd]
    · rfl
  case arr vs =>
    rw [core_arr, fields, fields, List.length_map, List.zip_map_right]
    split_ifs
    · simp [lookup_map_snd]
    · rfl
  case num m scale =>
    rw [core]
    split_ifs <;> rfl
  all_goals simp [core, fields]

-- A struct is read by means of its fields.
theorem Blind.struct {names : List Str} {k : (Str → Option Json) → Option α}
    (h : ∀ f, k (fun n => (f n).map core) = k f) : Blind fun v => (fields names v).bind k := by
  intro v
  show (fields names v.core).bind k = _
  rw [fields_core, Option.bind_map]
  exact congrArg (Option.bind _) (funext h)

theorem Blind.required {read : Json → Option α} (h : Blind read) (v : Option Json) :
    required read (v.map core) = required read v := by
  cases v
  case none   => rfl
  case some v => exact h v

theorem Blind.withDefault {read : Json → Option α} (h : Blind read) (dflt : α) (v : Option Json) :
    withDefault read dflt (v.map core) = withDefault read dflt v := by
  cases v
  case none   => rfl
  case some v => exact h v

end Blind

section Laws

variable {read : Json → Option α} {write : γ → Json}

theorem readUnsigned_num {max n : Nat} (h : n ≤ max) : readUnsigned max (num n 0) = some n := by
  simp [readUnsigned, h]

theorem mapM_some {f : β → Option α} {g : γ → β} {h : γ → α} {cs : List γ} (hf : ∀ c ∈ cs, f (g c) = some (h c)) :
    (cs.map g).mapM f = some (cs.map h) := by
  induction cs
  case nil          => rfl
  case cons c cs hi =>
    obtain ⟨hc, hs⟩ := List.forall_mem_cons.mp hf
    rw [List.map_cons, List.mapM_cons, hc, hi hs]
    rfl

theorem readList_map {f : γ → α} (h : ∀ c, read (write c) = some (f c)) (cs : List γ) :
    readList read (arr (cs.map write)) = some (cs.map f) :=
  mapM_some fun c _ => h c

end Laws

end Json
