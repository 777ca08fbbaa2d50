import ProxyBroker.Checker

-- A confirmed protocol with its level is of the kind that is requested.
def TypeSpec.Matches (s : TypeSpec) (level : Option AnonLevel) : Prop :=
  s.levels = none ∨ s.levels = some [] ∨ ∃ ls l, s.levels = some ls ∧ level = some l ∧ l ∈ ls

namespace Checker

variable {requested more : List TypeSpec} {strict : Bool} {s : TypeSpec} {p : Proxy} {t : Proto}
variable {level : Option AnonLevel}

-- The confirmed protocols of a proxy that has been checked: only HTTP has a level.
structure Confirms (requested : List TypeSpec) (p : Proxy) : Prop where
  requested : ∀ t level, p.types t = some level → ∃ s ∈ requested, s.proto = t
  leveled   : ∀ t level, p.types t = some (some level) → t = .http

-- No later request is for the same protocol.
def IsLast (requested : List TypeSpec) (s : TypeSpec) : Prop :=
  ∃ before after, requested = before ++ s :: after ∧ ∀ r ∈ after, r.proto ≠ s.proto

def Wanted (requested : List TypeSpec) (p : Proxy) : Prop :=
  ∃ s ∈ requested, ∃ level, p.types s.proto = some level ∧ s.Matches level

def WantedLast (requested : List TypeSpec) (p : Proxy) : Prop :=
  ∃ s, IsLast requested s ∧ ∃ level, p.types s.proto = some level ∧ s.Matches level

theorem IsLast.mem (h : IsLast requested s) : s ∈ requested := by
  obtain ⟨before, after, rfl, _⟩ := h
  simp

theorem WantedLast.wanted (h : WantedLast requested p) : Wanted requested p := by
  obtain ⟨s, hs, hl⟩ := h
  exact ⟨s, hs.mem, hl⟩

theorem Wanted.mono (h : Wanted requested p) (hm : requested ⊆ more) : Wanted more p := by
  obtain ⟨s, hs, hl⟩ := h
  exact ⟨s, hm hs, hl⟩

theorem Confirms.mono (h : Confirms requested p) (hm : requested ⊆ more) : Confirms more p where
  requested t level ht := by
    obtain ⟨s, hs, hp⟩ := h.requested t level ht
    exact ⟨s, hm hs, hp⟩
  leveled := h.leveled

theorem foldl_removeType (as : List (Proto × Option AnonLevel)) :
    as.foldl (fun p a => p.removeType a.1) p =
      { p with types := fun t => if t ∈ as.map Prod.fst then none else p.types t } := by
  induction as generalizing p
  case nil => simp
  case cons a as hi =>
    rw [List.foldl_cons, hi]
    simp only [Proxy.removeType, Proxy.mk.injEq, true_and, and_true, List.map_cons, List.mem_cons]
    funext t
    by_cases ht : t = a.1
    case pos => simp [ht]
    case neg =>
      rw [Function.update_of_ne ht]
      exact if_congr (or_iff_right ht).symm rfl rfl

theorem types_filter_eq_self {keep : Proto → Option AnonLevel → Bool} (h : ∀ t l, p.types t = some l → keep t l = true) :
    { p with types := fun t => (p.types t).filter (keep t) } = p := by
  have hf (t : Proto) : (p.types t).filter (keep t) = p.types t := by
    cases hl : p.types t
    case none   => rfl
    case some l => rw [Option.filter_some_pos (h t l hl)]
  simp only [hf]

-- All that the admission of a proxy changes are its confirmed types.
theorem typesPassed_snd : (typesPassed requested strict p).2 =
    { p with types := fun t => (p.types t).filter fun l => !strict || typeMatches requested strict t l } := by
  unfold typesPassed
  by_cases hr : requested = []
  case pos =>
    rw [if_pos hr]
    exact (types_filter_eq_self fun t l _ => by simp [hr, typeMatches, levels]).symm
  case neg =>
    rw [if_neg hr]
    cases strict
    case false => exact (types_filter_eq_self fun _ _ _ => rfl).symm
    case true =>
      rw [if_pos rfl]
      dsimp only
      rw [foldl_removeType]
      simp only [Proxy.mk.injEq, true_and, and_true]
      funext t
      have hm : t ∈ (p.typeList.filter fun a => !typeMatches requested true a.1 a.2).map Prod.fst ↔
          ∃ l, p.types t = some l ∧ typeMatches requested true t l = false := by
        simp only [List.mem_map, List.mem_filter, mem_typeList, Bool.not_eq_true']
        constructor
        case mp =>
          rintro ⟨a, h, rfl⟩
          exact ⟨a.2, h⟩
        case mpr =>
          rintro ⟨l, h⟩
          exact ⟨(t, l), h, rfl⟩
      cases hl : p.types t
      case none => simp
      case some l => cases hv : typeMatches requested true t l <;> simp [hm, hl, hv, Option.filter]

theorem levels_eq_some {ls : Option (List AnonLevel)} :
    levels requested t = some ls ↔ ∃ s, IsLast requested s ∧ s.proto = t ∧ s.levels = ls := by
  simp only [levels, Option.map_eq_some_iff, List.find?_eq_some_iff_append, decide_eq_true_eq, Bool.not_eq_true',
    decide_eq_false_iff_not]
  constructor
  case mp =>
    rintro ⟨s, ⟨rfl, after, before, he, ha⟩, rfl⟩
    refine ⟨s, ⟨before.reverse, after.reverse, ?_, by simpa using ha⟩, rfl, rfl⟩
    simpa using congrArg List.reverse he
  case mpr =>
    rintro ⟨s, ⟨before, after, rfl, ha⟩, rfl, rfl⟩
    exact ⟨s, ⟨rfl, after.reverse, before.reverse, by simp, by simpa using ha⟩, rfl⟩

theorem levels_isSome (hs : s ∈ requested) : (levels requested s.proto).isSome := by
  rw [levels, Option.isSome_map, List.find?_isSome]
  exact ⟨s, by simpa using hs, by simp⟩

-- The last request for a protocol decides whether it matches.
theorem typeMatches_iff (hs : IsLast requested s) (hl : ∀ l, level = some l → s.proto = .http) :
    typeMatches requested false s.proto level = true ↔ s.Matches level := by
  have he : levels requested s.proto = some s.levels := levels_eq_some.mpr ⟨s, hs, rfl, rfl⟩
  unfold typeMatches TypeSpec.Matches
  rw [he]
  rcases hv : s.levels with - | - | ⟨l, ls⟩
  case none     => simp
  case some.nil => simp
  case some.cons =>
    by_cases ht : s.proto = .http
    case pos => cases level <;> simp [ht, Proto.checksAnonLevel]
    case neg =>
      have hn : level = none := Option.eq_none_iff_forall_ne_some.mpr fun l h => ht (hl l h)
      simp [hn]

-- Without `strict`, the collapsed requests admit a proxy.
theorem typesPassed_iff (hn : requested ≠ []) (hc : Confirms requested p) :
    (typesPassed requested false p).1 = true ↔ WantedLast requested p := by
  rw [typesPassed, if_neg hn, if_neg Bool.false_ne_true]
  simp only [List.any_eq_true, mem_typeList]
  constructor
  case mp =>
    rintro ⟨⟨t, level⟩, ht, hm⟩
    dsimp only at ht hm
    obtain ⟨r, hr, rfl⟩ := hc.requested t level ht
    obtain ⟨ls, he⟩ := Option.isSome_iff_exists.mp (levels_isSome hr)
    obtain ⟨s, hs, hp, -⟩ := levels_eq_some.mp he
    rw [← hp] at ht hm
    exact ⟨s, hs, level, ht, (typeMatches_iff hs fun l h => hc.leveled _ l (h ▸ ht)).mp hm⟩
  case mpr =>
    rintro ⟨s, hs, level, ht, hm⟩
    exact ⟨(s.proto, level), ht, (typeMatches_iff hs fun l h => hc.leveled _ l (h ▸ ht)).mpr hm⟩

-- The requests that match a proxy admit it, unless each of them is followed by another one for its protocol.
-- The same decides whether a proxy that is admitted remains so when there are more requests, or when they are in
-- another order.
theorem typesPassed_wanted_iff (hn : requested ≠ []) (hc : Confirms requested p) :
    (((typesPassed requested false p).1 = true ↔ Wanted requested p) ↔
      (Wanted requested p → WantedLast requested p)) ∧
    ∀ more, requested ⊆ more → (typesPassed requested false p).1 = true →
      ((typesPassed more false p).1 = true ↔ (Wanted more p → WantedLast more p)) := by
  constructor
  case left =>
    rw [typesPassed_iff hn hc]
    exact ⟨Iff.mpr, fun h => ⟨WantedLast.wanted, h⟩⟩
  case right =>
    intro more hm hp
    have hw : Wanted more p := ((typesPassed_iff hn hc).mp hp).wanted.mono hm
    rw [typesPassed_iff (fun he => hn (List.subset_nil.mp (he ▸ hm))) (hc.mono hm)]
    exact ⟨fun h _ => h, fun h => h hw⟩

def twice : List TypeSpec := [⟨.http, some [.high]⟩, ⟨.http, some [.transparent]⟩]

def elite : Proxy := (Proxy.new (.v4 10 0 0 1) 80 ∅).addType .http (some .high)

theorem elite_confirms : Confirms twice elite := by
  have ht (t : Proto) (level : Option AnonLevel) (h : elite.types t = some level) : t = .http := by
    by_contra hn
    simp [elite, Proxy.addType, Proxy.new, Function.update_of_ne hn] at h
  exact ⟨fun t level h => ⟨_, List.mem_cons_self, (ht t level h).symm⟩, fun t level h => ht t _ h⟩

theorem elite_wanted : Wanted twice elite :=
  ⟨_, List.mem_cons_self, some .high, rfl, .inr (.inr ⟨_, .high, rfl, rfl, by simp⟩)⟩

theorem typesPassed_wanted_elite :
    (((typesPassed twice false elite).1 = true ↔ Wanted twice elite) ↔
      (Wanted twice elite → WantedLast twice elite)) ∧
    ∀ more, twice ⊆ more → (typesPassed twice false elite).1 = true →
      ((typesPassed more false elite).1 = true ↔ (Wanted more elite → WantedLast more elite)) :=
  typesPassed_wanted_iff (by simp [twice]) elite_confirms

-- The second request makes the first one void.
theorem elite_rejected :
    Confirms twice elite ∧ ¬((typesPassed twice false elite).1 = true ↔ Wanted twice elite) := by
  refine ⟨elite_confirms, fun h => ?_⟩
  have hp : (typesPassed twice false elite).1 = false := by decide
  simp [h.mpr elite_wanted] at hp

end Checker
