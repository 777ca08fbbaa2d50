import ProxyBroker.Bits.Xorshift
import ProxyBroker.Pool.Random
import ProxyBroker.Pool.Theorems.Selection

namespace Pool

theorem toBitVec_xorshift (x : UInt64) :
    (xorshift x).toBitVec =
    let y := x.toBitVec ^^^ (x.toBitVec <<< 13)
    let y := y ^^^ (y >>> 7)
    y ^^^ (y <<< 17) :=
  rfl

theorem xorshift_injective : Function.Injective xorshift := by
  intro x y h
  have hb := congrArg UInt64.toBitVec h
  simp only [toBitVec_xorshift] at hb
  have h₁ := Xorshift.injective_shiftLeft (k := 17) (by decide) hb
  have h₂ := Xorshift.injective_ushiftRight (k := 7) (by decide) h₁
  exact UInt64.toBitVec_inj.mp (Xorshift.injective_shiftLeft (k := 13) (by decide) h₂)

theorem xorshift_bijective : Function.Bijective xorshift := by
  have : Finite UInt64 := .of_injective UInt64.toFin fun _ _ h => UInt64.toFin_inj.mp h
  exact Finite.injective_iff_bijective.mp xorshift_injective

theorem xorshift_eq_zero {x : UInt64} : xorshift x = 0 ↔ x = 0 :=
  xorshift_injective.eq_iff' rfl

namespace Random

variable {x y : System accesses UInt64} {tr : Trace accesses}

-- Without interference, this is what happens to the state of a pool's generator.
theorem nextRand_exec (x : UInt64) (n : Nat) :
    machine.Exec x (nextRand n) [⟨.load, x⟩, ⟨.store (xorshift x), ()⟩] (xorshift x) (.ret (Pool.nextRand x n)) :=
  .call ⟨rfl, rfl⟩ <| .call rfl .refl

-- A caller that has read a value other than zero stores one, however old the value is by then.
def demands (tr : Trace accesses) : Op → Prop
  | .load      => True
  | .store y   => (∀ x, ⟨.load, x⟩ ∈ tr → x ≠ (0 : UInt64)) → y ≠ 0
  | .index n i => 1 ≤ n → i < n

def discipline : Monitor accesses (Trace accesses) :=
  .history demands

theorem caller_sat {p : Prog accesses Unit} (h : Caller p) : p.Sat discipline (fun _ _ => True) [] := by
  obtain ⟨n, rfl⟩ := h
  refine ⟨trivial, fun x => ⟨fun hx => ?store, fun _ => ⟨fun hn => ?index, fun _ => trivial⟩⟩⟩
  case store => exact xorshift_eq_zero.not.mpr (hx x List.mem_cons_self)
  case index => exact nextRand_lt x hn

-- No caller has read zero so far, and none will.
structure Live (x : System accesses UInt64) : Prop where
  disciplined : x.Disciplined discipline (fun _ => True) []
  shared      : x.shared ≠ 0
  loads       : ∀ t ∈ x.threads, ∀ v, ⟨.load, v⟩ ∈ t.trace → v ≠ (0 : UInt64)

namespace Live

theorem initial : Live ⟨seed, []⟩ where
  disciplined := nofun
  shared      := by decide
  loads       := nofun

theorem spawn (h : Live x) (hs : System.Step machine Caller x none y) : Live y where
  disciplined := h.disciplined.spawn hs fun _ => caller_sat
  shared      := hs.shared_spawn ▸ h.shared
  loads       := by
    cases hs
    case spawn =>
      intro t ht
      rcases List.mem_append.mp ht with ht | ht
      · exact h.loads t ht
      · cases List.mem_singleton.mp ht
        exact nofun

theorem event {e : Event accesses} (h : Live x) (hs : System.Step machine Caller x (some e) y) : Live y := by
  have hd := h.disciplined.event hs
  cases hs
  case event s s' ts₁ ts₂ tr o r k ha =>
    have ht : ⟨tr, .call o k⟩ ∈ ts₁ ++ ⟨tr, .call o k⟩ :: ts₂ := by simp
    have hl := h.loads _ ht
    have hc : demands ([] ++ tr) o := Monitor.history_after demands [] tr ▸ (h.disciplined _ ht).right.left
    refine ⟨hd, ?shared, ?loads⟩
    case shared =>
      cases o
      case load  => exact ha.right ▸ h.shared
      case store => exact ha ▸ hc hl
      case index => exact ha ▸ h.shared
    case loads =>
      intro t ht'
      simp only [List.mem_append, List.mem_cons] at ht'
      rcases ht' with ht' | rfl | ht'
      · exact h.loads t (by simp [ht'])
      · intro v hv
        rcases List.mem_append.mp hv with hv | hv
        · exact hl v hv
        · cases List.mem_singleton.mp hv
          exact ha.left ▸ h.shared
      · exact h.loads t (by simp [ht'])

theorem run (h : Live x) (hr : System.Runs machine Caller x tr y) : Live y :=
  hr.invariant h (fun _ _ => spawn) fun _ _ _ h _ => h.event

end Live

-- Every index that was computed is one into the candidates.
theorem index_lt {n i : Nat} (h : Live x) (hr : System.Runs machine Caller x tr y) (hn : 1 ≤ n)
    (hi : ⟨.index n i, ()⟩ ∈ tr) : i < n := by
  induction hr
  case refl            => cases hi
  case spawn hs _ hr   => exact hr (h.spawn hs) hi
  case event hs _ _ hr =>
    rcases List.mem_cons.mp hi with rfl | hi
    · obtain ⟨_, _, _, _, _, hd, _⟩ := h.disciplined.event_inv hs
      exact hd hn
    · exact hr (h.event hs) hi

-- The state never gets stuck at zero, no matter how many callers there are and how their accesses
-- interleave.
theorem nextRand_sound :
    Function.Bijective xorshift ∧ (∀ x, xorshift x = 0 ↔ x = 0) ∧
    (∀ rng n, 1 ≤ n → Pool.nextRand rng n < n) ∧
    ∀ tr x, System.Runs machine Caller ⟨seed, []⟩ tr x →
      x.shared ≠ 0 ∧ ∀ n i, 1 ≤ n → ⟨.index n i, ()⟩ ∈ tr → i < n :=
  ⟨xorshift_bijective, fun _ => xorshift_eq_zero, fun rng _ => nextRand_lt rng,
    fun _ _ hr => ⟨(Live.initial.run hr).shared, fun _ _ => index_lt .initial hr⟩⟩

end Random
end Pool
