import ProxyBroker.Scheduler.Theorems.Bookkeeping
import ProxyBroker.Pool.Theorems.Removal

open Pool System

namespace Scheduler

-- All kinds of tasks work on a pool, while the re-check loop attends to it.
abbrev Attendance :=
  Attended Effects State (Option (Iteration Effects Phase))

abbrev attended (cfg : RecheckConfig) (s₀ : State) : Attendance where
  system := ⟨s₀, []⟩
  actor  := some (.begin (Phase.body cfg) .start)

abbrev AttendStep (c : Config) (cfg : RecheckConfig) :=
  Attended.Step (machine c) (AnyService c) (Iteration.Moves (Phase.body cfg))

abbrev Attends (c : Config) (cfg : RecheckConfig) :=
  Attended.Run (machine c) (AnyService c) (Iteration.Moves (Phase.body cfg))

-- Whatever happens while `spawn_rechecker` is running, it also happens with the loop in its place.
theorem rechecker_attends {c : Config} {cfg : RecheckConfig} {n : Nat} {s₀ : State}
    {tr : List (Attended.Label Effects)} {x : Attended Effects State (Async Unit)}
    (h : Attended.Run (machine c) (AnyService c) Prog.Performs (fun _ _ => True) ⟨⟨s₀, []⟩, rechecker cfg n⟩ tr x) :
    ∃ i, Attends c cfg (fun _ _ => True) (attended cfg s₀) tr ⟨x.system, i⟩ ∧
      x.actor.Follows (Iteration.Moves (Phase.body cfg)) (· = none) i :=
  h.simulate (rechecker_follows n) fun _ _ _ _ hf hp => hf.performs hp

-- The tasks keep to the discipline of leases, and the loop keeps to its contract and its books.
structure Sane (x : Attendance) : Prop where
  leased : x.system.IsLeased
  sound  : ∀ i, x.actor = some i → i.Sound Phase.Demands Phase.Leads
  kept   : ∀ i, x.actor = some i → i.state.Kept

variable {c : Config} {cfg : RecheckConfig} {x y : Attendance} {e : Event Effects} {l : Attended.Label Effects}

theorem Sane.initial (s₀ : State) : Sane (attended cfg s₀) where
  leased    := isLeased_init s₀
  sound _ h := by
    cases h
    exact begin_sound .start
  kept _ h  := by
    cases h
    trivial

theorem Sane.step (hx : Sane x) (h : AttendStep c cfg x l y) : Sane y := by
  cases h
  case spawn h => exact ⟨hx.leased.spawn h fun _ h => h.lease, hx.sound, hx.kept⟩
  case other h => exact ⟨hx.leased.event h, hx.sound, hx.kept⟩
  case own u _ _ hm _ =>
    cases u
    case none   => cases hm
    case some i =>
      refine ⟨hx.leased, (hx.sound i rfl).moves begin_sound hm, ?_⟩
      rintro j rfl
      obtain ⟨_, ⟨_, hj, _, hs, _⟩ | ⟨hj, _⟩ | ⟨_, hj, hl⟩⟩ := (hx.sound i rfl).move hm
      · cases hj
        exact hs ▸ hx.kept i rfl
      · cases hj
      · cases hj
        exact (hx.kept i rfl).leads hl

theorem Sane.run {guard : Attendance → Attended.Label Effects → Prop} {tr : List (Attended.Label Effects)}
    (hx : Sane x) (h : Attends c cfg guard x tr y) : Sane y :=
  h.invariant (I := fun _ => Sane) hx fun _ _ _ _ hi _ hs => hi.step hs

-- What an iteration of the loop can become by an event.
inductive Proceeds (i : Iteration Effects Phase) (e : Event Effects) : Option (Iteration Effects Phase) → Prop
  | same {j : Iteration Effects Phase} :
    j.state = i.state → j.done = i.done ++ [e] → (∃ o, i.state.Demands (i.done ++ [e]) o) → Proceeds i e (some j)
  | left : Proceeds i e none
  | next {j : Iteration Effects Phase} :
    j.done = [] → i.state.Leads (some j.state) (i.done ++ [e]) → Proceeds i e (some j)

-- What the loop does is what its contract demands, and the proxies that are leased stay the same.
theorem Sane.own (hx : Sane x) (h : AttendStep c cfg x (.own e) y) :
    ∃ i, x.actor = some i ∧ i.state.Demands i.done e.op ∧ Proceeds i e y.actor ∧
      (machine c).answers x.system.shared e y.system.shared ∧ y.system.leased = x.system.leased := by
  cases h
  case own u u' hm ha =>
    cases u
    case none   => cases hm
    case some i =>
      obtain ⟨hd, hp⟩ := (hx.sound i rfl).move hm
      refine ⟨i, rfl, hd, ?_, ha, rfl⟩
      rcases hp with ⟨j, rfl, _, hs, hd, ho⟩ | ⟨rfl, _⟩ | ⟨ph, rfl, hl⟩
      · exact .same hs hd ho
      · exact .left
      · exact .next rfl hl

section Upkeep

variable {o : Op}

theorem isUpkeep_of_isEnv (h : o.IsEnv) : o.IsUpkeep := by
  cases o
  case env o => cases o <;> trivial
  all_goals exact (h : False).elim

theorem Treats.isUpkeep {k : Key} (h : Treats k o) : o.IsUpkeep := by
  cases o
  case env o => cases o <;> trivial
  case pool o =>
    cases o
    case remove => trivial
    case add g _ =>
      cases g
      · exact (h : False).elim
      · trivial
    all_goals exact (h : False).elim
  all_goals exact (h : False).elim

theorem Phase.Demands.isUpkeep {ph : Phase} {tr : Trace Effects} (h : ph.Demands tr o) : o.IsUpkeep := by
  cases ph
  case start | enrolled => exact isUpkeep_of_isEnv h
  case head =>
    rcases h with rfl | h
    · trivial
    · exact isUpkeep_of_isEnv h
  case job =>
    rcases h with ⟨rfl, _⟩ | ⟨_, h⟩
    · trivial
    · exact h.isUpkeep

-- Who looks after a pool neither leases a proxy nor hands one back.
theorem upkeep_idle (h : e.op.IsUpkeep) : e.leases = none ∧ e.returns = none := by
  obtain ⟨o, r⟩ := e
  cases o
  case pool o =>
    cases o
    case add g _ =>
      cases g
      · exact (h : False).elim
      · exact ⟨rfl, rfl⟩
    case addrs | remove => exact ⟨rfl, rfl⟩
    all_goals exact (h : False).elim
  case env => exact ⟨rfl, rfl⟩
  all_goals exact (h : False).elim

end Upkeep

section Absence

variable {β : Type} {f : Proxy → β} {b : β}

-- Nothing like that is in the pool, and none of the tasks can hand it back.
def Absent (f : Proxy → β) (b : β) (x : System Effects State) : Prop :=
  b ∉ (x.shared.proxies.map f : Multiset β) + x.leased.map f

theorem Absent.own (hx : Sane x) (hb : Absent f b x.system) (h : AttendStep c cfg x (.own e) y)
    (he : ∀ p ∈ entering x.system.shared e.op, f p ≠ b) : Absent f b y.system := by
  obtain ⟨i, _, hd, _, ha, hl⟩ := hx.own h
  have hp := answers_add f ha
  simp only [(upkeep_idle hd.isUpkeep).left, Option.toList_none, List.map_nil, Multiset.coe_nil, add_zero] at hp
  unfold Absent
  rw [hl]
  intro hm
  rcases Multiset.mem_add.mp hm with hm | hm
  · replace hm := hp ▸ Multiset.mem_add.mpr (.inl hm)
    rcases Multiset.mem_add.mp hm with hm | hm
    · exact hb <| Multiset.mem_add.mpr (.inl hm)
    · obtain ⟨p, hp, rfl⟩ := List.mem_map.mp (Multiset.mem_coe.mp hm)
      exact he p hp rfl
  · exact hb <| Multiset.mem_add.mpr (.inr hm)

end Absence

namespace RecheckExample

-- The loop has found one address in the pool, and has just popped its job for the first time.
def popped : Schedule where
  heap      := []
  ewma      := Function.update (fun _ => none) addr (some 1)
  lastOk    := Function.update (fun _ => none) addr (some 0)
  retrying  := fun _ => false
  nextStart := 10 + fromSecs (1 / max eager.ratePerSec (1 / 1000))

def popping : List (Attended.Label Effects) := [
  .own ⟨.env .now, (0 : Instant)⟩,
  .own ⟨.env .now, (0 : Instant)⟩,
  .own (listed [addr]),
  .own ⟨.env (.jitter 0), (5 : Duration)⟩,
  .own ⟨.env .now, (0 : Instant)⟩,
  .own ⟨.env (.sleep 0), false⟩,
  .own ⟨.env .now, (10 : Instant)⟩,
  .own ⟨.env .now, (10 : Instant)⟩,
  .own ⟨.env (.sleep 10), false⟩,
  .own ⟨.env (.tie 1), (0 : Nat)⟩
]

-- The state in which this leaves a pool that nobody else has worked on.
abbrev atJob (pool : State) : Attendance where
  system := ⟨pool, []⟩
  actor  := some (.begin (Phase.body eager) (.job popped addr))

theorem popping_attends (pool : State) (hp : pool.addrs = [addr]) :
    Attends .default eager (fun _ _ => True) (attended eager pool) popping (atJob pool) := by
  have h : Attends .default eager (fun _ _ => True) (attended eager pool) [] _ := .refl
  have h := h.loop (0 : Instant) rfl trivial
  have h := h.loop (0 : Instant) rfl trivial
  have h := h.loop [addr] ⟨hp.symm, rfl⟩ trivial
  have h := h.loop (5 : Duration) rfl trivial
  have h := h.loop (0 : Instant) rfl trivial
  have h := h.loop false rfl trivial
  have h := h.loop (10 : Instant) rfl trivial
  have h := h.loop (10 : Instant) rfl trivial
  have h := h.loop false rfl trivial
  exact h.loop (0 : Nat) rfl trivial

end RecheckExample
end Scheduler
