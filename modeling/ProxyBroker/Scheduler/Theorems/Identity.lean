import ProxyBroker.Scheduler.Theorems.Resurrection

open Pool System

-- What a proxy is, apart from its address and from what was measured about it.
structure Proxy.Traits where
  auth : Option Credentials
  geo  : Option Country
  asn  : Option Asn

namespace Proxy

def traits (p : Proxy) : Traits where
  auth := p.auth
  geo  := p.geo
  asn  := p.asn

-- The traits of a proxy about which nothing but its address is known.
def Traits.unknown : Traits where
  auth := none
  geo  := none
  asn  := none

-- A proxy at the given address has other traits.
def Differs (a : Key) (t : Traits) (p : Proxy) : Prop :=
  p.key = a ∧ p.traits ≠ t

end Proxy

namespace Scheduler

variable {c : Config} {cfg : RecheckConfig} {x y : Attendance} {e : Event Effects} {a : Key} {t : Proxy.Traits}

-- Nobody else adds or imports the address, and the loop only adds it while it is in the pool, so that nothing
-- happens. Otherwise, nothing but the address must be known about the proxy.
def Preserves (a : Key) (t : Proxy.Traits) (x : Attendance) : Attended.Label Effects → Prop
  | .own e => e.op.Admits a → a ∈ x.system.shared.addrs ∨ t = .unknown
  | l      => Spares a l

-- Neither in the pool nor among the leased proxies is one at that address with other traits.
abbrev Alike (a : Key) (t : Proxy.Traits) (x : System Effects State) : Prop :=
  Absent (Proxy.Differs a t) True x

theorem Alike.mem {x : System Effects State} (h : Alike a t x) {p : Proxy}
    (hp : p ∈ x.shared.proxies ∨ p ∈ x.leased) (ha : p.key = a) : p.traits = t := by
  by_contra hn
  have hd : p.Differs a t = True := eq_true ⟨ha, hn⟩
  refine h <| Multiset.mem_add.mpr ?_
  rcases hp with hp | hp
  · exact .inl <| Multiset.mem_coe.mpr <| List.mem_map.mpr ⟨p, hp, hd⟩
  · exact .inr <| Multiset.mem_coe.mpr <| List.mem_map.mpr ⟨p, hp, hd⟩

theorem Alike.of_mem {x : System Effects State}
    (h : ∀ p, p ∈ x.shared.proxies ∨ p ∈ x.leased → p.key = a → p.traits = t) : Alike a t x := by
  intro hm
  rcases Multiset.mem_add.mp hm with hm | hm
  · obtain ⟨p, hp, hd⟩ := List.mem_map.mp (Multiset.mem_coe.mp hm)
    have ⟨ha, hn⟩ := of_eq_true hd
    exact hn (h p (.inl hp) ha)
  · obtain ⟨p, hp, hd⟩ := List.mem_map.mp (Multiset.mem_coe.mp hm)
    have ⟨ha, hn⟩ := of_eq_true hd
    exact hn (h p (.inr hp) ha)

theorem Phase.Demands.traits {ph : Phase} {tr : Trace Effects} {p : Proxy}
    (h : ph.Demands tr (.pool (.add .outsider p))) : p.traits = .unknown := by
  cases ph
  case start | enrolled => exact (h : False).elim
  case head             => exact h.elim nofun (fun h : False => h.elim)
  case job              =>
    rcases h with ⟨h, _⟩ | ⟨_, _, ha, hg, hn⟩
    · cases h
    · simp [Proxy.traits, Proxy.Traits.unknown, ha, hg, hn]

-- What the loop adds has the address of its job and nothing else. It only gets into the pool if the address is
-- not in there.
theorem Phase.Demands.entering {ph : Phase} {tr : Trace Effects} {o : Op} {s : State} {p : Proxy}
    (h : ph.Demands tr o) (hp : p ∈ entering s o) : o.Admits p.key ∧ p.key ∉ s.addrs ∧ p.traits = .unknown := by
  have hu := h.isUpkeep
  cases o
  case pool o =>
    cases o
    case push => exact (hu : False).elim
    case add g q =>
      cases g
      · exact (hu : False).elim
      · simp only [Pool.entering] at hp
        split at hp
        case isTrue => cases hp
        case isFalse hn =>
          cases List.mem_singleton.mp hp
          refine ⟨rfl, ?_, h.traits⟩
          rw [mem_addrs]
          simpa [State.proxies] using hn
    all_goals cases hp
  all_goals cases hp

theorem Alike.step (hx : Sane x) (hk : Alike a t x.system) {l : Attended.Label Effects} (hg : Preserves a t x l)
    (h : AttendStep c cfg x l y) : Alike a t y.system := by
  cases l
  case spawn =>
    cases h
    case spawn h =>
      rw [Alike, Absent, leased_spawn h, h.shared_spawn]
      exact hk
  case other e =>
    cases h
    case other h =>
      refine absent_event (fun _ => rfl) (.refl c) hx.leased hk h fun p hp => ?_
      rcases returns_or_admits hp with hr | hp
      · exact .inl hr
      · refine .inr fun hd => ?_
        have ⟨ha, _⟩ := of_eq_true hd
        exact hg (ha ▸ hp)
  case own e =>
    obtain ⟨i, _, hd, _, _, _⟩ := hx.own h
    refine Absent.own hx hk h fun p hp hf => ?_
    have ⟨ha, hn⟩ := of_eq_true hf
    obtain ⟨hm, hs, ht⟩ := hd.entering hp
    rw [ha] at hm hs
    rcases hg hm with hg | rfl
    · exact hs hg
    · exact hn ht

-- In every run in which the loop preserves the traits of an address, all proxies at that address keep the
-- traits that they have once had.
theorem traits_kept {s₀ : State} {tr₁ tr₂ : List (Attended.Label Effects)}
    (h₁ : Attends c cfg (fun _ _ => True) (attended cfg s₀) tr₁ x)
    (h₀ : ∀ p, p ∈ x.system.shared.proxies ∨ p ∈ x.system.leased → p.key = a → p.traits = t)
    (h₂ : Attends c cfg (Preserves a t) x tr₂ y) :
    ∀ p, p ∈ y.system.shared.proxies ∨ p ∈ y.system.leased → p.key = a → p.traits = t := by
  have key := h₂.invariant (I := fun _ x => Sane x ∧ Alike a t x.system) ?_ ?_
  · exact fun p hp ha => key.right.mem hp ha
  · exact ⟨(Sane.initial s₀).run h₁, .of_mem h₀⟩
  · exact fun _ _ _ _ ⟨hx, hk⟩ hg h => ⟨hx.step h, hk.step hx hg h⟩

namespace RecheckExample

-- The user has provided credentials for the only proxy of a pool.
def provided : Proxy :=
  { LeaseExample.proxy with auth := some ⟨"user".toList, "secret".toList⟩ }

def guarded : State :=
  .fromProxies .default [provided]

def failing : Checked :=
  { working with working := false }

-- The schedule after the first check has failed.
def retried : Schedule :=
  ((popped.fold addr false).2.setRetrying addr true).push 25 addr

theorem retries :
    (if shouldRetry (popped.fold addr false).1 (afterCheck (.new addr.host addr.port ∅) failing).avgRespTime
        (20 - ((popped.fold addr false).2.lastOk addr).getD 20) eager = true
      then pure <| ((popped.fold addr false).2.setRetrying addr true).push
        (20 + nextInterval (popped.fold addr false).1 eager + 5) addr
      else pure <| ((popped.fold addr false).2.forget addr).setRetrying addr false : Async Schedule) =
    pure retried := by
  have hr : shouldRetry (popped.fold addr false).1 (afterCheck (.new addr.host addr.port ∅) failing).avgRespTime
      (20 - ((popped.fold addr false).2.lastOk addr).getD 20) eager = true := by decide +kernel
  have hd : 20 + nextInterval (popped.fold addr false).1 eager + 5 = 25 := by decide +kernel
  rw [if_pos hr, hd]
  rfl

end RecheckExample

open RecheckExample in
-- The first check fails, so that the loop removes the proxy. The second one succeeds, but what the loop adds is
-- a proxy without credentials.
theorem credentials_lost :
    ∃ tr x, Attends .default eager (fun _ _ => True) (attended eager guarded) tr x ∧ x.system.threads = [] ∧
      guarded.proxies = [provided] ∧ x.system.shared.proxies = [fresh] ∧ provided.key = fresh.key ∧
      provided.traits ≠ fresh.traits := by
  have h := popping_attends guarded rfl
  have h := h.loop [addr] ⟨rfl, rfl⟩ trivial
  have h := h.loop failing rfl trivial
  have h := h.loop () rfl trivial
  have h := h.loop (20 : Instant) rfl trivial
  have h := h.loop (5 : Duration) rfl trivial
  have h := h.loop true ⟨rfl, rfl⟩ trivial
  have h := h.congr <| congrArg (fun p => Iteration.settle _ _ _ (p >>= fun s => pure (some (Phase.head s)))) retries
  have h := h.loop (30 : Instant) rfl trivial
  have h := h.loop [] ⟨rfl, rfl⟩ trivial
  have h := h.loop (30 : Instant) rfl trivial
  have h := h.loop false rfl trivial
  have h := h.loop (30 : Instant) rfl trivial
  have h := h.loop (30 : Instant) rfl trivial
  have h := h.loop false rfl trivial
  have h := h.loop (0 : Nat) rfl trivial
  have h := h.loop working rfl trivial
  have h := h.loop () rfl trivial
  have h := h.loop (40 : Instant) rfl trivial
  have h := h.loop (5 : Duration) rfl trivial
  have h := h.loop () rfl trivial
  exact ⟨_, _, h, rfl, rfl, rfl, rfl, by simp [provided, Proxy.traits, fresh, afterCheck, Proxy.new]⟩

open RecheckExample in
-- The first check succeeds, so that the loop adds what is in the pool already.
theorem traits_kept_working :
    ∃ tr x, Attends .default eager (Preserves addr provided.traits) (atJob guarded) tr x ∧
      .own ⟨.pool (.add .outsider fresh), ()⟩ ∈ tr ∧
      ∀ p, p ∈ x.system.shared.proxies ∨ p ∈ x.system.leased → p.key = addr → p.traits = provided.traits := by
  have h₀ : ∀ p, p ∈ (atJob guarded).system.shared.proxies ∨ p ∈ (atJob guarded).system.leased → p.key = addr →
      p.traits = provided.traits := by
    rintro p (hp | hp) -
    · cases List.mem_singleton.mp hp
      rfl
    · cases hp
  have h := (popping_attends guarded rfl).continue (Preserves addr provided.traits)
  have h := h.loop [addr] ⟨rfl, rfl⟩ False.elim
  have h := h.loop working rfl False.elim
  have h := h.loop () rfl False.elim
  have h := h.loop (20 : Instant) rfl False.elim
  have h := h.loop (5 : Duration) rfl False.elim
  have h := h.loop () rfl fun _ => .inl (List.mem_singleton_self addr)
  refine ⟨_, _, h, List.mem_append_right _ (List.mem_singleton_self _), ?_⟩
  exact traits_kept (popping_attends guarded rfl) h₀ h

end Scheduler
