import ProxyBroker.Persist.World
import ProxyBroker.Persist.Theorems.Agreement
import ProxyBroker.Objects.Theorems.Statistics

namespace Persist

section Restoring

variable {ps : List Proxy} {k : Key} {a : Aggregate}

theorem errorsOf_le_requestsOf (h : ∀ p ∈ ps, p.Sound) : errorsOf ps ≤ requestsOf ps :=
  List.sum_le_sum fun p hp => p.errors.total_le_sum.trans (h p hp)

theorem exact_sound (h : ∀ p ∈ ps, p.Sound) (ha : exact ps k = some a) : a.errors ≤ a.requests := by
  rw [exact_requests ha, exact_errors ha]
  exact errorsOf_le_requestsOf fun p hp => h p (List.mem_of_mem_filter hp)

theorem toNat_count_of_lt {n : Nat} (h : n < 2 ^ 32) (b : Backend) : (b.count n).toNat = n := by
  rw [count_eq h]
  exact Nat.mod_eq_of_lt h

-- The counters keep their relation if a store restores them without loss.
theorem restored_sound (b : Backend) (h : a.errors ≤ a.requests)
    (ho : (b.view a).requests < 2 ^ 32 ∨ (b.view a).errors = 0) : (b.restored k a).Sound := by
  have he : (b.restored k a).errors.sum = (b.count a.errors).toNat :=
    Proxy.sum_restored k.host k.port a.types (b.count a.requests) (b.count a.errors) a.avgLatency
  have hs (hc : (b.count a.errors).toNat ≤ (b.count a.requests).toNat) : (b.restored k a).Sound :=
    he.le.trans hc
  have hsmall (hr : a.requests < 2 ^ 32) : (b.restored k a).Sound :=
    hs (by rwa [toNat_count_of_lt hr, toNat_count_of_lt (Nat.lt_of_le_of_lt h hr)])
  have hzero (hz : a.errors = 0) : (b.restored k a).Sound :=
    hs (by rw [hz, toNat_count_of_lt (by decide)]; exact Nat.zero_le _)
  cases b
  case memory =>
    have hm (n : Nat) : (Backend.memory.count n).toNat = min n (2 ^ 32 - 1) := Nat.mod_eq_of_lt (by omega)
    refine hs ?_
    rw [hm, hm]
    omega
  all_goals exact ho.elim hsmall hzero

end Restoring

namespace World

variable {S : Serde} {ι : Type} [DecidableEq ι] {kind : ι → Backend} {w w' : World kind}

-- All proxies are sound, and all stores have only been given sound ones.
structure Sound (S : Serde) (w : World kind) : Prop where
  proxies : ∀ p ∈ w.proxies, p.Sound
  stores  : ∀ i, ∃ ps, (∀ p ∈ ps, p.Sound) ∧ w.stores i = (kind i).after S ps

omit [DecidableEq ι] in
theorem Sound.push (h : w.Sound S) {ps : List Proxy} (hp : ∀ p ∈ ps, p.Sound) : (w.push ps).Sound S where
  proxies := List.forall_mem_append.mpr ⟨h.proxies, hp⟩
  stores  := h.stores

omit [DecidableEq ι] in
theorem Sound.load (hS : S.Faithful) (h : w.Sound S) {i : ι} {qs : List Proxy}
    (ho : ∀ k, ∀ a ∈ (kind i).aggregate S (w.stores i) k, a.requests < 2 ^ 32 ∨ a.errors = 0)
    (hl : (kind i).load S (w.stores i) = some qs) : ∀ q ∈ qs, q.Sound := by
  obtain ⟨ps, hp, hs⟩ := h.stores i
  rw [hs] at ho hl
  obtain ⟨ks, -, hl' | ⟨hl', -⟩⟩ := load_after hS (kind i) ps
  case inr => simp [hl'] at hl
  rw [hl', Option.some_inj] at hl
  subst hl
  intro q hq
  obtain ⟨k, -, hk⟩ := List.mem_filterMap.mp hq
  obtain ⟨a, ha, rfl⟩ := Option.map_eq_some_iff.mp hk
  refine restored_sound _ (exact_sound hp ha) (ho k _ ?_)
  rw [aggregate_after hS, ha]
  rfl

theorem Sound.act (hS : S.Faithful) (h : w.Sound S) {a : Act ι} (ho : w.NoOverflow S a) (ha : w.act S a = some w') :
    w'.Sound S := by
  cases a <;> simp only [World.act, Option.map_eq_some_iff, Option.some_inj] at ha
  case new =>
    subst ha
    exact h.push (by simpa using Proxy.sound_new ..)
  case recordAttempt n runtime err =>
    obtain ⟨p, hp, rfl⟩ := ha
    have hm := h.proxies p (List.mem_of_getElem? hp)
    exact h.push (by simpa using hm.recordAttempt (ho p hp) runtime err)
  case upsert n i =>
    obtain ⟨p, hp, rfl⟩ := ha
    refine ⟨h.proxies, fun j => ?_⟩
    by_cases hj : j = i
    case neg =>
      simp only [Function.update_of_ne hj]
      exact h.stores j
    case pos =>
      subst hj
      obtain ⟨ps, hs, he⟩ := h.stores j
      refine ⟨ps ++ [p], List.forall_mem_append.mpr ⟨hs, by simpa using h.proxies p (List.mem_of_getElem? hp)⟩, ?_⟩
      simp [he, Backend.after]
  case load i =>
    obtain ⟨qs, hl, rfl⟩ := ha
    exact h.push (h.load hS ho hl)

theorem Reached.sound (hS : S.Faithful) (h : Reached S (NoOverflow S) w) : w.Sound S := by
  induction h
  case empty           => exact ⟨by simp [World.empty], fun i => ⟨[], by simp, rfl⟩⟩
  case act ho ha hi    => exact hi.act hS ho ha

section Overflow

-- A proxy that has failed once in two attempts.
def failing : Proxy :=
  ((Proxy.new (.v4 1 2 3 4) 8080 ∅).recordAttempt none none).recordAttempt none (some .connFailed)

theorem Reached.mono {ok ok' : World kind → Act ι → Prop} (h : Reached S ok w) (hk : ∀ w a, ok w a → ok' w a) :
    Reached S ok' w := by
  induction h
  case empty        => exact .empty
  case act ho ha hi => exact hi.act (hk _ _ ho) ha

theorem reached_upserts (n : Nat) :
    ∃ w : World fun _ : Unit => .sqlite, Reached .compact (NoOverflow .compact) w ∧ w.proxies[2]? = some failing ∧
      w.stores () = Backend.sqlite.after .compact (List.replicate n failing) := by
  induction n
  case zero =>
    let a₁ : Act Unit := .new (.v4 1 2 3 4) 8080 ∅
    let a₂ : Act Unit := .recordAttempt 0 none none
    let a₃ : Act Unit := .recordAttempt 1 none (some .connFailed)
    have h₁ : Reached .compact (NoOverflow .compact) (_ : World fun _ : Unit => .sqlite) :=
      Reached.empty.act (a := a₁) trivial rfl
    have h₂ := h₁.act (a := a₂) (by simp [NoOverflow, a₂, push, World.empty, Proxy.new]) rfl
    have h₃ := h₂.act (a := a₃) (by simp [NoOverflow, a₃, push, World.empty, Proxy.new, Proxy.recordAttempt]) rfl
    exact ⟨_, h₃, rfl, rfl⟩
  case succ n hi =>
    obtain ⟨w, hw, hp, hs⟩ := hi
    let w' : World fun _ : Unit => .sqlite :=
      { w with stores := Function.update w.stores () (Backend.sqlite.upsert .compact (w.stores ()) failing) }
    have ha : w.act .compact (.upsert 2 ()) = some w' := by simp [World.act, hp, w']
    refine ⟨w', hw.act (a := .upsert 2 ()) trivial ha, hp, ?_⟩
    simp [w', hs, Backend.after, List.replicate_succ']

theorem failing_exact {n : Nat} {k : Key} {a : Aggregate} (h : exact (List.replicate n failing) k = some a) :
    k = failing.key ∧ a.requests = 2 * n ∧ a.errors = n := by
  have hm : k ∈ (List.replicate n failing).map Proxy.key := mem_exact.mp (Option.isSome_iff_exists.mpr ⟨a, h⟩)
  obtain ⟨p, hp, rfl⟩ := List.mem_map.mp hm
  obtain rfl := List.eq_of_mem_replicate hp
  have hh : history failing.key (List.replicate n failing) = List.replicate n failing := by simp [history]
  have hr : failing.requests.toNat = 2 := by decide
  have he : (errorsTotal failing).toNat = 1 := by decide
  refine ⟨rfl, ?_, ?_⟩
  · rw [exact_requests h, hh, requestsOf, List.map_replicate, List.sum_replicate_nat, hr, Nat.mul_comm]
  · rw [exact_errors h, hh, errorsOf, List.map_replicate, List.sum_replicate_nat, he, Nat.mul_one]

theorem failing_loaded {n : Nat} (hn : n ≠ 0) (h : 2 * n < 2 ^ 63) :
    ∃ qs, Backend.sqlite.load .compact (Backend.sqlite.after .compact (List.replicate n failing)) = some qs ∧
      ∃ q ∈ qs, q.requests = .ofNat (2 * n) ∧ q.errors.sum = (UInt32.ofNat n).toNat := by
  have hm : failing.key ∈ (List.replicate n failing).map Proxy.key := by simp [hn]
  obtain ⟨a, ha⟩ := Option.isSome_iff_exists.mp (mem_exact.mpr hm)
  obtain ⟨-, hr, he⟩ := failing_exact ha
  obtain ⟨ks, ⟨-, hk⟩, hl | ⟨-, k, a', ha', hf⟩⟩ :=
    load_after Serde.compact_faithful .sqlite (List.replicate n failing)
  case inr =>
    obtain ⟨-, hr', he'⟩ := failing_exact ha'
    exact absurd ⟨by omega, by omega⟩ hf
  case inl =>
    have hmem : failing.key ∈ ks := (hk _).mpr hm
    refine ⟨_, hl, _, List.mem_filterMap.mpr ⟨_, hmem, congrArg (Option.map _) ha⟩, ?_, ?_⟩
    · exact congrArg UInt32.ofNat hr
    · rw [← he]
      exact Proxy.sum_restored failing.key.host failing.key.port a.types (.ofNat a.requests) (.ofNat a.errors) a.avgLatency

-- The proxy is stored a number of times, and then loaded again.
theorem reached_load {n : Nat} (hn : n ≠ 0) (h : 2 * n < 2 ^ 63) :
    ∃ w w' : World fun _ : Unit => .sqlite, Reached .compact (NoOverflow .compact) w ∧
      w.act .compact (.load ()) = some w' ∧ (2 * n < 2 ^ 32 → w.NoOverflow .compact (.load ())) ∧
      ∃ q ∈ w'.proxies, q.requests = .ofNat (2 * n) ∧ q.errors.sum = (UInt32.ofNat n).toNat := by
  obtain ⟨w, hw, -, hs⟩ := reached_upserts n
  obtain ⟨qs, hl, q, hq, hr, he⟩ := failing_loaded hn h
  have ha : w.act .compact (.load ()) = some (w.push qs) := by
    show Option.map _ _ = _
    rw [hs, hl]
    rfl
  refine ⟨w, w.push qs, hw, ha, fun hn => ?_, q, List.mem_append_right _ hq, hr, he⟩
  intro k a hk
  rw [hs, aggregate_after Serde.compact_faithful] at hk
  obtain ⟨a', ha', rfl⟩ := Option.map_eq_some_iff.mp hk
  exact .inl ((failing_exact ha').right.left.trans_lt hn)

-- As long as no counter overflows, no proxy has more errors than requests.
theorem errors_le_requests (hS : S.Faithful) (h : Reached S (NoOverflow S) w) :
    ∀ p ∈ w.proxies, p.errors.sum ≤ p.requests.toNat ∧ 0 ≤ p.errorRate ∧ p.errorRate ≤ 1 := by
  intro p hp
  have := (h.sound hS).proxies p hp
  exact ⟨this, this.errorRate⟩

-- A proxy whose two attempts are stored twice comes back with four requests and two errors.
theorem errors_le_requests_reloaded :
    ∃ w : World fun _ : Unit => .sqlite, Reached .compact (NoOverflow .compact) w ∧
      (∃ q ∈ w.proxies, q.requests = 4 ∧ q.errors.sum = 2) ∧
      ∀ p ∈ w.proxies, p.errors.sum ≤ p.requests.toNat ∧ 0 ≤ p.errorRate ∧ p.errorRate ≤ 1 := by
  obtain ⟨w, w', hw, ha, ho, hq⟩ := reached_load (n := 2) (by decide) (by decide)
  have h := hw.act (ho (by decide)) ha
  exact ⟨w', h, hq, errors_le_requests Serde.compact_faithful h⟩

-- Two attempts and one error are stored so often that only the counter of requests overflows.
theorem errors_exceed_requests :
    ¬∀ w : World fun _ : Unit => .sqlite, Reached .compact (fun _ _ => True) w →
      ∀ p ∈ w.proxies, p.errors.sum ≤ p.requests.toNat ∧ 0 ≤ p.errorRate ∧ p.errorRate ≤ 1 := by
  intro h
  obtain ⟨n, hn⟩ : ∃ n, n = 2 ^ 31 + 1 := ⟨_, rfl⟩
  obtain ⟨w, w', hw, ha, -, q, hq, hr, he⟩ := reached_load (n := n) (by omega) (by omega)
  have hw' : Reached .compact (fun _ _ => True) w' := (hw.mono fun _ _ _ => trivial).act trivial ha
  have hle := (h w' hw' q hq).left
  rw [hr, he, hn] at hle
  exact absurd hle (by decide)

end Overflow

end World

end Persist
