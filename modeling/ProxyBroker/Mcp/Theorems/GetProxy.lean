import ProxyBroker.Pool.Machine
import ProxyBroker.Pool.Theorems.TryGet

open Pool

namespace Mcp

variable {c : Config} {s s' : State} {scheme : Scheme} {country : Option Str} {tr : Trace Effects}
variable {info : Option ProxyInfo}

-- The entry that is shown is not benched, and it is the only one with its address.
def Undisturbed (c : Config) (pool : List Pooled) (scheme : Scheme) (country : Option Str) : Prop :=
  ∀ i e, IsBest pool c.preferConnect (matching pool scheme country) i → pool[i]? = some e →
    e.blockedUntil = none ∧ ∀ j e', pool[j]? = some e' → e'.proxy.key = e.proxy.key → j = i

-- What is taken out of a pool and added to it again.
theorem add_eraseIdx_perm_iff {i : Nat} {e : Pooled} (he : s.state[i]? = some e) :
    (State.add { s with state := s.state.eraseIdx i } e.proxy).state.Perm s.state ↔
    e.blockedUntil = none ∧ ∀ j e', s.state[j]? = some e' → e'.proxy.key = e.proxy.key → j = i := by
  have hp : (e :: s.state.eraseIdx i).Perm s.state := by
    obtain ⟨hi, rfl⟩ := List.getElem?_eq_some_iff.mp he
    exact List.getElem_cons_eraseIdx_perm hi
  have hd : (s.state.eraseIdx i).any (·.proxy.key = e.proxy.key) = true ↔
      ∃ j e', s.state[j]? = some e' ∧ e'.proxy.key = e.proxy.key ∧ j ≠ i := by
    simp only [List.any_eq_true, List.mem_eraseIdx_iff_getElem?, decide_eq_true_eq]
    constructor
    · rintro ⟨e', ⟨j, hn, hj⟩, hk⟩
      exact ⟨j, e', hj, hk, hn⟩
    · rintro ⟨j, e', hj, hk, hn⟩
      exact ⟨e', ⟨j, hn, hj⟩, hk⟩
  unfold State.add
  split_ifs with h
  · refine iff_of_false (fun h => ?_) (fun h' => ?_)
    · simpa using (h.trans hp.symm).length_eq
    · obtain ⟨j, e', hj, hk, hn⟩ := hd.mp h
      exact hn (h'.right j e' hj hk)
  · have hu : ∀ j e', s.state[j]? = some e' → e'.proxy.key = e.proxy.key → j = i := by
      intro j e' hj hk
      by_contra hn
      exact h (hd.mpr ⟨j, e', hj, hk, hn⟩)
    rw [State.push, (List.perm_append_singleton _ _).congr_left, hp.symm.congr_right, ← Multiset.coe_eq_coe,
      ← Multiset.cons_coe, ← Multiset.cons_coe, Multiset.cons_inj_left]
    constructor
    · intro he
      exact ⟨(congrArg Pooled.blockedUntil he).symm, hu⟩
    · rintro ⟨hb, -⟩
      rw [← hb]

-- Showing a proxy leaves the pool as it was exactly if the proxy that is shown is the only one with its address
-- and was not benched.
theorem handleGetProxy_frame_iff (h : (machine c).Exec s (handleGetProxy scheme country) tr s' (.ret info)) :
    s'.state.Perm s.state ↔ Undisturbed c s.state scheme country := by
  unfold handleGetProxy at h
  cases h
  case call r ha h =>
    have ha : (r, _) = s.tryGet c scheme country := ha
    rcases State.tryGet_cases ha with ⟨rfl, rfl, he⟩ | ⟨i, e, hi, he, rfl, rfl⟩
    · obtain ⟨-, rfl, -⟩ := h.of_ret
      refine iff_of_true (List.Perm.refl _) fun i e hi => ?_
      exact absurd hi.mem (he ▸ Set.notMem_empty i)
    · cases h
      case call ha h =>
        cases ha
        obtain ⟨-, rfl, -⟩ := h.of_ret
        rw [add_eraseIdx_perm_iff he]
        constructor
        · intro h j e' hj he'
          cases hi.unique hj
          cases he.symm.trans he'
          exact h
        · exact fun h => h i e hi he

namespace GetProxyExample

open SelectionExample

-- The better one of two proxies is shown, no matter which of them are benched.
theorem tryGet_first (b b' : Option Instant) : (some benched, { pool with state := [⟨worse, b'⟩] }) =
    State.tryGet { pool with state := [⟨benched, b⟩, ⟨worse, b'⟩] } .default .http none := by
  have hb : bestByPriority [⟨benched, none⟩, ⟨worse, none⟩] [0, 1] false = some 0 := by decide +kernel
  have hb' : bestByPriority [⟨benched, b⟩, ⟨worse, b'⟩] [0, 1] false = some 0 := hb
  have hl : (([⟨benched, b⟩, ⟨worse, b'⟩].zipIdx.filter fun x => Pool.eligible .http x.1).filter fun x =>
      (none : Option Str).all fun cc => x.1.proxy.geo.any fun g => Str.eqIgnoreAsciiCase g.code cc).map Prod.snd =
      [0, 1] := rfl
  unfold State.tryGet
  dsimp only
  erw [hl, hb']
  rfl

-- The worse one is benched.
def rested : State :=
  { pool with state := [⟨benched, none⟩, ⟨worse, some 1⟩] }

theorem rested_undisturbed : Undisturbed .default rested.state .http none := by
  rcases State.tryGet_cases (tryGet_first none (some 1)) with ⟨⟨⟩, -, -⟩ | ⟨i, e, hi, he, hp, -⟩
  have unique (j : Nat) (e' : Pooled) (hj : rested.state[j]? = some e') (hk : e'.proxy.key = benched.key) : j = 0 := by
    match j, hj with
    | 0, _ => rfl
    | 1, hj =>
      cases hj
      exact absurd hk (by decide)
  obtain rfl := unique i e he (congrArg Proxy.key (Option.some.inj hp).symm)
  rintro j e' hj he'
  cases hi.unique hj
  cases he'
  exact ⟨rfl, unique⟩

end GetProxyExample

open SelectionExample GetProxyExample in
-- The proxy is not benched any more after it was shown.
theorem handleGetProxy_unbenches : ∃ tr s' info,
    (machine .default).Exec pool (handleGetProxy .http none) tr s' (.ret info) ∧ ¬s'.state.Perm pool.state := by
  refine ⟨_, _, _, .call (tryGet_first (some 1) none) <| .call (r := ()) rfl .refl, fun h => ?_⟩
  have hm : ⟨benched, some 1⟩ ∈ [Pooled.mk worse none, ⟨benched, none⟩] := h.symm.subset List.mem_cons_self
  simp at hm

open GetProxyExample in
-- A proxy that is not benched is shown, and another one stays benched.
theorem handleGetProxy_frame_rested : ∃ tr s' info,
    (machine .default).Exec rested (handleGetProxy .http none) tr s' (.ret info) ∧ s'.state.Perm rested.state := by
  obtain ⟨tr, s', info, h⟩ : ∃ tr s' info, (machine .default).Exec rested (handleGetProxy .http none) tr s' (.ret info) :=
    ⟨_, _, _, .call (tryGet_first none (some 1)) <| .call (r := ()) rfl .refl⟩
  exact ⟨tr, s', info, h, (handleGetProxy_frame_iff h).mpr rested_undisturbed⟩

end Mcp
