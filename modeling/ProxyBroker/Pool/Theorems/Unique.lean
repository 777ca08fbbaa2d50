import ProxyBroker.Pool.Theorems.Removal

open Pool System

namespace Pool

-- The addresses that are in the pool, or can be brought back by a lease.
def addresses (x : System Effects State) : Multiset Key :=
  (x.shared.proxies.map Proxy.key : Multiset Key) + x.leased.map Proxy.key

-- A proxy is only added while its address is not leased, and only imported while its address is
-- neither leased nor in the pool.
def Admissible (x : System Effects State) (e : Event Effects) : Prop :=
  match e.op with
  | .pool (.push .outsider q) => q.proxy.key ∉ addresses x
  | .pool (.add .outsider p)  => p.key ∉ x.leased.map Proxy.key
  | _                         => True

variable {c : Config} {s₀ : State} {x y : System Effects State} {e : Event Effects}
variable {tr : Trace Effects} {service : Async Unit → Prop}

-- What enters the pool is handed back, or its address is a new one.
theorem Admissible.entering (h : Admissible x e) :
    entering x.shared e.op = [] ∨
    ∃ p, entering x.shared e.op = [p] ∧ (e.returns = some p ∨ p.key ∉ addresses x) := by
  obtain ⟨o, r⟩ := e
  cases o
  case pool o =>
    cases o
    case push g q =>
      refine .inr ⟨q.proxy, rfl, ?_⟩
      cases g
      · exact .inl rfl
      · exact .inr h
    case add g p =>
      by_cases hp : x.shared.state.any (·.proxy.key = p.key)
      · exact .inl (if_pos hp)
      · refine .inr ⟨p, if_neg hp, ?_⟩
        cases g
        · exact .inl rfl
        · refine .inr fun hm => ?_
          rcases Multiset.mem_add.mp hm with hm | hm
          · exact hp (by simpa [State.proxies] using hm)
          · exact h hm
    all_goals exact .inl rfl
  all_goals exact .inl rfl

theorem addresses_event (hx : x.IsLeased) (hn : (addresses x).Nodup) (hg : Admissible x e)
    (h : Step (machine c) service x (some e) y) : (addresses y).Nodup := by
  have hb := pooled_leased_event Proxy.ident_key (.refl c) hx h
  change addresses y + _ = addresses x + _ at hb
  rcases hg.entering with he | ⟨p, he, hr | hp⟩
  · refine Multiset.nodup_of_le ?_ hn
    simp only [id, he, List.map_nil, Multiset.coe_nil, add_zero] at hb
    exact hb ▸ Multiset.le_add_right ..
  · refine Multiset.nodup_of_le ?_ hn
    simp only [id, he, hr, Option.toList_some, List.map_singleton, Multiset.coe_singleton] at hb
    have hb : addresses y + (deleting x.shared e.op).map Proxy.key = addresses x := by
      apply add_right_cancel (b := {p.key})
      rw [← hb]
      abel
    exact hb ▸ Multiset.le_add_right ..
  · refine Multiset.nodup_of_le ?_ (Multiset.nodup_cons.mpr ⟨hp, hn⟩)
    simp only [id, he, List.map_singleton, Multiset.coe_singleton] at hb
    rw [← Multiset.singleton_add, add_comm, ← hb]
    exact Multiset.le_add_right ..

-- If the addresses are distinct at first and every admission is admissible, then they stay distinct.
theorem addresses_nodup (h₀ : (s₀.proxies.map Proxy.key).Nodup)
    (h : Run (machine c) (AnyService c) Admissible ⟨s₀, []⟩ tr x) :
    (x.shared.proxies.map Proxy.key).Nodup := by
  have hx : x.IsLeased ∧ (addresses x).Nodup := by
    refine h.invariant (I := fun x => x.IsLeased ∧ (addresses x).Nodup) ?_ ?_ ?_
    · exact ⟨isLeased_init s₀, by simpa [addresses, leased, observations] using h₀⟩
    · rintro x y ⟨hx, hn⟩ hs
      refine ⟨hx.spawn hs fun _ h => h.lease, ?_⟩
      rwa [addresses, leased_spawn hs, hs.shared_spawn]
    · rintro x e y ⟨hx, hn⟩ hg hs
      exact ⟨hx.event hs, addresses_event hx hn hg hs⟩
  exact (Multiset.nodup_add.mp hx.right).left

open LeaseExample in
-- The only proxy of a pool is leased, and therefore missing when the watcher compares the pool with
-- its file. Once it has been handed back, there are two entries with its address.
theorem addresses_duplicated :
    ∃ x, Runs ⟨pool, []⟩
        (leasing ++ [⟨.pool .addrs, []⟩, ⟨.pool (.add .outsider proxy), ()⟩] ++ returning) x ∧
      (pool.proxies.map Proxy.key).Nodup ∧ ¬(x.shared.proxies.map Proxy.key).Nodup :=
  ⟨_,
    .spawn (.spawn (.service (.connect 1 ⟨1⟩ uri))) <|
    .spawn (.spawn (.service (.reconcile [proxy]))) <|
    .event (.first rfl) trivial <| .event (.first rfl) trivial <|
    .event (.first ⟨rfl, rfl⟩) trivial <| .event (.first rfl) trivial <|
    .event (.first answers_select) trivial <|
    .event (.second ⟨rfl, rfl⟩) trivial <| .event (.second rfl) trivial <|
    .event (.first rfl) trivial <| .event (.first rfl) trivial .refl,
    by decide,
    (by simp : ¬[proxy.key, proxy.key].Nodup)⟩

open LeaseExample in
-- The watcher adds another proxy while the only one is leased, and the latter is handed back.
theorem addresses_nodup_watched :
    ∃ x p, Run (machine .default) (AnyService .default) Admissible ⟨pool, []⟩
        (leasing ++ [⟨.pool .addrs, []⟩, ⟨.pool (.add .outsider p), ()⟩] ++ returning) x ∧
      x.shared.proxies = [p, proxy.recordAttempt (some 0) none] ∧ (x.shared.proxies.map Proxy.key).Nodup :=
  have h : Run (machine .default) (AnyService .default) Admissible ⟨pool, []⟩
      (leasing ++ [⟨.pool .addrs, []⟩, ⟨.pool (.add .outsider (.new (.v4 10 0 0 2) 80 ∅)), ()⟩] ++ returning) _ :=
    .spawn (.spawn (.service (.connect 1 ⟨1⟩ uri))) <|
    .spawn (.spawn (.service (.reconcile [.new (.v4 10 0 0 2) 80 ∅]))) <|
    .event (.first rfl) trivial <| .event (.first rfl) trivial <|
    .event (.first ⟨rfl, rfl⟩) trivial <| .event (.first rfl) trivial <|
    .event (.first answers_select) trivial <|
    .event (.second ⟨rfl, rfl⟩) trivial <|
    .event (.second rfl) (by decide : (Proxy.new (.v4 10 0 0 2) 80 ∅).key ∉ [proxy.key]) <|
    .event (.first rfl) trivial <| .event (.first rfl) trivial .refl
  ⟨_, _, h, rfl, addresses_nodup (by decide) h⟩

end Pool
