import ProxyBroker.Serve
import ProxyBroker.Checker.Theorems.Admission
import ProxyBroker.Broker.Theorems.Gather
import ProxyBroker.Broker.Theorems.Emission
import ProxyBroker.Pool.Theorems.Services
import ProxyBroker.Pool.Theorems.State

open Prog

namespace Checker

variable {c : Checker} {w : Answers} {p : Proxy}

theorem attempts_key (r : RetryPolicy) (t : Proto) (tries i : Nat) : (attempts r w t tries i p).2.key = p.key := by
  induction tries generalizing i p
  case zero => rfl
  case succ hi =>
    unfold attempts
    split
    · rfl
    · rfl
    · dsimp only
      split_ifs
      · exact hi _
      · rfl

theorem typesPassed_key (requested : List TypeSpec) (strict : Bool) : (typesPassed requested strict p).2.key = p.key := by
  rw [typesPassed_snd]
  rfl

-- A check does not change the address of a proxy.
theorem check_key : (c.check w p).2.key = p.key := by
  have hn (ts : List Proto) (s : Bool × Proxy) :
      (ts.foldl (fun s t => (s.1 || (c.checkOne w s.2 t).1, (c.checkOne w s.2 t).2)) s).2.key = s.2.key := by
    induction ts generalizing s
    case nil => rfl
    case cons t ts hi =>
      refine (hi _).trans ?_
      dsimp only [checkOne]
      split_ifs
      · exact attempts_key ..
      · rfl
  unfold check
  split_ifs with hd
  · rfl
  · dsimp only
    split_ifs
    · exact (typesPassed_key ..).trans (hn _ _)
    · exact hn _ _

end Checker

namespace Serve

variable {c : Pool.Config} {history loaded found ps : List Proxy} {fuel : Nat} {tr : Trace Effects}
variable {x : System Effects Pool.State}

section Finding

variable {d : Broker.Databases} {countries : Option (List Str)}

open CheckStream in
theorem key_of_mem_yields {c : Params} {i : Nat} {q : Proxy} (h : (i, q) ∈ yields c) :
    (c.source.map Proxy.key)[i]? = some q.key := by
  obtain ⟨p, hp, ho, -⟩ := mem_yields.mp h
  rw [List.getElem?_map, hp, Option.map_some, ← congrArg (·.2.key) ho, outcome, Checker.check_key]

-- No address is found twice.
theorem Found.nodup (h : Found d countries found) : (found.map Proxy.key).Nodup := by
  cases h
  case intro cs log x hu hs hr hm hc hq =>
    obtain ⟨hy, hn, -, he⟩ := CheckStream.emits_exactly hr
    obtain ⟨-, he⟩ := he hm hc
    rw [hq, List.append_nil] at he
    rw [he, List.map_map, List.Nodup, List.pairwise_map]
    refine (List.pairwise_map.mp hn).imp_of_mem fun {a b} ha hb hab hk => hab ?_
    have hk : (cs.source.map Proxy.key)[a.1]? = (cs.source.map Proxy.key)[b.1]? := by
      rw [key_of_mem_yields (hy ha), key_of_mem_yields (hy hb)]
      exact congrArg some hk
    have hl : a.1 < (cs.source.map Proxy.key).length := by
      by_contra hl
      have := key_of_mem_yields (hy ha)
      simp [List.getElem?_eq_none (Nat.le_of_not_lt hl)] at this
    exact (List.getElem?_inj hl (hs ▸ Broker.nodup_filterMap)).mp hk

end Finding

section Filling

-- What the importer has put into the pool.
def pushed (tr : Trace Effects) : List Proxy :=
  tr.filterMap fun
    | ⟨.pool (.push .outsider e), _⟩ => some e.proxy
    | _                              => none

-- A stream that is done has ended with `none`, and the importer has screened all that it has yielded.
theorem importer_runs (h : (Pool.importer c fuel).Runs tr (.ret ())) :
    ∃ ps : List Proxy, handed tr = ps.map some ++ [none] ∧ pushed tr = ps.filter (Pool.countryOk c) := by
  induction fuel generalizing tr
  case zero =>
    cases h
    case call r _ => exact r.elim
  case succ fuel hi =>
    cases h
    case call tr r h =>
      cases r
      case none =>
        cases h
        case call h =>
          cases h
          case call h =>
            cases h
            exact ⟨[], rfl, rfl⟩
      case some p =>
        change Runs (Async.when (Pool.countryOk c p) (do
          Async.exec (.push .outsider ⟨p, none⟩)
          Async.exec .notifyWaiters) >>= fun _ => Pool.importer c fuel) tr (.ret ()) at h
        by_cases hp : Pool.countryOk c p
        case pos =>
          rw [Async.when, if_pos hp] at h
          cases h
          case call h =>
            cases h
            case call h =>
              obtain ⟨ps, hh, ht⟩ := hi h
              exact ⟨p :: ps, congrArg (some p :: ·) hh, by simpa [pushed, hp] using ht⟩
        case neg =>
          rw [Async.when, if_neg hp] at h
          obtain ⟨ps, hh, ht⟩ := hi h
          exact ⟨p :: ps, congrArg (some p :: ·) hh, by simpa [pushed, hp] using ht⟩

-- The operations of an importer.
def Imports : Op → Prop
  | .pool (.push .outsider _) | .pool .notifyWaiters | .pool .storeExhausted | .env _ => True
  | _                                                                               => False

theorem importer_imports (fuel : Nat) : (Pool.importer c fuel).Uses Imports := by
  induction fuel
  case zero => exact Async.uses_never.mpr trivial
  case succ hi =>
    refine Uses.bind ⟨trivial, fun _ => trivial⟩ fun r => ?_
    split
    · refine Uses.bind (Async.uses_when ?_) fun _ => hi
      exact Uses.bind ⟨trivial, fun _ => trivial⟩ fun _ => ⟨trivial, fun _ => trivial⟩
    · exact Uses.bind ⟨trivial, fun _ => trivial⟩ fun _ => ⟨trivial, fun _ => trivial⟩

theorem Imports.changes {e : Event Effects} (ho : Imports e.op) (s : Pool.State) :
    e.leases = none ∧ Pool.deleting s e.op = [] ∧ Pool.entering s e.op = pushed [e] := by
  obtain ⟨o, r⟩ := e
  cases o
  case pool o =>
    cases o
    case push g _ =>
      cases g
      · exact (ho : False).elim
      · exact ⟨rfl, rfl, rfl⟩
    case notifyWaiters | storeExhausted => exact ⟨rfl, rfl, rfl⟩
    all_goals exact (ho : False).elim
  case env => exact ⟨rfl, rfl, rfl⟩
  all_goals exact (ho : False).elim

theorem Imports.perm {s s' : Pool.State} {e : Event Effects} (ho : Imports e.op) (ha : Pool.answers c s e s')
    (hp : s.proxies.Perm (pushed tr)) : s'.proxies.Perm (pushed (tr ++ [e])) := by
  obtain ⟨hl, hd, he⟩ := ho.changes s
  have hm := Pool.answers_perm ha
  rw [hl, hd, he, Option.toList_none, List.append_nil, List.append_nil] at hm
  rw [pushed, List.filterMap_append]
  exact hm.trans (hp.append_right _)

-- A client does not decide which proxies are in the pool, other than by leases and removals.
def Passive : Op → Prop
  | .pool (.push .outsider _) | .pool (.add ..) => False
  | _                                           => True

theorem Passive.of_isServing {o : Op} (h : o.IsServing) : Passive o := by
  cases o
  case pool o =>
    cases o
    case push g _ =>
      cases g
      · trivial
      · exact (h : False).elim
    case add => exact (h : False).elim
    all_goals trivial
  all_goals trivial

theorem Client.passive {p : Async Unit} (h : Client c p) : p.Uses Passive := by
  obtain ⟨auth, fuel, peer, rfl⟩ := h
  refine Uses.bind (Server.accept_uses _ _ (fun o ho => ?_) (fun o ho => ?_) fun _ => trivial) fun j => ?_
  · cases o
    case net => trivial
    all_goals exact (ho : False).elim
  · cases o
    case pool o => cases o <;> trivial
    all_goals trivial
  · split
    · exact (Server.attempts_uses ..).mono fun _ h => .of_isServing h
    · trivial

theorem Client.lease {p : Async Unit} (h : Client c p) : p.Sat Lease.monitor (fun _ _ => True) none := by
  obtain ⟨auth, fuel, peer, rfl⟩ := h
  exact (Server.handleClient_lease _ _).mono fun _ _ _ => trivial

-- A thread of a client that has not leased a proxy.
def Idle (t : Thread Effects) : Prop :=
  t.code.Uses Passive ∧ t.code.Sat Lease.monitor (fun _ _ => True) none

theorem entering_eq_nil {s : Pool.State} {e : Event Effects} (ho : Passive e.op) (hr : e.returns = none) :
    Pool.entering s e.op = [] := by
  obtain ⟨o, r⟩ := e
  cases o
  case pool o =>
    cases o
    case push g _ =>
      cases g
      · cases hr
      · exact (ho : False).elim
    case add => exact (ho : False).elim
    all_goals rfl
  all_goals rfl

theorem deleting_eq_nil {s : Pool.State} {o : Op} (h : ∀ k, o ≠ .pool (.remove k)) : Pool.deleting s o = [] := by
  cases o
  case pool o =>
    cases o
    case remove k => exact absurd rfl (h k)
    all_goals rfl
  all_goals rfl

theorem Idle.event {s s' : Pool.State} {o : Op} {r : o.Ret} {k : o.Ret → Async Unit}
    (h : Idle ⟨tr, .call o k⟩) (hu : Untouched x ⟨o, r⟩) (ha : Pool.answers c s ⟨o, r⟩ s') :
    Idle ⟨tr ++ [⟨o, r⟩], k r⟩ ∧ s'.proxies.Perm s.proxies := by
  obtain ⟨⟨ho, hp⟩, hd, hs⟩ := h
  have hr : Event.returns ⟨o, r⟩ = none := by
    by_contra hr
    obtain ⟨p, hr⟩ := Option.ne_none_iff_exists'.mp hr
    obtain ⟨l, hl, -⟩ := Lease.demand_returns hr hd
    cases hl
  have hn : Lease.next none ⟨o, r⟩ = none := by
    simp only [Lease.next, hu.left, hr]
    split <;> rfl
  refine ⟨⟨hp r, hn ▸ hs r⟩, ?_⟩
  have hm := Pool.answers_perm ha
  rwa [hu.left, deleting_eq_nil hu.right, entering_eq_nil ho hr, Option.toList_none, List.append_nil,
    List.append_nil, List.append_nil] at hm

-- The pool holds what the importer has put into it, no matter what the clients do in the meantime.
theorem Filling.proxies (h : Filling c fuel tr x) : ∃ t ts, x.threads = t :: ts ∧
    (Pool.importer c fuel).Runs t.trace t.code ∧ x.shared.proxies.Perm (pushed t.trace) ∧ ∀ t ∈ ts, Idle t := by
  refine System.Run.invariant (I := fun x => ∃ t ts, x.threads = t :: ts ∧
    (Pool.importer c fuel).Runs t.trace t.code ∧ x.shared.proxies.Perm (pushed t.trace) ∧ ∀ t ∈ ts, Idle t) h ?_ ?_ ?_
  · exact ⟨_, [], rfl, .refl, .refl _, by simp⟩
  · rintro x y ⟨t, ts, ht, hr, hp, hi⟩ hs
    cases hs
    case spawn s ts' p hc =>
      cases ht
      refine ⟨t, ts ++ [⟨[], p⟩], rfl, hr, hp, fun t h => ?_⟩
      rcases List.mem_append.mp h with h | h
      · exact hi t h
      · cases List.mem_singleton.mp h
        exact ⟨hc.passive, hc.lease⟩
  · rintro x e y ⟨t, ts, ht, hr, hp, hi⟩ hu hs
    cases hs
    case event s s' ts₁ ts₂ tr o r k ha =>
      rcases List.cons_eq_append_iff.mp ht.symm with ⟨rfl, ht⟩ | ⟨ts₁, rfl, rfl⟩
      · cases ht
        have hs := hr.snoc r
        refine ⟨_, _, rfl, hs, ?_, hi⟩
        exact Imports.perm (((importer_imports fuel).of_run hs).right _ (by simp)) ha hp
      · obtain ⟨he, hm⟩ := (hi ⟨tr, .call o k⟩ (by simp)).event hu ha
        refine ⟨t, ts₁ ++ ⟨tr ++ [⟨o, r⟩], k r⟩ :: ts₂, rfl, hr, hm.trans hp, fun t ht => ?_⟩
        rcases List.mem_append.mp ht with ht | ht
        · exact hi t (List.mem_append_left _ ht)
        · rcases List.mem_cons.mp ht with rfl | ht
          · exact he
          · exact hi t (List.mem_append_right _ (List.mem_cons_of_mem _ ht))

-- Once the stream is drained, the pool holds what it has yielded, as far as it is on the list of countries.
theorem Filling.drained (h : Filling c fuel tr x) (hd : Drained x ps) :
    x.shared.proxies.Perm (ps.filter (Pool.countryOk c)) := by
  obtain ⟨t, ts, ht, hr, hp, -⟩ := h.proxies
  obtain ⟨tr', ts', ht', hh⟩ := hd
  cases ht.symm.trans ht'
  obtain ⟨qs, hq, hi⟩ := importer_runs hr
  have he : ps = qs := by
    refine List.map_injective_iff.mpr (Option.some_injective _) ?_
    exact List.append_cancel_right (hh.symm.trans hq)
  rw [he, ← hi]
  exact hp

end Filling

-- What a pool holds that is filled from a history and another source: no address twice, every address that has
-- an admissible proxy, and from the history whatever is in there.
structure Merged (c : Pool.Config) (history other : List Proxy) (s : Pool.State) : Prop where
  nodup    : (s.proxies.map Proxy.key).Nodup
  complete : ∀ p ∈ history ++ other, Pool.countryOk c p → p.key ∈ s.proxies.map Proxy.key
  primary  : ∀ p ∈ history, ∀ q ∈ s.proxies, q.key = p.key → q = p

section Merging

variable {s : Pool.State}

theorem proxies_fromProxies : (Pool.State.fromProxies c ps).proxies = ps.filter (Pool.countryOk c) := by
  simp [Pool.State.fromProxies, Pool.State.proxies, Function.comp_def]

theorem filter_unionDedup : (unionDedup history loaded).filter (Pool.countryOk c) =
    history.filter (Pool.countryOk c) ++
    loaded.filter fun p => Pool.countryOk c p && decide (p.key ∉ history.map Proxy.key) := by
  rw [unionDedup, List.filter_append, List.filter_filter]

-- The pool holds the admissible proxies of the history, and others. Then it is merged if these others have
-- distinct addresses that are not in the history.
theorem merged_iff_of_perm {other : List Proxy} (hn : (history.map Proxy.key).Nodup)
    (hp : s.proxies.Perm (history.filter (Pool.countryOk c) ++ other)) (ho : ∀ p ∈ other, Pool.countryOk c p) :
    ((s.proxies.map Proxy.key).Nodup ∧ ∀ p ∈ history, ∀ q ∈ s.proxies, q.key = p.key → q = p) ↔
    (other.map Proxy.key).Nodup ∧ ∀ p ∈ other, p.key ∉ history.map Proxy.key := by
  rw [(hp.map Proxy.key).nodup_iff, List.map_append]
  simp only [hp.mem_iff]
  constructor
  · rintro ⟨hd, hw⟩
    obtain ⟨-, hs, hd⟩ := List.nodup_append'.mp hd
    refine ⟨hs, fun q hq hk => ?_⟩
    obtain ⟨p, hh, hk⟩ := List.mem_map.mp hk
    cases hw p hh q (List.mem_append_right _ hq) hk.symm
    have hf : q ∈ history.filter (Pool.countryOk c) := List.mem_filter.mpr ⟨hh, ho q hq⟩
    exact hd (List.mem_map_of_mem hf) (List.mem_map_of_mem hq)
  · rintro ⟨hs, hk⟩
    refine ⟨List.nodup_append'.mpr ⟨hn.sublist (List.filter_sublist.map _), hs, ?_⟩, fun p hp q hq he => ?_⟩
    · intro k hf ho
      obtain ⟨q, hq, rfl⟩ := List.mem_map.mp ho
      exact hk q hq ((List.filter_sublist.map _).subset hf)
    · rcases List.mem_append.mp hq with hq | hq
      · exact List.inj_on_of_nodup_map hn (List.mem_of_mem_filter hq) hp he
      · exact absurd (he ▸ List.mem_map_of_mem hp) (hk q hq)

-- What a file has to be like: its admissible proxies must not have the same address, unless the history has an
-- admissible proxy with that address.
structure Mergeable (c : Pool.Config) (history loaded : List Proxy) : Prop where
  nodup : ((loaded.filter fun p => Pool.countryOk c p && decide (p.key ∉ history.map Proxy.key)).map Proxy.key).Nodup
  hides : ∀ p ∈ loaded, Pool.countryOk c p → p.key ∈ history.map Proxy.key →
    ∃ q ∈ history, q.key = p.key ∧ Pool.countryOk c q

theorem load_merged_iff (hn : (history.map Proxy.key).Nodup) :
    Merged c history loaded (load c history loaded) ↔ Mergeable c history loaded := by
  have hp : (load c history loaded).proxies = history.filter (Pool.countryOk c) ++
      loaded.filter fun p => Pool.countryOk c p && decide (p.key ∉ history.map Proxy.key) :=
    proxies_fromProxies.trans filter_unionDedup
  have hi := merged_iff_of_perm hn (.of_eq hp) fun p hm => by simp at hm; exact hm.2.1
  constructor
  · rintro ⟨hd, hc, hw⟩
    refine ⟨(hi.mp ⟨hd, hw⟩).left, fun p hl ho hk => ?_⟩
    obtain ⟨q, hq, he⟩ := List.mem_map.mp (hc p (List.mem_append_right _ hl) ho)
    rw [hp] at hq
    rcases List.mem_append.mp hq with hq | hq
    · exact ⟨q, List.mem_of_mem_filter hq, he, List.of_mem_filter hq⟩
    · have ho := List.of_mem_filter hq
      exact absurd (he ▸ hk) (of_decide_eq_true (Bool.and_eq_true_iff.mp ho).right)
  · rintro ⟨hd, hh⟩
    obtain ⟨hd, hw⟩ := hi.mpr ⟨hd, by simp⟩
    refine ⟨hd, fun p hm ho => ?_, hw⟩
    rw [hp, List.map_append, List.mem_append]
    by_cases hk : p.key ∈ history.map Proxy.key
    case pos =>
      have hq : ∃ q ∈ history, q.key = p.key ∧ Pool.countryOk c q := by
        rcases List.mem_append.mp hm with hm | hm
        · exact ⟨p, hm, rfl, ho⟩
        · exact hh p hm ho hk
      obtain ⟨q, hq, he, ho⟩ := hq
      exact .inl (he ▸ List.mem_map_of_mem (List.mem_filter.mpr ⟨hq, ho⟩))
    case neg =>
      have hm := (List.mem_append.mp hm).resolve_left fun hm => hk (List.mem_map_of_mem hm)
      exact .inr (List.mem_map_of_mem (List.mem_filter.mpr ⟨hm, by simp [ho, hk]⟩))

theorem spawn_merged_iff (hn : (history.map Proxy.key).Nodup) (hf : (found.map Proxy.key).Nodup)
    (h : Filling c fuel tr x) (hd : Drained x (history ++ found)) :
    Merged c history found x.shared ↔ ∀ p ∈ found, Pool.countryOk c p → p.key ∉ history.map Proxy.key := by
  have hp := h.drained hd
  rw [List.filter_append] at hp
  have hi := merged_iff_of_perm hn hp fun p hp => List.of_mem_filter hp
  constructor
  · rintro ⟨hd, -, hw⟩ p hp ho
    exact (hi.mp ⟨hd, hw⟩).right p (List.mem_filter.mpr ⟨hp, ho⟩)
  · intro hk
    obtain ⟨hd, hw⟩ := hi.mpr ⟨hf.sublist (List.filter_sublist.map _), fun p hp =>
      hk p (List.mem_of_mem_filter hp) (List.of_mem_filter hp)⟩
    refine ⟨hd, fun p hm ho => (hp.map Proxy.key).mem_iff.mpr (List.mem_map_of_mem ?_), hw⟩
    rw [← List.filter_append]
    exact List.mem_filter.mpr ⟨hm, ho⟩

-- A pool that is filled from a file is merged if the file is like this, and one that is filled from a find is
-- merged if nothing is found that is in the history already.
theorem start_up_merged_iff (c : Pool.Config) (history loaded found : List Proxy) (d : Broker.Databases)
    (countries : Option (List Str)) (fuel : Nat) (tr : Trace Effects) (x : System Effects Pool.State)
    (hn : (history.map Proxy.key).Nodup) (hf : Found d countries found) (hr : Filling c fuel tr x)
    (hd : Drained x (history ++ found)) :
    (Merged c history loaded (load c history loaded) ↔ Mergeable c history loaded) ∧
    (Merged c history found x.shared ↔ ∀ p ∈ found, Pool.countryOk c p → p.key ∉ history.map Proxy.key) :=
  ⟨load_merged_iff hn, spawn_merged_iff hn hf.nodup hr hd⟩

end Merging

section Example

open CheckStream

def candidates : List Broker.Candidate :=
  Broker.fetch ⟨[]⟩ (some [("1.2.3.4".toList, "80".toList)])

-- A provider lists the proxy of `sample`.
theorem found_sample :
    Found ⟨fun _ => none, fun _ => none, id⟩ none [(outcome sample 0 (.new (.v4 1 2 3 4) 80 ∅)).2] := by
  obtain ⟨log, x, h, hm, hc, hr, hq⟩ := sample_run
  have hu : Unordered Broker.maxConcurrentProviders [candidates] [] [candidates] :=
    .start (by decide) (@Unordered.complete _ _ _ [] [] [] _ (.inl rfl) .done)
  have hf : Found ⟨fun _ => none, fun _ => none, id⟩ none (x.shared.received ++ [_]) :=
    .intro hu rfl (h.step (.outside (.receive hc hq))) hm hc rfl
  rwa [hr] at hf

def importing (p : Proxy) : Trace Effects :=
  [⟨.env .nextProxy, some p⟩, ⟨.pool (.push .outsider ⟨p, none⟩), ()⟩, ⟨.pool .notifyWaiters, ()⟩]

def ending : Trace Effects :=
  [⟨.env .nextProxy, none⟩, ⟨.pool .storeExhausted, ()⟩, ⟨.pool .notifyWaiters, ()⟩]

-- An importer of a stream of two proxies.
theorem filling_pair (p q : Proxy) :
    ∃ x, Filling .default 3 (importing p ++ importing q ++ ending) x ∧ Drained x [p, q] :=
  ⟨_,
    .event (.first rfl) ⟨rfl, by simp⟩ <| .event (.first rfl) ⟨rfl, by simp⟩ <|
    .event (.first rfl) ⟨rfl, by simp⟩ <| .event (.first rfl) ⟨rfl, by simp⟩ <|
    .event (.first rfl) ⟨rfl, by simp⟩ <| .event (.first rfl) ⟨rfl, by simp⟩ <|
    .event (.first rfl) ⟨rfl, by simp⟩ <| .event (.first rfl) ⟨rfl, by simp⟩ <|
    .event (.first rfl) ⟨rfl, by simp⟩ .refl,
    _, _, rfl, rfl⟩

def warm : Proxy :=
  Proxy.restored (.v4 1 2 3 4) 80 (fun _ => none) 7 0 0

-- The address in the history is found again. The file lists another address twice.
theorem start_up_merged_iff_sample :
    let p := Proxy.new (.v4 5 6 7 8) 80 ∅
    let found := [(outcome sample 0 (.new (.v4 1 2 3 4) 80 ∅)).2]
    (Merged .default [warm] [p, p] (load .default [warm] [p, p]) ↔ Mergeable .default [warm] [p, p]) ∧
    ∃ tr x, Filling .default 3 tr x ∧ Drained x ([warm] ++ found) ∧ ¬Merged .default [warm] found x.shared := by
  intro p found
  obtain ⟨x, hr, hd⟩ := filling_pair warm found[0]
  obtain ⟨hl, hs⟩ := start_up_merged_iff .default [warm] [p, p] found ⟨fun _ => none, fun _ => none, id⟩ none 3 _ x
    (by decide) found_sample hr hd
  refine ⟨hl, _, x, hr, hd, fun hm => ?_⟩
  exact hs.mp hm _ (List.mem_singleton_self _) rfl (by simp [warm, outcome, Checker.check_key]; rfl)

-- A file that lists an address twice.
theorem start_up_duplicates :
    let p := Proxy.new (.v4 5 6 7 8) 80 ∅
    (([] : List Proxy).map Proxy.key).Nodup ∧ ¬Merged .default [] [p, p] (load .default [] [p, p]) := by
  intro p
  refine ⟨by decide, fun h => ?_⟩
  exact absurd h.nodup (by decide)

end Example
end Serve
