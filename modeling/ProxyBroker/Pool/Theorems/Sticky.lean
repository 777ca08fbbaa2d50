import ProxyBroker.Pool.Theorems.Checkout
import ProxyBroker.Pool.Theorems.Sessions

namespace Pool

variable {c : Config} {s s' : State} {v w : Visited} {vs : List Visited} {K : Finset ClientKey}

-- All requests of a client for the same scheme get the same proxy.
def Sticks (vs : List Visited) : Prop :=
  vs.Pairwise fun w v => w.key = v.key → w.scheme = v.scheme → w.proxy.key = v.proxy.key

-- A client is still pinned to an address, or what it is pinned to instead does not support the scheme, and the
-- best entry is at that address anyway.
def Stays (c : Config) (s : State) (key : ClientKey) (scheme : Scheme) (a : Key) : Prop :=
  s.pin key = some a ∨
  (∃ b, s.pin key = some b ∧ ∀ e ∈ s.state, e.proxy.key = b → scheme ∉ e.proxy.schemes) ∧
  ∃ i e, IsBest s.state c.preferConnect (supporting s.state scheme) i ∧ s.state[i]? = some e ∧ e.proxy.key = a

-- Nothing moves a client away from where its former requests for a scheme have gone.
def Undisplaced (c : Config) (vs : List Visited) : Prop :=
  vs.Pairwise fun w v => w.key = v.key → w.scheme = v.scheme → Stays c v.before v.key v.scheme w.proxy.key

-- A pool without benched proxies whose clients are known.
structure Attached (K : Finset ClientKey) (s : State) : Prop where
  unbenched : ∀ e ∈ s.state, e.blockedUntil = none
  distinct  : s.clients.Nodup
  known     : ∀ k ∈ s.clients, k ∈ K

-- What a pool knows about a former request.
structure Remembers (s : State) (w : Visited) : Prop where
  pinned    : (s.pin w.key).isSome
  supported : ∃ e ∈ s.state, e.proxy.key = w.proxy.key ∧ eligible w.scheme e = true

theorem tier_of_unbenched {pool : List Pooled} {ctx : SelectCtx} (h : ∀ e ∈ pool, e.blockedUntil = none) :
    tier pool ctx = supporting pool ctx.scheme := by
  have hr : supporting pool ctx.scheme ⊆ ready pool ctx.scheme ctx.now := by
    rintro i ⟨e, he, hs⟩
    exact ⟨e, he, hs, by simp [isReady, h e (List.mem_of_getElem? he)]⟩
  ext i
  exact ⟨And.left, fun hi => ⟨hi, fun _ => hr hi⟩⟩

theorem eligible_of_ident_eq {scheme : Scheme} {e e' : Pooled} (h : e.proxy.ident = e'.proxy.ident) :
    eligible scheme e = eligible scheme e' := by
  have ht : e.proxy.ident.types = e'.proxy.ident.types := congrArg Proxy.types h
  replace ht : e.proxy.types = e'.proxy.types := ht
  simp [eligible, Proxy.schemes, Proxy.hasType, ht]

section Visit

-- A visit replaces an entry by one for the same proxy, and pins the client to it.
theorem Visit.sticky (hs : c.strategy = .sticky) (h : Visit c v s') : ∃ now i e p' victim,
    Selects v.before.state (ctxOf c v.scheme v.key v.before now) i ∧ v.before.state[i]? = some e ∧
    e.proxy = v.proxy ∧ p'.ident = v.proxy.ident ∧ s'.state = swapRemove v.before.state i ++ [⟨p', none⟩] ∧
    s'.sessions = (v.before.recordSession c v.key v.proxy.key victim).sessions := by
  obtain ⟨now, s₁, p', ⟨s₀, hd, hp⟩, hi, -, rfl⟩ := h.draws
  simp only [Settles, hs] at hp
  obtain ⟨victim, rfl⟩ := hp
  rcases State.select_cases hd with ⟨hr, -⟩ | ⟨i, e, rng, hsel, he, hr, rfl⟩
  · cases hr
  · exact ⟨now, i, e, p', victim, hsel, he, (Option.some_inj.mp hr).symm, hi, rfl, rfl⟩

theorem Attached.room (h : Attached K s) (hc : K.card ≤ c.maxSessions) {k : ClientKey} (hk : k ∈ K) :
    k ∈ s.clients ∨ s.sessions.length < c.maxSessions := by
  by_cases hm : k ∈ s.clients
  · exact .inl hm
  · have hs : (k :: s.clients).toFinset ⊆ K := by
      intro k' hk'
      rw [List.mem_toFinset, List.mem_cons] at hk'
      rcases hk' with rfl | hk'
      · exact hk
      · exact h.known k' hk'
    have hl := Finset.card_le_card hs
    rw [List.toFinset_card_of_nodup (List.nodup_cons.mpr ⟨hm, h.distinct⟩), List.length_cons, State.clients,
      List.length_map] at hl
    exact .inr (by omega)

theorem Visit.attached (hs : c.strategy = .sticky) (hk : v.key ∈ K) (ha : Attached K v.before) (h : Visit c v s') :
    Attached K s' := by
  obtain ⟨now, i, e, p', victim, -, he, -, -, hst, hse⟩ := h.sticky hs
  have hcl : s'.clients = (v.before.recordSession c v.key v.proxy.key victim).clients := congrArg (List.map Prod.fst) hse
  constructor
  · intro e' he'
    rw [hst, List.mem_append, List.mem_singleton] at he'
    rcases he' with he' | rfl
    · exact ha.unbenched e' <| (swapRemove_perm he).subset (.tail _ he')
    · rfl
  · exact hcl ▸ State.recordSession_clients_nodup ha.distinct
  · intro k hm
    rw [hcl] at hm
    rcases List.mem_cons.mp (State.recordSession_clients_subset hm) with rfl | hm
    · exact hk
    · exact ha.known k hm

theorem Visit.remembers (hs : c.strategy = .sticky) (h : Visit c v s') : Remembers s' v := by
  obtain ⟨now, i, e, p', victim, hsel, he, hp, hi, hst, hse⟩ := h.sticky hs
  obtain ⟨e', he', hel⟩ := hsel.tier.left
  cases he.symm.trans he'
  constructor
  · rw [State.pin, hse, ← State.pin, State.pin_recordSession]
    rfl
  · refine ⟨⟨p', none⟩, by simp [hst], Proxy.key_eq_of_ident_eq hi, ?_⟩
    exact (eligible_of_ident_eq (by rw [hp, hi])).trans hel

theorem Remembers.visit (hw : Remembers v.before w) (hs : c.strategy = .sticky) (ha : Attached K v.before)
    (hc : K.card ≤ c.maxSessions) (hk : v.key ∈ K) (h : Visit c v s') : Remembers s' w := by
  obtain ⟨now, i, e, p', victim, -, he, hp, hi, hst, hse⟩ := h.sticky hs
  constructor
  · rw [State.pin, hse, ← State.pin]
    by_cases hn : w.key = v.key
    · simp [hn]
    · rw [State.pin_recordSession_of_ne hn (ha.room hc hk)]
      exact hw.pinned
  · obtain ⟨e', he', hk', hel⟩ := hw.supported
    rcases List.mem_cons.mp ((swapRemove_perm he).symm.subset he') with rfl | he'
    · refine ⟨⟨p', none⟩, by simp [hst], ?_, ?_⟩
      · rw [← hk', hp]
        exact Proxy.key_eq_of_ident_eq hi
      · exact (eligible_of_ident_eq (by rw [hp, hi])).trans hel
    · exact ⟨e', by simp [hst, he'], hk', hel⟩

-- A client gets the same proxy again exactly if it has not been moved.
theorem Visit.key_eq_iff (hs : c.strategy = .sticky) (ha : Attached K v.before) (hw : Remembers v.before w)
    (hk : w.key = v.key) (hsc : w.scheme = v.scheme) (h : Visit c v s') :
    w.proxy.key = v.proxy.key ↔ Stays c v.before v.key v.scheme w.proxy.key := by
  obtain ⟨now, i, e, p', victim, hsel, he, hp, -⟩ := h.sticky hs
  obtain ⟨b, hb⟩ := Option.isSome_iff_exists.mp (hk ▸ hw.pinned)
  have ht : tier v.before.state (ctxOf c v.scheme v.key v.before now) = supporting v.before.state v.scheme :=
    tier_of_unbenched ha.unbenched
  have hst : (ctxOf c v.scheme v.key v.before now).sticky = some b := by rw [ctxOf, if_pos hs, hb]
  -- The entries at the address that the client is pinned to.
  have hpin (j : Nat) : j ∈ pinnedTo v.before.state (ctxOf c v.scheme v.key v.before now) ↔
      ∃ e, v.before.state[j]? = some e ∧ e.proxy.key = b ∧ v.scheme ∈ e.proxy.schemes := by
    simp only [pinnedTo, ht, hst, Option.some_inj, exists_eq_left', indices, supporting, Set.mem_ofPred_eq, eligible,
      decide_eq_true_eq]
    constructor
    · rintro ⟨⟨e, he, hs⟩, e', he', hk⟩
      cases he.symm.trans he'
      exact ⟨e, he, hk, hs⟩
    · rintro ⟨e, he, hk, hs⟩
      exact ⟨⟨e, he, hs⟩, e, he, hk⟩
  simp only [Stays, hb, Option.some_inj, exists_eq_left']
  by_cases hne : (pinnedTo v.before.state (ctxOf c v.scheme v.key v.before now)).Nonempty
  case pos =>
    obtain ⟨e', he', hkb, hsb⟩ := (hpin i).mp (hsel.sticky hs hne).left
    cases he.symm.trans he'
    rw [← hp, hkb]
    refine ⟨fun h => .inl h.symm, ?_⟩
    rintro (h | ⟨hn, -⟩)
    · exact h.symm
    · exact absurd hsb <| hn e (List.mem_of_getElem? he) hkb
  case neg =>
    have hno : ∀ e ∈ v.before.state, e.proxy.key = b → v.scheme ∉ e.proxy.schemes := by
      intro e he hk hs
      obtain ⟨j, hj⟩ := List.mem_iff_getElem?.mp he
      exact hne ⟨j, (hpin j).mpr ⟨e, hj, hk, hs⟩⟩
    have hbest := hsel.unpinned hs hne
    rw [ht] at hbest
    constructor
    · exact fun h => .inr ⟨hno, i, e, hbest, he, by rw [hp, h]⟩
    · rintro (rfl | ⟨-, j, e', hj, he', hk'⟩)
      · obtain ⟨e', he', hk', hel⟩ := hw.supported
        exact absurd (by simpa [eligible, hsc] using hel) (hno e' he' hk')
      · cases hbest.unique hj
        cases he.symm.trans he'
        rw [← hk', hp]

end Visit

theorem Visits.attached (hs : c.strategy = .sticky) (ha : Attached K s) (hk : ∀ v ∈ vs, v.key ∈ K)
    (h : Visits c s vs s') : ∀ v ∈ vs, Attached K v.before :=
  h.invariant ha fun _ _ hv ha h => h.attached hs (hk _ hv) ha

-- A request finds what the earlier ones have left behind.
theorem Visits.remember (hs : c.strategy = .sticky) (hc : K.card ≤ c.maxSessions) (ha : Attached K s)
    (hk : ∀ v ∈ vs, v.key ∈ K) (h : Visits c s vs s') : vs.Pairwise fun w v => Remembers v.before w := by
  induction h
  case nil => exact .nil
  case cons w vs s' s'' h₁ h₂ hi =>
    obtain ⟨hkw, hk⟩ := List.forall_mem_cons.mp hk
    have ha' := h₁.attached hs hkw ha
    refine List.pairwise_cons.mpr ⟨fun v hv => ?_, hi ha' hk⟩
    have hr := h₂.invariant (I := fun s => Attached K s ∧ Remembers s w) ⟨ha', h₁.remembers hs⟩
      fun v s' hv hi h => ⟨h.attached hs (hk v hv) hi.left, hi.right.visit hs hi.left hc (hk v hv) h⟩
    exact (hr v hv).right

-- What the requests find when they begin.
theorem Visits.key_iff (hs : c.strategy = .sticky) (hc : K.card ≤ c.maxSessions) (ha : Attached K s)
    (hk : ∀ v ∈ vs, v.key ∈ K) (h : Visits c s vs s') : vs.Pairwise fun w v => w.key = v.key → w.scheme = v.scheme →
      (w.proxy.key = v.proxy.key ↔ Stays c v.before v.key v.scheme w.proxy.key) := by
  refine (h.remember hs hc ha hk).imp_of_mem fun {w v} _ hv hr hkey hscheme => ?_
  obtain ⟨s₁, hv'⟩ := h.visited hv
  exact hv'.key_eq_iff hs (h.attached hs ha hk v hv) hr hkey hscheme

-- Sessions stick exactly if no client that requests a scheme again has been moved meanwhile.
theorem sticky_iff (hs : c.strategy = .sticky) (hc : K.card ≤ c.maxSessions) (ha : Attached K s)
    (hk : ∀ v ∈ vs, v.key ∈ K) (h : Visits c s vs s') : Sticks vs ↔ Undisplaced c vs := by
  have hi := h.key_iff hs hc ha hk
  constructor
  · exact fun hst => (hi.and hst).imp fun ⟨hi, hst⟩ hk hs => (hi hk hs).mp (hst hk hs)
  · exact fun hu => (hi.and hu).imp fun ⟨hi, hu⟩ hk hs => (hi hk hs).mpr (hu hk hs)

namespace StickyExample

def config : Config :=
  { Config.default with strategy := .sticky }

def client : ClientKey :=
  .ip (.v4 127 0 0 1)

def httpOnly : Proxy :=
  (Proxy.new (.v4 10 0 0 1) 8080 ∅).addType .http none

def both : Proxy :=
  ((Proxy.new (.v4 10 0 0 2) 8080 ∅).addType .http none).addType .https none

def pool : State :=
  .fromProxies config [httpOnly, both]

-- The pool in which the client is pinned.
def pinnedAt (entries : List Proxy) (a : Key) : State :=
  { State.fromProxies config entries with sessions := [(client, a)] }

theorem attached : Attached {client} pool where
  unbenched := by decide
  distinct  := by decide
  known     := by decide

theorem first : Visit config ⟨pool, client, .http, httpOnly⟩ (pinnedAt [both, httpOnly] httpOnly.key) :=
  @Draws.visit config .http client pool (pinnedAt [both] httpOnly.key) httpOnly 0
    ⟨{ pool with state := [⟨both, none⟩] }, by decide, 0, rfl⟩ rfl

end StickyExample

open StickyExample in
-- A request for the other scheme moves the client to another proxy, which also supports the first one.
theorem sticky_displaced : ¬∀ (c : Config) (K : Finset ClientKey) (s s' : State) (vs : List Visited),
    c.strategy = .sticky → K.card ≤ c.maxSessions → Attached K s → (∀ v ∈ vs, v.key ∈ K) → Visits c s vs s' →
    Sticks vs := by
  intro h
  have h₂ : Visit config ⟨pinnedAt [both, httpOnly] httpOnly.key, client, .https, both⟩
      (pinnedAt [httpOnly, both] both.key) :=
    @Draws.visit config .https client _ (pinnedAt [httpOnly] both.key) both 0
      ⟨pinnedAt [httpOnly] httpOnly.key, by decide, 0, rfl⟩ rfl
  have h₃ : Visit config ⟨pinnedAt [httpOnly, both] both.key, client, .http, both⟩
      (pinnedAt [httpOnly, both] both.key) :=
    @Draws.visit config .http client _ (pinnedAt [httpOnly] both.key) both 0
      ⟨pinnedAt [httpOnly] both.key, by decide, 0, rfl⟩ rfl
  have hst := h _ {client} _ _ _ rfl (by decide) attached (by simp) <| .cons first <| .cons h₂ <| .cons h₃ .nil
  have := (List.pairwise_cons.mp hst).left _ (.tail _ List.mem_cons_self) rfl rfl
  exact absurd this (by decide)

open StickyExample in
theorem sticky_iff_twice : ∃ vs, Sticks vs ∧ vs.length = 2 := by
  have h₂ : Visit config ⟨pinnedAt [both, httpOnly] httpOnly.key, client, .http, httpOnly⟩
      (pinnedAt [both, httpOnly] httpOnly.key) :=
    @Draws.visit config .http client _ (pinnedAt [both] httpOnly.key) httpOnly 0
      ⟨pinnedAt [both] httpOnly.key, by decide, 0, rfl⟩ rfl
  refine ⟨_, (sticky_iff rfl (by decide) attached (by simp) (.cons first <| .cons h₂ .nil)).mpr ?_, rfl⟩
  exact List.pairwise_pair.mpr fun _ _ => .inl rfl

end Pool
