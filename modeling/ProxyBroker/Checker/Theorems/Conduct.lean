import ProxyBroker.Checker.Theorems.Attempt

open Prog Negotiator Checker

namespace FullChecker

variable {u : Unicode} {flate2 : Flate2} {x : FullChecker} {k : Key} {t : Proto} {p : Proxy} {probe : Probe}
variable {target : Target}

-- What the last connection of a check is good for. As long as nothing has been asked over it, its negotiation is known.
inductive Link
  | closed
  | negotiating (neg : Trace Effects)
  | asked

def Link.negotiate (e : Event Effects) : Link → Link
  | .negotiating neg => .negotiating (neg ++ [e])
  | l                => l

-- What a check has done so far about a protocol.
structure Conduct where
  dials : Nat
  link  : Link

namespace Conduct

def start : Conduct :=
  ⟨0, .closed⟩

def next (s : Conduct) : Event Effects → Conduct
  | ⟨.net (.dial ..), r⟩ =>
    match (r : DialResult) with
    | .ok => ⟨s.dials + 1, .negotiating []⟩
    | _   => ⟨s.dials + 1, .closed⟩
  | ⟨.net (.upWrite .exchange _), r⟩ =>
    match (r : WriteResult) with
    | .done => ⟨s.dials, .asked⟩
    | _     => ⟨s.dials, .closed⟩
  | ⟨.env _, _⟩ => s
  | e           => ⟨s.dials, s.link.negotiate e⟩

end Conduct

-- The requests that a checker can send to test a protocol.
def Requests (x : FullChecker) (t : Proto) : Probe → Bytes → Prop
  | .judged j, bs    => ∃ n, bs = x.testRequest j t (Utils.freshMarker n)
  | .liveness lt, bs => bs = livenessRequest lt t

-- What a check of a proxy may do next in order to test a protocol. A negotiation is the one towards what the protocol can
-- be tested against, and without any credentials. What has been negotiated is what is asked.
def Permitted (x : FullChecker) (k : Key) (t : Proto) (s : Conduct) : Op → Prop
  | .net (.dial d k') => d = .probe ∧ k' = k ∧ s.dials < x.retry.maxTries
  | .net (.upWrite .exchange bs) => t ≠ .connect25 ∧ ∃ probe target neg stream, Aims x t probe target ∧
    s.link = .negotiating neg ∧ (negotiate t target none).Runs neg (.ret (.ok stream)) ∧ Requests x t probe bs
  | .net (.upRead .exchange _) => s.link = .asked
  | .env o => IsInternal (.env o)
  | o => ∃ probe target neg rest, Aims x t probe target ∧ s.link = .negotiating neg ∧
    (negotiate t target none).Runs neg (.call o rest) ∧ o.Negotiates (connectRequest target.host target.port none) none

def conduct (x : FullChecker) (k : Key) (t : Proto) : Monitor Effects Conduct where
  demand := Permitted x k t
  next   := Conduct.next

-- The queries by which blocklists are asked about an address.
def IsLookup (x : FullChecker) (host : IpAddr) : Op → Prop
  | .net (.resolve query) => ∃ zone ∈ x.dnsbl, dnsblQuery host zone = some query
  | _                     => False

variable {s : Conduct} {n : Nat} {neg : Trace Effects}

section Steps

variable {o : Op} {request : Bytes} (h : o.Negotiates request none)
include h

-- The next operation of a negotiation is permitted.
theorem permitted_negotiation {rest : Effects.Ret o → Async (Except ProxyError Stream)} (ha : Aims x t probe target)
    (hr : (negotiate t target none).Runs neg (.call o rest)) : Permitted x k t ⟨n, .negotiating neg⟩ o := by
  have hn : o.Negotiates (connectRequest target.host target.port none) none :=
    ((negotiate_uses_request target none t).of_run hr).left.left
  have hp : ∃ probe target' neg' rest, Aims x t probe target' ∧ Link.negotiating neg = .negotiating neg' ∧
      (negotiate t target' none).Runs neg' (.call o rest) ∧
      o.Negotiates (connectRequest target'.host target'.port none) none := ⟨probe, target, neg, rest, ha, rfl, hr, hn⟩
  cases o
  case net o =>
    cases o
    case upWrite ph _ => cases ph <;> first | exact hp | exact (h : False).elim
    case upRead ph _  => cases ph <;> first | exact hp | exact (h : False).elim
    case dial         => exact (h : False).elim
    all_goals exact hp
  all_goals exact (h : False).elim

theorem next_negotiation (r : Effects.Ret o) :
    (⟨n, .negotiating neg⟩ : Conduct).next ⟨o, r⟩ = ⟨n, .negotiating (neg ++ [⟨o, r⟩])⟩ := by
  cases o
  case net o =>
    cases o
    case upWrite ph _ => cases ph <;> first | rfl | exact (h : False).elim
    case dial         => exact (h : False).elim
    all_goals rfl
  all_goals exact (h : False).elim

end Steps

-- A negotiation is carried out as it is, and it is known how it has ended. By induction on what is left of it.
theorem sat_negotiation {q : Async (Except ProxyError Stream)} (ha : Aims x t probe target)
    (hr : (negotiate t target none).Runs neg q) : q.Sat (conduct x k t)
      (fun r s' => ∃ neg', s' = ⟨n, .negotiating neg'⟩ ∧ (negotiate t target none).Runs neg' (.ret r))
      ⟨n, .negotiating neg⟩ := by
  induction q generalizing neg
  case ret => exact ⟨neg, rfl, hr⟩
  case call o rest hi =>
    have hn := ((negotiate_uses_request target none t).of_run hr).left.left
    refine ⟨permitted_negotiation hn ha hr, fun r => ?_⟩
    change (rest r).Sat _ _ (Conduct.next _ _)
    rw [next_negotiation hn r]
    exact hi r (hr.snoc r)

-- Nothing else happens to a connection while a response is read from it.
theorem sat_readResponse {post : Except ProxyError Bytes → Conduct → Prop} (hp : ∀ r, post r ⟨n, .asked⟩) :
    readResponse.Sat (conduct x k t) post ⟨n, .asked⟩ := by
  refine Sat.mono (readResponse_uses.sat_still ?_ ?_) ?_
  · intro o ho
    cases o
    case net o =>
      cases o
      case upRead ph _ => cases ph <;> first | exact (ho : False).elim | exact rfl
      all_goals exact (ho : False).elim
    all_goals exact (ho : False).elim
  · intro o r ho
    cases o
    case net o =>
      cases o
      case upRead => rfl
      all_goals exact (ho : False).elim
    all_goals exact (ho : False).elim
  · rintro r _ ⟨rfl, -⟩
    exact hp r

-- Neither the clock nor random numbers concern anyone.
theorem sat_internal {α β : Type} {q : Async α} {f : α → Async β} {post : β → Conduct → Prop}
    (hq : q.Uses IsInternal) (hf : ∀ a tr, q.Runs tr (.ret a) → (f a).Sat (conduct x k t) post s) :
    (q >>= f).Sat (conduct x k t) post s := by
  refine (sat_bind ..).mpr (Sat.mono (hq.sat_still ?_ ?_) ?_)
  · intro o ho
    cases o
    case env => exact ho
    all_goals exact (ho : False).elim
  · intro o r ho
    cases o
    case env => rfl
    all_goals exact (ho : False).elim
  · rintro a _ ⟨rfl, tr, hr⟩
    exact hf a tr hr

theorem buildRequest_uses : (x.buildRequest probe t).Uses IsInternal := by
  cases probe
  case judged   => exact ⟨trivial, fun _ => trivial⟩
  case liveness => trivial

theorem buildRequest_requests {r : Bytes × Str} {tr : Trace Effects} (h : (x.buildRequest probe t).Runs tr (.ret r)) :
    Requests x t probe r.1 := by
  cases probe
  case judged j =>
    cases h
    case call n h =>
      obtain ⟨rfl, he⟩ := Runs.ret_inv h
      cases he
      exact ⟨n, rfl⟩
  case liveness =>
    obtain ⟨rfl, he⟩ := Runs.ret_inv h
    cases he
    exact rfl

theorem exchange_sat {stream : Stream} (hc : t ≠ .connect25) (ha : Aims x t probe target)
    (hr : (negotiate t target none).Runs neg (.ret (.ok stream))) :
    (x.exchange u flate2 probe t).Sat (conduct x k t) (fun _ s' => s'.dials = n) ⟨n, .negotiating neg⟩ := by
  refine sat_internal buildRequest_uses fun r tr hq => ?_
  refine ⟨⟨hc, probe, target, neg, stream, ha, rfl, hr, buildRequest_requests hq⟩, fun w => ?_⟩
  cases (w : WriteResult)
  case done =>
    refine (sat_bind (p := readResponse) ..).mpr (sat_readResponse fun e => ?_)
    cases e
    case error  => rfl
    case ok raw =>
      dsimp only
      split_ifs
      · rfl
      · cases probe <;> rfl
  all_goals rfl

theorem attempt_sat (ha : Aims x t probe target) (hd : s.dials < x.retry.maxTries) :
    (x.attempt u flate2 k t probe target).Sat (conduct x k t) (fun _ s' => s'.dials = s.dials + 1) s := by
  refine ⟨⟨rfl, rfl, hd⟩, fun r => ?_⟩
  cases (r : DialResult)
  case ok =>
    refine (sat_bind (p := negotiate t target none) ..).mpr ((sat_negotiation ha .refl).mono ?_)
    rintro (e | stream) _ ⟨neg, rfl, hr⟩
    · rfl
    · dsimp only
      split_ifs with hc
      · rfl
      · exact exchange_sat hc ha hr
  all_goals rfl

theorem timed_sat {m : Async (Except ProxyError Attempt)} (h : m.Sat (conduct x k t) (fun _ s' => s'.dials = n) s) :
    (timed m).Sat (conduct x k t) (fun _ s' => s'.dials = n) s := by
  refine ⟨trivial, fun start => (sat_bind (p := m) ..).mpr (h.mono fun r s' hn => ?_)⟩
  rcases r with e | obs | -
  case error      => exact hn
  case ok.invalid => exact hn
  case ok.working => exact ⟨trivial, fun stop => hn⟩

theorem attempts_sat (ha : Aims x t probe target) (tries i : Nat) (hk : p.key = k)
    (hd : s.dials + tries ≤ x.retry.maxTries) :
    (x.attempts u flate2 t probe target tries i p).Sat (conduct x k t) (fun r _ => r.2.key = k) s := by
  induction tries generalizing i p s
  case zero => exact hk
  case succ tries hi =>
    have hm : (x.attempt u flate2 p.key t probe target).Sat (conduct x k t) (fun _ s' => s'.dials = s.dials + 1) s :=
      hk ▸ attempt_sat ha (by omega)
    refine (sat_bind ..).mpr ((timed_sat hm).mono fun r s' hn => ?_)
    rcases r with ⟨e | obs | -, rtt⟩
    case ok.working => exact hk
    case ok.invalid => exact hk
    case error =>
      dsimp only
      split_ifs
      case neg => exact hk
      case pos =>
        refine sat_internal backoffFor_uses fun d _ _ => sat_internal (sleep_uses d) fun _ _ _ => ?_
        have hn : s'.dials = s.dials + 1 := hn
        exact hi (i + 1) hk (by omega)

theorem aim_uses : (x.aim t).Uses IsInternal := by
  have hr (b : JudgeScheme) : (x.judges.random b).Uses IsInternal := by
    unfold JudgePool.random
    split
    · trivial
    · exact ⟨trivial, fun _ => trivial⟩
  unfold aim
  split
  · refine (hr _).bind fun j => ?_
    cases j <;> trivial
  · trivial

theorem checkOne_sat (hk : p.key = k) :
    (x.checkOne u flate2 p t).Sat (conduct x k t) (fun r _ => r.2.key = k) .start := by
  refine sat_internal aim_uses fun a tr hr => ?_
  cases a
  case none   => exact hk
  case some a => exact attempts_sat ((aim_runs hr).right.right a rfl).right _ _ hk (Nat.zero_add _).le

-- The protocols are tested one after the other, and each of them from the beginning.
theorem checkAll_runs {ts : List Proto} {any : Bool} {tr : Trace Effects} {q : Async (Bool × Proxy)} (hk : p.key = k)
    (h : (x.checkAll u flate2 ts any p).Runs tr q) : ∃ ts' rounds, ts' <+: ts ∧ tr = rounds.flatten ∧
      List.Forall₂ (fun t seg => (conduct x k t).Accepts .start seg) ts' rounds := by
  induction ts generalizing any p tr
  case nil =>
    obtain ⟨rfl, -⟩ := Runs.ret_inv h
    exact ⟨[], [], List.nil_prefix, rfl, .nil⟩
  case cons t ts hi =>
    rcases h.of_bind with ⟨q', h, -⟩ | ⟨a, tr₁, tr₂, rfl, h₁, h₂⟩
    case inl =>
      refine ⟨[t], [tr], List.prefix_cons_inj t |>.mpr List.nil_prefix, (List.append_nil tr).symm, ?_⟩
      exact .cons ((checkOne_sat hk).accepts h) .nil
    case inr =>
      have hs : (x.checkOne u flate2 p t).Sat (conduct x k t) (fun r _ => r.2.key = k) .start := checkOne_sat hk
      obtain ⟨ts', rounds, hp, rfl, hr⟩ := hi (hs.result h₁) h₂
      exact ⟨t :: ts', tr₁ :: rounds, (List.prefix_cons_inj t).mpr hp, rfl, .cons (hs.accepts h₁) hr⟩

theorem resolveAny_uses {P : Op → Prop} {qs : List Str} (h : ∀ q ∈ qs, P (.net (.resolve q))) :
    (resolveAny qs).Uses P := by
  induction qs
  case nil => trivial
  case cons q qs hi =>
    obtain ⟨hq, h⟩ := List.forall_mem_cons.mp h
    exact ⟨hq, fun _ => (hi h).bind fun _ => trivial⟩

theorem inDnsbl_uses (host : IpAddr) : (x.inDnsbl host).Uses (IsLookup x host) := by
  refine resolveAny_uses fun q hq => ?_
  obtain ⟨zone, hz, he⟩ := List.mem_filterMap.mp hq
  exact ⟨zone, hz, he⟩

theorem isListed_uses (host : IpAddr) : (x.isListed host).Uses (IsLookup x host) := by
  unfold isListed
  split_ifs
  · exact inDnsbl_uses host
  · trivial

-- A check asks the blocklists, and then tests one protocol after the other, where it only does what it may at any moment:
-- it talks to nobody but the proxy, dials it a bounded number of times for each protocol, sends at most one request over
-- each connection, namely once this has been negotiated, reads nothing before that, and never uses any credentials.
theorem check_permitted (u : Unicode) (flate2 : Flate2) {tr : Trace Effects} {q : Async (Bool × Proxy)}
    (h : (x.check u flate2 p).Runs tr q) : ∃ lookups ts rounds, tr = lookups ++ rounds.flatten ∧
      (∀ e ∈ lookups, IsLookup x p.host e.op) ∧ ts <+: x.toChecker.ngtrs p ∧
      List.Forall₂ (fun t seg => (conduct x p.key t).Accepts .start seg) ts rounds := by
  rcases h.of_bind with ⟨q', h, -⟩ | ⟨b, tr₁, tr₂, rfl, h₁, h₂⟩
  case inl =>
    exact ⟨tr, [], [], (List.append_nil tr).symm, ((isListed_uses _).of_run h).right, List.nil_prefix, .nil⟩
  case inr =>
    have hl := ((isListed_uses _).of_run h₁).right
    suffices ∃ ts rounds, ts <+: x.toChecker.ngtrs p ∧ tr₂ = rounds.flatten ∧
        List.Forall₂ (fun t seg => (conduct x p.key t).Accepts .start seg) ts rounds by
      obtain ⟨ts, rounds, hp, rfl, hr⟩ := this
      exact ⟨tr₁, ts, rounds, rfl, hl, hp, hr⟩
    cases b
    case true =>
      obtain ⟨rfl, -⟩ := Runs.ret_inv h₂
      exact ⟨[], [], List.nil_prefix, rfl, .nil⟩
    case false =>
      rcases Runs.of_bind (p := x.checkAll ..) h₂ with ⟨q', h, -⟩ | ⟨a, tr', tr'', rfl, h', h''⟩
      case inl => exact checkAll_runs rfl h
      case inr =>
        obtain ⟨rfl, -⟩ := Runs.ret_inv h''
        rw [List.append_nil]
        exact checkAll_runs rfl h'

section Counting

variable {tr : Trace Effects} {p' : Proxy} {ok : Bool}

def IsDial : Op → Bool
  | .net (.dial ..) => true
  | _               => false

-- How often a run has dialled.
def dials (tr : Trace Effects) : Nat :=
  tr.countP fun e => IsDial e.op

theorem dials_append (tr tr' : Trace Effects) : dials (tr ++ tr') = dials tr + dials tr' :=
  List.countP_append

theorem dials_of_uses {α : Type} {q q' : Async α} (hq : q.Uses fun o => IsDial o = false) (h : q.Runs tr q') :
    dials tr = 0 :=
  List.countP_eq_zero.mpr fun e he => Bool.eq_false_iff.mp ((hq.of_run h).right e he)

theorem isDial_of {P : Op → Prop} {o : Op} (hp : ∀ d k, ¬P (.net (.dial d k))) (h : P o) : IsDial o = false := by
  cases o
  case net o =>
    cases o
    case dial => exact absurd h (hp _ _)
    all_goals rfl
  all_goals rfl

theorem exchange_uses : (x.exchange u flate2 probe t).Uses fun o => IsDial o = false := by
  refine Uses.bind (buildRequest_uses.mono fun _ => isDial_of fun _ _ => id) fun r => ⟨rfl, fun w => ?_⟩
  cases (w : WriteResult)
  case done =>
    refine Uses.bind (p := readResponse) (readResponse_uses.mono fun _ => isDial_of fun _ _ => id) fun e => ?_
    cases e
    case error => trivial
    case ok raw =>
      dsimp only
      split_ifs
      · trivial
      · cases probe <;> trivial
  all_goals trivial

-- An attempt dials first, and never again.
theorem attempt_dials (u : Unicode) (flate2 : Flate2) (x : FullChecker) (k : Key) (t : Proto) (probe : Probe)
    (target : Target) : ∃ f, x.attempt u flate2 k t probe target = .call (.net (.dial .probe k)) f ∧
    ∀ r, (f r).Uses fun o => IsDial o = false := by
  refine ⟨_, rfl, fun r => ?_⟩
  cases (r : DialResult)
  case ok =>
    have hn : (negotiate t target none).Uses fun o => IsDial o = false :=
      (negotiate_uses ..).mono fun _ => isDial_of fun _ _ => id
    refine hn.bind fun e => ?_
    cases e
    case error => trivial
    case ok =>
      dsimp only
      split_ifs
      · trivial
      · exact exchange_uses
  all_goals trivial

-- Every attempt is one connection.
theorem dials_carries {e : Event Network.effects} (h : Carries u flate2 x k e tr) :
    dials tr = (Network.attempted e).toList.length := by
  cases h
  case listed h => exact dials_of_uses ((inDnsbl_uses _).mono fun _ => isDial_of fun _ _ => id) h
  case attempt r _ probe target ha h =>
    obtain ⟨f, hf, hu⟩ := attempt_dials u flate2 x k _ probe target
    rw [hf] at h
    cases h
    case call h =>
      cases h
      case call h =>
        have hz := dials_of_uses (Uses.bind (hu _) fun a => ?_) h
        · exact (dials_append [_, _] _).trans (congrArg (1 + ·) hz)
        · rcases a with e | obs | -
          case ok.working => exact ⟨rfl, fun _ => trivial⟩
          all_goals trivial

theorem length_tried (es : Trace Network.effects) :
    (es.map fun e => (Network.attempted e).toList.length).sum = (Network.tried es).length := by
  induction es
  case nil => rfl
  case cons e es hi =>
    rw [List.map_cons, List.sum_cons, hi, Network.tried, Network.tried]
    cases h : Network.attempted e <;> simp [h, Nat.add_comm]

theorem failed_le (es : Trace Network.effects) : Network.failed es ≤ (Network.tried es).length :=
  List.countP_le_length

-- The requests that a check counts are the connections that it has made.
theorem check_requests (u : Unicode) (flate2 : Flate2) (hp : Network.Fresh p)
    (h : (x.check u flate2 p).Runs tr (.ret (ok, p'))) (hd : dials tr < 2 ^ 32) :
    p'.requests.toNat = dials tr ∧ p'.errors.sum ≤ dials tr := by
  obtain ⟨es, a, hr, rfl, he⟩ := check_refines _ _ h
  have ht : dials tr = (Network.tried es).length := by
    rw [he.sum_eq rfl dials_append (fun _ _ => dials_carries), length_tried]
    exact fun e hs => List.countP_eq_zero.mpr fun e' he => by
      rw [List.mem_singleton.mp he, isDial_of (P := IsInternal) (fun _ _ => id) hs]
      exact Bool.false_ne_true
  by_cases hl : ⟨.listed, true⟩ ∈ es
  case pos =>
    obtain ⟨rfl, hz⟩ := check_listed hr hl
    rw [ht, hz, hp.requests, hp.errors]
    exact ⟨rfl, Nat.le_refl _⟩
  case neg =>
    obtain ⟨-, hb⟩ := Network.check_accounted hp hr hl
    obtain ⟨hq, hs⟩ := hb.mpr (ht ▸ hd)
    exact ⟨hq.trans ht.symm, by rw [hs, ht]; exact failed_le es⟩

end Counting

namespace AttemptExample

theorem check_permitted_http : ∃ tr p', (checker.check .asciiOnly plain (seen 0)).Runs tr (.ret (true, p')) ∧
    ∃ lookups ts rounds, tr = lookups ++ rounds.flatten ∧ (∀ e ∈ lookups, IsLookup checker (seen 0).host e.op) ∧
      ts <+: checker.toChecker.ngtrs (seen 0) ∧
      List.Forall₂ (fun t seg => (conduct checker (seen 0).key t).Accepts .start seg) ts rounds := by
  obtain ⟨tr, p', hr, -⟩ := check_runs 0
  exact ⟨tr, p', hr, check_permitted .asciiOnly plain hr⟩

-- The proxy refuses the only connection.
def refused : Trace Effects :=
  [⟨.env (.tie 1), (0 : Nat)⟩, ⟨.env .now, (0 : Nat)⟩, ⟨.net (.dial .probe (seen 0).key), DialResult.failed⟩]

theorem check_requests_refused : ∃ p', (checker.check .asciiOnly plain (seen 0)).Runs refused (.ret (false, p')) ∧
    p'.requests.toNat = dials refused ∧ p'.errors.sum ≤ dials refused := by
  have hr : ∃ p', (checker.check .asciiOnly plain (seen 0)).Runs refused (.ret (false, p')) :=
    ⟨_, .call (.call (.call .refl))⟩
  obtain ⟨p', hr⟩ := hr
  exact ⟨p', hr, check_requests .asciiOnly plain Network.unseen_fresh hr (by decide)⟩

end AttemptExample

end FullChecker
