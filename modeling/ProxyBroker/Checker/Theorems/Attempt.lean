import ProxyBroker.Checker.Attempt
import ProxyBroker.Checker.Theorems.Accounting
import ProxyBroker.Checker.Theorems.Response
import ProxyBroker.Pool.Theorems.Uses
import ProxyBroker.Resumption.Refinement

open Prog Negotiator Checker

-- What no operation of a program changes stays the same.
theorem Prog.Uses.foldl_eq {α β : Type} {S : Signature} {P : S.Op → Prop} {f : β → Event S → β} {p q : Prog S α}
    {tr : Trace S} (hp : p.Uses P) (h : p.Runs tr q) (hf : ∀ b e, P e.op → f b e = b) (b : β) : tr.foldl f b = b := by
  have ht := (hp.of_run h).right
  clear h
  induction tr
  case nil => rfl
  case cons e tr hi =>
    obtain ⟨he, ht⟩ := List.forall_mem_cons.mp ht
    rw [List.foldl_cons, hf b e he]
    exact hi ht

-- The bytes that were sent, after its negotiation, over the last connection to a proxy.
def Trace.asked (tr : Trace Effects) : Bytes :=
  tr.foldl Event.send []

namespace FullChecker

variable {u : Unicode} {flate2 : Flate2} {x : FullChecker} {k : Key} {t : Proto} {p p' : Proxy} {probe : Probe}
variable {target : Target} {tr : Trace Effects} {ok : Bool}

-- What a protocol can be tested against.
inductive Aims (x : FullChecker) (t : Proto) : Probe → Target → Prop
  | judged {j : Judge} : x.mode = .judged → j ∈ x.judges.bucket t.judgeScheme →
    Aims x t (.judged j) ⟨j.host, j.ip, t.judgeScheme.defaultPort⟩
  | liveness {lt : LivenessTarget} : x.mode = .liveness lt →
    Aims x t (.liveness lt) ⟨lt.host, some lt.ip, lt.scheme.defaultPort⟩

-- How the events of a check are carried out for a proxy with a given address.
inductive Carries (u : Unicode) (flate2 : Flate2) (x : FullChecker) (k : Key) : Event Network.effects → Trace Effects → Prop
  | listed {b : Bool} {seg : Trace Effects} : (x.inDnsbl k.host).Runs seg (.ret b) → Carries u flate2 x k ⟨.listed, b⟩ seg
  | attempt {t : Proto} {i : Nat} {r : Network.Outcome × ℚ} {seg : Trace Effects} {probe : Probe} {target : Target} :
    Aims x t probe target → (timed (x.attempt u flate2 k t probe target)).Runs seg (.ret r) →
    Carries u flate2 x k ⟨.attempt t i, r⟩ seg

-- Random numbers, the clock and delays.
def IsInternal : Op → Prop
  | .env .now | .env (.tie _) | .env (.jitter _) | .env (.sleep _) => True
  | _                                                              => False

def Silent (e : Event Effects) : Prop :=
  IsInternal e.op

theorem backoffFor_uses : x.backoffFor.Uses IsInternal := by
  unfold backoffFor
  split
  · trivial
  · exact ⟨trivial, fun _ => trivial⟩

theorem sleep_uses (d : Duration) : (sleep d).Uses IsInternal :=
  ⟨trivial, fun _ => ⟨trivial, fun _ => trivial⟩⟩

theorem attempts_refines (ha : Aims x t probe target) (tries i : Nat) (hk : p.key = k) :
    (x.attempts u flate2 t probe target tries i p).Refines (Carries u flate2 x k) Silent
      (Network.attempts x.retry t tries i p) fun a b => a = b ∧ b.2.key = k := by
  induction tries generalizing i p
  case zero => exact .ret ⟨rfl, hk⟩
  case succ tries hi =>
    refine .bind (R := Eq) (.perform fun tr r hr => ⟨r, .attempt ha (hk ▸ hr), rfl⟩) ?_
    rintro ⟨e | obs | -, rtt⟩ _ rfl
    case ok.working => exact .ret ⟨rfl, hk⟩
    case ok.invalid => exact .ret ⟨rfl, hk⟩
    case error =>
      dsimp only
      split_ifs
      case pos =>
        refine .of_silent (fun _ _ h => (backoffFor_uses.of_run h).right) fun _ d _ => ?_
        exact .of_silent (fun _ _ h => ((sleep_uses d).of_run h).right) fun _ _ _ => hi _ hk
      case neg => exact .ret ⟨rfl, hk⟩

theorem random_runs {s : JudgeScheme} {r : Option Judge} (h : (x.judges.random s).Runs tr (.ret r)) :
    (∀ e ∈ tr, Silent e) ∧ (r = none → x.judges.bucket s = []) ∧ ∀ j, r = some j → j ∈ x.judges.bucket s := by
  unfold JudgePool.random at h
  split at h
  case h_1 hb =>
    obtain ⟨rfl, ⟨⟩⟩ := Runs.ret_inv h
    exact ⟨by simp, fun _ => hb, by simp⟩
  case h_2 b bs hb =>
    cases h
    case call n h =>
      obtain ⟨rfl, he⟩ := Runs.ret_inv h
      cases he
      have hl : Nat.mod n (b :: bs).length < (b :: bs).length := Nat.mod_lt _ (Nat.succ_pos _)
      refine ⟨List.forall_mem_singleton.mpr trivial, fun hn => ?_, fun j hj => ?_⟩
      · exact absurd (List.getElem?_eq_none_iff.mp hn) (Nat.not_le.mpr hl)
      · exact hb ▸ List.mem_of_getElem? hj

-- A protocol has a probe if there is anything to test it against.
theorem aim_runs {r : Option (Probe × Target)} (h : (x.aim t).Runs tr (.ret r)) :
    (∀ e ∈ tr, Silent e) ∧ (r = none → x.toChecker.hasProbe t = false) ∧
    ∀ a, r = some a → x.toChecker.hasProbe t = true ∧ Aims x t a.1 a.2 := by
  unfold aim at h
  cases hm : x.mode
  case judged =>
    rw [hm] at h
    obtain ⟨a, tr₁, tr₂, rfl, h₁, h₂⟩ := Runs.of_bind_ret h
    obtain ⟨hs, hn, hj⟩ := random_runs h₁
    have hp : x.toChecker.hasProbe t = !(x.judges.bucket t.judgeScheme).isEmpty := by
      have hb : t.judgeScheme ∈ ({.http, .https, .smtp} : Finset JudgeScheme) := by cases t <;> decide
      simp only [hasProbe, toChecker, hm, Finset.mem_filter, hb, true_and]
      cases x.judges.bucket t.judgeScheme <;> rfl
    rw [hp]
    cases a <;> obtain ⟨rfl, ⟨⟩⟩ := Runs.ret_inv h₂ <;> rw [List.append_nil]
    case none => exact ⟨hs, fun _ => by simp [hn rfl], by simp⟩
    case some j =>
      have hb := hj j rfl
      refine ⟨hs, by simp, ?_⟩
      rintro _ ⟨⟩
      exact ⟨by simpa using List.ne_nil_of_mem hb, .judged hm hb⟩
  case liveness lt =>
    rw [hm] at h
    obtain ⟨rfl, ⟨⟩⟩ := Runs.ret_inv h
    refine ⟨by simp, by simp, ?_⟩
    rintro _ ⟨⟩
    exact ⟨by simp [hasProbe, toChecker, hm], .liveness hm⟩

theorem checkOne_refines (hk : p.key = k) : (x.checkOne u flate2 p t).Refines (Carries u flate2 x k) Silent
    (Network.checkOne x.toChecker p t) fun a b => a = b ∧ b.2.key = k := by
  refine .of_silent (fun _ _ h => (aim_runs h).left) fun tr a h => ?_
  unfold Network.checkOne
  cases a
  case none =>
    rw [(aim_runs h).right.left rfl]
    exact .ret ⟨rfl, hk⟩
  case some a =>
    obtain ⟨hp, ha⟩ := (aim_runs h).right.right a rfl
    rw [if_pos hp]
    exact attempts_refines ha _ _ hk

theorem checkAll_refines (ts : List Proto) (any : Bool) (hk : p.key = k) :
    (x.checkAll u flate2 ts any p).Refines (Carries u flate2 x k) Silent (Network.checkAll x.toChecker ts any p) Eq := by
  induction ts generalizing any p
  case nil => exact .ret rfl
  case cons t ts hi =>
    refine .bind (checkOne_refines hk) ?_
    rintro a _ ⟨rfl, hk⟩
    exact hi _ hk

-- A check over the network is one that only asks for the outcomes of its attempts.
theorem check_refines : (x.check u flate2 p).Refines (Carries u flate2 x p.key) Silent (Network.check x.toChecker p) Eq := by
  have hd : (x.isListed p.host).Refines (Carries u flate2 x p.key) Silent
      (Network.inDnsbl x.toChecker) Eq := by
    unfold isListed Network.inDnsbl
    by_cases h : x.dnsbl ≠ []
    case pos =>
      rw [if_pos h, if_pos (show x.toChecker.dnsbl ≠ [] from h)]
      exact .perform fun tr b hr => ⟨b, .listed hr, rfl⟩
    case neg =>
      rw [if_neg h, if_neg (show ¬x.toChecker.dnsbl ≠ [] from h)]
      exact .ret rfl
  refine .bind hd ?_
  rintro b _ rfl
  cases b
  case true => exact .ret rfl
  case false =>
    refine .bind (checkAll_refines _ _ rfl) ?_
    rintro a _ rfl
    exact .ret rfl

section Evidence

variable {a : Attempt} {obs : Observation} {rtt : ℚ} {j : Judge}

theorem IsNegotiation.quiet {e : Event Effects} (h : e.op.IsNegotiation) (up : Bytes) (c : Option (Dial × Key)) :
    e.send up = up ∧ e.receive up = up ∧ Event.redial c e = c := by
  rcases e with ⟨o, r⟩
  cases o
  case net o =>
    cases o
    case upWrite ph _ => cases ph <;> first | exact ⟨rfl, rfl, rfl⟩ | exact (h : False).elim
    case upRead ph _  => cases ph <;> first | exact ⟨rfl, rfl, rfl⟩ | exact (h : False).elim
    case socks4 | socks5 | tls => exact ⟨rfl, rfl, rfl⟩
    all_goals exact (h : False).elim
  all_goals exact (h : False).elim

-- The operations by which a response is read.
def IsReading : Op → Prop
  | .net (.upRead .exchange _) => True
  | _                          => False

theorem readToEnd_uses (n limit : Nat) (buf : Bytes) : (readToEnd n limit buf).Uses IsReading := by
  induction n generalizing limit buf
  case zero => trivial
  case succ n hi =>
    cases limit
    case zero => trivial
    case succ limit =>
      refine Uses.bind ⟨trivial, fun _ => trivial⟩ fun r => ?_
      split
      · trivial
      · trivial
      · dsimp only
        split_ifs
        · trivial
        · exact hi ..

theorem readResponse_uses : readResponse.Uses IsReading := by
  refine Uses.bind (readToEnd_uses ..) fun r => ?_
  split
  · trivial
  · split_ifs <;> trivial

theorem IsReading.quiet {e : Event Effects} (h : IsReading e.op) (up : Bytes) (c : Option (Dial × Key)) :
    e.send up = up ∧ Event.redial c e = c := by
  rcases e with ⟨o, r⟩
  cases o
  case net o =>
    cases o
    case upRead ph _ => cases ph <;> first | exact (h : False).elim | exact ⟨rfl, rfl⟩
    all_goals exact (h : False).elim
  all_goals exact (h : False).elim

-- A judge has echoed the test request for a protocol through a proxy.
structure Echoes (u : Unicode) (flate2 : Flate2) (x : FullChecker) (k : Key) (t : Proto) (j : Judge)
    (marker content : Str) (seg : Trace Effects) : Prop where
  judge   : j ∈ x.judges.bucket t.judgeScheme
  marked  : ∃ n, marker = Utils.freshMarker n
  dialed  : seg.lastDial = some (.probe, k)
  sent    : seg.asked = x.testRequest j t marker
  status  : getStatusCode (splitHeadBody seg.received).1 9 12 = 200
  page    : content = Checker.page u flate2 seg.received
  echo    : marker <:+: content
  address : Utils.getAllIp u.toDecimal content ≠ ∅
  intact  : x.relaxedValidity = false → "https://www.google.com/".toList <:+: content ∧ "cookie=ok".toList <:+: content

theorem timed_runs {m : Async (Except ProxyError Attempt)} (h : (timed m).Runs tr (.ret (.ok (.working obs), rtt))) :
    ∃ start stop tr', tr = ⟨.env .now, start⟩ :: tr' ++ [⟨.env .now, stop⟩] ∧ m.Runs tr' (.ret (.ok (.working obs))) := by
  cases h
  case call start h =>
    obtain ⟨r, tr₁, tr₂, rfl, h₁, h₂⟩ := Runs.of_bind_ret (p := m) h
    rcases r with e | obs' | -
    case error      => cases h₂
    case ok.invalid => cases h₂
    case ok.working =>
      cases h₂
      case call stop h₂ =>
        obtain ⟨rfl, he⟩ := Runs.ret_inv h₂
        cases he
        exact ⟨start, stop, tr₁, rfl, h₁⟩

theorem exchange_runs (h : (x.exchange u flate2 (.judged j) t).Runs tr (.ret (.ok a))) :
    ∃ (n : Nat) (tr' : Trace Effects) (raw : Bytes),
      tr = ⟨.env (.tie 9000), n⟩ ::
        ⟨.net (.upWrite .exchange (x.testRequest j t (Utils.freshMarker n))), WriteResult.done⟩ :: tr' ∧
      readResponse.Runs tr' (.ret (.ok raw)) ∧ getStatusCode (splitHeadBody raw).1 9 12 = 200 ∧
      a = x.assess u j t (Utils.freshMarker n) (page u flate2 raw) := by
  cases h
  case call n h =>
    cases h
    case call tr w h =>
      cases (w : WriteResult)
      case timedOut => cases h
      case failed   => cases h
      case done     =>
        obtain ⟨r, tr₁, tr₂, rfl, h₁, h₂⟩ := Runs.of_bind_ret (p := readResponse) h
        cases r
        case error => cases h₂
        case ok raw =>
          dsimp only at h₂
          split_ifs at h₂ with hs
          case pos => cases h₂
          case neg =>
            obtain ⟨rfl, he⟩ := Runs.ret_inv h₂
            cases he
            exact ⟨n, tr₁, raw, by rw [List.append_nil], h₁, not_not.mp hs, rfl⟩

theorem refererEcho_iff {content : Str} :
    (capsFromContent content).refererEcho = true ↔ "https://www.google.com/".toList <:+: content :=
  decide_eq_true_iff

theorem cookieEcho_iff {content : Str} : (capsFromContent content).cookieEcho = true ↔ "cookie=ok".toList <:+: content :=
  decide_eq_true_iff

theorem responseIsValid_iff {d : Decimal} {marker content : Str} : responseIsValid d content marker = true ↔
    marker <:+: content ∧ Utils.getAllIp d content ≠ ∅ ∧
    (capsFromContent content).refererEcho = true ∧ (capsFromContent content).cookieEcho = true := by
  rw [responseIsValid]
  simp only [Bool.and_eq_true, decide_eq_true_iff, and_assoc]

theorem isValid_iff {marker content : Str} : x.isValid u marker content = true ↔
    marker <:+: content ∧ Utils.getAllIp u.toDecimal content ≠ ∅ ∧
    (x.relaxedValidity = false →
      (capsFromContent content).refererEcho = true ∧ (capsFromContent content).cookieEcho = true) := by
  unfold isValid
  cases x.relaxedValidity
  case true  => simp
  case false => simp [responseIsValid_iff]

-- Why a page is accepted, and what is made of it.
theorem assess_eq_working {marker content : Str} (h : x.assess u j t marker content = .working obs) :
    x.isValid u marker content ∧
    obs.level = (if t.checksAnonLevel then some (anonymityLevel u x.realExtIps j.marks content) else none) ∧
    obs.caps = capsFromContent content ∧
    obs.trust = (if x.trustCheck then TrustReport.assess sentHeaderNames marker content else []) := by
  unfold assess at h
  by_cases hv : x.isValid u marker content
  case pos =>
    rw [if_pos hv] at h
    cases h
    exact ⟨hv, rfl, rfl, rfl⟩
  case neg =>
    rw [if_neg hv] at h
    cases h

theorem attempt_runs (h : (x.attempt u flate2 k t probe target).Runs tr (.ret (.ok a))) : ∃ tr₁ tr₂ s,
    tr = ⟨.net (.dial .probe k), DialResult.ok⟩ :: (tr₁ ++ tr₂) ∧
    (negotiate t target none).Runs tr₁ (.ret (.ok s)) ∧
    (if t = .connect25 then pure (.ok (.working unobserved)) else x.exchange u flate2 probe t).Runs tr₂ (.ret (.ok a)) := by
  cases h
  case call r h =>
    cases (r : DialResult)
    case timedOut => cases h
    case failed   => cases h
    case ok =>
      obtain ⟨s, tr₁, tr₂, rfl, h₁, h₂⟩ := Runs.of_bind_ret (p := negotiate t target none) h
      cases s
      case error => cases h₂
      case ok s  => exact ⟨tr₁, tr₂, s, rfl, h₁, h₂⟩

-- What a working attempt leaves behind on the wire.
theorem wire_of_runs {n start stop : Nat} {request raw : Bytes} {tr₁ tr₂ : Trace Effects} {s : Stream}
    (hn : (negotiate t target none).Runs tr₁ (.ret (.ok s))) (hr : readResponse.Runs tr₂ (.ret (.ok raw)))
    (ht : tr = ⟨.env .now, start⟩ :: ⟨.net (.dial .probe k), DialResult.ok⟩ :: (tr₁ ++
      ⟨.env (.tie 9000), n⟩ :: ⟨.net (.upWrite .exchange request), WriteResult.done⟩ :: tr₂) ++ [⟨.env .now, stop⟩]) :
    tr.lastDial = some (.probe, k) ∧ tr.asked = request ∧ tr.received = raw := by
  have hq : (negotiate t target none).Uses Op.IsNegotiation := negotiate_uses ..
  have hd (c : Option (Dial × Key)) : tr₁.foldl Event.redial c = c :=
    hq.foldl_eq hn (fun b e h => (IsNegotiation.quiet h [] b).right.right) c
  have hs (up : Bytes) : tr₁.foldl Event.send up = up := hq.foldl_eq hn (fun b e h => (IsNegotiation.quiet h b none).left) up
  have hv (up : Bytes) : tr₁.foldl Event.receive up = up :=
    hq.foldl_eq hn (fun b e h => (IsNegotiation.quiet h b none).right.left) up
  have hd' (c : Option (Dial × Key)) : tr₂.foldl Event.redial c = c :=
    readResponse_uses.foldl_eq hr (fun b e h => (IsReading.quiet h [] b).right) c
  have hs' (up : Bytes) : tr₂.foldl Event.send up = up :=
    readResponse_uses.foldl_eq hr (fun b e h => (IsReading.quiet h b none).left) up
  have hv' : tr₂.foldl Event.receive [] = raw := (readResponse_ok hr).left
  subst ht
  refine ⟨?_, ?_, ?_⟩
  · simp [Trace.lastDial, Event.redial, hd, hd']
  · simp [Trace.asked, Event.send, hs, hs']
  · simp [Trace.received, Event.receive, hv, hv']

-- A working attempt for a protocol whose tunnel is not all that is asked for.
theorem echoes_of_carries {i : Nat} {seg : Trace Effects} (hm : x.mode = .judged) (hc : t ≠ .connect25)
    (h : Carries u flate2 x k ⟨.attempt t i, (.ok (.working obs), rtt)⟩ seg) : ∃ j marker content,
      Echoes u flate2 x k t j marker content seg ∧
      obs.level = (if t.checksAnonLevel then some (anonymityLevel u x.realExtIps j.marks content) else none) := by
  cases h
  case attempt probe target ha h =>
    cases ha
    case liveness hl =>
      rw [hm] at hl
      cases hl
    case judged j _ hj =>
      obtain ⟨start, stop, tr, rfl, h₁⟩ := timed_runs h
      obtain ⟨tr₁, tr₂, s, rfl, hn, h₂⟩ := attempt_runs h₁
      rw [if_neg hc] at h₂
      obtain ⟨n, tr₃, raw, rfl, hr, hs, ha⟩ := exchange_runs h₂
      obtain ⟨hv, hl, -, -⟩ := assess_eq_working ha.symm
      obtain ⟨he, hi, hr'⟩ := isValid_iff.mp hv
      obtain ⟨hd, ht, hraw⟩ := wire_of_runs hn hr rfl
      refine ⟨j, Utils.freshMarker n, page u flate2 raw, ⟨hj, ⟨n, rfl⟩, hd, ht, ?_, ?_, he, hi, fun hf => ?_⟩, hl⟩
      · exact hraw ▸ hs
      · rw [hraw]
      · exact ⟨refererEcho_iff.mp (hr' hf).left, cookieEcho_iff.mp (hr' hf).right⟩

end Evidence

section Abstract

open Network

variable {c : Checker} {es : Trace effects}

def IsAttempt : Network.Op → Prop
  | .attempt .. => True
  | .listed     => False

theorem attempts_uses (r : RetryPolicy) (tries i : Nat) (p : Proxy) : (Network.attempts r t tries i p).Uses IsAttempt := by
  induction tries generalizing i p
  case zero => trivial
  case succ hi =>
    refine ⟨trivial, ?_⟩
    rintro ⟨e | obs | -, rtt⟩
    case ok.working => trivial
    case ok.invalid => trivial
    case error =>
      change Uses _ (if _ then Network.attempts r t _ (i + 1) (p.recordAttempt none (some e)) else pure _)
      split
      · exact hi ..
      · trivial

theorem checkAll_uses (ts : List Proto) (any : Bool) (p : Proxy) : (Network.checkAll c ts any p).Uses IsAttempt := by
  induction ts generalizing any p
  case nil => trivial
  case cons t ts hi =>
    refine Uses.bind ?_ fun _ => hi ..
    unfold Network.checkOne
    split
    · exact attempts_uses ..
    · trivial

-- A proxy that a blocklist lists is left as it is.
theorem check_listed (h : (Network.check c p).Runs es (.ret (ok, p'))) (hl : ⟨.listed, true⟩ ∈ es) :
    p' = p ∧ tried es = [] := by
  obtain ⟨b, es₁, es₂, rfl, h₁, h₂⟩ := Runs.of_bind_ret h
  cases b
  case true =>
    obtain ⟨rfl, he⟩ := Runs.ret_inv h₂
    cases he
    refine ⟨rfl, ?_⟩
    rcases inDnsbl_runs h₁ with ⟨rfl, -⟩ | rfl <;> simp
  case false =>
    exfalso
    have hu : (Network.checkAll c (c.ngtrs p) false p >>= fun a => pure (if a.1 then typesPassed c.requested c.strict a.2
        else (false, a.2)) : Prog effects (Bool × Proxy)).Uses IsAttempt := (checkAll_uses ..).bind fun _ => trivial
    rcases List.mem_append.mp hl with hl | hl
    · rcases inDnsbl_runs h₁ with ⟨rfl, -⟩ | rfl
      · cases hl
      · simp at hl
    · exact (hu.of_run h₂).right _ hl

theorem exists_attempt {o : Outcome} (h : (t, o) ∈ tried es) : ∃ i rtt, ⟨.attempt t i, (o, rtt)⟩ ∈ es := by
  obtain ⟨⟨op, r⟩, he, ha⟩ := List.mem_filterMap.mp h
  cases op
  case listed => cases ha
  case attempt t' i =>
    cases ha
    exact ⟨i, r.2, he⟩

end Abstract

-- No protocol is confirmed unless a judge has echoed the test request for it, through the proxy and since the check
-- has begun. The level of anonymity is that of this very echo.
theorem check_confirmed (u : Unicode) (flate2 : Flate2) {level : Option AnonLevel} (hm : x.mode = .judged)
    (hp : p.types = fun _ => none) (h : (x.check u flate2 p).Runs tr (.ret (ok, p'))) (ht : p'.types t = some level)
    (hc : t ≠ .connect25) : ∃ seg j marker content, seg <:+: tr ∧ Echoes u flate2 x p.key t j marker content seg ∧
      level = if t.checksAnonLevel then some (anonymityLevel u x.realExtIps j.marks content) else none := by
  obtain ⟨es, a, hr, rfl, he⟩ := check_refines _ _ h
  by_cases hl : ⟨.listed, true⟩ ∈ es
  case pos =>
    rw [(check_listed hr hl).left, hp] at ht
    cases ht
  case neg =>
    obtain ⟨any, q, ha, hq⟩ := Network.check_runs hr hl
    rw [ha.snd_eq hp hq] at ht
    obtain ⟨obs, ho, rfl⟩ := (ha.types hp).mp (Option.filter_eq_some_iff.mp ht).left
    obtain ⟨i, rtt, hi⟩ := exists_attempt ho
    obtain ⟨seg, hs, hseg⟩ := he.exists_infix hi
    obtain ⟨j, marker, content, hj, hlv⟩ := echoes_of_carries hm hc hseg
    exact ⟨seg, j, marker, content, hs, hj, hlv⟩

namespace AttemptExample

-- A judge that is only asked to echo the marker and an address.
def judge : Judge :=
  ⟨"http://j/".toList, .http, "j".toList, "/".toList, none, ⟨0, 0⟩⟩

def checker : FullChecker where
  judges          := ⟨[judge], [], []⟩
  realExtIps      := {.v4 1 2 3 4}
  requested       := [⟨.http, none⟩]
  post            := false
  strict          := false
  relaxedValidity := true
  trustCheck      := false
  dnsbl           := []
  mode            := .judged
  retry           := ⟨1, ∅⟩
  backoff         := 0

def echo : Str :=
  "1000 1.2.3.4".toList

def response : Bytes :=
  Utf8.encode ("HTTP/1.1 200 OK\r\n\r\n".toList ++ echo)

abbrev plain : Flate2 := fun _ _ => none

-- A proxy without any protocols, of which some attempts have already been recorded.
abbrev seen (n : UInt32) : Proxy :=
  { Network.unseen with requests := n }

theorem page_response : page .asciiOnly plain response = echo := by
  decide +kernel

theorem isValid_echo : checker.isValid .asciiOnly (Utils.freshMarker 0) echo := by
  refine isValid_iff.mpr ⟨by decide, ?_, by decide⟩
  have hd : Delimited .asciiOnly echo "1.2.3.4".toList := ⟨"1000 ".toList, [], by decide, by simp; decide, by simp⟩
  exact Finset.ne_empty_of_mem (a := IpAddr.display (.v4 1 2 3 4)) (hd.mem_getAllIp (by decide))

theorem level_echo : anonymityLevel .asciiOnly checker.realExtIps judge.marks echo = .transparent := by
  refine (anonymityLevel_transparent ..).left ⟨.v4 1 2 3 4, by decide, "1.2.3.4".toList, by decide, ?_⟩
  exact ⟨"1000 ".toList, [], by decide, by simp; decide, by simp⟩

-- The judge sees the proxy, and nothing happens besides.
theorem exchange_runs : ∃ tr, (checker.exchange .asciiOnly plain (.judged judge) .http).Runs tr
    (.ret (.ok (checker.assess .asciiOnly judge .http (Utils.freshMarker 0) echo))) := by
  obtain ⟨tr, hr⟩ := readResponse_runs (show response ≠ [] by decide) (by decide)
  have hs : getStatusCode (splitHeadBody response).1 9 12 = 200 := by decide
  let request := checker.testRequest judge .http (Utils.freshMarker 0)
  refine ⟨⟨.env (.tie 9000), (0 : Nat)⟩ :: ⟨.net (.upWrite .exchange request), WriteResult.done⟩ :: (tr ++ []), ?_⟩
  refine .call (.call (Runs.bind_ret (p := readResponse) hr ?_))
  dsimp only
  rw [if_neg (by simpa using hs)]
  exact page_response ▸ .refl

abbrev attempted : Async (Except ProxyError Attempt) :=
  checker.attempt .asciiOnly plain Network.unseen.key .http (.judged judge) ⟨judge.host, none, 80⟩

theorem check_runs (n : UInt32) : ∃ tr p', (checker.check .asciiOnly plain (seen n)).Runs tr (.ret (true, p')) ∧
    p'.types .http = some (some .transparent) := by
  obtain ⟨tr, hr⟩ := exchange_runs
  rw [assess, if_pos isValid_echo, level_echo] at hr
  have hl : (checker.isListed (seen n).host).Runs [] (.ret false) := .refl
  have ha : attempted.Runs (⟨.net (.dial .probe (seen n).key), DialResult.ok⟩ :: tr) _ := .call hr
  have ht : (timed attempted).Runs (⟨.env .now, (0 : Nat)⟩ :: (_ ++ [⟨.env .now, (0 : Nat)⟩])) _ :=
    .call (Runs.bind_ret (p := attempted) ha (.call .refl))
  have hm : (checker.aim .http).Runs [⟨.env (.tie 1), (0 : Nat)⟩] (.ret (some (.judged judge, ⟨judge.host, none, 80⟩))) :=
    .call .refl
  have ho : (checker.checkOne .asciiOnly plain (seen n) .http).Runs _ _ := Runs.bind_ret hm (Runs.bind_ret ht .refl)
  have hc : (checker.checkAll .asciiOnly plain [.http] false (seen n)).Runs _ _ := Runs.bind_ret ho .refl
  exact ⟨_, _, Runs.bind_ret hl (Runs.bind_ret hc .refl), rfl⟩

theorem check_confirmed_http : ∃ tr p' seg j marker content,
    (checker.check .asciiOnly plain (seen 3)).Runs tr (.ret (true, p')) ∧ seg <:+: tr ∧
    Echoes .asciiOnly plain checker (seen 3).key .http j marker content seg ∧
    AnonLevel.transparent = anonymityLevel .asciiOnly checker.realExtIps j.marks content := by
  obtain ⟨tr, p', hr, ht⟩ := check_runs 3
  obtain ⟨seg, j, marker, content, hs, he, hl⟩ :=
    check_confirmed .asciiOnly plain rfl rfl hr ht (by decide)
  exact ⟨tr, p', seg, j, marker, content, hr, hs, he, Option.some.inj hl⟩

end AttemptExample

end FullChecker
