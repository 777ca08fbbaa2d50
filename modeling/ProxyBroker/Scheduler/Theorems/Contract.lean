import ProxyBroker.Scheduler.Loop

namespace Scheduler

open Prog

-- The answer to a question for the addresses of a pool.
def listed (ks : List Key) : Event Effects :=
  ⟨.pool .addrs, ks⟩

-- A job is to be checked: its address is being retried, or it was found in the pool.
def Passed (s : Schedule) (k : Key) (tr : Trace Effects) : Prop :=
  s.retrying k = true ∨ ∃ ks, k ∈ ks ∧ listed ks ∈ tr

-- A check is in progress, and nothing was done about its outcome.
structure Checking (s : Schedule) (k : Key) (tr : Trace Effects) : Prop where
  passed    : Passed s k tr
  undecided : ∀ e ∈ tr, e.op = .pool .addrs ∨ e.op.IsEnv

theorem Checking.env {s : Schedule} {k : Key} {tr : Trace Effects} (h : Checking s k tr) (o : EnvOp)
    (r : o.Ret) (ho : (Op.env o).IsEnv) : Checking s k (tr ++ [⟨.env o, r⟩]) where
  passed := by
    rcases h.passed with h | ⟨ks, hk, h⟩
    · exact .inl h
    · exact .inr ⟨ks, hk, List.mem_append_left _ h⟩
  undecided e he := by
    rcases List.mem_append.mp he with he | he
    · exact h.undecided e he
    · cases List.mem_singleton.mp he
      exact .inr ho

-- What the loop does about a job that is to be checked. Whatever it adds to the pool has nothing but the
-- address in common with what is or was in there.
def Treats (k : Key) : Op → Prop
  | .env (.bench _) | .env .panic => False
  | .env _                        => True
  | .pool (.remove k')            => k' = k
  | .pool (.add .outsider p)      => p.key = k ∧ p.auth = none ∧ p.geo = none ∧ p.asn = none
  | _                             => False

-- How the addresses of a pool get into a schedule.
inductive Enrols : List Key → Schedule → Schedule → Prop
  | nil {s : Schedule} : Enrols [] s s
  | known {k : Key} {ks : List Key} {s s' : Schedule} :
    s.ewma k ≠ none → Enrols ks s s' → Enrols (k :: ks) s s'
  | new {k : Key} {ks : List Key} {s s' : Schedule} {now due : Instant} :
    s.ewma k = none → Enrols ks ((s.enrolled now k).push due k) s' → Enrols (k :: ks) s s'

-- What becomes of a schedule from which a job was popped. This is decided by the last event.
inductive Treated (s : Schedule) (k : Key) : Trace Effects → Schedule → Prop
  | dropped {ks : List Key} :
    s.retrying k = false → k ∉ ks → Treated s k [listed ks] (s.forget k)
  | working {tr : Trace Effects} {p : Proxy} {now due : Instant} :
    Passed s k tr →
    Treated s k (tr ++ [⟨.pool (.add .outsider p), ()⟩])
      (({ (s.fold k true).2 with lastOk := Function.update s.lastOk k (some now) }.setRetrying k false).push due k)
  | retried {tr : Trace Effects} {removed : Bool} {due : Instant} :
    Passed s k tr →
    Treated s k (tr ++ [⟨.pool (.remove k), removed⟩]) (((s.fold k false).2.setRetrying k true).push due k)
  | evicted {tr : Trace Effects} {removed : Bool} :
    Passed s k tr →
    Treated s k (tr ++ [⟨.pool (.remove k), removed⟩]) (((s.fold k false).2.forget k).setRetrying k false)

namespace Phase

def Demands : Phase → Trace Effects → Op → Prop
  | head _, _, o   => o = .pool .addrs ∨ o.IsEnv
  | job s k, tr, o => (o = .pool .addrs ∧ s.retrying k = false ∧ tr = []) ∨ (Checking s k tr ∧ Treats k o)
  | _, _, o        => o.IsEnv

def Leads : Phase → Option Phase → Trace Effects → Prop
  | start, ph, _        => ∃ now, ph = some (head (.start now))
  | head s, ph, tr      => ∃ ks s', ph = some (enrolled ks s') ∧ listed ks ∈ tr ∧ Enrols ks s s'
  | enrolled _ s, ph, _ => Awaited s ph
  | job s k, ph, tr     => ∃ s', ph = some (head s') ∧ Treated s k tr s'

-- The address of the job.
def subject : Phase → Option Key
  | job _ k => some k
  | _       => none

def retrying : Phase → Key → Bool
  | start, _                                => false
  | head s, k | enrolled _ s, k | job s _, k => s.retrying k

def ewma : Phase → Key → Option ℚ
  | start, _                                 => none
  | head s, k | enrolled _ s, k | job s _, k => s.ewma k

end Phase

variable {cfg : RecheckConfig} {s : Schedule} {k : Key} {tr : Trace Effects}

theorem enroll_spec (now : Instant) (ks : List Key) (s : Schedule) {d : Trace Effects → Op → Prop}
    (hd : ∀ tr j, d tr (.env (.jitter j))) :
    (enroll cfg now ks s).Sat (.history d) (fun s' tr' => Enrols ks s s' ∧ tr ⊆ tr') tr := by
  induction ks generalizing s tr
  case nil => exact ⟨.nil, List.Subset.refl _⟩
  case cons k ks hi =>
    unfold enroll
    split
    case h_1 hk => exact (hi s).mono fun _ _ h => ⟨.known (by simp [hk]) h.left, h.right⟩
    case h_2 hk =>
      simp only [sat_bind, Async.sat_env]
      refine ⟨hd _ _, fun j => (hi _).mono fun _ _ h => ⟨.new hk h.left, ?_⟩⟩
      exact fun e he => h.right (List.mem_append_left _ he)

theorem enrolment_spec (s : Schedule) :
    (enrolment cfg s).Sat (.history (Phase.head s).Demands) (Phase.head s).Leads [] := by
  unfold enrolment
  simp only [sat_bind, Async.sat_env, Async.sat_pool]
  refine ⟨.inr trivial, fun now => ⟨.inl rfl, fun ks => ?_⟩⟩
  refine (enroll_spec now ks s fun _ _ => .inr trivial).mono fun s' tr' h => ?_
  exact ⟨ks, s', rfl, h.right (by simp [listed]), h.left⟩

theorem recheck_spec (h : Checking s k tr) :
    (recheck cfg s k).Sat (.history (Phase.job s k).Demands) (fun s' tr' => Treated s k tr' s') tr := by
  unfold recheck
  simp only [sat_bind, Async.sat_env]
  refine ⟨.inr ⟨h, trivial⟩, fun r => ?_⟩
  replace h := h.env (.check (Proxy.new k.host k.port ∅)) r trivial
  refine ⟨.inr ⟨h, trivial⟩, fun u => ?_⟩
  replace h := h.env (.upsert (afterCheck (Proxy.new k.host k.port ∅) r)) u trivial
  refine ⟨.inr ⟨h, trivial⟩, fun now => ?_⟩
  replace h := h.env .now now trivial
  refine ⟨.inr ⟨h, trivial⟩, fun j => ?_⟩
  replace h := h.env (.jitter cfg.minInterval) j trivial
  split
  case isTrue hr =>
    rw [hr]
    exact ⟨.inr ⟨h, rfl, rfl, rfl, rfl⟩, fun _ => .working h.passed⟩
  case isFalse hr =>
    rw [Bool.eq_false_iff.mpr hr]
    simp only [Pool.remove, sat_bind, Async.sat_pool]
    refine ⟨.inr ⟨h, rfl⟩, fun removed => ?_⟩
    split
    · exact .retried h.passed
    · exact .evicted h.passed

theorem treat_spec (s : Schedule) (k : Key) :
    (treat cfg s k).Sat (.history (Phase.job s k).Demands) (Phase.job s k).Leads [] := by
  have recheck (tr : Trace Effects) (h : Checking s k tr) :
      (recheck cfg s k >>= fun s => pure (some (Phase.head s))).Sat (.history (Phase.job s k).Demands)
        (Phase.job s k).Leads tr :=
    (sat_bind ..).mpr <| (recheck_spec h).mono fun s' _ h => ⟨s', rfl, h⟩
  unfold treat isTracked
  split
  case isTrue hr => exact recheck [] ⟨.inl hr, by simp⟩
  case isFalse hr =>
    rw [Bool.not_eq_true] at hr
    simp only [sat_bind, Async.sat_pool]
    refine ⟨.inl ⟨rfl, hr, rfl⟩, fun (ks : List Key) => ?_⟩
    by_cases hk : k ∈ ks
    · simp only [hk, decide_true, pure_eq_ret, sat_ret, if_true]
      exact recheck [listed ks] ⟨.inr ⟨ks, hk, by simp⟩, by simp [listed]⟩
    · simp only [hk, decide_false, pure_eq_ret, sat_ret, Bool.false_eq_true, if_false]
      exact ⟨s.forget k, rfl, .dropped hr hk⟩

-- Each phase of the loop keeps to its contract.
theorem Phase.body_spec (ph : Phase) : (ph.body cfg).Sat (.history ph.Demands) ph.Leads [] := by
  cases ph
  case start      => exact ⟨trivial, fun now => ⟨now, rfl⟩⟩
  case head s     => exact enrolment_spec s
  case enrolled s => exact (await_next s).weaken rfl fun _ _ => Op.IsWait.isEnv
  case job s k    => exact treat_spec s k

theorem begin_sound (ph : Phase) : (Iteration.begin (Phase.body cfg) ph).Sound Phase.Demands Phase.Leads :=
  Phase.body_spec ph

section Frame

variable {s' : Schedule} {ks : List Key} {a : Key} {v : ℚ}

theorem pop_inv {tie : Nat} {e : Scheduled} (h : s.pop tie = some (e, s')) :
    e ∈ s.heap ∧ s' = { s with heap := s.heap.erase e } := by
  simp only [Schedule.pop, Option.map_eq_some_iff, Prod.mk.injEq] at h
  obtain ⟨e, he, rfl, rfl⟩ := h
  exact ⟨(List.mem_filter.mp (List.mem_of_getElem? he)).left, rfl⟩

theorem Enrols.retrying (h : Enrols ks s s') : s'.retrying = s.retrying := by
  induction h
  case nil          => rfl
  case known _ _ hi => exact hi
  case new _ _ hi   => exact hi

theorem Enrols.ewma (h : Enrols ks s s') (ha : s.ewma a = some v) : s'.ewma a = some v := by
  induction h
  case nil          => exact ha
  case known _ _ hi => exact hi ha
  case new k _ _ _ _ _ hk _ hi =>
    refine hi ?_
    have hn : a ≠ k := by
      rintro rfl
      simp [hk] at ha
    simpa [Schedule.push, Schedule.enrolled, hn] using ha

theorem Treated.retrying (h : Treated s k tr s') (hk : k ≠ a) : s'.retrying a = s.retrying a := by
  cases h
  case dropped => rfl
  all_goals simp [Schedule.setRetrying, Schedule.push, Schedule.forget, Schedule.fold, hk.symm]

theorem Treated.ewma (h : Treated s k tr s') (hk : k ≠ a) : s'.ewma a = s.ewma a := by
  cases h <;> simp [Schedule.setRetrying, Schedule.push, Schedule.forget, Schedule.fold, hk.symm]

-- A rate that is tracked only changes when the address is treated.
theorem Phase.Leads.ewma {ph ph' : Phase} (h : ph.Leads (some ph') tr) (hs : ph.subject ≠ some a)
    (hv : ph.ewma a = some v) : ph'.ewma a = some v := by
  cases ph
  case start => cases hv
  case head =>
    obtain ⟨ks, s', ⟨⟩, -, he⟩ := h
    exact he.ewma hv
  case enrolled =>
    cases h
    case head => exact hv
    case job hp =>
      obtain ⟨-, rfl⟩ := pop_inv hp
      exact hv
  case job s k =>
    obtain ⟨s', ⟨⟩, ht⟩ := h
    exact (ht.ewma fun hk => hs (congrArg some hk)).trans hv

end Frame

end Scheduler
