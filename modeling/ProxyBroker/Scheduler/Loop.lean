import ProxyBroker.Scheduler
import ProxyBroker.Resumption.Loop

-- The operations that do not concern a pool.
def Op.IsEnv : Op → Prop
  | env (.bench _) | env .panic => False
  | env _                       => True
  | _                           => False

-- The operations by which a task waits, and looks at the clock in between.
def Op.IsWait : Op → Prop
  | env .now | env (.sleep _) | env (.tie _) | env .never => True
  | _                                                     => False

theorem Op.IsWait.isEnv {o : Op} (h : o.IsWait) : o.IsEnv := by
  cases o
  case env o => cases o <;> trivial
  all_goals exact (h : False).elim

-- The address that was checked, and what the check has found out.
def Event.checked : Event Effects → Option (Key × Checked)
  | ⟨.env (.check p), r⟩ => some (p.key, r)
  | _                    => none

namespace Scheduler

open Prog

-- Where the loop is within one of its passes: it is about to enrol the addresses of the pool, it has enrolled
-- them and waits for a job to be due, or it treats the job that it has popped.
inductive Phase
  | start
  | head (s : Schedule)
  | enrolled (addrs : List Key) (s : Schedule)
  | job (s : Schedule) (k : Key)

variable (cfg : RecheckConfig)

def enrolment (s : Schedule) : Async (Option Phase) := do
  let now : Instant := ← Async.env .now
  let addrs : List Key := ← Async.pool .addrs
  let s ← enroll cfg now addrs s
  return some (.enrolled addrs s)

def await (s : Schedule) : Async (Option Phase) := do
  match s.soonest with
  | none =>
    let t : Instant := ← Async.env .now
    let cancelled : Bool := ← Async.env (.sleep (t + cfg.minInterval))
    if cancelled then return none else return some (.head s)
  | some due =>
    let t : Instant := ← Async.env .now
    let cancelled : Bool := ← Async.env (.sleep (min due (t + cfg.minInterval)))
    if cancelled then return none
    else
      let t : Instant := ← Async.env .now
      if t < due then return some (.head s)
      else
        let t : Instant := ← Async.env .now
        let startAt := max s.nextStart t
        let cancelled : Bool := ← Async.env (.sleep startAt)
        if cancelled then return none
        else
          let s := { s with nextStart := startAt + fromSecs (1 / max cfg.ratePerSec (1 / 1000)) }
          let tie : Nat := ← Async.env (.tie s.heap.length)
          match s.pop tie with
          | none          => Async.never
          | some (job, s) => return some (.job s job.key)

def treat (s : Schedule) (k : Key) : Async (Option Phase) := do
  if ← isTracked s k then
    let s ← recheck cfg s k
    return some (.head s)
  else
    return some (.head (s.forget k))

def Phase.body : Phase → Async (Option Phase)
  | start        => do
    let now : Instant := ← Async.env .now
    return some (.head (.start now))
  | head s       => enrolment cfg s
  | enrolled _ s => await cfg s
  | job s k      => treat cfg s k

abbrev LoopFollows (p : Async Unit) (ph : Phase) : Prop :=
  p.Follows (Iteration.Moves (Phase.body cfg)) (· = none) (some (Iteration.begin (Phase.body cfg) ph))

section Unrolling

variable (n : Nat)

-- How the loop goes on after each of the phases of its last but `n`-th pass.
def afterTreat : Option Phase → Async Unit
  | some (.head s) => recheckLoop cfg n s
  | _              => return

def afterAwait : Option Phase → Async Unit
  | some (.head s)  => recheckLoop cfg n s
  | some (.job s k) => treat cfg s k >>= afterTreat cfg n
  | _               => return

def afterEnrolment : Option Phase → Async Unit
  | some (.enrolled _ s) => await cfg s >>= afterAwait cfg n
  | _                    => return

variable {cfg n}

theorem never_bind {α β : Type} {f : α → Async β} : Async.never >>= f = Async.never :=
  congrArg (call (S := Effects) (Op.env .never)) (funext fun r => r.elim)

theorem treat_bind (s : Schedule) (k : Key) :
    treat cfg s k >>= afterTreat cfg n =
      isTracked s k >>= fun tracked =>
        if tracked then recheck cfg s k >>= recheckLoop cfg n else recheckLoop cfg n (s.forget k) := by
  unfold treat
  rw [bind_bind]
  refine bind_congr fun tracked => ?_
  cases tracked
  · rfl
  · exact bind_bind ..

theorem recheckLoop_succ (s : Schedule) :
    recheckLoop cfg (n + 1) s = enrolment cfg s >>= afterEnrolment cfg n := by
  unfold recheckLoop enrolment
  simp only [bind_bind]
  refine bind_congr fun now => bind_congr fun addrs => bind_congr fun s => ?_
  show _ = await cfg s >>= afterAwait cfg n
  unfold await
  cases s.soonest
  case none =>
    simp only [bind_bind]
    refine bind_congr fun t => bind_congr fun cancelled => ?_
    cases cancelled <;> rfl
  case some due =>
    simp only [bind_bind]
    refine bind_congr fun t => bind_congr fun cancelled => ?_
    cases cancelled
    case true  => rfl
    case false =>
      simp only [Bool.false_eq_true, if_false, bind_bind]
      refine bind_congr fun t => ?_
      split_ifs
      case pos => rfl
      case neg =>
        simp only [bind_bind]
        refine bind_congr fun t => bind_congr fun cancelled => ?_
        cases cancelled
        case true  => rfl
        case false =>
          simp only [Bool.false_eq_true, if_false, bind_bind]
          refine bind_congr fun tie => ?_
          generalize Schedule.pop _ tie = popped
          rcases popped with _ | ⟨job, s⟩
          · exact never_bind.symm
          · exact (treat_bind ..).symm

end Unrolling

section Following

variable {cfg} {n : Nat}

-- What the loop goes on with after it has waited.
inductive Awaited (s : Schedule) : Option Phase → Prop
  | cancelled : Awaited s none
  | head : Awaited s (some (.head s))
  | job {start : Instant} {tie : Nat} {e : Scheduled} {s' : Schedule} :
    { s with nextStart := start }.pop tie = some (e, s') → Awaited s (some (.job s' e.key))

-- While it waits, the loop only asks for the time and the like.
theorem await_next (s : Schedule) :
    (await cfg s).Sat (.history fun _ => Op.IsWait) (fun ph _ => Awaited s ph) [] := by
  unfold await
  split
  · refine ⟨trivial, fun t => ⟨trivial, fun cancelled => ?_⟩⟩
    cases cancelled
    · exact .head
    · exact .cancelled
  · simp only [sat_bind, Async.sat_env]
    refine ⟨trivial, fun t => ⟨trivial, fun cancelled => ?_⟩⟩
    cases cancelled
    case true => exact .cancelled
    simp only [Bool.false_eq_true, if_false, sat_bind, Async.sat_env]
    refine ⟨trivial, fun t => ?_⟩
    split
    · exact .head
    · simp only [sat_bind, Async.sat_env]
      refine ⟨trivial, fun t => ⟨trivial, fun cancelled => ?_⟩⟩
      cases cancelled
      case true => exact .cancelled
      simp only [Bool.false_eq_true, if_false, sat_bind, Async.sat_env]
      refine ⟨trivial, fun tie => ?_⟩
      split
      · exact ⟨trivial, fun r => r.elim⟩
      · exact .job ‹_›

theorem await_ne (s : Schedule) (a : Option Phase) : await cfg s ≠ .ret a := by
  unfold await
  split <;> nofun

theorem treat_ne (s : Schedule) (k : Key) (a : Option Phase) : treat cfg s k ≠ .ret a := by
  unfold treat isTracked
  split
  · rw [pure_eq_ret, ret_bind, if_pos rfl]
    nofun
  · nofun

theorem treat_follows {s : Schedule} {k : Key} (hl : ∀ s, LoopFollows cfg (recheckLoop cfg n s) (.head s)) :
    LoopFollows cfg (treat cfg s k >>= afterTreat cfg n) (.job s k) := by
  unfold LoopFollows
  rw [Iteration.begin_eq_settle (treat_ne s k)]
  refine Iteration.settle_follows (d := fun _ _ => True) rfl ?_
  unfold Phase.body treat
  simp only [sat_bind]
  refine .of_forall (fun _ _ => trivial) fun tracked _ => ?_
  cases tracked
  case false =>
    rintro _ ⟨⟩
    exact hl _
  case true =>
    simp only [if_true, sat_bind]
    refine .of_forall (fun _ _ => trivial) fun s _ => ?_
    rintro _ ⟨⟩
    exact hl _

theorem await_follows {addrs : List Key} {s : Schedule}
    (hl : ∀ s, LoopFollows cfg (recheckLoop cfg n s) (.head s)) :
    LoopFollows cfg (await cfg s >>= afterAwait cfg n) (.enrolled addrs s) := by
  unfold LoopFollows
  rw [Iteration.begin_eq_settle (await_ne s)]
  refine Iteration.settle_follows (d := fun _ => Op.IsWait) rfl ?_
  refine (await_next s).mono fun _ _ h => ?_
  rintro _ rfl
  cases h
  case head => exact hl s
  case job  => exact treat_follows hl

theorem recheckLoop_follows (n : Nat) (s : Schedule) : LoopFollows cfg (recheckLoop cfg n s) (.head s) := by
  induction n generalizing s
  case zero => exact ⟨nofun, fun r => r.elim⟩
  case succ n hi =>
    rw [recheckLoop_succ]
    refine Iteration.settle_follows (d := fun _ _ => True) (p := enrolment cfg s) (k := afterEnrolment cfg n) rfl ?_
    unfold enrolment
    simp only [sat_bind, Async.sat_env, Async.sat_pool]
    refine ⟨trivial, fun now => ⟨trivial, fun addrs => ?_⟩⟩
    refine .of_forall (fun _ _ => trivial) fun s _ => ?_
    rintro _ ⟨⟩
    exact await_follows hi

-- The loop that is observed for finitely many iterations does what its phases do, one after the other.
theorem rechecker_follows (n : Nat) : LoopFollows cfg (rechecker cfg n) .start :=
  ⟨nofun, fun now => ⟨_, .event, recheckLoop_follows n (.start now)⟩⟩

theorem rechecker_runs {tr : Trace Effects} {q : Async Unit} (h : (rechecker cfg n).Runs tr q) :
    ∃ i, Iteration.Runs (Phase.body cfg) .start tr i ∧ q.Follows (Iteration.Moves (Phase.body cfg)) (· = none) i :=
  Iteration.Runs.follow .refl (rechecker_follows n) h

end Following

end Scheduler
