import ProxyBroker.Pool.Program

-- The loop that re-checks the proxies of a pool.
namespace Scheduler

structure RecheckConfig where
  minInterval   : Duration
  maxInterval   : Duration
  ratePerSec    : ℚ
  decayHalflife : Duration
  -- The function `0.5f64.powf`, whose values are not rational in general.
  halving       : ℚ → ℚ

def asSecs (d : Duration) : ℚ :=
  d / 10 ^ 9

def fromSecs (x : ℚ) : Duration :=
  (roundHalfEven (x * 10 ^ 9)).toNat

def clamp (x : ℚ) : ℚ :=
  max 0 (min 1 x)

def nextInterval (ewma : ℚ) (cfg : RecheckConfig) : Duration :=
  let min := asSecs cfg.minInterval
  let max := asSecs cfg.maxInterval
  fromSecs (min + clamp ewma * (max - min))

def decayedScore (ewma latency : ℚ) (age : Duration) (cfg : RecheckConfig) : ℚ :=
  let base := clamp ewma / (1 + max latency 0)
  let hl := asSecs cfg.decayHalflife
  let decay := if 0 < hl then cfg.halving (asSecs age / hl) else 1
  base * decay

def evictFloor : ℚ := 2 / 100

def shouldRetry (ewma latency : ℚ) (age : Duration) (cfg : RecheckConfig) : Bool :=
  evictFloor ≤ decayedScore ewma latency age cfg

structure Scheduled where
  due : Instant
  key : Key
  deriving DecidableEq

-- The bookkeeping of the loop. The order of the heap's entries does not mean anything.
structure Schedule where
  heap      : List Scheduled
  ewma      : Key → Option ℚ
  lastOk    : Key → Option Instant
  retrying  : Key → Bool
  nextStart : Instant

namespace Schedule

def start (now : Instant) : Schedule where
  heap      := []
  ewma      := fun _ => none
  lastOk    := fun _ => none
  retrying  := fun _ => false
  nextStart := now

def soonest (s : Schedule) : Option Instant :=
  (s.heap.map Scheduled.due).min?

-- Which one of several soonest entries is at the top of the heap is up to `tie`.
def pop (s : Schedule) (tie : Nat) : Option (Scheduled × Schedule) :=
  let candidates := s.heap.filter fun e => some e.due = s.soonest
  candidates[tie % candidates.length]?.map fun e => (e, { s with heap := s.heap.erase e })

def push (s : Schedule) (due : Instant) (k : Key) : Schedule :=
  { s with heap := ⟨due, k⟩ :: s.heap }

def enrolled (s : Schedule) (now : Instant) (k : Key) : Schedule :=
  { s with
    ewma   := Function.update s.ewma k (some 1)
    lastOk := Function.update s.lastOk k (some now) }

def forget (s : Schedule) (k : Key) : Schedule :=
  { s with
    ewma   := Function.update s.ewma k none
    lastOk := Function.update s.lastOk k none }

def setRetrying (s : Schedule) (k : Key) (b : Bool) : Schedule :=
  { s with retrying := Function.update s.retrying k b }

-- The rolling success rate after a sample, which becomes the tracked one.
def fold (s : Schedule) (k : Key) (working : Bool) : ℚ × Schedule :=
  let e := 3 / 10 * (if working then 1 else 0) + 7 / 10 * (s.ewma k).getD 1
  (e, { s with ewma := Function.update s.ewma k (some e) })

end Schedule

-- The proxy that a check leaves behind. Its address, credentials and location are not touched.
def afterCheck (p : Proxy) (r : Checked) : Proxy :=
  { p with
    types         := r.types
    requests      := r.requests
    errors        := r.errors
    runtimes      := r.runtimes
    probeRuntimes := r.probeRuntimes
    caps          := r.caps
    trust         := r.trust }

variable (cfg : RecheckConfig)

def enroll (now : Instant) : List Key → Schedule → Async Schedule
  | [], s      => return s
  | k :: ks, s => do
    match s.ewma k with
    | some _ => enroll now ks s
    | none   =>
      let j : Duration := ← Async.env (.jitter cfg.minInterval)
      enroll now ks <| (s.enrolled now k).push (now + j) k

-- Whether the address of a job is still to be checked.
def isTracked (s : Schedule) (k : Key) : Async Bool := do
  if s.retrying k then return true
  else
    let addrs : List Key := ← Async.pool .addrs
    return k ∈ addrs

def recheck (s : Schedule) (k : Key) : Async Schedule := do
  let fresh := Proxy.new k.host k.port ∅
  let r : Checked := ← Async.env (.check fresh)
  let proxy := afterCheck fresh r
  let _ ← Async.env (.upsert proxy)
  let (e, s) := s.fold k r.working
  let now : Instant := ← Async.env .now
  let j : Duration := ← Async.env (.jitter cfg.minInterval)
  let nextDue := now + nextInterval e cfg + j
  if r.working then
    let s := { s with lastOk := Function.update s.lastOk k (some now) }.setRetrying k false
    Async.exec (.add .outsider proxy)
    return s.push nextDue k
  else
    let _ ← Pool.remove k
    let age := now - (s.lastOk k).getD now
    if shouldRetry e proxy.avgRespTime age cfg then
      return (s.setRetrying k true).push nextDue k
    else
      return (s.forget k).setRetrying k false

-- The loop of `spawn_rechecker`, observed for `fuel` iterations.
def recheckLoop : Nat → Schedule → Async Unit
  | 0, _        => Async.never
  | fuel + 1, s => do
    let now : Instant := ← Async.env .now
    let addrs : List Key := ← Async.pool .addrs
    let s ← enroll cfg now addrs s
    match s.soonest with
    | none =>
      let t : Instant := ← Async.env .now
      let cancelled : Bool := ← Async.env (.sleep (t + cfg.minInterval))
      if cancelled then return else recheckLoop fuel s
    | some due =>
      let t : Instant := ← Async.env .now
      let cancelled : Bool := ← Async.env (.sleep (min due (t + cfg.minInterval)))
      if cancelled then return
      else
        let t : Instant := ← Async.env .now
        if t < due then recheckLoop fuel s
        else
          let t : Instant := ← Async.env .now
          let startAt := max s.nextStart t
          let cancelled : Bool := ← Async.env (.sleep startAt)
          if cancelled then return
          else
            let s := { s with nextStart := startAt + fromSecs (1 / max cfg.ratePerSec (1 / 1000)) }
            let tie : Nat := ← Async.env (.tie s.heap.length)
            match s.pop tie with
            | none          => Async.never
            | some (job, s) =>
              if ← isTracked s job.key then
                let s ← recheck cfg s job.key
                recheckLoop fuel s
              else
                recheckLoop fuel (s.forget job.key)

def rechecker (fuel : Nat) : Async Unit := do
  let now : Instant := ← Async.env .now
  recheckLoop cfg fuel (.start now)

end Scheduler
