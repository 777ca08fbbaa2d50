import ProxyBroker.Checker
import ProxyBroker.Stats
import ProxyBroker.Resumption.Nursery

structure Capabilities where
  cookieEcho  : Bool
  refererEcho : Bool
  connect25   : Bool
  deriving DecidableEq

def Proxy.capabilities (p : Proxy) : Capabilities where
  cookieEcho  := p.caps.cookieEcho
  refererEcho := p.caps.refererEcho
  connect25   := p.hasType .connect25

structure CapsFilter where
  cookie    : Bool
  referer   : Bool
  connect25 : Bool
  trusted   : Bool

def CapsFilter.passes (f : CapsFilter) (p : Proxy) : Bool :=
  let c := p.capabilities
  (!f.cookie || c.cookieEcho) && (!f.referer || c.refererEcho) && (!f.connect25 || c.connect25) &&
    (!f.trusted || p.trust = [])

-- The pipeline that checks the proxies of a source concurrently.
namespace CheckStream

-- The arguments of `check_stream`, of which `source` lists what the stream yields and `onChecked` tells
-- whether there is an observer. The network's answers to the check of the `i`-th proxy are `world i`.
structure Params where
  source    : List Proxy
  checker   : Checker
  maxConn   : Nat
  limit     : Option Nat
  caps      : CapsFilter
  onChecked : Bool
  world     : Nat → Checker.Answers

-- The largest number of permits that a `Semaphore` can have, `usize::MAX >> 3`.
def maxPermits : Nat := 2 ^ 61 - 1

def channelCapacity : Nat := 256

-- The operations of the dispatcher and of the tasks that it spawns. The operation `semaphore` creates the
-- semaphore, which panics if there are too many permits. The operation `check` is the whole `select!`, and it
-- is answered with `none` if the cancellation is noticed before the check completes. The operation `release`
-- drops the permit of a task and removes the task from the tracker.
inductive Op
  | semaphore (permits : Nat)
  | next
  | isCancelled
  | loadSent
  | acquire
  | spawn (i : Nat) (p : Proxy)
  | wait
  | check (i : Nat) (p : Proxy)
  | record (p : Proxy)
  | observe (p : Proxy)
  | fetchAdd
  | send (p : Proxy)
  | cancel
  | release

def Op.Ret : Op → Type
  | isCancelled => Bool
  | loadSent    => Nat
  | check ..    => Option (Bool × Proxy)
  | fetchAdd    => Nat
  | send _      => Bool
  | _           => Unit

abbrev Ops : Signature where
  Op  := Op
  Ret := Op.Ret

def perform (o : Op) : Prog Ops o.Ret :=
  Prog.perform (S := Ops) o

def exec (o : Op) : Prog Ops Unit := do
  let _ ← perform o

variable (c : Params)

def isLimitReached : Prog Ops Bool :=
  match c.limit with
  | none   => return false
  | some l => do
    let sent : Nat ← perform .loadSent
    return l ≤ sent

-- The task that checks a proxy.
def check (i : Nat) (p : Proxy) : Prog Ops Unit := do
  let r : Option (Bool × Proxy) ← perform (.check i p)
  match r with
  | none              => exec .release
  | some (working, p) =>
    exec (.record p)
    if c.onChecked then exec (.observe p)
    if working && c.caps.passes p then
      let n : Nat ← perform .fetchAdd
      if c.limit.any (· ≤ n) then exec .cancel
      else
        exec (.send p)
        if c.limit.any (· ≤ n + 1) then exec .cancel
    exec .release

def dispatch (i : Nat) : List Proxy → Prog Ops Unit
  | []          => do
    exec .next
    exec .wait
  | p :: source => do
    exec .next
    let cancelled : Bool ← perform .isCancelled
    if cancelled then exec .wait
    else if ← isLimitReached c then exec .wait
    else
      exec .acquire
      exec (.spawn i p)
      dispatch (i + 1) source

def checkStream : Prog Ops Unit := do
  exec (.semaphore c.maxConn)
  dispatch c 0 c.source

-- What the dispatcher and the tasks share: the semaphore, the tracker, the counter, the token, the channel
-- and the collector. The consumer can have dropped the stream, which closes the channel before it cancels
-- the token. Counters do not overflow before 2⁶⁴ proxies have been checked.
structure State where
  permits   : Nat
  running   : Nat
  sent      : Nat
  cancelled : Bool
  closed    : Bool
  queue     : List Proxy
  received  : List Proxy
  stats     : StatsCollector

def State.initial : State where
  permits   := 0
  running   := 0
  sent      := 0
  cancelled := false
  closed    := false
  queue     := []
  received  := []
  stats     := .initial

def outcome (i : Nat) (p : Proxy) : Bool × Proxy :=
  c.checker.check (c.world i) p

-- The proxies that are worth emitting, together with their positions in the source.
def yields : List (Nat × Proxy) :=
  c.source.zipIdx.filterMap fun (p, i) =>
    let (working, q) := outcome c i p
    if working && c.caps.passes q then some (i, q) else none

-- How operations are answered. An operation that panics is not answered. A task can only be aborted by a
-- cancellation, and a full channel makes its senders wait unless the channel is closed.
inductive Answers (c : Params) : State → Event Ops → State → Prop
  | semaphore {s : State} {n : Nat} :
    n ≤ maxPermits → Answers c s ⟨.semaphore n, ()⟩ { s with permits := n }
  | next {s : State} : Answers c s ⟨.next, ()⟩ s
  | isCancelled {s : State} {b : Bool} : s.cancelled = b → Answers c s ⟨.isCancelled, b⟩ s
  | loadSent {s : State} {n : Nat} : s.sent = n → Answers c s ⟨.loadSent, n⟩ s
  | acquire {s : State} {n : Nat} :
    s.permits = n + 1 → Answers c s ⟨.acquire, ()⟩ { s with permits := n }
  | spawn {s : State} {i : Nat} {p : Proxy} :
    Answers c s ⟨.spawn i p, ()⟩ { s with running := s.running + 1 }
  | wait {s : State} : s.running = 0 → Answers c s ⟨.wait, ()⟩ s
  | aborted {s : State} {i : Nat} {p : Proxy} : s.cancelled → Answers c s ⟨.check i p, none⟩ s
  | checked {s : State} {i : Nat} {p : Proxy} {r : Bool × Proxy} :
    outcome c i p = r → Answers c s ⟨.check i p, some r⟩ s
  | record {s : State} {p : Proxy} : Answers c s ⟨.record p, ()⟩ { s with stats := s.stats.record p }
  | observe {s : State} {p : Proxy} : Answers c s ⟨.observe p, ()⟩ s
  | fetchAdd {s : State} {n : Nat} :
    s.sent = n → Answers c s ⟨.fetchAdd, n⟩ { s with sent := n + 1 }
  | sent {s : State} {p : Proxy} :
    s.closed = false → s.queue.length < channelCapacity →
    Answers c s ⟨.send p, true⟩ { s with queue := s.queue ++ [p] }
  | unsent {s : State} {p : Proxy} : s.closed → Answers c s ⟨.send p, false⟩ s
  | cancel {s : State} : Answers c s ⟨.cancel, ()⟩ { s with cancelled := true }
  | release {s : State} :
    Answers c s ⟨.release, ()⟩ { s with permits := s.permits + 1, running := s.running - 1 }

-- What the consumer of the stream does.
inductive Consumer : State → State → Prop
  | receive {s : State} {p : Proxy} {ps : List Proxy} :
    s.closed = false → s.queue = p :: ps →
    Consumer s { s with queue := ps, received := s.received ++ [p] }
  | drop {s : State} : Consumer s { s with closed := true, queue := [] }
  | cancel {s : State} : s.closed → Consumer s { s with cancelled := true }

section Log

-- What a task has achieved by an event: it has completed its check, it has recorded the proxy, it has shown
-- the proxy to the observer, it has reserved a slot, or it has emitted the proxy.

def completion : Event Ops → Option Proxy
  | ⟨.check .., r⟩ => Option.map Prod.snd r
  | _              => none

def recording : Event Ops → Option Proxy
  | ⟨.record p, _⟩ => p
  | _              => none

def observation : Event Ops → Option Proxy
  | ⟨.observe p, _⟩ => p
  | _               => none

def slot : Event Ops → Option Nat
  | ⟨.fetchAdd, n⟩ => some n
  | _              => none

def emission : Event Ops → Option Proxy
  | ⟨.send p, b⟩ => cond b (some p) none
  | _            => none

end Log

def spawned : Op → Option (Prog Ops Unit)
  | .spawn i p => check c i p
  | _          => none

def nursery : Nursery Ops State (Prog Ops Unit) (Prog Ops Unit) where
  machine := ⟨Answers c⟩
  main    := Prog.Performs
  task    := Prog.Performs
  starts  := spawned c
  outside := Consumer

def start : Nursery.Config State (Prog Ops Unit) (Prog Ops Unit) where
  shared := .initial
  main   := checkStream c
  tasks  := []

-- `Run c log x` means that the state `x` can be reached while `log` is what has been done.
abbrev Run :=
  (nursery c).Run (start c)

end CheckStream
