import ProxyBroker.Pool.Machine
import ProxyBroker.Resumption.Loop

-- Whether a program has not returned yet.
def Prog.isRunning {S : Signature} {α : Type} : Prog S α → Bool
  | ret _   => false
  | call .. => true

-- The task that `serve` spawns, which hands its clients over to tasks of their own.
namespace AcceptLoop

structure Params where
  config     : Pool.Config
  maxClients : Nat
  minQueue   : Nat
  auth       : Option Str
  fuel       : Nat

-- What becomes of the call of `accept`.
inductive Accepted
  | client (peer : IpAddr)
  | failed
  | cancelled

-- The operations of the loop and of the tasks next to it. The operation `poll` enters the first `select!`, and it is
-- answered with whether the cancellation is noticed right away. The operation `race o` is an operation of the future
-- that the cancellation competes with, and it is answered with `none` if this future is dropped instead. The
-- operations `acquire` and `accept` are the other two `select!`s. The operation `release` drops a permit.
inductive Op
  | poll
  | race (o : Effects.Op)
  | acquire
  | accept
  | spawn (peer : IpAddr)
  | release
  | task (o : Effects.Op)

def Op.Ret : Op → Type
  | poll    => Bool
  | race o  => Option o.Ret
  | acquire => Bool
  | accept  => Accepted
  | task o  => o.Ret
  | _       => Unit

abbrev Ops : Signature where
  Op  := Op
  Ret := Op.Ret

def perform (o : Op) : Prog Ops o.Ret :=
  Prog.perform (S := Ops) o

def exec (o : Op) : Prog Ops Unit := do
  let _ ← perform o

-- A future that is dropped when the cancellation is noticed while it is suspended.
def race {α : Type} : Async α → Prog Ops (Option α)
  | .ret a    => .ret (some a)
  | .call o k => .call (.race o) fun (r : Option o.Ret) => r.elim (.ret none) fun r => race (k r)

-- The program of a task next to the loop. A task that panics is unwound.
def task {α : Type} : Async α → Prog Ops (Option α)
  | .ret a    => .ret (some a)
  | .call o k => if o.isPanic then .ret none else .call (.task o) fun r => task (k r)

-- A task that no one waits for.
def detached (p : Async Unit) : Prog Ops Unit := do
  let _ ← task p

variable (c : Params)

def ctx : Server.ConnCtx where
  config       := c.config
  expectedAuth := c.auth.map Server.AuthExpect.ofAuth
  fuel         := c.fuel

-- The task of a client, which owns a permit until it ends, be it by a panic.
def serveClient (peer : IpAddr) : Prog Ops Unit := do
  let _ ← task (Server.handleClient (ctx c) peer)
  exec .release

-- Whether the loop is about to wait for the pool, or for a client.
inductive Phase
  | gate | serving
  deriving DecidableEq

def gate : Prog Ops (Option Phase) := do
  let cancelled : Bool ← perform .poll
  if cancelled then return none
  else
    match ← race (Pool.waitReady c.fuel c.minQueue) with
    | none    => return none
    | some () => return some .serving

def afterAccept : Accepted → Prog Ops (Option Phase)
  | .client peer => do
    exec (.spawn peer)
    return some .serving
  | .failed      => do
    exec .release
    return some .serving
  | .cancelled   => do
    exec .release
    return none

def afterAcquire (acquired : Bool) : Prog Ops (Option Phase) :=
  if acquired then do
    let accepted : Accepted ← perform .accept
    afterAccept accepted
  else
    return none

def Phase.body : Phase → Prog Ops (Option Phase)
  | gate    => AcceptLoop.gate c
  | serving => do
    let acquired : Bool ← perform .acquire
    afterAcquire acquired

structure State where
  pool      : Pool.State
  permits   : Nat
  cancelled : Bool

-- How operations are answered. What the loop waits for can win even if the cancellation could be noticed.
inductive Answers : State → Event Ops → State → Prop
  | poll {s : State} {b : Bool} : (b → s.cancelled) → Answers s ⟨.poll, b⟩ s
  | race {s : State} {o : Effects.Op} {r : o.Ret} {p : Pool.State} :
    (Pool.machine c.config).answers s.pool ⟨o, r⟩ p → Answers s ⟨.race o, some r⟩ { s with pool := p }
  | dropped {s : State} {o : Effects.Op} : s.cancelled → o.IsAwait → Answers s ⟨.race o, none⟩ s
  | acquired {s : State} {n : Nat} : s.permits = n + 1 → Answers s ⟨.acquire, true⟩ { s with permits := n }
  | unacquired {s : State} : s.cancelled → Answers s ⟨.acquire, false⟩ s
  | client {s : State} {peer : IpAddr} : Answers s ⟨.accept, .client peer⟩ s
  | failed {s : State} : Answers s ⟨.accept, .failed⟩ s
  | cancelled {s : State} : s.cancelled → Answers s ⟨.accept, .cancelled⟩ s
  | spawn {s : State} {peer : IpAddr} : Answers s ⟨.spawn peer, ()⟩ s
  | release {s : State} : Answers s ⟨.release, ()⟩ { s with permits := s.permits + 1 }
  | task {s : State} {o : Effects.Op} {r : o.Ret} {p : Pool.State} :
    (Pool.machine c.config).answers s.pool ⟨o, r⟩ p → Answers s ⟨.task o, r⟩ { s with pool := p }

-- The handle of the server can be dropped at any time.
inductive Shutdown : State → State → Prop
  | intro {s : State} : Shutdown s { s with cancelled := true }

def spawned : Op → Option (Prog Ops Unit)
  | .spawn peer => serveClient c peer
  | _           => none

def nursery : Nursery Ops State (Option (Iteration Ops Phase)) (Prog Ops Unit) where
  machine := ⟨Answers c⟩
  main    := Iteration.Moves (Phase.body c)
  task    := Prog.Performs
  starts  := spawned c
  outside := Shutdown

-- The other tasks that work on the pool are there from the beginning.
def start (pool : Pool.State) (others : List (Async Unit)) :
    Nursery.Config State (Option (Iteration Ops Phase)) (Prog Ops Unit) where
  shared := ⟨pool, max c.maxClients 1, false⟩
  main   := Iteration.begin (Phase.body c) .gate
  tasks  := others.map detached

-- `Run c pool others log x` means that the state `x` can be reached while `log` is what has been done.
abbrev Run (pool : Pool.State) (others : List (Async Unit)) :=
  (nursery c).Run (start c pool others)

-- The tasks of the clients.
def clients (others : List (Async Unit)) (x : Nursery.Config State (Option (Iteration Ops Phase)) (Prog Ops Unit)) :
    List (Prog Ops Unit) :=
  x.tasks.drop others.length

-- How many clients are being served.
def busy (others : List (Async Unit)) (x : Nursery.Config State (Option (Iteration Ops Phase)) (Prog Ops Unit)) : Nat :=
  (clients others x).countP Prog.isRunning

-- The loop has got past its gate, and has not been left.
def IsServing (x : Nursery.Config State (Option (Iteration Ops Phase)) (Prog Ops Unit)) : Prop :=
  ∃ i, x.main = some i ∧ i.state = .serving

-- The client that a call of `accept` has yielded.
def arrival : Event Ops → Option IpAddr
  | ⟨.accept, .client peer⟩ => some peer
  | _                       => none

end AcceptLoop
