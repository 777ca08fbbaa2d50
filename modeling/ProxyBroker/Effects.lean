import ProxyBroker.Pool.State
import ProxyBroker.Resumption.Monitor

open Pool

-- Who hands a proxy to the pool: the task that had leased that very proxy, or anyone else.
inductive Giver
  | holder | outsider
  deriving DecidableEq

-- The operations on a `Pool` that are atomic: either a single critical section of one of its mutexes,
-- or a single access to one of its atomics or its `Notify`. Evicting a proxy only counts it (and logs
-- its address).
inductive PoolOp
  | notified
  | park
  | notifyWaiters
  | loadExhausted
  | storeExhausted
  | pin (k : ClientKey)
  | recordSession (k : ClientKey) (a : Key)
  | loadCursor
  | bumpCursor
  | select (ctx : SelectCtx)
  | push (g : Giver) (e : Pooled)
  | evict (p : Proxy)
  | add (g : Giver) (p : Proxy)
  | remove (k : Key)
  | len
  | addrs
  | tryGet (scheme : Scheme) (country : Option Str)
  | bumpRotations

def PoolOp.Ret : PoolOp → Type
  | loadExhausted => Bool
  | pin _         => Option Key
  | loadCursor    => UInt64
  | select _      => Option Proxy
  | remove _      => Bool
  | len           => Nat
  | addrs         => List Key
  | tryGet ..     => Option Proxy
  | _             => Unit

-- The purpose of a connection to a proxy.
inductive Dial
  | relay | probe
  deriving DecidableEq

-- Whether a connection to a proxy is still being negotiated.
inductive Phase
  | negotiation | exchange
  deriving DecidableEq

inductive SocksDst
  | ip (a : IpAddr)
  | host (h : Str)
  deriving DecidableEq

-- The operations on sockets. All of them can be awaited for an arbitrary amount of time. At any time,
-- a task has at most one connection to a proxy.
inductive NetOp
  | resolve (host : Str)
  | clientRead (max : Nat)
  | clientWrite (bs : Bytes)
  | dial (d : Dial) (k : Key)
  | upWrite (ph : Phase) (bs : Bytes)
  | upRead (ph : Phase) (max : Nat)
  | socks4 (dst : IpAddr) (port : UInt16)
  | socks5 (dst : SocksDst) (port : UInt16) (creds : Option Credentials)
  | tls (host : Str)
  | splice

-- An empty read is the end of the stream. More than what was asked for is never read.
inductive ReadResult
  | data (bs : Bytes)
  | error
  | timedOut

-- A write that does not succeed can still have delivered some of the first bytes.
inductive WriteResult
  | done
  | failed (n : Nat)
  | timedOut (n : Nat)

inductive DialResult
  | ok | failed | timedOut

-- How often the handshakes of third-party code end.
inductive HandshakeResult
  | ok | failed | timedOut

-- What `copy_bidirectional` has transferred in either direction by the time it ends.
structure Spliced where
  toClient   : Bytes
  toUpstream : Bytes
  ok         : Bool

def NetOp.Ret : NetOp → Type
  | resolve _                    => Option IpAddr
  | clientRead _ | upRead ..     => ReadResult
  | clientWrite _ | upWrite ..   => WriteResult
  | dial ..                      => DialResult
  | socks4 .. | socks5 .. | tls _ => HandshakeResult
  | splice                       => Spliced

inductive HistoryOp
  | record (k v : Str)
  | get (k : Str)

def HistoryOp.Ret : HistoryOp → Type
  | record .. => Unit
  | get _     => Option Str

-- What a check has found out about a proxy.
structure Checked where
  working       : Bool
  types         : Proto → Option (Option AnonLevel)
  requests      : UInt32
  errors        : ErrorCounts
  runtimes      : List ℚ
  probeRuntimes : List ℚ
  caps          : Caps
  trust         : List TrustSignal

-- The remaining surroundings of a task: the clock, which `bench d` reads as well, namely for the end of a duration `d`
-- for which a proxy is going to be benched, the stream of proxies that feeds a pool, and what else the re-check loop
-- interacts with. The operations `never` and `panic` are not answered. The latter ends the task.
inductive EnvOp
  | now
  | bench (d : Duration)
  | nextProxy
  | sleep (due : Instant)
  | jitter (base : Duration)
  | tie (n : Nat)
  | check (p : Proxy)
  | upsert (p : Proxy)
  | never
  | panic

-- A `sleep` is answered with whether the task was cancelled instead.
def EnvOp.Ret : EnvOp → Type
  | now       => Instant
  | bench _   => Instant
  | nextProxy => Option Proxy
  | sleep _   => Bool
  | jitter _  => Duration
  | tie _     => Nat
  | check _   => Checked
  | upsert _  => Unit
  | never     => Empty
  | panic     => Empty

inductive Op
  | pool (o : PoolOp)
  | net (o : NetOp)
  | history (o : HistoryOp)
  | env (o : EnvOp)

def Op.Ret : Op → Type
  | pool o    => o.Ret
  | net o     => o.Ret
  | history o => o.Ret
  | env o     => o.Ret

abbrev Effects : Signature where
  Op  := Op
  Ret := Op.Ret

abbrev Async := Prog Effects

def Op.isPanic : Op → Bool
  | env .panic => true
  | _          => false

-- The points at which a task can be suspended, and hence at which its future can be dropped.
def Op.IsAwait : Op → Prop
  | pool .park | net _ | env .nextProxy | env (.sleep _) | env (.check _) | env .never => True
  | _                                                                                  => False

namespace Prog

variable {α : Type}

def panicked : Prog Effects α → Bool
  | ret _    => false
  | call o _ => o.isPanic

-- A task that has either returned or panicked.
def isOver : Prog Effects α → Bool
  | ret _    => true
  | call o _ => o.isPanic

end Prog

namespace Async

def pool (o : PoolOp) : Async o.Ret :=
  Prog.perform (S := Effects) (Op.pool o)

-- An operation on a pool of which the answer is disregarded.
def exec (o : PoolOp) : Async Unit := do
  let _ ← pool o

def net (o : NetOp) : Async o.Ret :=
  Prog.perform (S := Effects) (Op.net o)

def history (o : HistoryOp) : Async o.Ret :=
  Prog.perform (S := Effects) (Op.history o)

def env (o : EnvOp) : Async o.Ret :=
  Prog.perform (S := Effects) (Op.env o)

def when (b : Prop) [Decidable b] (p : Async Unit) : Async Unit :=
  if b then p else pure ()

def never {α : Type} : Async α :=
  Prog.call (S := Effects) (Op.env .never) Empty.elim

def panic {α : Type} : Async α :=
  Prog.call (S := Effects) (Op.env .panic) Empty.elim

open Prog

section Uses

variable {P : Effects.Op → Prop}

@[simp]
theorem uses_pool (o : PoolOp) : Uses P (Async.pool o) ↔ P (.pool o) :=
  Uses.perform_iff (S := Effects) _

@[simp]
theorem uses_exec (o : PoolOp) : Uses P (exec o) ↔ P (.pool o) :=
  Uses.perform_iff (S := Effects) _

@[simp]
theorem uses_net (o : NetOp) : Uses P (Async.net o) ↔ P (.net o) :=
  Uses.perform_iff (S := Effects) _

@[simp]
theorem uses_history (o : HistoryOp) : Uses P (Async.history o) ↔ P (.history o) :=
  Uses.perform_iff (S := Effects) _

@[simp]
theorem uses_env (o : EnvOp) : Uses P (Async.env o) ↔ P (.env o) :=
  Uses.perform_iff (S := Effects) _

theorem uses_when {b : Prop} [Decidable b] {p : Async Unit} (h : p.Uses P) : (when b p).Uses P := by
  unfold when
  split
  · exact h
  · trivial

@[simp]
theorem uses_never {α : Type} : Uses P (never : Async α) ↔ P (.env .never) :=
  ⟨And.left, fun h => ⟨h, fun r => r.elim⟩⟩

@[simp]
theorem uses_panic {α : Type} : Uses P (panic : Async α) ↔ P (.env .panic) :=
  ⟨And.left, fun h => ⟨h, fun r => r.elim⟩⟩

end Uses

section Sat

variable {M : Type} {m : Monitor Effects M} {s : M}

@[simp]
theorem sat_pool (o : PoolOp) (post : o.Ret → M → Prop) :
    Sat m (Async.pool o) post s ↔ m.demand s (.pool o) ∧ ∀ r, post r (m.next s ⟨.pool o, r⟩) :=
  Iff.rfl

@[simp]
theorem sat_exec (o : PoolOp) (post : Unit → M → Prop) :
    Sat m (exec o) post s ↔ m.demand s (.pool o) ∧ ∀ r, post () (m.next s ⟨.pool o, r⟩) :=
  Iff.rfl

@[simp]
theorem sat_net (o : NetOp) (post : o.Ret → M → Prop) :
    Sat m (Async.net o) post s ↔ m.demand s (.net o) ∧ ∀ r, post r (m.next s ⟨.net o, r⟩) :=
  Iff.rfl

@[simp]
theorem sat_history (o : HistoryOp) (post : o.Ret → M → Prop) :
    Sat m (Async.history o) post s ↔
    m.demand s (.history o) ∧ ∀ r, post r (m.next s ⟨.history o, r⟩) :=
  Iff.rfl

@[simp]
theorem sat_env (o : EnvOp) (post : o.Ret → M → Prop) :
    Sat m (Async.env o) post s ↔ m.demand s (.env o) ∧ ∀ r, post r (m.next s ⟨.env o, r⟩) :=
  Iff.rfl

theorem sat_when {b : Prop} [Decidable b] {p : Async Unit} {post : Unit → M → Prop}
    (hp : Sat m p post s) (hs : post () s) : Sat m (when b p) post s := by
  unfold when
  split
  · exact hp
  · exact hs

@[simp]
theorem sat_never {α : Type} (post : α → M → Prop) :
    Sat m (never : Async α) post s ↔ m.demand s (.env .never) :=
  ⟨And.left, fun h => ⟨h, fun r => r.elim⟩⟩

@[simp]
theorem sat_panic {α : Type} (post : α → M → Prop) :
    Sat m (panic : Async α) post s ↔ m.demand s (.env .panic) :=
  ⟨And.left, fun h => ⟨h, fun r => r.elim⟩⟩

end Sat
end Async
