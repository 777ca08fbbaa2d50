import ProxyBroker.Objects.Proxy
import Mathlib.Order.Compare
import Mathlib.Data.List.Sort
import Mathlib.Data.List.Dedup

namespace Pool

inductive Strategy
  | best | roundRobin | random | sticky
  deriving DecidableEq

inductive ClientKey
  | ip (a : IpAddr)
  | header (v : Str)
  deriving DecidableEq

structure Config where
  maxTries         : Nat
  maxErrorRate     : ℚ
  maxRespTime      : ℚ
  minReq           : UInt32
  countries        : Option (Finset Str)
  strategy         : Strategy
  stickyHeader     : Option Str
  maxSessions      : Nat
  failTimeout      : Duration
  preferConnect    : Bool
  httpAllowedCodes : Option (List UInt16)
  verifyOnLease    : Option Duration
  verifyTarget     : Str × UInt16
  -- The tables behind `str::to_uppercase` are not part of the model.
  toUppercase      : Str → Str

def Config.default : Config where
  maxTries         := 3
  maxErrorRate     := 1 / 2
  maxRespTime      := 8
  minReq           := 5
  countries        := none
  strategy         := .best
  stickyHeader     := none
  maxSessions      := 10000
  failTimeout      := 30 * 10 ^ 9
  preferConnect    := false
  httpAllowedCodes := none
  verifyOnLease    := none
  verifyTarget     := ("1.1.1.1".toList, 443)
  toUppercase      := List.map Char.toUpper

structure Pooled where
  proxy        : Proxy
  blockedUntil : Option Instant
  deriving DecidableEq

-- The fields of `Pool` that change, and the state of the generator behind `Strategy.random`. A
-- `usize` has 64 bits.
structure State where
  state      : List Pooled
  sessions   : List (ClientKey × Key)
  roundRobin : UInt64
  exhausted  : Bool
  evictions  : Nat
  rotations  : Nat
  rng        : UInt64
  deriving DecidableEq

def countryOk (c : Config) (p : Proxy) : Bool :=
  match c.countries with
  | none     => true
  | some set => p.geo.any fun g => c.toUppercase g.code ∈ set

def State.fromProxies (c : Config) (proxies : List Proxy) : State where
  state      := proxies.filter (countryOk c) |>.map fun p => ⟨p, none⟩
  sessions   := []
  roundRobin := 0
  exhausted  := true
  evictions  := 0
  rotations  := 0
  rng        := 0x9E3779B97F4A7C15

def State.spawned : State where
  state      := []
  sessions   := []
  roundRobin := 0
  exhausted  := false
  evictions  := 0
  rotations  := 0
  rng        := 0x9E3779B97F4A7C15

structure SelectCtx where
  scheme           : Scheme
  strategy         : Strategy
  sticky           : Option Key
  roundRobinCursor : UInt64
  now              : Instant
  preferConnect    : Bool

section Selection

variable (pool : List Pooled)

def eligible (scheme : Scheme) (e : Pooled) : Bool :=
  scheme ∈ e.proxy.schemes

def isReady (now : Instant) (e : Pooled) : Bool :=
  e.blockedUntil.all (· ≤ now)

def tierOf (ctx : SelectCtx) (ready : Bool) : List Nat :=
  pool.zipIdx.filter (fun (e, _) => eligible ctx.scheme e)
    |>.filter (fun (e, _) => isReady ctx.now e = ready)
    |>.map Prod.snd

def hasConnect (i : Nat) : Bool :=
  pool[i]?.any (·.proxy.hasType .connect80)

def connectBiased (tier : List Nat) (prefer : Bool) : List Nat :=
  if !prefer then tier
  else
    let connect := tier.filter (hasConnect pool)
    if connect = [] then tier else connect

-- `Iterator::min_by`, which returns the first one of several minimal elements.
def minBy {α : Type} (compare : α → α → Ordering) : List α → Option α
  | []      => none
  | a :: as => some <| as.foldl (fun m b => if compare m b = .gt then b else m) a

def priorityOf (i : Nat) : ℚ × ℚ :=
  pool[i]?.elim (0, 0) (·.proxy.priority)

def bestByPriority (eligible : List Nat) (preferConnect : Bool) : Option Nat :=
  eligible |> minBy fun a b =>
    let (ae, at') := priorityOf pool a
    let (be, bt)  := priorityOf pool b
    let ac := (preferConnect && !hasConnect pool a).toNat
    let bc := (preferConnect && !hasConnect pool b).toNat
    (cmp ae be).then (cmp at' bt) |>.then (cmp ac bc)

-- The value of `rand` is what `next_rand` yields for the given bound.
def bestFor (ctx : SelectCtx) (rand : Nat → Nat) : Option Nat :=
  let ready := tierOf pool ctx true
  let tier := if ready = [] then tierOf pool ctx false else ready
  if tier = [] then none
  else match ctx.strategy with
    | .best => bestByPriority pool tier ctx.preferConnect
    | .roundRobin =>
      let pick := connectBiased pool tier ctx.preferConnect
      pick[ctx.roundRobinCursor.toNat % pick.length]?
    | .random =>
      let pick := connectBiased pool tier ctx.preferConnect
      pick[rand pick.length]?
    | .sticky =>
      let pinned := ctx.sticky.bind fun k => tier.find? fun i => pool[i]?.any (·.proxy.key = k)
      pinned.orElse fun _ => bestByPriority pool tier ctx.preferConnect

end Selection

def xorshift (x : UInt64) : UInt64 :=
  let x := x ^^^ (x <<< 13)
  let x := x ^^^ (x >>> 7)
  x ^^^ (x <<< 17)

def nextRand (rng : UInt64) (n : Nat) : Nat :=
  (xorshift rng).toNat % max n 1

-- `Vec::swap_remove`: the last element takes the place of the one that is removed.
def swapRemove {α : Type} (l : List α) (i : Nat) : List α :=
  match l.getLast? with
  | some x => (l.set i x).dropLast
  | none   => []

def unhealthy (c : Config) (p : Proxy) : Bool :=
  c.minReq ≤ p.requests && (c.maxErrorRate < p.errorRate || c.maxRespTime < p.avgRespTime)

namespace State

-- The critical section of `try_select`.
def select (s : State) (ctx : SelectCtx) : Option Proxy × State :=
  match bestFor s.state ctx (nextRand s.rng) with
  | none   => (none, s)
  | some i =>
    let rng := if ctx.strategy = .random then xorshift s.rng else s.rng
    (s.state[i]?.map (·.proxy), { s with state := swapRemove s.state i, rng := rng })

def pin (s : State) (k : ClientKey) : Option Key :=
  s.sessions.lookup k

-- The iteration order of a hash map is arbitrary, so `victim` may be the position of any session.
def recordSession (s : State) (c : Config) (k : ClientKey) (a : Key) (victim : Nat) : State :=
  let isNew := (s.sessions.lookup k).isNone
  let kept :=
    if c.maxSessions ≤ s.sessions.length && isNew
    then s.sessions.eraseIdx (victim % s.sessions.length)
    else s.sessions
  { s with sessions := (k, a) :: kept.filter (·.1 ≠ k) }

def push (s : State) (e : Pooled) : State :=
  { s with state := s.state ++ [e] }

def remove (s : State) (k : Key) : State :=
  { s with state := s.state.filter (·.proxy.key ≠ k) }

def add (s : State) (p : Proxy) : State :=
  if s.state.any (·.proxy.key = p.key) then s
  else s.push ⟨p, none⟩

-- The set is iterated in ascending order.
def addrs (s : State) : List Key :=
  (s.state.map (·.proxy.key)).dedup.insertionSort (·.toNat ≤ ·.toNat)

def tryGet (s : State) (c : Config) (scheme : Scheme) (country : Option Str) :
    Option Proxy × State :=
  let eligible :=
    s.state.zipIdx.filter (fun (e, _) => eligible scheme e)
      |>.filter (fun (e, _) => country.all fun cc =>
        e.proxy.geo.any fun g => Str.eqIgnoreAsciiCase g.code cc)
      |>.map Prod.snd
  match bestByPriority s.state eligible c.preferConnect with
  | none   => (none, s)
  | some i => (s.state[i]?.map (·.proxy), { s with state := s.state.eraseIdx i })

end State
end Pool
