import ProxyBroker.Negotiator

open Negotiator

-- The methods of `Pool` as the sequences of atomic operations that they perform.
namespace Pool

variable (c : Config)

-- The session that a client is pinned to.
def pinned (key : ClientKey) : Async (Option Key) := do
  if c.strategy = .sticky then
    let pin : Option Key := ← Async.pool (.pin key)
    return pin
  else
    return none

def trySelect (scheme : Scheme) (key : ClientKey) : Async (Option Proxy) := do
  let sticky ← pinned c key
  let cursor : UInt64 := ← Async.pool .loadCursor
  let now : Instant := ← Async.env .now
  let ctx : SelectCtx := {
    scheme           := scheme
    strategy         := c.strategy
    sticky           := sticky
    roundRobinCursor := cursor
    now              := now
    preferConnect    := c.preferConnect
  }
  match (← Async.pool (.select ctx) : Option Proxy) with
  | none        => pure none
  | some chosen =>
    Async.when (c.strategy = .roundRobin) <| Async.exec .bumpCursor
    Async.when (c.strategy = .sticky) <| Async.exec (.recordSession key chosen.key)
    pure (some chosen)

def putInner (p : Proxy) (blockedUntil : Option Instant) : Async Unit := do
  if unhealthy c p then
    Async.exec (.evict p)
  else
    Async.exec (.push .holder ⟨p, blockedUntil⟩)
    Async.exec .notifyWaiters

def putOk (p : Proxy) : Async Unit :=
  putInner c p none

-- The sum of a point in time and a duration panics if it cannot be represented.
def putFailed (p : Proxy) : Async Unit := do
  let now : Instant := ← Async.env (.bench c.failTimeout)
  match Instant.checkedAdd now c.failTimeout with
  | some deadline => putInner c p (some deadline)
  | none          => Async.panic

def verifyLive (p : Proxy) : Async Bool :=
  probeTunnel p.key ⟨c.verifyTarget.1, none, c.verifyTarget.2⟩ p.auth

def verifyMaxAttempts : Nat := 8

-- The loop of `get`. The fuel bounds the number of its iterations, since a task that waits for the
-- importer can be woken up arbitrarily often. A run of the loop is a run with enough fuel.
def getLoop (scheme : Scheme) (key : ClientKey) : Nat → Nat → Async (Option Proxy)
  | 0, _                      => Async.never
  | fuel + 1, verifyAttempts => do
    Async.exec .notified
    match ← trySelect c scheme key with
    | some proxy =>
      if c.verifyOnLease.isSome then
        if ← verifyLive c proxy then
          pure (some proxy)
        else
          putFailed c proxy
          if verifyMaxAttempts ≤ verifyAttempts + 1 then pure none
          else getLoop scheme key fuel (verifyAttempts + 1)
      else
        pure (some proxy)
    | none =>
      let exhausted : Bool := ← Async.pool .loadExhausted
      if exhausted then
        -- One last look, in case a proxy arrived just before exhaustion was set.
        trySelect c scheme key
      else
        Async.exec .park
        getLoop scheme key fuel verifyAttempts

def get (fuel : Nat) (scheme : Scheme) (key : ClientKey) : Async (Option Proxy) :=
  getLoop c scheme key fuel 0

def remove (k : Key) : Async Bool := do
  let removed : Bool := ← Async.pool (.remove k)
  return removed

-- The loop of `wait_ready`, with a bound on the number of its iterations.
def waitReadyLoop (n : Nat) : Nat → Async Unit
  | 0        => Async.never
  | fuel + 1 => do
    Async.exec .notified
    let len : Nat := ← Async.pool .len
    if n ≤ len then
      return
    else
      let exhausted : Bool := ← Async.pool .loadExhausted
      if exhausted then
        return
      else
        Async.exec .park
        waitReadyLoop n fuel

def waitReady (fuel n : Nat) : Async Unit := do
  if n = 0 then return else waitReadyLoop n fuel

-- The task that `spawn` starts, observed until it has been handed `fuel` proxies.
def importer : Nat → Async Unit
  | 0        => Async.never
  | fuel + 1 => do
    match (← Async.env .nextProxy : Option Proxy) with
    | some proxy =>
      Async.when (countryOk c proxy) do
        Async.exec (.push .outsider ⟨proxy, none⟩)
        Async.exec .notifyWaiters
      importer fuel
    | none =>
      Async.exec .storeExhausted
      Async.exec .notifyWaiters

end Pool
