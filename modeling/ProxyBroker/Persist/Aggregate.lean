import ProxyBroker.Persist.Backends

namespace Persist

-- What is to be remembered of an address, where all numbers are exact.
@[ext]
structure Aggregate where
  types        : Types
  requests     : Nat
  errors       : Nat
  ewmaSuccess  : ℚ
  avgLatency   : ℚ
  uptimeChecks : Nat

namespace Aggregate

def first (p : Proxy) : Aggregate where
  types        := p.types
  requests     := p.requests.toNat
  errors       := (errorsTotal p).toNat
  ewmaSuccess  := sample p
  avgLatency   := p.avgRespTime
  uptimeChecks := working p

-- A check without a result does not change the remembered protocols and latency.
def next (a : Aggregate) (p : Proxy) : Aggregate where
  types        := if p.types = Types.empty then a.types else p.types
  requests     := a.requests + p.requests.toNat
  errors       := a.errors + (errorsTotal p).toNat
  ewmaSuccess  := 3 / 10 * sample p + 7 / 10 * a.ewmaSuccess
  avgLatency   := if 0 < p.avgRespTime then 3 / 10 * p.avgRespTime + 7 / 10 * a.avgLatency else a.avgLatency
  uptimeChecks := a.uptimeChecks + working p

def step : Option Aggregate → Proxy → Aggregate
  | none, p   => first p
  | some a, p => a.next p

-- Counters that stop at the largest number of 32 bits.
def saturated (a : Aggregate) : Aggregate :=
  { a with
    requests := min a.requests (2 ^ 32 - 1)
    errors   := min a.errors (2 ^ 32 - 1) }

end Aggregate

-- The upserts for an address.
def history (k : Key) (ps : List Proxy) : List Proxy :=
  ps.filter (·.key = k)

def exact (ps : List Proxy) (k : Key) : Option Aggregate :=
  Table.rowOf Aggregate.step none (history k ps)

section Views

variable (S : Serde)

def Row.aggregate (r : Row) : Aggregate where
  types        := typesFromJson S r.types
  requests     := r.requests
  errors       := r.errors
  ewmaSuccess  := r.ewmaSuccess
  avgLatency   := r.avgLatency
  uptimeChecks := r.uptimeChecks

def Record.aggregate (r : Record) : Aggregate where
  types        := r.types
  requests     := r.requests.toNat
  errors       := r.errors.toNat
  ewmaSuccess  := r.ewmaSuccess
  avgLatency   := r.avgLatency
  uptimeChecks := r.uptimeChecks

def Hash.aggregate (h : Hash) : Aggregate where
  types        := typesFromJson S h.types
  requests     := h.requests
  errors       := h.errors
  ewmaSuccess  := h.ewmaSuccess
  avgLatency   := h.avgLatency
  uptimeChecks := h.uptimeChecks

-- What a store holds for an address.
def Backend.aggregate : (b : Backend) → b.State → Key → Option Aggregate
  | sqlite, (s : SqliteStore), k => (s.lookup (SqliteStore.rowKey k)).map (Row.aggregate S)
  | memory, (s : MemoryStore), k => (s.lookup k).map Record.aggregate
  | redis, (s : RedisStore), k   => (s.hashes.lookup (RedisStore.proxyKey k)).map (Hash.aggregate S)

-- The view of the exact numbers that a store offers.
def Backend.view : Backend → Aggregate → Aggregate
  | memory => Aggregate.saturated
  | _      => id

-- How a counter is restored.
def Backend.count : Backend → Nat → UInt32
  | sqlite, n => .ofNat n
  | memory, n => .ofNat (min n (2 ^ 32 - 1))
  | redis, n  => RedisStore.parseU32 n

def Backend.restored (b : Backend) (k : Key) (a : Aggregate) : Proxy :=
  (Proxy.restored k.host k.port a.types (b.count a.requests) (b.count a.errors) a.avgLatency).withEwma (some a.ewmaSuccess)

end Views

end Persist
