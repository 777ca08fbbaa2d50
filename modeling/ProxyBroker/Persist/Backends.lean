import ProxyBroker.Persist.Types
import ProxyBroker.Keyed.Table
import ProxyBroker.Objects.IpParse

-- The three stores fold the outcomes of checks into one record for each address. The times at which
-- a proxy has been seen are never read, and are left out.
namespace Persist

-- `1.0` working, `0.0` not.
def sample (p : Proxy) : ℚ :=
  if p.isWorking then 1 else 0

def working (p : Proxy) : Nat :=
  if p.isWorking then 1 else 0

def errorsTotal (p : Proxy) : UInt32 :=
  p.errors.total

-- A row without its primary key. The sum of two integers that exceeds 64 bits is stored as a real.
structure Row where
  types        : Str
  requests     : Nat
  errors       : Nat
  ewmaSuccess  : ℚ
  avgLatency   : ℚ
  uptimeChecks : Nat

abbrev SqliteStore := Table (Str × Nat) Row

namespace SqliteStore

variable (S : Serde)

def rowKey (k : Key) : Str × Nat :=
  (k.host.display, k.port.toNat)

-- The row `excluded`.
def values (p : Proxy) : Row where
  types        := typesToJson S p.types
  requests     := p.requests.toNat
  errors       := (errorsTotal p).toNat
  ewmaSuccess  := sample p
  avgLatency   := p.avgRespTime
  uptimeChecks := working p

def onConflict (proxies excluded : Row) : Row where
  types        := if excluded.types ≠ "[]".toList then excluded.types else proxies.types
  requests     := proxies.requests + excluded.requests
  errors       := proxies.errors + excluded.errors
  ewmaSuccess  := 3 / 10 * excluded.ewmaSuccess + 7 / 10 * proxies.ewmaSuccess
  avgLatency   :=
    if excluded.avgLatency > 0 then 3 / 10 * excluded.avgLatency + 7 / 10 * proxies.avgLatency
    else proxies.avgLatency
  uptimeChecks := proxies.uptimeChecks + excluded.uptimeChecks

def insertRow (proxies : Option Row) (p : Proxy) : Row :=
  match proxies with
  | none         => values S p
  | some proxies => onConflict proxies (values S p)

def upsert (s : SqliteStore) (p : Proxy) : SqliteStore :=
  s.absorb (fun p => rowKey p.key) (insertRow S) p

-- `row.get::<_, i64>` fails for a real.
def getI64 (n : Nat) : Option Nat :=
  if n < 2 ^ 63 then some n else none

def getRow (e : Sigma fun _ : Str × Nat => Row) : Option (Str × Nat × Str × Nat × Nat × ℚ × ℚ) := do
  let requests ← getI64 e.2.requests
  let errors   ← getI64 e.2.errors
  some (e.1.1, e.1.2, e.2.types, requests, errors, e.2.avgLatency, e.2.ewmaSuccess)

def restoreRow : Str × Nat × Str × Nat × Nat × ℚ × ℚ → Option Proxy
  | (host, port, typesJson, requests, errors, avg, ewma) => do
    let host ← IpAddr.parse host
    some <| (Proxy.restored host (.ofNat port) (typesFromJson S typesJson)
      (.ofNat requests) (.ofNat errors) avg).withEwma (some ewma)

-- A single row that cannot be read fails the load.
def load (s : SqliteStore) : Option (List Proxy) := do
  let rows ← s.entries.mapM getRow
  some (rows.filterMap (restoreRow S))

end SqliteStore

structure Record where
  types        : Types
  requests     : UInt32
  errors       : UInt32
  ewmaSuccess  : ℚ
  avgLatency   : ℚ
  uptimeChecks : Nat

abbrev MemoryStore := Table Key Record

namespace MemoryStore

def saturatingAdd (m n : UInt32) : UInt32 :=
  .ofNat (min (m.toNat + n.toNat) (2 ^ 32 - 1))

def orInsertWith (p : Proxy) : Record where
  types        := p.types
  requests     := p.requests
  errors       := errorsTotal p
  ewmaSuccess  := sample p
  avgLatency   := p.avgRespTime
  uptimeChecks := working p

def andModify (rec : Record) (p : Proxy) : Record where
  types        := if !Types.isEmpty p.types then p.types else rec.types
  requests     := saturatingAdd rec.requests p.requests
  errors       := saturatingAdd rec.errors (errorsTotal p)
  ewmaSuccess  := 3 / 10 * sample p + 7 / 10 * rec.ewmaSuccess
  avgLatency   := if p.avgRespTime > 0 then 3 / 10 * p.avgRespTime + 7 / 10 * rec.avgLatency else rec.avgLatency
  uptimeChecks := rec.uptimeChecks + working p

def entry (rec : Option Record) (p : Proxy) : Record :=
  match rec with
  | none     => orInsertWith p
  | some rec => andModify rec p

def upsert (s : MemoryStore) (p : Proxy) : MemoryStore :=
  s.absorb Proxy.key entry p

def load (s : MemoryStore) : List Proxy :=
  s.entries.map fun e =>
    (Proxy.restored e.1.host e.1.port e.2.types e.2.requests e.2.errors e.2.avgLatency).withEwma (some e.2.ewmaSuccess)

end MemoryStore

-- The fields of a hash hold the text of the numbers that they are given here.
structure Hash where
  types        : Str
  requests     : Nat
  errors       : Nat
  ewmaSuccess  : ℚ
  avgLatency   : ℚ
  uptimeChecks : Nat

-- The members of the set at `SET_KEY` are distinct.
structure RedisStore where
  hashes  : Table Str Hash
  members : List Str
  nodup   : members.Nodup

namespace RedisStore

variable (S : Serde)

def proxyKey (k : Key) : Str :=
  "proxybroker:proxy:".toList ++ k.display

def empty : RedisStore where
  hashes  := ∅
  members := []
  nodup   := List.nodup_nil

-- A missing field counts as `0`.
def num {α : Type} [Zero α] (x : Option α) : α :=
  x.getD 0

def upsertLua (cur : Option Hash) (argTypes : Str) (sample : ℚ) (working : Nat) (latency : ℚ)
    (argRequests argErrors : Nat) : Hash :=
  let first := cur.isNone
  { types        := if argTypes ≠ "[]".toList then argTypes else (cur.map Hash.types).getD argTypes
    requests     := num (cur.map Hash.requests) + argRequests
    errors       := num (cur.map Hash.errors) + argErrors
    ewmaSuccess  := if first then sample else 3 / 10 * sample + 7 / 10 * num (cur.map Hash.ewmaSuccess)
    avgLatency   :=
      if first then latency
      else if latency > 0 then 3 / 10 * latency + 7 / 10 * num (cur.map Hash.avgLatency)
      else num (cur.map Hash.avgLatency)
    uptimeChecks := num (cur.map Hash.uptimeChecks) + working }

def invoke (cur : Option Hash) (p : Proxy) : Hash :=
  upsertLua cur (typesToJson S p.types) (sample p) (working p) p.avgRespTime p.requests.toNat (errorsTotal p).toNat

def upsert (s : RedisStore) (p : Proxy) : RedisStore where
  hashes  := s.hashes.absorb (fun p => proxyKey p.key) (invoke S) p
  members := s.members.insert p.key.display
  nodup   := s.nodup.insert

-- `s.parse::<u32>().ok().unwrap_or(0)` for the text of a number.
def parseU32 (n : Nat) : UInt32 :=
  if n < 2 ^ 32 then .ofNat n else 0

def readMember (member : Str) : Option Key := do
  let (host, port) ← Str.rsplitOnce ':' member
  let host ← IpAddr.parse host
  let port ← Str.parseU16 port
  some ⟨host, port⟩

-- A malformed member, or one without a hash, is skipped.
def restoreMember (s : RedisStore) (member : Str) : Option Proxy := do
  let k ← readMember member
  let hash ← s.hashes.lookup (proxyKey k)
  some <| (Proxy.restored k.host k.port (typesFromJson S hash.types)
    (parseU32 hash.requests) (parseU32 hash.errors) hash.avgLatency).withEwma (some hash.ewmaSuccess)

def load (s : RedisStore) : List Proxy :=
  s.members.filterMap (restoreMember S s)

end RedisStore

-- The implementations of the trait `Store`.
inductive Backend
  | sqlite | memory | redis

namespace Backend

variable (S : Serde)

def State : Backend → Type
  | sqlite => SqliteStore
  | memory => MemoryStore
  | redis  => RedisStore

def empty : (b : Backend) → b.State
  | sqlite => (∅ : SqliteStore)
  | memory => (∅ : MemoryStore)
  | redis  => RedisStore.empty

def upsert : (b : Backend) → b.State → Proxy → b.State
  | sqlite => SqliteStore.upsert S
  | memory => MemoryStore.upsert
  | redis  => RedisStore.upsert S

def load : (b : Backend) → b.State → Option (List Proxy)
  | sqlite, s => SqliteStore.load S s
  | memory, s => some (MemoryStore.load s)
  | redis, s  => some (RedisStore.load S s)

-- The state of a store after a sequence of upserts.
def after (b : Backend) (ps : List Proxy) : b.State :=
  ps.foldl (b.upsert S) b.empty

end Backend

end Persist
