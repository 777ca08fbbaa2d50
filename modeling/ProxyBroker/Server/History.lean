import ProxyBroker.Pool.Machine
import ProxyBroker.Keyed.Table

open Pool

namespace Server

-- Which proxy has last served a request-target for a client.
structure History where
  map : Table Str Str

namespace History

def cap : Nat := 10000

def new : History where
  map := ∅

def record (h : History) (key proxy : Str) : History :=
  let m := if cap ≤ h.map.keys.length ∧ key ∉ h.map then ∅ else h.map
  { map := m.insert key proxy }

def get (h : History) (key : Str) : Option Str :=
  h.map.lookup key

end History

-- What the connections to a server share.
structure Shared where
  pool    : State
  history : History

-- The states in which a server starts.
inductive Shared.Starts (c : Config) : Shared → Prop
  | spawned : Starts c ⟨.spawned, .new⟩
  | fromProxies (proxies : List Proxy) : Starts c ⟨.fromProxies c proxies, .new⟩

def answersHistory (h : History) : (o : HistoryOp) → o.Ret → History → Prop
  | .record k v, _, h' => h' = h.record k v
  | .get k, r, h'      => r = h.get k ∧ h' = h

def Shared.answers (c : Config) (s : Shared) : Event Effects → Shared → Prop
  | ⟨.history o, r⟩, s' => s'.pool = s.pool ∧ answersHistory s.history o r s'.history
  | e, s'               => Pool.answers c s.pool e s'.pool ∧ s'.history = s.history

def Shared.machine (c : Config) : Machine Effects Shared where
  answers := Shared.answers c

end Server
