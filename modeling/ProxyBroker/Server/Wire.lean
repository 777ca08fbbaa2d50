import ProxyBroker.Server.HandleClient

def WriteResult.delivered (bs : Bytes) : WriteResult → Bytes
  | done                  => bs
  | failed n | timedOut n => bs.take n

theorem WriteResult.delivered_prefix (bs : Bytes) : (r : WriteResult) → r.delivered bs <+: bs
  | done                  => List.prefix_rfl
  | failed n | timedOut n => List.take_prefix n bs

def ReadResult.delivered (max : Nat) : ReadResult → Bytes
  | data bs          => bs.take max
  | error | timedOut => []

namespace Event

-- The bytes that an event delivers to the client.
def toClient : Event Effects → Bytes
  | ⟨.net (.clientWrite bs), r⟩ => WriteResult.delivered bs r
  | ⟨.net .splice, r⟩           => r.toClient
  | _                           => []

-- The bytes that an event takes from the client.
def fromClient : Event Effects → Bytes
  | ⟨.net (.clientRead max), r⟩ => ReadResult.delivered max r
  | ⟨.net .splice, r⟩           => r.toUpstream
  | _                           => []

-- How an event changes the bytes that were received, after its negotiation, over the current
-- connection to a proxy.
def receive (up : Bytes) : Event Effects → Bytes
  | ⟨.net (.dial ..), _⟩              => []
  | ⟨.net (.upRead .exchange max), r⟩ => up ++ ReadResult.delivered max r
  | ⟨.net .splice, r⟩                 => up ++ r.toClient
  | _                                 => up

-- How an event changes the bytes that were sent, after its negotiation, over the current connection to
-- a proxy. Such a connection is closed before its proxy is handed back. A write that does not succeed is
-- counted as a whole.
def send (up : Bytes) : Event Effects → Bytes
  | ⟨.net (.dial ..), _⟩ | ⟨.pool (.push ..), _⟩ | ⟨.pool (.evict _), _⟩ => []
  | ⟨.net (.upWrite .exchange bs), _⟩ => up ++ bs
  | ⟨.net .splice, r⟩                 => up ++ r.toUpstream
  | _                                 => up

-- How an event changes which proxy the current connection is to.
def redial (c : Option (Dial × Key)) : Event Effects → Option (Dial × Key)
  | ⟨.net (.dial d k), _⟩ => some (d, k)
  | _                     => c

end Event

namespace Trace

variable (tr : Trace Effects) (e : Event Effects)

def toClient : Bytes :=
  tr.flatMap Event.toClient

def fromClient : Bytes :=
  tr.flatMap Event.fromClient

def received : Bytes :=
  tr.foldl Event.receive []

def lastDial : Option (Dial × Key) :=
  tr.foldl Event.redial none

@[simp]
theorem toClient_nil : toClient [] = [] :=
  rfl

@[simp]
theorem toClient_snoc : toClient (tr ++ [e]) = toClient tr ++ e.toClient := by
  simp [toClient]

theorem toClient_append (tr' : Trace Effects) : toClient (tr ++ tr') = toClient tr ++ toClient tr' :=
  List.flatMap_append

@[simp]
theorem fromClient_nil : fromClient [] = [] :=
  rfl

@[simp]
theorem fromClient_snoc : fromClient (tr ++ [e]) = fromClient tr ++ e.fromClient := by
  simp [fromClient]

theorem fromClient_append (tr' : Trace Effects) : fromClient (tr ++ tr') = fromClient tr ++ fromClient tr' :=
  List.flatMap_append

@[simp]
theorem received_snoc : received (tr ++ [e]) = Event.receive (received tr) e := by
  simp [received]

@[simp]
theorem lastDial_snoc : lastDial (tr ++ [e]) = Event.redial (lastDial tr) e := by
  simp [lastDial]

end Trace
