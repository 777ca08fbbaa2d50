import ProxyBroker.Numeric.Binary64
import ProxyBroker.Objects.Types
-- Response times, error rates and scores are `f64`s in the code, and none of those that it computes is infinite or not a
-- number. What decides about a proxy is rounded as it is there. Elsewhere, arithmetic is exact.

-- The code formats a number with two digits, for which its exact value is rounded, and parses them again.
def round2 (x : ℚ) : ℚ :=
  Binary64.nearest (roundHalfEven (x * 100) / 100)

-- The pairs with which the code tests it: what is written `2.675` is a bit less.
example : [1 / 8, 2675 / 1000, 335 / 1000, 1005 / 1000, 45 / 1000, 5 / 1000, 1 / 3, 2 / 3, 99995 / 1000].map
      (fun x => round2 (Binary64.nearest x)) =
    [12 / 100, 267 / 100, 34 / 100, 1, 4 / 100, 1 / 100, 33 / 100, 67 / 100, 100].map Binary64.nearest := by
  decide +kernel

-- The counters of the error histogram are `u32`s, whose arithmetic wraps around.
abbrev ErrorCounts := List (ProxyError × UInt32)

namespace ErrorCounts

def bump (e : ProxyError) : ErrorCounts → ErrorCounts
  | []           => [(e, 1)]
  | (e', n) :: h => if e' = e then (e', n + 1) :: h else (e', n) :: bump e h

def total (h : ErrorCounts) : UInt32 :=
  h.foldl (fun n c => n + c.2) 0

end ErrorCounts

structure Proxy where
  host          : IpAddr
  port          : UInt16
  expectedTypes : Finset Proto
  geo           : Option Country
  asn           : Option Asn
  types         : Proto → Option (Option AnonLevel)
  requests      : UInt32
  errors        : ErrorCounts
  runtimes      : List ℚ
  probeRuntimes : List ℚ
  auth          : Option Credentials
  caps          : Caps
  trust         : List TrustSignal
  ewmaSuccess   : Option ℚ
  deriving DecidableEq

namespace Proxy

def new (host : IpAddr) (port : UInt16) (expectedTypes : Finset Proto) : Proxy where
  host          := host
  port          := port
  expectedTypes := expectedTypes
  geo           := none
  asn           := none
  types         := fun _ => none
  requests      := 0
  errors        := []
  runtimes      := []
  probeRuntimes := []
  auth          := none
  caps          := ⟨false, false⟩
  trust         := []
  ewmaSuccess   := none

-- A proxy that is rebuilt from what a store remembers of it.
def restored (host : IpAddr) (port : UInt16) (types : Proto → Option (Option AnonLevel))
    (requests errorsTotal : UInt32) (avgRespTime : ℚ) : Proxy :=
  { Proxy.new host port ∅ with
    types    := types
    requests := requests
    errors   := if 0 < errorsTotal then [(.badResponse, errorsTotal)] else []
    runtimes := if 0 < avgRespTime then [avgRespTime] else [] }

def key (p : Proxy) : Key where
  host := p.host
  port := p.port

def addr (p : Proxy) : Str :=
  match p.host with
  | .v4 ..  => p.host.display ++ ':' :: Str.ofNat p.port.toNat
  | .v6 ..  => '[' :: p.host.display ++ ']' :: ':' :: Str.ofNat p.port.toNat

def hasType (p : Proxy) (t : Proto) : Bool :=
  (p.types t).isSome

def addType (p : Proxy) (t : Proto) (level : Option AnonLevel) : Proxy :=
  { p with types := Function.update p.types t (some level) }

def removeType (p : Proxy) (t : Proto) : Proxy :=
  { p with types := Function.update p.types t none }

def isWorking (p : Proxy) : Bool :=
  Proto.all.any p.hasType

-- The confirmed protocols in their order.
def typeList (p : Proxy) : List (Proto × Option AnonLevel) :=
  Proto.all.filterMap fun t => (p.types t).map (t, ·)

def recordCaps (p : Proxy) (c : Caps) : Proxy :=
  { p with
    caps.cookieEcho  := p.caps.cookieEcho || c.cookieEcho
    caps.refererEcho := p.caps.refererEcho || c.refererEcho }

-- The signals of a proxy are those of all of its protocols.
def recordTrust (p : Proxy) (signals : List TrustSignal) : Proxy :=
  { p with trust := signals.foldl (fun ts t => if t ∈ ts then ts else ts ++ [t]) p.trust }

def recordProbeLatency (p : Proxy) (secs : ℚ) : Proxy :=
  { p with probeRuntimes := p.probeRuntimes ++ [secs] }

def withEwma (p : Proxy) (ewmaSuccess : Option ℚ) : Proxy :=
  { p with ewmaSuccess := ewmaSuccess }

def withAuth (p : Proxy) (creds : Credentials) : Proxy :=
  { p with auth := some creds }

def httpProtos : List Proto :=
  [.http, .connect80, .socks4, .socks5]

def httpsProtos : List Proto :=
  [.https, .socks4, .socks5]

def schemes (p : Proxy) : List Scheme :=
  (if httpProtos.any p.hasType then [.http] else []) ++
  (if httpsProtos.any p.hasType then [.https] else [])

def errorRate (p : Proxy) : ℚ :=
  if p.requests = 0 then 0
  else round2 (Binary64.div p.errors.total.toNat p.requests.toNat)

def avgRespTime (p : Proxy) : ℚ :=
  if p.runtimes = [] then 0
  else round2 (Binary64.div (Binary64.sum p.runtimes) (Binary64.nearest p.runtimes.length))

-- Lower is better.
def priority (p : Proxy) : ℚ × ℚ :=
  match p.ewmaSuccess with
  | some ewma => (max p.errorRate (Binary64.sub 1 ewma), p.avgRespTime)
  | none      => (p.errorRate, p.avgRespTime)

def recordAttempt (p : Proxy) (runtime : Option ℚ) (err : Option ProxyError) : Proxy :=
  { p with
    requests := p.requests + 1
    errors   := match err with
      | some e => p.errors.bump e
      | none   => p.errors
    runtimes := match runtime with
      | some rt => if err = some .timeout then p.runtimes else p.runtimes ++ [rt]
      | none    => p.runtimes }

-- What remains of a proxy if the statistics about its use are disregarded.
def ident (p : Proxy) : Proxy :=
  { p with requests := 0, errors := [], runtimes := [] }

section

variable (p : Proxy) (runtime : Option ℚ) (err : Option ProxyError)

@[simp]
theorem recordAttempt_ident : (p.recordAttempt runtime err).ident = p.ident :=
  rfl

@[simp]
theorem recordAttempt_key : (p.recordAttempt runtime err).key = p.key :=
  rfl

@[simp]
theorem recordAttempt_types : (p.recordAttempt runtime err).types = p.types :=
  rfl

@[simp]
theorem recordAttempt_requests : (p.recordAttempt runtime err).requests = p.requests + 1 :=
  rfl

@[simp]
theorem ident_ident : p.ident.ident = p.ident :=
  rfl

@[simp]
theorem ident_key : p.ident.key = p.key :=
  rfl

end

theorem key_eq_of_ident_eq {p q : Proxy} (h : p.ident = q.ident) : p.key = q.key := by
  rw [← p.ident_key, ← q.ident_key, h]

end Proxy
