import ProxyBroker.Checker
import ProxyBroker.Checker.Response
import ProxyBroker.Judge

open Utf8

-- An endpoint of which only the status of a response matters.
structure LivenessTarget where
  host   : Str
  path   : Str
  ip     : IpAddr
  scheme : JudgeScheme

inductive Probe
  | judged (j : Judge)
  | liveness (lt : LivenessTarget)

inductive FullMode
  | judged
  | liveness (lt : LivenessTarget)

-- A checker with all that it needs for the requests that it sends.
structure FullChecker where
  judges          : JudgePool
  realExtIps      : Finset IpAddr
  requested       : List TypeSpec
  post            : Bool
  strict          : Bool
  relaxedValidity : Bool
  trustCheck      : Bool
  dnsbl           : List Str
  mode            : FullMode
  retry           : RetryPolicy
  backoff         : Duration

namespace TrustReport

-- The header names that an echo may contain although they were not sent.
def benign : List Str :=
  ["host", "connection", "content-length", "x-forwarded-for", "via"].map String.toList

-- The name of the header that a line looks like.
def headerName (line : Str) : Option Str := do
  let (name, _) ← Str.splitOnce ": ".toList line
  let name := Str.asciiLower (Str.trim name)
  if name ≠ [] ∧ name.all (fun c => c.isAlphanum || c = '-') then some name else none

def injected (sent : List Str) (line : Str) : Bool :=
  (headerName line).any fun name => !(sent.map Str.asciiLower).contains name && !benign.contains name

def assess (sent : List Str) (canary content : Str) : List TrustSignal :=
  (if canary <:+: content then [] else [.canaryMismatch]) ++
  (if (Str.lines content).any (injected sent) then [.injectedHeader] else [])

end TrustReport

namespace Checker

def sentHeaderNames : List Str :=
  (Utils.requestHeaders none).map Prod.fst ++ ["Host", "Connection", "Content-Length"].map String.toList

def capsFromContent (content : Str) : Caps where
  cookieEcho  := "cookie=ok".toList <:+: content
  refererEcho := "https://www.google.com/".toList <:+: content

def responseIsValid (d : Decimal) (content marker : Str) : Bool :=
  let caps := capsFromContent content
  marker <:+: content && Utils.getAllIp d content ≠ ∅ && caps.refererEcho && caps.cookieEcho

-- The addresses that a blocklist uses are reversed. Blocklists are only asked about one kind of addresses.
def dnsblQuery (ip : IpAddr) (zone : Str) : Option Str :=
  match ip with
  | .v4 a b c d => some <|
    Str.ofNat d.toNat ++ '.' :: Str.ofNat c.toNat ++ '.' :: Str.ofNat b.toNat ++ '.' :: Str.ofNat a.toNat ++ '.' :: zone
  | .v6 ..      => none

-- The absolute form is for requests that a proxy is to forward.
def requestPath (host path : Str) (t : Proto) : Str :=
  if t.usesFullPath then "http://".toList ++ host ++ path else path

def requestText (method path : Str) (headers : Utils.Headers) : Str :=
  method ++ ' ' :: path ++ " HTTP/1.1\r\n".toList ++ headers.render ++ "\r\n\r\n".toList

def livenessRequest (lt : LivenessTarget) (t : Proto) : Bytes :=
  let hdrs := (Utils.requestHeaders none).insert "Host".toList lt.host
    |>.insert "Connection".toList "close".toList
  encode (requestText "GET".toList (requestPath lt.host lt.path t) hdrs)

end Checker

namespace FullChecker

open Checker

variable (u : Unicode) (flate2 : Flate2) (x : FullChecker)

-- The part of a checker that does not concern the network.
def toChecker : Checker where
  requested := x.requested
  strict    := x.strict
  dnsbl     := x.dnsbl
  retry     := x.retry
  mode      :=
    match x.mode with
    | .judged     => .judged <| ({.http, .https, .smtp} : Finset JudgeScheme).filter fun s => !(x.judges.bucket s).isEmpty
    | .liveness _ => .liveness

-- The test request with a given marker.
def testRequest (j : Judge) (t : Proto) (marker : Str) : Bytes :=
  let hdrs := (Utils.requestHeaders (some marker)).insert "Host".toList j.host
    |>.insert "Connection".toList "close".toList
    |>.insert "Content-Length".toList "0".toList
  let method := if x.post then "POST".toList else "GET".toList
  encode (requestText method (requestPath j.host j.path t) hdrs)

def buildRequest (probe : Probe) (t : Proto) : Async (Bytes × Str) := do
  match probe with
  | .judged j    =>
    let r : Nat := ← Async.env (.tie 9000)
    let marker := Utils.freshMarker r
    pure (x.testRequest j t marker, marker)
  | .liveness lt => pure (livenessRequest lt t, [])

def isValid (marker content : Str) : Bool :=
  if x.relaxedValidity then marker <:+: content && Utils.getAllIp u.toDecimal content ≠ ∅
  else responseIsValid u.toDecimal content marker

-- What the echo of a judge tells.
def assess (j : Judge) (t : Proto) (marker content : Str) : Attempt :=
  if x.isValid u marker content then
    .working {
      level := if t.checksAnonLevel then some (anonymityLevel u x.realExtIps j.marks content) else none
      caps  := capsFromContent content
      trust := if x.trustCheck then TrustReport.assess sentHeaderNames marker content else []
    }
  else .invalid

-- What is known of a proxy of which nothing is observed.
def unobserved : Observation :=
  ⟨none, ⟨false, false⟩, []⟩

-- The test request over a negotiated connection.
def exchange (probe : Probe) (t : Proto) : Async (Except ProxyError Attempt) := do
  let (request, marker) ← x.buildRequest probe t
  match (← Async.net (.upWrite .exchange request) : WriteResult) with
  | .timedOut _ => pure (.error .timeout)
  | .failed _   => pure (.error .reset)
  | .done       =>
    match ← readResponse with
    | .error e => pure (.error e)
    | .ok raw  =>
      let (head, body) := splitHeadBody raw
      if getStatusCode head 9 12 ≠ 200 then pure (.error .badStatus)
      else match probe with
        | .liveness _ => pure (.ok (.working unobserved))
        | .judged j   => pure (.ok (x.assess u j t marker (decompress u flate2 head body)))

def attempt (k : Key) (t : Proto) (probe : Probe) (target : Negotiator.Target) : Async (Except ProxyError Attempt) := do
  match (← Async.net (.dial .probe k) : DialResult) with
  | .timedOut => pure (.error .timeout)
  | .failed   => pure (.error .connFailed)
  | .ok       =>
    match ← Negotiator.negotiate t target none with
    | .error e => pure (.error e)
    | .ok _    =>
      -- A tunnel that is granted is all that is asked for.
      if t = .connect25 then pure (.ok (.working unobserved)) else x.exchange u flate2 probe t

-- The time that a working attempt takes.
def timed (a : Async (Except ProxyError Attempt)) : Async (Except ProxyError Attempt × ℚ) := do
  let start : Instant := ← Async.env .now
  match ← a with
  | .ok (.working obs) =>
    let stop : Instant := ← Async.env .now
    pure (.ok (.working obs), ((stop - start : Nat) : ℚ) / 10 ^ 9)
  | r                  => pure (r, 0)

-- The delay before a retry. Without a base there is none, and otherwise it is random.
def backoffFor : Async Duration :=
  match x.backoff with
  | 0        => pure 0
  | base + 1 => Async.env (.jitter (base + 1))

def sleep (d : Duration) : Async Unit := do
  let start : Instant := ← Async.env .now
  let _ ← Async.env (.sleep (start + d))

def attempts (t : Proto) (probe : Probe) (target : Negotiator.Target) : Nat → Nat → Proxy → Async (Bool × Proxy)
  | 0, _, p         => pure (false, p)
  | tries + 1, i, p => do
    match ← timed (x.attempt u flate2 p.key t probe target) with
    | (.ok (.working obs), rtt) =>
      let p := (p.recordAttempt (some rtt) none).recordProbeLatency rtt
      pure (true, (p.addType t obs.level).recordCaps obs.caps |>.recordTrust obs.trust)
    | (.ok .invalid, _) => pure (false, p.recordAttempt none (some .badResponse))
    | (.error e, _)     =>
      let p := p.recordAttempt none (some e)
      if e ∈ x.retry.retryOn ∧ i + 1 < x.retry.maxTries then
        sleep (← x.backoffFor)
        attempts t probe target tries (i + 1) p
      else pure (false, p)

-- What a protocol is tested against.
def aim (t : Proto) : Async (Option (Probe × Negotiator.Target)) := do
  match x.mode with
  | .judged      =>
    match ← x.judges.random t.judgeScheme with
    | some j => pure (some (.judged j, ⟨j.host, j.ip, t.judgeScheme.defaultPort⟩))
    | none   => pure none
  | .liveness lt => pure (some (.liveness lt, ⟨lt.host, some lt.ip, lt.scheme.defaultPort⟩))

def checkOne (p : Proxy) (t : Proto) : Async (Bool × Proxy) := do
  match ← x.aim t with
  | none                 => pure (false, p)
  | some (probe, target) => x.attempts u flate2 t probe target x.retry.maxTries 0 p

def checkAll : List Proto → Bool → Proxy → Async (Bool × Proxy)
  | [], any, p      => pure (any, p)
  | t :: ts, any, p => do
    let (ok, p) ← x.checkOne u flate2 p t
    checkAll ts (any || ok) p

-- The queries run concurrently, and all of them are awaited.
def resolveAny : List Str → Async Bool
  | []      => pure false
  | q :: qs => do
    let ip : Option IpAddr := ← Async.net (.resolve q)
    let rest ← resolveAny qs
    pure (ip.isSome || rest)

def inDnsbl (host : IpAddr) : Async Bool :=
  resolveAny (x.dnsbl.filterMap (dnsblQuery host))

def isListed (host : IpAddr) : Async Bool :=
  if x.dnsbl ≠ [] then x.inDnsbl host else pure false

def check (p : Proxy) : Async (Bool × Proxy) := do
  if ← x.isListed p.host then pure (false, p)
  else
    let (any, p) ← x.checkAll u flate2 (x.toChecker.ngtrs p) false p
    pure (if any then typesPassed x.requested x.strict p else (false, p))

end FullChecker
