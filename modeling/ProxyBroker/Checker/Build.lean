import ProxyBroker.Checker.Attempt
import ProxyBroker.Objects.IpParse

-- How a checker is built, before any proxy is checked.

inductive BuildError
  | noTypes | extIpUnknown | noJudges
  deriving DecidableEq

-- The part of a query that is about checks.
structure FindQuery where
  types           : List TypeSpec
  judges          : List Str
  dnsbl           : List Str
  retry           : RetryPolicy
  backoff         : Duration
  post            : Bool
  strict          : Bool
  relaxedValidity : Bool
  trustCheck      : Bool
  requireTrusted  : Bool
  livenessUrl     : Option Str

open Judge (Query)

def Judge.default : List Str :=
  ["http://httpbin.org/get?show_env",
   "https://httpbin.org/get?show_env",
   "smtp://smtp.gmail.com",
   "smtp://aspmx.l.google.com",
   "http://azenv.net/",
   "https://www.proxy-listen.de/azenv.php",
   "http://proxyjudge.us/azenv.php",
   "http://ip.spys.ru/"].map String.toList

-- The addresses that some endpoints report. The status of their responses does not matter.
def Resolver.reported : List Str → Query (List IpAddr)
  | []          => pure []
  | url :: urls => do
    let resp ← Query.get url []
    let rest ← reported urls
    pure ((resp.bind fun r => r.2.bind fun body => IpAddr.parse (Str.trim body)).toList ++ rest)

def Resolver.externalIps (endpoints : List Str) : Query (Except BuildError (Finset IpAddr)) := do
  let found ← reported endpoints
  pure (if found = [] then .error .extIpUnknown else .ok found.toFinset)

def LivenessTarget.resolve (urls : UrlParser) (url : Str) : Query (Option LivenessTarget) := do
  match Judge.parse urls url with
  | none       => pure none
  | some judge =>
    if judge.scheme = .smtp then pure none
    else return (← Query.resolve judge.host).map fun ip => ⟨judge.host, judge.path, ip, judge.scheme⟩

namespace FullChecker

variable (urls : UrlParser) (u : Unicode) (q : FindQuery)

-- The judges that are probed.
def candidates : List Judge :=
  (if q.judges = [] then Judge.default else q.judges).filterMap (Judge.parse urls)

-- Without any judge, it is an error unless there is an endpoint for liveness checks.
def chooseMode (judges : JudgePool) : Query (Option FullMode) := do
  if judges.isEmpty then
    match q.livenessUrl with
    | some url => return (← LivenessTarget.resolve urls url).map .liveness
    | none     => pure none
  else pure (some .judged)

def new (realExtIps : Finset IpAddr) : Query (Except BuildError FullChecker) := do
  if q.types = [] then pure (.error .noTypes)
  else
    let judges ← JudgePool.probeAll u realExtIps (candidates urls q)
    match ← chooseMode urls q judges with
    | none      => pure (.error .noJudges)
    | some mode => pure <| .ok {
        judges          := judges
        realExtIps      := realExtIps
        requested       := q.types
        post            := q.post
        strict          := q.strict
        relaxedValidity := q.relaxedValidity
        trustCheck      := q.trustCheck || q.requireTrusted
        dnsbl           := q.dnsbl
        mode            := mode
        retry           := q.retry
        backoff         := q.backoff
      }

-- What `find` and `check` do before they return a stream.
def build (endpoints : List Str) : Query (Except BuildError FullChecker) := do
  if q.types = [] then pure (.error .noTypes)
  else match ← Resolver.externalIps endpoints with
    | .error e => pure (.error e)
    | .ok ips  => new urls u q ips

end FullChecker
