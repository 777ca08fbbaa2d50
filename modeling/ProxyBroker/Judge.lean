import ProxyBroker.Checker.Anonymity
import ProxyBroker.Negotiator

-- Endpoints that echo a request, by which the anonymity of proxies is measured.

def JudgeScheme.defaultPort : JudgeScheme → UInt16
  | http  => 80
  | https => 443
  | smtp  => 25

def Proto.usesFullPath : Proto → Bool
  | http => true
  | _    => false

namespace Utils

-- Headers in the order in which they are sent.
abbrev Headers := List (Str × Str)

namespace Headers

-- `IndexMap::insert`: a new key comes last, and a key that is known keeps its place.
def insert (h : Headers) (k v : Str) : Headers :=
  if h.any (·.1 = k) then h.map fun e => if e.1 = k then (k, v) else e else h ++ [(k, v)]

def line (e : Str × Str) : Str :=
  e.1 ++ ": ".toList ++ e.2

def render (h : Headers) : Str :=
  "\r\n".toList.intercalate (h.map line)

end Headers

-- The marker becomes a part of the `User-Agent`, so that it is found again in an echo.
def requestHeaders (marker : Option Str) : Headers :=
  [("User-Agent".toList, "PxBroker/".toList ++ Negotiator.pkgVersion ++ '/' :: marker.getD []),
   ("Accept".toList, "*/*".toList),
   ("Accept-Encoding".toList, "gzip, deflate".toList),
   ("Pragma".toList, "no-cache".toList),
   ("Cache-control".toList, "no-cache".toList),
   ("Cookie".toList, "cookie=ok".toList),
   ("Referer".toList, "https://www.google.com/".toList)]

-- The marker for a random number.
def freshMarker (r : Nat) : Str :=
  Str.ofNat (1000 + r % 9000)

end Utils

-- What the `url` crate makes of a text.
structure Url where
  scheme : Str
  host   : Option Str
  path   : Str
  query  : Option Str

abbrev UrlParser := Str → Option Url

structure Judge where
  url    : Str
  scheme : JudgeScheme
  host   : Str
  path   : Str
  ip     : Option IpAddr
  marks  : Marks

namespace Judge

def ofScheme? (s : Str) : Option JudgeScheme :=
  if s = "http".toList then some .http
  else if s = "https".toList then some .https
  else if s = "smtp".toList then some .smtp
  else none

def parse (urls : UrlParser) (url : Str) : Option Judge := do
  let parsed ← urls url
  let scheme ← ofScheme? parsed.scheme
  let host ← parsed.host
  some {
    url    := url
    scheme := scheme
    host   := host
    path   := match parsed.query with
      | some q => parsed.path ++ '?' :: q
      | none   => parsed.path
    ip     := none
    marks  := ⟨0, 0⟩
  }

-- What is asked of the network before any proxy is checked.
inductive Op
  | resolve (host : Str)
  | get (url : Str) (headers : Utils.Headers)
  | random (n : Nat)

-- A request is answered with a status and, unless the response breaks off, with its text.
abbrev effects : Signature where
  Op := Op
  Ret
    | .resolve _ => Option IpAddr
    | .get ..    => Option (UInt16 × Option Str)
    | .random _  => Nat

abbrev Query := Prog effects

namespace Query

def resolve (host : Str) : Query (Option IpAddr) :=
  Prog.perform (S := effects) (.resolve host)

def get (url : Str) (headers : Utils.Headers) : Query (Option (UInt16 × Option Str)) :=
  Prog.perform (S := effects) (.get url headers)

def random (n : Nat) : Query Nat :=
  Prog.perform (S := effects) (.random n)

end Query

section Probing

variable (u : Unicode) (realExtIps : Finset IpAddr)

-- The baseline that a page gives, unless it does not show an address of this host and the marker.
def baseline (marker body : Str) : Option Marks :=
  let page := u.toLowercase body
  let pageIps := Utils.getAllIp u.toDecimal page
  if (∃ ip ∈ realExtIps, ip.display ∈ pageIps) ∧ marker <:+: page then
    some ⟨Checker.matchCount "via".toList page, Checker.matchCount "proxy".toList page⟩
  else none

-- Whether a response shows that a judge is usable.
def verify (j : Judge) (marker : Str) : Option (UInt16 × Option Str) → Option Judge
  | some (200, some body) => (baseline u realExtIps marker body).map fun m => { j with marks := m }
  | _                     => none

-- The judge if it is usable.
def probe (j : Judge) : Query (Option Judge) := do
  match ← Query.resolve j.host with
  | none    => pure none
  | some ip =>
    let j := { j with ip := some ip }
    if j.scheme = .smtp then pure (some j)
    else
      let marker := Utils.freshMarker (← Query.random 9000)
      return verify u realExtIps j marker (← Query.get j.url (Utils.requestHeaders (some marker)))

-- The probes run concurrently and do not interact. Their results are in the order of the candidates.
def probes : List Judge → Query (List Judge)
  | []      => pure []
  | j :: js => do
    let r ← probe u realExtIps j
    let rest ← probes js
    pure (r.toList ++ rest)

end Probing
end Judge

structure JudgePool where
  http  : List Judge
  https : List Judge
  smtp  : List Judge

namespace JudgePool

def bucket (p : JudgePool) : JudgeScheme → List Judge
  | .http  => p.http
  | .https => p.https
  | .smtp  => p.smtp

def push (p : JudgePool) (j : Judge) : JudgePool :=
  match j.scheme with
  | .http  => { p with http := p.http ++ [j] }
  | .https => { p with https := p.https ++ [j] }
  | .smtp  => { p with smtp := p.smtp ++ [j] }

def probeAll (u : Unicode) (realExtIps : Finset IpAddr) (candidates : List Judge) : Judge.Query JudgePool := do
  let working ← Judge.probes u realExtIps candidates
  pure (working.foldl push ⟨[], [], []⟩)

def isEmpty (p : JudgePool) : Bool :=
  p.http.isEmpty && p.https.isEmpty && p.smtp.isEmpty

-- A judge of a scheme, chosen at random.
def random (p : JudgePool) (s : JudgeScheme) : Async (Option Judge) := do
  match p.bucket s with
  | []     => pure none
  | b :: bs =>
    let r : Nat := ← Async.env (.tie (b :: bs).length)
    pure ((b :: bs)[r % (b :: bs).length]?)

theorem bucket_push (p : JudgePool) (j : Judge) (s : JudgeScheme) :
    (p.push j).bucket s = if j.scheme = s then p.bucket s ++ [j] else p.bucket s := by
  cases h : j.scheme <;> cases s <;> simp [push, bucket, h]

-- A pool keeps the order of the judges of every scheme.
theorem bucket_foldl_push (js : List Judge) (p : JudgePool) (s : JudgeScheme) :
    (js.foldl push p).bucket s = p.bucket s ++ js.filter (·.scheme = s) := by
  induction js generalizing p
  case nil => simp
  case cons j js hi =>
    rw [List.foldl_cons, hi, bucket_push]
    by_cases h : j.scheme = s <;> simp [h]

theorem isEmpty_iff {p : JudgePool} : p.isEmpty ↔ ∀ s, p.bucket s = [] := by
  constructor
  case mp =>
    simp only [isEmpty, Bool.and_eq_true, List.isEmpty_iff]
    rintro ⟨⟨h₁, h₂⟩, h₃⟩ s
    cases s <;> assumption
  case mpr =>
    intro h
    simpa [isEmpty] using ⟨⟨h .http, h .https⟩, h .smtp⟩

end JudgePool
