import ProxyBroker.Objects.IpParse
import ProxyBroker.Objects.Proxy

-- What `buffer_unordered` yields: up to `n` futures are in flight, and any of them can be the next one that
-- completes. Here `ws` are the results of those that wait, and `fs` of those that are in flight.
inductive Unordered {α : Type} (n : Nat) : (ws fs out : List α) → Prop
  | done : Unordered n [] [] []
  | start {w : α} {ws fs out : List α} :
    fs.length < n → Unordered n ws (fs ++ [w]) out → Unordered n (w :: ws) fs out
  | complete {a : α} {ws fs₁ fs₂ out : List α} :
    ws = [] ∨ n ≤ (fs₁ ++ a :: fs₂).length → Unordered n ws (fs₁ ++ fs₂) out →
    Unordered n ws (fs₁ ++ a :: fs₂) (a :: out)

theorem Unordered.perm {α : Type} {n : Nat} {ws fs out : List α} (h : Unordered n ws fs out) :
    out.Perm (fs ++ ws) := by
  induction h
  case done              => rfl
  case start hi          => simpa using hi
  case complete a _ _ _ _ _ _ hi => simpa using (hi.cons a).trans (by simpa using List.perm_middle.symm)

-- Candidates are gathered from providers.
namespace Broker

def maxConcurrentProviders : Nat := 3

structure Candidate where
  host      : Str
  port      : UInt16
  protocols : Finset Proto
  deriving DecidableEq

section Providers

def isIpv6 : IpAddr → Bool
  | .v4 ..  => false
  | .v6 ..  => true

def isUnspecified : IpAddr → Bool
  | .v4 a b c d                 => [a, b, c, d] = [0, 0, 0, 0]
  | .v6 s₀ s₁ s₂ s₃ s₄ s₅ s₆ s₇ => [s₀, s₁, s₂, s₃, s₄, s₅, s₆, s₇] = [0, 0, 0, 0, 0, 0, 0, 0]

-- Only IPv6 addresses have a zone.
def canonicalizeIp (s : Str) : Option Str :=
  match Str.splitOnce ['%'] s with
  | some (base, zone) => (IpAddr.parse base).bind fun a => if isIpv6 a then some (a.display ++ '%' :: zone) else none
  | none              => (IpAddr.parse s).map IpAddr.display

def readPair (protocols : Finset Proto) (pair : Str × Str) : Option Candidate := do
  let port ← Str.parseU16 pair.2
  if port = 0 then none
  else
    let host ← canonicalizeIp pair.1
    if (IpAddr.parse host).any isUnspecified then none
    else some ⟨host, port, protocols⟩

-- The pairs of a host and a port that the scanner or the pattern of a provider finds on its page.
def extract (protocols : List Proto) (pairs : List (Str × Str)) : List Candidate :=
  (pairs.filterMap (readPair protocols.toFinset)).foldl
    (fun out cand => if out.any fun c => c.host = cand.host ∧ c.port = cand.port then out else out ++ [cand]) []

structure ProviderSpec where
  protocols : List Proto

-- There are no pairs if the page cannot be fetched.
def fetch (spec : ProviderSpec) (pairs : Option (List (Str × Str))) : List Candidate :=
  pairs.elim [] (extract spec.protocols)

end Providers

-- The databases of a broker, and the tables behind `str::to_uppercase`.
structure Databases where
  lookup      : IpAddr → Option Country
  lookupAsn   : IpAddr → Option Asn
  toUppercase : Str → Str

variable (d : Databases)

def attachGeo (p : Proxy) : Proxy :=
  { p with geo := d.lookup p.host, asn := d.lookupAsn p.host }

def uppercaseSet (countries : Option (List Str)) : Option (Finset Str) :=
  countries.map fun cs => (cs.map d.toUppercase).toFinset

def countryOk (p : Proxy) (countries : Option (Finset Str)) : Bool :=
  match countries with
  | none     => true
  | some set => p.geo.any fun c => d.toUppercase c.code ∈ set

def proxyOf (host : IpAddr) (cand : Candidate) : Proxy :=
  attachGeo d (Proxy.new host cand.port cand.protocols)

structure GrabQuery where
  countries : Option (List Str)
  limit     : Option Nat

-- The two loops over batches and over their candidates. What has been sent is counted by `out`, and nobody
-- drops the stream.
def grabLoop (countries : Option (Finset Str)) (limit : Option Nat) :
    List Candidate → List Key → List Proxy → List Proxy
  | [], _, out            => out
  | cand :: cs, seen, out =>
    if limit.any (· ≤ out.length) then out
    else match IpAddr.parse cand.host with
      | none      => grabLoop countries limit cs seen out
      | some host =>
        if ⟨host, cand.port⟩ ∈ seen then grabLoop countries limit cs seen out
        else
          let proxy := proxyOf d host cand
          if countryOk d proxy countries then grabLoop countries limit cs (⟨host, cand.port⟩ :: seen) (out ++ [proxy])
          else grabLoop countries limit cs (⟨host, cand.port⟩ :: seen) out

-- The stream of a grab whose providers have answered in a certain order.
def grab (query : GrabQuery) (batches : List (List Candidate)) : List Proxy :=
  grabLoop d (uppercaseSet d query.countries) query.limit batches.flatten [] []

-- The closure that the candidates of a find go through.
def keep (countries : Option (Finset Str)) (seen : List Key) (cand : Candidate) : Option Proxy × List Key :=
  match IpAddr.parse cand.host with
  | none      => (none, seen)
  | some host =>
    if ⟨host, cand.port⟩ ∈ seen then (none, seen)
    else
      let proxy := proxyOf d host cand
      (if countryOk d proxy countries then some proxy else none, ⟨host, cand.port⟩ :: seen)

def filterMap (countries : Option (Finset Str)) : List Candidate → List Key → List Proxy
  | [], _            => []
  | cand :: cs, seen =>
    let (proxy, seen) := keep d countries seen cand
    proxy.toList ++ filterMap countries cs seen

-- The candidates that a find passes on to be checked.
def findSource (countries : Option (List Str)) (batches : List (List Candidate)) : List Proxy :=
  filterMap d (uppercaseSet d countries) batches.flatten []

end Broker
