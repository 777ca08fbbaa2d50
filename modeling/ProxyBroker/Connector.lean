import ProxyBroker.Pool.Program

open Negotiator Pool

-- The rotating connector, that is the `Service` by which `hyper` opens connections over a pool.
namespace Connector

-- What the accessors of a `Uri` return.
structure Uri where
  scheme : Option Str
  host   : Option Str
  port   : Option UInt16
  deriving DecidableEq

structure RotateConfig where
  maxTries : Nat

inductive ErrorKind
  | invalidInput | notConnected | other
  deriving DecidableEq

structure IoError where
  kind    : ErrorKind
  message : Str
  deriving DecidableEq

def connectProto (p : Proxy) (scheme : Scheme) : Option Proto :=
  (tunnelProto p).orElse fun _ =>
    if scheme = .http ∧ p.hasType .http then some .http else none

def dial (p : Proxy) (proto : Proto) (target : Target) : Async (Except ProxyError Stream) := do
  match (← Async.net (.dial .relay p.key) : DialResult) with
  | .timedOut => return .error .timeout
  | .failed   => return .error .connFailed
  | .ok       => negotiate proto target p.auth

-- The connector has no client identity, so any key resolves the same pool.
def anyClient : ClientKey :=
  .ip (.v4 0 0 0 0)

-- The loop over the attempts, of which `tries` are left.
def connectLoop (c : Config) (fuel : Nat) (scheme : Scheme) (target : Target) :
    Nat → Option ProxyError → Async (Except IoError Stream)
  | 0, last => return .error ⟨.other, (last.map ProxyError.asStr).getD "all proxies failed".toList⟩
  | tries + 1, last => do
    match ← Pool.get c fuel scheme anyClient with
    | none       => return .error ⟨.notConnected, "no proxy available in the pool".toList⟩
    | some proxy =>
      match connectProto proxy scheme with
      | none =>
        putOk c proxy
        connectLoop c fuel scheme target tries last
      | some proto =>
        match ← dial proxy proto target with
        | .ok stream =>
          putOk c (proxy.recordAttempt (some 0) none)
          return .ok stream
        | .error e =>
          putFailed c (proxy.recordAttempt none (some e))
          connectLoop c fuel scheme target tries (some e)

def connect (c : Config) (fuel : Nat) (cfg : RotateConfig) (uri : Uri) :
    Async (Except IoError Stream) := do
  let scheme := if uri.scheme = some "https".toList then Scheme.https else Scheme.http
  match uri.host with
  | none         => return .error ⟨.invalidInput, "uri has no host".toList⟩
  | some rawHost =>
    let host := ((Str.stripPrefix ['['] rawHost).bind (Str.stripSuffix [']'])).getD rawHost
    let port := uri.port.getD (if scheme = .https then 443 else 80)
    let ip : Option IpAddr := ← Async.net (.resolve host)
    connectLoop c fuel scheme ⟨host, ip, port⟩ cfg.maxTries none

end Connector
