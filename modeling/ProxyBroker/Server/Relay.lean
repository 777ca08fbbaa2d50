import ProxyBroker.Server.Request

open Utf8 Negotiator

namespace Server

def chooseProto (p : Proxy) (scheme : Scheme) : Proto :=
  match scheme with
  | .https => (tunnelProto p).getD .connect80
  | .http  => ([Proto.http, .connect80, .socks5, .socks4].find? p.hasType).getD .http

inductive RelayOutcome
  | ok
  | retryableFailure (e : ProxyError)
  | clientCommitted (e : ProxyError)
  | clientGone
  deriving DecidableEq

def statusLimit : Nat := 256

-- A status line of more than `statusLimit` bytes is cut off, so the fuel given by `readStatusLine`
-- lasts.
def readStatusLoop : Nat → Bytes → Async (Except ProxyError Bytes)
  | 0, head     => pure (.ok head)
  | n + 1, head => do
    match (← Async.net (.upRead .exchange 1) : ReadResult) with
    | .timedOut         => pure (.error .timeout)
    | .error            => pure (.error .reset)
    | .data []          => pure (.error .emptyRecv)
    | .data (byte :: _) =>
      let head := head ++ [byte]
      if [lf].isSuffixOf head || statusLimit ≤ head.length then pure (.ok head)
      else readStatusLoop n head

def readStatusLine : Async (Except ProxyError Bytes) :=
  readStatusLoop statusLimit []

def xProxyInfo (p : Proxy) : Bytes :=
  encode ("X-Proxy-Info: ".toList ++ p.key.display ++ "\r\n".toList)

def connectAck (p : Proxy) : Bytes :=
  encode "HTTP/1.1 200 Connection established\r\n".toList ++ xProxyInfo p ++ crlf

def socksAck : Bytes :=
  socksReply 0x00

-- The head of a forwarded request: the client's own `Proxy-Authorization` is dropped, and then the
-- credentials of the proxy are added.
def toSend (p : Proxy) (raw : Bytes) : Bytes :=
  let sanitized := stripHeader raw proxyAuthorization
  match p.auth with
  | some c => injectHeader sanitized (encode (authLine c))
  | none   => sanitized

-- What happens to a forwarded request before the splice. If this is where the attempt ends, then the
-- result is its outcome.
def forward (p : Proxy) (req : ClientRequest) (allowed : Option (List UInt16)) :
    Async (Option RelayOutcome) := do
  match (← Async.net (.upWrite .exchange (toSend p req.raw)) : WriteResult) with
  | .failed _ | .timedOut _ => return some (.retryableFailure .reset)
  | .done =>
    if requestHasBody req.raw then return none
    match ← readStatusLine with
    | .error e => return some (.retryableFailure e)
    | .ok line =>
      if allowed.any (parseHttpStatus line ∉ ·) then
        return some (.retryableFailure (.disallowedStatus (parseHttpStatus line)))
      if !(← writeAll (injectHeader line (xProxyInfo p))) then return some .clientGone
      return none

-- The acknowledgement of the client, depending on how it addressed the server.
def acknowledge (p : Proxy) (req : ClientRequest) (allowed : Option (List UInt16)) :
    Async (Option RelayOutcome) := do
  match req.frontend with
  | .httpConnect =>
    if !(← writeAll (connectAck p)) then return some .clientGone
    return none
  | .socks5 =>
    if !(← writeAll socksAck) then return some .clientGone
    return none
  | .httpForward => forward p req allowed

def relay (p : Proxy) (proto : Proto) (target : Target) (req : ClientRequest)
    (allowed : Option (List UInt16)) : Async RelayOutcome := do
  match (← Async.net (.dial .relay p.key) : DialResult) with
  | .timedOut => return .retryableFailure .timeout
  | .failed   => return .retryableFailure .connFailed
  | .ok =>
    match ← negotiate proto target p.auth with
    | .error e => return .retryableFailure e
    | .ok _ =>
      match ← acknowledge p req allowed with
      | some outcome => return outcome
      | none =>
        let r : Spliced := ← Async.net .splice
        return if r.ok then .ok else .clientCommitted .errorOnStream

end Server
