import ProxyBroker.Server.Relay
import ProxyBroker.Pool.Program

open Utf8 Negotiator Pool

namespace Server

def terminalFailure : Frontend → Bytes
  | .socks5 => socksReply 0x01
  | _       => encode "HTTP/1.1 502 Bad Gateway\r\n\r\n".toList

def authRequired : Bytes :=
  encode <| "HTTP/1.1 407 Proxy Authentication Required\r\n".toList ++
    "Proxy-Authenticate: Basic realm=\"proxybroker\"\r\n\r\n".toList

def clientKey (c : Config) (peer : IpAddr) (req : ClientRequest) : ClientKey :=
  if req.scheme = .http then
    match c.stickyHeader.bind (headerValue req.raw) with
    | some v => .header v
    | none   => .ip peer
  else
    .ip peer

def controlHost : Str :=
  "proxycontrol".toList

def controlRemoveAllowed (authConfigured : Bool) (peer : IpAddr) : Bool :=
  authConfigured || peer.isLoopback

def historyKey (peer : IpAddr) (url : Str) : Str :=
  peer.display ++ '-' :: url

def noContent : Bytes :=
  encode "HTTP/1.1 204 No Content\r\n\r\n".toList

def historyReply (proxy : Str) : Bytes :=
  let body := encode ("\x7b\"proxy\": \"".toList ++ proxy ++ "\"\x7d\r\n".toList)
  encode ("HTTP/1.1 200 OK\r\nContent-Type: application/json\r\nContent-Length: ".toList ++
    Str.ofNat body.length ++ "\r\nAccess-Control-Allow-Origin: *\r\n".toList ++
    "Access-Control-Allow-Credentials: true\r\n\r\n".toList) ++ body

def removeParsed (host : Str) (port : UInt16) : Async Unit := do
  match IpAddr.parse host with
  | some ip => let _ ← Pool.remove ⟨ip, port⟩
  | none    => return

def serveControl (req : ClientRequest) (peer : IpAddr) (removeAllowed : Bool) : Async Unit := do
  let rest :=
    (Str.stripPrefix "http://proxycontrol".toList req.path).getD req.path |>.dropWhile (· = '/')
  match Str.splitN '/' 3 rest with
  | [_, operation, params] =>
    if operation = "remove".toList then
      if !removeAllowed then
        let _ ← writeAll (encode "HTTP/1.1 403 Forbidden\r\nContent-Length: 0\r\n\r\n".toList)
      else
        let (h, p) := splitHostPort params 0
        removeParsed h p
        let _ ← writeAll noContent
    else if operation = "history".toList then
      let url := (Str.stripPrefix "url:".toList params).getD []
      match (← Async.history (.get (historyKey peer url)) : Option Str) with
      | some proxy => let _ ← writeAll (historyReply proxy)
      | none       => let _ ← writeAll noContent
    else
      let _ ← writeAll noContent
  | _ => let _ ← writeAll noContent

-- Everything that an attempt loop depends on.
structure Job where
  config : Config
  fuel   : Nat
  peer   : IpAddr
  req    : ClientRequest
  key    : ClientKey
  target : Target

-- What is done with a leased proxy after an attempt, and whether the client is to be served by yet
-- another attempt.
def settle (j : Job) (proxy : Proxy) : RelayOutcome → Async Bool
  | .ok => do
    let _ ← Async.history (.record (historyKey j.peer j.req.path) proxy.key.display)
    putOk j.config (proxy.recordAttempt (some 0) none)
    return false
  | .retryableFailure e => do
    putFailed j.config (proxy.recordAttempt none (some e))
    return true
  | .clientCommitted e => do
    putFailed j.config (proxy.recordAttempt none (some e))
    return false
  | .clientGone => do
    putOk j.config (proxy.recordAttempt (some 0) none)
    return false

-- The loop over the attempts, of which `tries` are left.
def attempts (j : Job) : Nat → Nat → Async Unit
  | 0, _ => do
    let _ ← writeAll (terminalFailure j.req.frontend)
  | tries + 1, attempt => do
    match ← Pool.get j.config j.fuel j.req.scheme j.key with
    | none => do
      let _ ← writeAll (terminalFailure j.req.frontend)
    | some proxy =>
      Async.when (0 < attempt) <| Async.exec .bumpRotations
      let proto := chooseProto proxy j.req.scheme
      let outcome ← relay proxy proto j.target j.req j.config.httpAllowedCodes
      match ← settle j proxy outcome with
      | true  => attempts j tries (attempt + 1)
      | false => return

structure ConnCtx where
  config       : Config
  expectedAuth : Option AuthExpect
  fuel         : Nat

-- Whether the gate for HTTP clients lets a request pass.
def isAuthorized (expected : Option AuthExpect) (req : ClientRequest) : Bool :=
  req.frontend = .socks5 || expected.all fun e => req.proxyAuth = some e.basic

-- What `handle_client` does before its loop over the attempts. Without a job, it is done.
def accept (ctx : ConnCtx) (peer : IpAddr) : Async (Option Job) := do
  let some req ← parseClientRequest ctx.expectedAuth | return none
  if !isAuthorized ctx.expectedAuth req then
    let _ ← writeAll authRequired
    return none
  if req.host = controlHost then
    serveControl req peer (controlRemoveAllowed ctx.expectedAuth.isSome peer)
    return none
  let ip : Option IpAddr := ← Async.net (.resolve req.host)
  return some {
    config := ctx.config
    fuel   := ctx.fuel
    peer   := peer
    req    := req
    key    := clientKey ctx.config peer req
    target := ⟨req.host, ip, req.port⟩
  }

def handleClient (ctx : ConnCtx) (peer : IpAddr) : Async Unit := do
  match ← accept ctx peer with
  | some j => attempts j ctx.config.maxTries 0
  | none   => return

end Server
