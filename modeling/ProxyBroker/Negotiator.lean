import ProxyBroker.Effects
import ProxyBroker.Utils

namespace Negotiator

structure Target where
  host : Str
  ip   : Option IpAddr
  port : UInt16
  deriving DecidableEq

inductive Stream
  | plain | tls
  deriving DecidableEq

def smtpReady : UInt16 := 220

-- The value of a `Proxy-Authorization` header.
def basic (c : Credentials) : Str :=
  "Basic ".toList ++ base64Encode (Utf8.encode (c.username ++ ':' :: c.password))

def authLine (c : Credentials) : Str :=
  "Proxy-Authorization: ".toList ++ basic c ++ "\r\n".toList

def pkgVersion : Str :=
  "0.4.7".toList

def connectRequest (host : Str) (port : UInt16) (creds : Option Credentials) : Bytes :=
  let bare := (Str.stripPrefix ['['] host).bind (Str.stripSuffix [']']) |>.getD host
  let (authority, hostHdr) :=
    if ':' ∈ bare then ('[' :: bare ++ "]:".toList ++ Str.ofNat port.toNat, '[' :: bare ++ [']'])
    else (bare ++ ':' :: Str.ofNat port.toNat, bare)
  let auth := match creds with
    | some c => authLine c
    | none   => []
  Utf8.encode <|
    "CONNECT ".toList ++ authority ++ " HTTP/1.1\r\nHost: ".toList ++ hostHdr ++
    "\r\nUser-Agent: PxBroker/".toList ++ pkgVersion ++ "/\r\n".toList ++ auth ++
    "Connection: keep-alive\r\n\r\n".toList

def headEnd : Bytes :=
  crlf ++ crlf

def headLimit : Nat := 8192

-- A head of more than `headLimit` bytes is given up on, so the fuel given by `readHead` lasts.
def readHeadLoop : Nat → Bytes → Async (Except ProxyError Bytes)
  | 0, _       => pure (.error .badResponse)
  | n + 1, buf => do
    match (← Async.net (.upRead .negotiation 1) : ReadResult) with
    | .timedOut        => pure (.error .timeout)
    | .error           => pure (.error .reset)
    | .data []         => pure (.error (if buf = [] then .emptyRecv else .reset))
    | .data (byte :: _) =>
      let buf := buf ++ [byte]
      if headEnd.isSuffixOf buf then pure (.ok buf)
      else if headLimit < buf.length then pure (.error .badResponse)
      else readHeadLoop n buf

def readHead : Async (Except ProxyError Bytes) :=
  readHeadLoop (headLimit + 1) []

def httpConnect (target : Target) (creds : Option Credentials) : Async (Except ProxyError Unit) := do
  let req := connectRequest target.host target.port creds
  match (← Async.net (.upWrite .negotiation req) : WriteResult) with
  | .timedOut _ => pure (.error .timeout)
  | .failed _   => pure (.error .reset)
  | .done       =>
    match ← readHead with
    | .error e => pure (.error e)
    | .ok head =>
      if getStatusCode head 9 12 ≠ 200 then pure (.error .badStatus) else pure (.ok ())

-- `read_exact` for a proxy's reply: it reads until `need` more bytes have arrived. Every read yields
-- at least one byte, so `need` is enough fuel.
def readExactLoop : Nat → Nat → Bytes → Async (Except ProxyError Bytes)
  | _, 0, acc            => pure (.ok acc)
  | 0, _, _              => pure (.error .reset)
  | n + 1, need + 1, acc => do
    match (← Async.net (.upRead .negotiation (need + 1)) : ReadResult) with
    | .timedOut => pure (.error .timeout)
    | .error    => pure (.error .reset)
    | .data bs  =>
      let bs := bs.take (need + 1)
      if bs = [] then pure (.error .reset)
      else readExactLoop n (need + 1 - bs.length) (acc ++ bs)

def readSmtpBanner : Async (Except ProxyError Unit) := do
  match ← readExactLoop 3 3 [] with
  | .error e => pure (.error e)
  | .ok buf  => if getStatusCode buf 0 3 ≠ smtpReady then pure (.error .badStatus) else pure (.ok ())

def ofHandshake : HandshakeResult → Except ProxyError Unit
  | .ok       => .ok ()
  | .failed   => .error .badResponse
  | .timedOut => .error .timeout

def socks4 (target : Target) : Async (Except ProxyError Stream) := do
  match target.ip with
  | some (.v4 a b c d) =>
    let r : HandshakeResult := ← Async.net (.socks4 (.v4 a b c d) target.port)
    pure ((ofHandshake r).map fun _ => .plain)
  | _ => pure (.error .badResponse)

def socks5 (target : Target) (creds : Option Credentials) : Async (Except ProxyError Stream) := do
  let dst := match target.ip with
    | some ip => SocksDst.ip ip
    | none    => SocksDst.host target.host
  let r : HandshakeResult := ← Async.net (.socks5 dst target.port creds)
  pure ((ofHandshake r).map fun _ => .plain)

-- A host that is not a valid server name makes the handshake fail.
def tlsUpgrade (host : Str) : Async (Except ProxyError Stream) := do
  let r : HandshakeResult := ← Async.net (.tls host)
  pure ((ofHandshake r).map fun _ => .tls)

def negotiate (proto : Proto) (target : Target) (creds : Option Credentials) :
    Async (Except ProxyError Stream) := do
  match proto with
  | .http      => pure (.ok .plain)
  | .socks4    => socks4 target
  | .socks5    => socks5 target creds
  | .connect80 => return (← httpConnect target creds).map fun _ => .plain
  | .connect25 =>
    match ← httpConnect target creds with
    | .error e => pure (.error e)
    | .ok _    => return (← readSmtpBanner).map fun _ => .plain
  | .https =>
    match ← httpConnect target creds with
    | .error e => pure (.error e)
    | .ok _    => tlsUpgrade target.host

def tunnelProto (p : Proxy) : Option Proto :=
  [Proto.socks5, .socks4, .connect80].find? p.hasType
    |>.orElse fun _ => if p.hasType .https then some .connect80 else none

def probeTunnel (k : Key) (target : Target) (creds : Option Credentials) : Async Bool := do
  match (← Async.net (.dial .probe k) : DialResult) with
  | .ok => return (← negotiate .connect80 target creds).isOk
  | _   => pure false

end Negotiator
