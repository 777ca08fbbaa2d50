import ProxyBroker.Server.Head
import ProxyBroker.Negotiator
import ProxyBroker.Objects.IpParse

open Utf8

namespace Server

inductive Frontend
  | httpForward | httpConnect | socks5
  deriving DecidableEq

structure ClientRequest where
  scheme    : Scheme
  frontend  : Frontend
  host      : Str
  port      : UInt16
  raw       : Bytes
  proxyAuth : Option Str
  path      : Str
  deriving DecidableEq

structure AuthExpect where
  user  : Str
  pass  : Str
  basic : Str
  deriving DecidableEq

def AuthExpect.ofAuth (up : Str) : AuthExpect :=
  let (user, pass) := (Str.splitOnce [':'] up).getD (up, [])
  { user := user, pass := pass, basic := "Basic ".toList ++ base64Encode (encode up) }

-- `read_exact` on the client's socket. Every read yields at least one byte, so the number of bytes
-- to be read is enough fuel.
def readExactLoop : Nat → Nat → Bytes → Async (Option Bytes)
  | _, 0, acc            => pure (some acc)
  | 0, _, _              => pure none
  | n + 1, need + 1, acc => do
    match (← Async.net (.clientRead (need + 1)) : ReadResult) with
    | .data (b :: bs) =>
      let chunk := (b :: bs).take (need + 1)
      readExactLoop n (need + 1 - chunk.length) (acc ++ chunk)
    | _ => pure none

def readExact (n : Nat) : Async (Option Bytes) :=
  readExactLoop n n []

-- A write to the client of which only the success matters.
def writeAll (bs : Bytes) : Async Bool := do
  match (← Async.net (.clientWrite bs) : WriteResult) with
  | .done => pure true
  | _     => pure false

def requestLimit : Nat := 65536

-- The head is read byte by byte. The fuel given by `parseClientRequest` lasts for `requestLimit` bytes
-- after the first one.
def readRequestLoop : Nat → Bytes → Async (Option Bytes)
  | 0, _       => pure none
  | n + 1, buf => do
    match (← Async.net (.clientRead 1) : ReadResult) with
    | .data (byte :: _) =>
      let buf := buf ++ [byte]
      if Negotiator.headEnd.isSuffixOf buf || requestLimit < buf.length then pure (some buf)
      else readRequestLoop n buf
    | _ => pure none

-- What `parse_client_request` makes of the buffered head of an HTTP request.
def parseHttp (buf : Bytes) : Option ClientRequest := do
  let lines := Str.lines (lossy buf)
  let first ← lines.head?
  let parts := Str.splitWhitespace first
  let method ← parts[0]?
  let uri ← parts[1]?
  let proxyAuth := headerValue buf proxyAuthorization
  if Str.eqIgnoreAsciiCase method "CONNECT".toList then
    let (host, port) := splitHostPort uri 443
    some {
      scheme    := .https
      frontend  := .httpConnect
      host      := host
      port      := port
      raw       := []
      proxyAuth := proxyAuth
      path      := uri
    }
  else
    let hostHdr :=
      lines.tail.find? (fun l => "host:".toList.isPrefixOf (Str.asciiLower l))
        |>.map fun l => Str.trim (l.drop 5)
    let hostPort ←
      (Str.stripPrefix "http://".toList uri).map (·.takeWhile (· ≠ '/')) |>.or hostHdr
    let (host, port) := splitHostPort hostPort 80
    some {
      scheme    := .http
      frontend  := .httpForward
      host      := host
      port      := port
      raw       := buf
      proxyAuth := proxyAuth
      path      := uri
    }

def ofBeBytes : Bytes → UInt16
  | [hi, lo] => hi.toUInt16 * 256 + lo.toUInt16
  | _        => 0

def ipv4Text : Bytes → Str
  | [a, b, c, d] => (IpAddr.v4 a b c d).display
  | _            => []

def ipv6Text : Bytes → Str
  | [a₀, b₀, a₁, b₁, a₂, b₂, a₃, b₃, a₄, b₄, a₅, b₅, a₆, b₆, a₇, b₇] =>
    (IpAddr.v6 (ofBeBytes [a₀, b₀]) (ofBeBytes [a₁, b₁]) (ofBeBytes [a₂, b₂]) (ofBeBytes [a₃, b₃])
      (ofBeBytes [a₄, b₄]) (ofBeBytes [a₅, b₅]) (ofBeBytes [a₆, b₆]) (ofBeBytes [a₇, b₇])).display
  | _ => []

-- A SOCKS5 reply with the stub bound address `0.0.0.0:0`.
def socksReply (rep : UInt8) : Bytes :=
  [0x05, rep, 0x00, 0x01, 0, 0, 0, 0, 0, 0]

-- The method selection and, if the server expects credentials, the RFC 1929 exchange.
def socks5Auth (methods : Bytes) (expected : Option AuthExpect) : Async (Option Unit) := do
  match expected with
  | none =>
    if 0x00 ∉ methods then
      let _ ← writeAll [0x05, 0xFF]
      return none
    if !(← writeAll [0x05, 0x00]) then return none
    return some ()
  | some exp =>
    if 0x02 ∉ methods then
      let _ ← writeAll [0x05, 0xFF]
      return none
    if !(← writeAll [0x05, 0x02]) then return none
    let some vu ← readExact 2 | return none
    let some user ← readExact (vu.getD 1 0).toNat | return none
    let some pl ← readExact 1 | return none
    let some pass ← readExact (pl.getD 0 0).toNat | return none
    if user = encode exp.user ∧ pass = encode exp.pass then
      if !(← writeAll [0x01, 0x00]) then return none
      return some ()
    else
      let _ ← writeAll [0x01, 0x01]
      return none

-- The address of a SOCKS5 request, which comes in one of three types.
def socks5Addr (atyp : UInt8) : Async (Option (Str × UInt16)) := do
  if atyp = 0x01 then
    let some a ← readExact 4 | return none
    let some p ← readExact 2 | return none
    return some (ipv4Text a, ofBeBytes p)
  else if atyp = 0x04 then
    let some a ← readExact 16 | return none
    let some p ← readExact 2 | return none
    return some (ipv6Text a, ofBeBytes p)
  else if atyp = 0x03 then
    let some l ← readExact 1 | return none
    let some d ← readExact (l.getD 0 0).toNat | return none
    let some p ← readExact 2 | return none
    return some (lossy d, ofBeBytes p)
  else
    let _ ← writeAll (socksReply 0x08)
    return none

def parseSocks5Request (expected : Option AuthExpect) : Async (Option ClientRequest) := do
  let some nmethods ← readExact 1 | return none
  let some methods ← readExact (nmethods.getD 0 0).toNat | return none
  let some _ ← socks5Auth methods expected | return none
  let some hdr ← readExact 4 | return none
  if hdr.getD 0 0 ≠ 0x05 then return none
  if hdr.getD 1 0 ≠ 0x01 then
    let _ ← writeAll (socksReply 0x07)
    return none
  let some (host, port) ← socks5Addr (hdr.getD 3 0) | return none
  return some {
    scheme    := .https
    frontend  := .socks5
    host      := host
    port      := port
    raw       := []
    proxyAuth := none
    path      := host ++ ':' :: Str.ofNat port.toNat
  }

def parseClientRequest (expected : Option AuthExpect) : Async (Option ClientRequest) := do
  let some first ← readExact 1 | return none
  if first.getD 0 0 = 0x05 then
    parseSocks5Request expected
  else
    let some buf ← readRequestLoop requestLimit first | return none
    return parseHttp buf

end Server
