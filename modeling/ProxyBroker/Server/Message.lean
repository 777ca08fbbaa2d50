import ProxyBroker.Server.HandleClient

open Utf8

-- The requests that well-behaved HTTP/1.1 clients send. Nothing here is part of the server.
namespace Server

def space : UInt8 := 32
def colon : UInt8 := 58

-- The delimiters that a token must not contain.
def delimiters : Bytes :=
  encode "\"(),/:;<=>?@[\\]\x7b\x7d".toList

def isVisible (b : UInt8) : Bool :=
  0x21 ≤ b && b ≤ 0x7E

def isTokenByte (b : UInt8) : Bool :=
  isVisible b && b ∉ delimiters

structure Field where
  name   : Bytes
  value  : Bytes
  named  : name ≠ []
  token  : ∀ b ∈ name, isTokenByte b
  text   : ∀ b ∈ value, b ≠ cr ∧ b ≠ lf

namespace Field

def line (f : Field) : Bytes :=
  f.name ++ colon :: f.value

-- Names are compared without regard to their case.
def Is (f : Field) (name : Str) : Prop :=
  Str.asciiLower (f.name.map ofAscii) = Str.asciiLower name

instance (f : Field) (name : Str) : Decidable (f.Is name) :=
  inferInstanceAs (Decidable (_ = _))

def render (fs : List Field) : Bytes :=
  fs.flatMap fun f => f.line ++ crlf

end Field

-- A request without a body that is not a `CONNECT`, so that it is meant to be forwarded.
structure Request where
  method  : Bytes
  target  : Bytes
  fields  : List Field
  named   : method ≠ []
  token   : ∀ b ∈ method, isTokenByte b
  aimed   : target ≠ []
  visible : ∀ b ∈ target, isVisible b
  forward : Str.eqIgnoreAsciiCase (method.map ofAscii) "CONNECT".toList = false

namespace Request

def line (r : Request) : Bytes :=
  r.method ++ space :: r.target ++ space :: encode "HTTP/1.1".toList

def render (r : Request) : Bytes :=
  r.line ++ crlf ++ Field.render r.fields ++ crlf

-- The host that a request is addressed to: the one of its target or, if that is only a path, the one
-- that its `Host` field names.
def host (r : Request) : Option Str :=
  let named := r.fields.find? (·.Is "Host".toList) |>.map fun f => Str.trim (lossy f.value)
  (Str.stripPrefix "http://".toList (lossy r.target)).map (·.takeWhile (· ≠ '/'))
    |>.or named
    |>.map fun authority => (splitHostPort authority 80).1

-- The requests that differ at most in their `Proxy-Authorization` fields.
def Resembles (r r' : Request) : Prop :=
  r.line = r'.line ∧
  r.fields.filter (¬·.Is proxyAuthorization) = r'.fields.filter (¬·.Is proxyAuthorization)

end Request

-- What a client sends over a connection.
def stream (rs : List Request) : Bytes :=
  rs.flatMap Request.render

end Server
