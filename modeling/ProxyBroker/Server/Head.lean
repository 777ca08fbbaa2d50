import ProxyBroker.Utils

open Utf8

-- The functions of the server that work on a buffered HTTP head.
namespace Server

-- The position of the first CRLF, that is `raw.windows(2).position(|w| w == b"\r\n")`.
def crlfPos : Bytes → Option Nat
  | []          => none
  | [_]         => none
  | b :: c :: bs => if b = cr ∧ c = lf then some 0 else (crlfPos (c :: bs)).map (· + 1)

def injectHeader (raw headerLine : Bytes) : Bytes :=
  match crlfPos raw with
  | some pos => raw.take (pos + 2) ++ headerLine ++ raw.drop (pos + 2)
  | none     => raw

-- The text by which a header is recognized.
def headerStart (name : Str) : Str :=
  Str.asciiLower name ++ [':']

-- Every iteration removes a line end from `rest`, so the length of the head is enough fuel.
def stripLoop (pre : Str) : Nat → Bool → Bytes → Bytes → Bytes
  | 0, _, rest, out         => out ++ rest
  | n + 1, first, rest, out =>
    match crlfPos rest with
    | none     => out ++ rest
    | some pos =>
      let advance := pos + 2
      let isTarget := !first && pre.isPrefixOf (Str.asciiLower (lossy (rest.take pos)))
      let out := if isTarget then out else out ++ rest.take advance
      stripLoop pre n false (rest.drop advance) out

def stripHeader (raw : Bytes) (name : Str) : Bytes :=
  stripLoop (headerStart name) raw.length true raw []

def headerValue (raw : Bytes) (name : Str) : Option Str :=
  (Str.lines (lossy raw)).tail
    |>.find? (fun l => (headerStart name).isPrefixOf (Str.asciiLower l))
    |>.map fun l => Str.trim (l.drop (name.length + 1))

def proxyAuthorization : Str :=
  "Proxy-Authorization".toList

def requestHasBody (raw : Bytes) : Bool :=
  if (headerValue raw "Transfer-Encoding".toList).isSome then true
  else match headerValue raw "Content-Length".toList with
    | some v => (Str.parseUnsigned (2 ^ 64 - 1) (Str.trim v)).all (0 < ·)
    | none   => false

def parseHttpStatus (head : Bytes) : UInt16 :=
  (fromUtf8 head).bind (fun s => (Str.splitWhitespace s)[1]?)
    |>.bind Str.parseU16
    |>.getD 0

def splitHostPort (s : Str) (default : UInt16) : Str × UInt16 :=
  let bracketed := (Str.stripPrefix ['['] s).bind fun rest =>
    match Str.splitOnce "]:".toList rest with
    | some (h, p) => some (h, (Str.parseU16 p).getD default)
    | none        => (Str.stripSuffix [']'] rest).map (·, default)
  bracketed.getD <|
    match Str.rsplitOnce ':' s with
    | some (h, p) => if h = [] then (s, default) else (h, (Str.parseU16 p).getD default)
    | none        => (s, default)

example : splitHostPort "[::1]:8080".toList 80 = ("::1".toList, 8080) := by decide
example : splitHostPort "example.org".toList 80 = ("example.org".toList, 80) := by decide

end Server
