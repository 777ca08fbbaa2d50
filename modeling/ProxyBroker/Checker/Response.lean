import ProxyBroker.Checker.Anonymity
import ProxyBroker.Negotiator

open Utf8

-- The page that a judge has sent back through a proxy.
namespace Checker

def maxJudgeResponse : Nat := 1024 * 1024

-- `read_to_end` for a reader that is limited to `limit` more bytes. Every read but the last one yields at least
-- one of them, so `limit` is enough fuel.
def readToEnd : Nat → Nat → Bytes → Async (Except ProxyError Bytes)
  | 0, _, buf | _, 0, buf => pure (.ok buf)
  | n + 1, limit + 1, buf => do
    match (← Async.net (.upRead .exchange (limit + 1)) : ReadResult) with
    | .timedOut => pure (.error .timeout)
    | .error    => pure (.error .reset)
    | .data bs  =>
      let bs := bs.take (limit + 1)
      if bs = [] then pure (.ok buf) else readToEnd n (limit + 1 - bs.length) (buf ++ bs)

def readResponse : Async (Except ProxyError Bytes) := do
  match ← readToEnd (maxJudgeResponse + 1) (maxJudgeResponse + 1) [] with
  | .error e => pure (.error e)
  | .ok buf  =>
    if buf = [] then pure (.error .emptyRecv)
    else if maxJudgeResponse < buf.length then pure (.error .badResponse)
    else pure (.ok buf)

-- The position of the first empty line, that is `raw.windows(4).position(|w| w == b"\r\n\r\n")`.
def headEndPos : Bytes → Option Nat
  | []      => none
  | b :: bs => if Negotiator.headEnd.isPrefixOf (b :: bs) then some 0 else (headEndPos bs).map (· + 1)

def splitHeadBody (raw : Bytes) : Bytes × Bytes :=
  match headEndPos raw with
  | some i => (raw.take i, raw.drop (i + 4))
  | none   => (raw, [])

-- The values of `Content-Encoding` that are not ignored.
inductive Coding
  | gzip | deflate
  deriving DecidableEq

def Coding.ofName? (v : Str) : Option Coding :=
  if v = "gzip".toList then some gzip
  else if v = "deflate".toList then some deflate
  else none

-- What the decoders of `flate2` read until the end of a body, or `none` if they fail. For a valid stream, these are
-- its contents.
abbrev Flate2 := Coding → Bytes → Option Bytes

section Decompression

variable (u : Unicode) (flate2 : Flate2)

def contentEncoding (head : Bytes) : Option Coding :=
  (Str.lines (u.toLowercase (lossy head))).findSome? (Str.stripPrefix "content-encoding:".toList)
    |>.map Str.trim
    |>.bind Coding.ofName?

-- The contents of a body that is to be inflated, as far as they are text.
def inflated (head body : Bytes) : Option Str := do
  let c ← contentEncoding u head
  let out ← flate2 c body
  fromUtf8 out

def decompress (head body : Bytes) : Str :=
  (inflated u flate2 head body).getD (lossy body)

-- The text of a response.
def page (raw : Bytes) : Str :=
  let (head, body) := splitHeadBody raw
  decompress u flate2 head body

end Decompression
end Checker
