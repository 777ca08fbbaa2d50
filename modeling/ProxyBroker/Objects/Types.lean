import ProxyBroker.Text.Str
import Mathlib.Data.Fintype.Pi

-- Durations and points in time are counted in nanoseconds.
abbrev Duration := Nat
abbrev Instant := Nat

-- The seconds of a point in time are an `i64`.
def Instant.checkedAdd (t : Instant) (d : Duration) : Option Instant :=
  if (d + t) / 1000000000 < 0x8000000000000000 then some (d + t) else none

inductive Proto
  | http | https | socks4 | socks5 | connect80 | connect25
  deriving DecidableEq

namespace Proto

-- The order in which the variants are declared is also the one in which a `BTreeMap` iterates.
def all : List Proto :=
  [http, https, socks4, socks5, connect80, connect25]

def asStr : Proto → Str
  | http      => "HTTP".toList
  | https     => "HTTPS".toList
  | socks4    => "SOCKS4".toList
  | socks5    => "SOCKS5".toList
  | connect80 => "CONNECT:80".toList
  | connect25 => "CONNECT:25".toList

def parse (s : Str) : Option Proto :=
  all.find? fun p => Str.eqIgnoreAsciiCase p.asStr s

-- Protocols are displayed by the length of their name, and then by its last byte.
def displayOrderKey (p : Proto) : Nat × Nat :=
  (p.asStr.length, (p.asStr.getLast?.map Char.toNat).getD 0)

-- Only HTTP carries a level of anonymity.
def checksAnonLevel : Proto → Bool
  | http => true
  | _    => false

theorem mem_all (p : Proto) : p ∈ all := by
  cases p <;> decide

theorem parse_asStr (p : Proto) : parse p.asStr = some p := by
  cases p <;> decide

instance : Fintype Proto where
  elems := ⟨all, by decide⟩
  complete := mem_all

end Proto

inductive AnonLevel
  | transparent | anonymous | high
  deriving DecidableEq

namespace AnonLevel

def all : List AnonLevel :=
  [transparent, anonymous, high]

def asStr : AnonLevel → Str
  | transparent => "Transparent".toList
  | anonymous   => "Anonymous".toList
  | high        => "High".toList

def parse (s : Str) : Option AnonLevel :=
  all.find? fun l => Str.eqIgnoreAsciiCase l.asStr s

theorem parse_asStr (l : AnonLevel) : parse l.asStr = some l := by
  cases l <;> decide

instance : Fintype AnonLevel where
  elems := ⟨all, by decide⟩
  complete l := by cases l <;> decide

theorem asStr_ne_nil (l : AnonLevel) : l.asStr ≠ [] := by
  cases l <;> decide

end AnonLevel

inductive Scheme
  | http | https
  deriving DecidableEq

inductive JudgeScheme
  | http | https | smtp
  deriving DecidableEq

def Proto.judgeScheme : Proto → JudgeScheme
  | https     => .https
  | connect25 => .smtp
  | _         => .http

-- A requested protocol. The levels of anonymity `none` do not restrict it.
structure TypeSpec where
  proto  : Proto
  levels : Option (List AnonLevel)
  deriving DecidableEq

inductive ProxyError
  | connFailed | timeout | reset | emptyRecv | badStatus | badResponse | errorOnStream
  | disallowedStatus (code : UInt16)
  | resolve
  deriving DecidableEq

def ProxyError.asStr : ProxyError → Str
  | connFailed         => "connection_failed".toList
  | timeout            => "connection_timeout".toList
  | reset              => "connection_is_reset".toList
  | emptyRecv          => "empty_response".toList
  | badStatus          => "bad_status".toList
  | badResponse        => "bad_response".toList
  | errorOnStream      => "error_on_stream".toList
  | disallowedStatus _ => "disallowed_status".toList
  | resolve            => "resolve_failed".toList

inductive IpAddr
  | v4 (a b c d : UInt8)
  | v6 (s₀ s₁ s₂ s₃ s₄ s₅ s₆ s₇ : UInt16)
  deriving DecidableEq

namespace IpAddr

def isLoopback : IpAddr → Bool
  | v4 a _ _ _                 => a = 127
  | v6 s₀ s₁ s₂ s₃ s₄ s₅ s₆ s₇ => [s₀, s₁, s₂, s₃, s₄, s₅, s₆, s₇] = [0, 0, 0, 0, 0, 0, 0, 1]

def displayV4 (a b c d : UInt8) : Str :=
  ['.'].intercalate <| [a, b, c, d].map (Str.ofNat ·.toNat)

def displaySegments (ss : List UInt16) : Str :=
  [':'].intercalate <| ss.map (Nat.toDigits 16 ·.toNat)

-- The start and length of the first longest run of zero segments.
def zeroes (ss : List UInt16) : Nat × Nat :=
  go ss 0 (0, 0) (0, 0)
where
  go : List UInt16 → Nat → Nat × Nat → Nat × Nat → Nat × Nat
    | [], _, _, longest             => longest
    | s :: ss, i, current, longest  =>
      if s = 0 then
        let current := (if current.2 = 0 then i else current.1, current.2 + 1)
        go ss (i + 1) current (if longest.2 < current.2 then current else longest)
      else
        go ss (i + 1) (0, 0) longest

def display : IpAddr → Str
  | v4 a b c d                 => displayV4 a b c d
  | v6 0 0 0 0 0 0xFFFF hi lo  =>
    "::ffff:".toList ++
      displayV4 (hi / 256).toUInt8 (hi % 256).toUInt8 (lo / 256).toUInt8 (lo % 256).toUInt8
  | v6 s₀ s₁ s₂ s₃ s₄ s₅ s₆ s₇ =>
    let ss := [s₀, s₁, s₂, s₃, s₄, s₅, s₆, s₇]
    let (start, len) := zeroes ss
    if 1 < len then
      displaySegments (ss.take start) ++ "::".toList ++ displaySegments (ss.drop (start + len))
    else
      displaySegments ss

example : (v6 0x2001 0xdb8 0 0 1 0 0 1).display = "2001:db8::1:0:0:1".toList := by decide
example : (v6 0 0 0 0 0 0xFFFF 0x7F00 1).display = "::ffff:127.0.0.1".toList := by decide

-- The position of an address in the order of Rust's `IpAddr`.
def toNat : IpAddr → Nat
  | v4 a b c d => [a, b, c, d].foldl (fun n x => 256 * n + x.toNat) 0
  | v6 s₀ s₁ s₂ s₃ s₄ s₅ s₆ s₇ =>
    [s₀, s₁, s₂, s₃, s₄, s₅, s₆, s₇].foldl (fun n x => 65536 * n + x.toNat) 0 + 2 ^ 32

end IpAddr

-- The pair `(host, port)` that identifies a proxy.
structure Key where
  host : IpAddr
  port : UInt16
  deriving DecidableEq

namespace Key

-- The position of a key in the order of Rust's `(IpAddr, u16)`.
def toNat (k : Key) : Nat :=
  65536 * k.host.toNat + k.port.toNat

-- The format `{host}:{port}`, which does not bracket IPv6 addresses.
def display (k : Key) : Str :=
  k.host.display ++ ':' :: Str.ofNat k.port.toNat

end Key

structure Credentials where
  username : Str
  password : Str
  deriving DecidableEq

structure Region where
  code : Str
  name : Str
  deriving DecidableEq

structure Country where
  code   : Str
  name   : Str
  region : Option Region
  city   : Option Str
  deriving DecidableEq

structure Asn where
  number : UInt32
  org    : Option Str
  deriving DecidableEq

structure Caps where
  cookieEcho  : Bool
  refererEcho : Bool
  deriving DecidableEq

inductive TrustSignal
  | canaryMismatch | injectedHeader | certMismatch
  deriving DecidableEq
