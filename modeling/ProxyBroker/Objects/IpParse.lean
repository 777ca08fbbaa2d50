import ProxyBroker.Objects.Types

-- The parser behind `FromStr` for the address types of `std::net`. A parser consumes the start of a
-- text and leaves the rest.
namespace IpParse

def digit (radix : Nat) (c : Char) : Option Nat :=
  let n :=
    if c.isDigit then some (c.toNat - '0'.toNat)
    else if 'a' ≤ c ∧ c ≤ 'f' then some (c.toNat - 'a'.toNat + 10)
    else if 'A' ≤ c ∧ c ≤ 'F' then some (c.toNat - 'A'.toNat + 10)
    else none
  n.filter (· < radix)

def readNumber (radix : Nat) (maxDigits : Option Nat) (allowZeroPrefix : Bool) (bound : Nat)
    (s : Str) : Option (Nat × Str) :=
  let ds := s.takeWhile (digit radix · |>.isSome)
  let n := ds.foldl (fun n c => radix * n + (digit radix c).getD 0) 0
  if maxDigits.any (· < ds.length) || ds = [] || bound < n then none
  else if !allowZeroPrefix && ds.head? = some '0' && 1 < ds.length then none
  else some (n, s.drop ds.length)

def readChar (c : Char) : Str → Option (Unit × Str)
  | []     => none
  | d :: s => if d = c then some ((), s) else none

def readSeparator {α : Type} (sep : Char) (i : Nat) (inner : Str → Option (α × Str)) (s : Str) :
    Option (α × Str) :=
  if i = 0 then inner s
  else (readChar sep s).bind fun (_, s) => inner s

def readOctet (i : Nat) (s : Str) : Option (UInt8 × Str) :=
  readSeparator '.' i (readNumber 10 (some 3) false 255) s |>.map fun (n, s) => (UInt8.ofNat n, s)

def readIpv4 (s : Str) : Option ((UInt8 × UInt8 × UInt8 × UInt8) × Str) := do
  let (a, s) ← readOctet 0 s
  let (b, s) ← readOctet 1 s
  let (c, s) ← readOctet 2 s
  let (d, s) ← readOctet 3 s
  some ((a, b, c, d), s)

-- Up to `limit` groups, of which `i` have been read, and whether they end with an IPv4 address. Such
-- an address takes up two groups.
def readGroups (limit : Nat) : Nat → Nat → Str → List UInt16 × Bool × Str
  | 0, _, s        => ([], false, s)
  | fuel + 1, i, s =>
    let ipv4 := if i + 1 < limit then readSeparator ':' i readIpv4 s else none
    match ipv4 with
    | some ((a, b, c, d), s) =>
      ([a.toUInt16 * 256 + b.toUInt16, c.toUInt16 * 256 + d.toUInt16], true, s)
    | none =>
      match readSeparator ':' i (readNumber 16 (some 4) true 65535) s with
      | some (g, s) =>
        let (gs, isV4, s) := readGroups limit fuel (i + 1) s
        (UInt16.ofNat g :: gs, isV4, s)
      | none => ([], false, s)

def ofSegments : List UInt16 → Option IpAddr
  | [s₀, s₁, s₂, s₃, s₄, s₅, s₆, s₇] => some (.v6 s₀ s₁ s₂ s₃ s₄ s₅ s₆ s₇)
  | _                                => none

def readIpv6 (s : Str) : Option (IpAddr × Str) :=
  let (head, headV4, s) := readGroups 8 8 0 s
  if head.length = 8 then (ofSegments head).map (·, s)
  else if headV4 then none
  else do
    let (_, s) ← readChar ':' s
    let (_, s) ← readChar ':' s
    let limit := 8 - (head.length + 1)
    let (tail, _, s) := readGroups limit limit 0 s
    let zeroes := List.replicate (8 - head.length - tail.length) 0
    (ofSegments (head ++ zeroes ++ tail)).map (·, s)

def readIp (s : Str) : Option (IpAddr × Str) :=
  match readIpv4 s with
  | some ((a, b, c, d), s) => some (.v4 a b c d, s)
  | none                   => readIpv6 s

-- Nothing may be left over.
def complete {α : Type} : Option (α × Str) → Option α
  | some (a, []) => some a
  | _            => none

end IpParse

def IpAddr.parse (s : Str) : Option IpAddr :=
  IpParse.complete (IpParse.readIp s)

namespace Key

open IpParse

def readPort (s : Str) : Option (UInt16 × Str) := do
  let (_, s) ← readChar ':' s
  let (n, s) ← readNumber 10 none true 65535 s
  some (UInt16.ofNat n, s)

def readV4 (s : Str) : Option (Key × Str) := do
  let ((a, b, c, d), s) ← readIpv4 s
  let (port, s) ← readPort s
  some (⟨.v4 a b c d, port⟩, s)

-- The scope of an IPv6 socket address is parsed, but it is not part of its IP.
def readScope (s : Str) : Option (Unit × Str) := do
  let (_, s) ← readChar '%' s
  let (_, s) ← readNumber 10 none true (2 ^ 32 - 1) s
  some ((), s)

def readV6 (s : Str) : Option (Key × Str) := do
  let (_, s) ← readChar '[' s
  let (ip, s) ← readIpv6 s
  let s := (readScope s).elim s Prod.snd
  let (_, s) ← readChar ']' s
  let (port, s) ← readPort s
  some (⟨ip, port⟩, s)

-- The IP and port of `addr.parse::<SocketAddr>()`.
def parse (s : Str) : Option Key :=
  complete ((readV4 s).orElse fun _ => readV6 s)

end Key

example : IpAddr.parse "2001:db8::1".toList = some (.v6 0x2001 0xdb8 0 0 0 0 0 1) := by decide
example : IpAddr.parse "127.0.0.01".toList = none := by decide
example : Key.parse "[::ffff:1.2.3.4]:80".toList = some ⟨.v6 0 0 0 0 0 0xFFFF 0x102 0x304, 80⟩ := by
  decide
