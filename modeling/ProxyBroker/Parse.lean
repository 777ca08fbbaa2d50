import ProxyBroker.Regex.Extended
import ProxyBroker.Text.Str

-- The Unicode property behind `\d`.
structure Decimal where
  isDecimal : Char → Bool
  ascii     : ∀ c, c.toNat < 128 → isDecimal c = c.isDigit

namespace Parse

open Regular

variable (d : Decimal)

def digit : Regular :=
  char d.isDecimal

-- `25[0-5]|2[0-4]\d|[01]?\d\d?`
def octet : Regular :=
  alt (seq (lit '2') (seq (lit '5') (char fun c => '0' ≤ c ∧ c ≤ '5'))) <|
  alt (seq (lit '2') (seq (char fun c => '0' ≤ c ∧ c ≤ '4') (digit d))) <|
  seq (opt (char fun c => c = '0' ∨ c = '1')) (seq (digit d) (opt (digit d)))

-- `(?:(?:25[0-5]|2[0-4]\d|[01]?\d\d?)\.){3}(?:25[0-5]|2[0-4]\d|[01]?\d\d?)`
def ipv4Re : Regular :=
  seq ((seq (octet d) (lit '.')).times 3) (octet d)

-- `\d{2,5}`
def portRe : Regular :=
  seq ((digit d).times 2) ((digit d).upTo 3)

def findAddrsLine (text : Str) : List (Str × Str) :=
  (text.splitOn '\n').filterMap fun line => do
    let ip ← (ipv4Re d).findAt line 0
    let rest := line.drop ip.2
    let port ← (portRe d).findAt rest 0
    some (slice line ip.1 ip.2, slice rest port.1 port.2)

-- The port that belongs to an address which ends at an index. It is empty if there is another address first.
def portAfter (text : Str) (after : Nat) : Option Str :=
  match (portRe d).findAt text after, (ipv4Re d).findAt text after with
  | some p, some ip => if p.1 < ip.1 then some (slice text p.1 p.2) else some []
  | some p, none    => some (slice text p.1 p.2)
  | none, some _    => some []
  | none, none      => none

-- Each round ends at a later index, so the fuel given by `findAddrsGlobal` lasts.
def findAddrsGlobalFrom (text : Str) : Nat → Nat → List (Str × Str)
  | 0, _                 => []
  | fuel + 1, searchFrom =>
    match (ipv4Re d).findAt text searchFrom with
    | none    => []
    | some ip =>
      match portAfter d text ip.2 with
      | some port => (slice text ip.1 ip.2, port) :: findAddrsGlobalFrom text fuel ip.2
      | none      => findAddrsGlobalFrom text fuel ip.2

def findAddrsGlobal (text : Str) : List (Str × Str) :=
  findAddrsGlobalFrom d text (text.length + 1) 0

end Parse
