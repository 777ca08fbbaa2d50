import ProxyBroker.Broker.Gather
import ProxyBroker.Parse
import Mathlib.Data.List.DropRight

-- How `str::to_lowercase` maps a character. Only two characters that are not ASCII have an ASCII character in their
-- lowercase.
def Lowers (c : Char) (s : Str) : Prop :=
  if c.toNat < 128 then s = [c.toLower]
  else s ≠ [] ∧ ∀ x ∈ s, x.toNat < 128 → x = 'i' ∨ x = 'k'

-- The tables of Unicode behind `char::is_alphanumeric` and `str::to_lowercase`. The lowercase of a character may depend
-- on the text around it.
structure Unicode extends Decimal where
  isAlphanumeric : Char → Bool
  toLowercase    : Str → Str
  decimal        : ∀ c, isDecimal c → isAlphanumeric c
  alphanumeric   : ∀ c, c.toNat < 128 → isAlphanumeric c = c.isAlphanum
  lowers         : ∀ s, ∃ ps, List.Forall₂ Lowers s ps ∧ toLowercase s = ps.flatten

namespace Utils

open Regular

def isHex (c : Char) : Bool :=
  c.isDigit || ('A' ≤ c && c ≤ 'F') || ('a' ≤ c && c ≤ 'f')

def isZone (c : Char) : Bool :=
  c.isAlphanum || c = '_' || c = '.' || c = '-'

-- `[0-9A-Fa-f:][0-9A-Fa-f:.]*(?:%[A-Za-z0-9_.\-]+)?`
def ipv6CandidateRe : Regular :=
  seq (char fun c => isHex c || c = ':') <|
  seq (star true fun c => isHex c || c = ':' || c = '.') <|
  opt (seq (lit '%') (seq (char isZone) (star true isZone)))

-- A candidate may be followed by dots.
def readCandidate (tok : Str) : Option Str :=
  if ':' ∈ tok then Broker.canonicalizeIp (tok.rdropWhile (· = '.')) else none

def getAllIp (d : Decimal) (page : Str) : Finset Str :=
  let ipv4 := (Parse.ipv4Re d).findIter page
  let ipv6 := ipv6CandidateRe.findIter page
  (ipv4.map fun m => slice page m.1 m.2).toFinset ∪ (ipv6.filterMap fun m => readCandidate (slice page m.1 m.2)).toFinset

end Utils

-- The anonymity baseline of a judge.
structure Marks where
  via   : Nat
  proxy : Nat

namespace Checker

-- The number of occurrences of a pattern after the first `skip` characters of a text.
def matchesFrom (pat : Str) : Nat → Str → Nat
  | _, []            => 0
  | skip + 1, _ :: s => matchesFrom pat skip s
  | 0, c :: s        =>
    if pat.isPrefixOf (c :: s) then matchesFrom pat (pat.length - 1) s + 1 else matchesFrom pat 0 s

-- Occurrences do not overlap.
def matchCount (pat s : Str) : Nat :=
  matchesFrom pat 0 s

def anonymityLevel (u : Unicode) (realExtIps : Finset IpAddr) (marks : Marks) (content : Str) : AnonLevel :=
  let lower := u.toLowercase content
  let found := Utils.getAllIp u.toDecimal lower
  let realVisible := ∃ ip ∈ realExtIps, ip.display ∈ found
  let via := marks.via < matchCount "via".toList lower ∨ marks.proxy < matchCount "proxy".toList lower
  if realVisible then .transparent
  else if via then .anonymous
  else .high

end Checker
