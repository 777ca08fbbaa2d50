import ProxyBroker.Objects.Theorems.IpChars
import ProxyBroker.Server.Head
import ProxyBroker.Text.Digits

-- The URIs that clients put into their requests. Nothing here is part of the server.
namespace Uri

def IsGraphic (c : Char) : Prop :=
  0x21 ≤ c.toNat ∧ c.toNat ≤ 0x7E

instance (c : Char) : Decidable (IsGraphic c) :=
  inferInstanceAs (Decidable (_ ∧ _))

def isUnreserved (c : Char) : Bool :=
  c.isAlphanum || c ∈ ['-', '.', '_', '~']

def isSubDelim (c : Char) : Bool :=
  c ∈ "!$&'()*+,;=".toList

-- The characters of registered names. The digits after a percent sign are not restricted any further.
def isNameChar (c : Char) : Bool :=
  isUnreserved c || isSubDelim c || c = '%'

def isPathChar (c : Char) : Bool :=
  isNameChar c || c ∈ [':', '@', '/']

def isQueryChar (c : Char) : Bool :=
  isPathChar c || c = '?'

-- A host is a name (this includes IPv4 addresses) or an IPv6 address, which is put in brackets.
inductive Host
  | name (s : Str)
  | literal (s : Str)
  deriving DecidableEq

namespace Host

def bare : Host → Str
  | name s    => s
  | literal s => s

def text : Host → Str
  | name s    => s
  | literal s => '[' :: s ++ [']']

def isLiteral : Host → Bool
  | name _    => false
  | literal _ => true

def Valid : Host → Prop
  | name s    => ∀ c ∈ s, isNameChar c
  | literal s => 2 ≤ s.count ':' ∧ ∀ c ∈ s, IpParse.IsV6Char c

end Host

end Uri

open Uri

-- An absolute URI whose scheme is `http`.
structure HttpUri where
  scheme      : Str
  userinfo    : Option Str
  host        : Host
  port        : Option Str
  path        : Str
  query       : Option Str
  fragment    : Option Str
  scheme_eq   : Str.asciiLower scheme = "http".toList
  userinfo_ok : ∀ w ∈ userinfo, ∀ c ∈ w, isNameChar c ∨ c = ':'
  host_ok     : host.Valid
  port_ok     : ∀ p ∈ port, ∀ c ∈ p, c.isDigit
  path_ok     : (path = [] ∨ path.head? = some '/') ∧ ∀ c ∈ path, isPathChar c
  query_ok    : ∀ q ∈ query, ∀ c ∈ q, isQueryChar c
  fragment_ok : ∀ f ∈ fragment, ∀ c ∈ f, isQueryChar c

namespace HttpUri

variable (u : HttpUri)

def authority : Str :=
  u.userinfo.elim [] (· ++ ['@']) ++ (u.host.text ++ u.port.elim [] (':' :: ·))

-- The query and the fragment.
def suffix : Str :=
  u.query.elim [] ('?' :: ·) ++ u.fragment.elim [] ('#' :: ·)

-- What comes after the scheme and its slashes.
def rest : Str :=
  u.authority ++ (u.path ++ u.suffix)

def text : Str :=
  u.scheme ++ "://".toList ++ u.rest

-- The port is 80 if it is absent or empty.
def portNumber : Nat :=
  u.port.elim 80 fun ds => if ds = [] then 80 else Str.valueOf ds

-- What comes between the authority and the next slash.
def tail : Str :=
  (u.path ++ u.suffix).takeWhile (· ≠ '/')

end HttpUri

namespace Server

-- A request line with an absolute URI.
structure RequestLine where
  method  : Str
  uri     : HttpUri
  named   : method ≠ []
  graphic : ∀ c ∈ method, IsGraphic c

namespace RequestLine

variable (l : RequestLine)

def render : Str :=
  l.method ++ ' ' :: (l.uri.text ++ " HTTP/1.1\r\n".toList)

def isConnect : Bool :=
  Str.eqIgnoreAsciiCase l.method "CONNECT".toList

end RequestLine

end Server
