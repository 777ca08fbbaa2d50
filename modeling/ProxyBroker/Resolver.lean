import ProxyBroker.Objects.IpParse

namespace Resolver

-- The octets of an IPv4 address, which may have leading zeros.
def octets (host : Str) : Option IpAddr :=
  match (host.splitOn '.').mapM (Str.parseUnsigned 255) with
  | some [a, b, c, d] => some (.v4 (UInt8.ofNat a) (UInt8.ofNat b) (UInt8.ofNat c) (UInt8.ofNat d))
  | _                 => none

def parseIpLenient (host : Str) : Option IpAddr :=
  if host = [] then none
  else match IpAddr.parse host with
    | some ip => some ip
    | none    => if '.' ∈ host ∧ ':' ∉ host then octets host else none

def hostIsIp (host : Str) : Bool :=
  (parseIpLenient host).isSome

example : parseIpLenient "010.0.0.1".toList = some (.v4 10 0 0 1) := by decide
example : parseIpLenient "1.2.3".toList = none := by decide

end Resolver
