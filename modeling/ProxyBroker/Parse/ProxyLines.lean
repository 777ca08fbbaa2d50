import ProxyBroker.Objects.Proxy
import ProxyBroker.Parse
import ProxyBroker.Resolver

-- The proxies that a user lists.
namespace Parse

def readLine (pair : Str × Str) : Option Proxy := do
  let ip ← Resolver.parseIpLenient pair.1
  let port ← Str.parseU16 pair.2
  some (Proxy.new ip port ∅)

def parseProxyLines (d : Decimal) (text : Str) : List Proxy :=
  (findAddrsLine d text).filterMap readLine

end Parse
