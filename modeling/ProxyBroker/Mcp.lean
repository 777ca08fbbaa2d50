import ProxyBroker.Pool.Program
import ProxyBroker.Objects.IpParse

namespace Mcp

structure ProxyInfo where
  proxy       : Str
  types       : List Str
  avgRespTime : ℚ
  errorRate   : ℚ

def handleGetProxy (scheme : Scheme) (country : Option Str) : Async (Option ProxyInfo) := do
  match (← Async.pool (.tryGet scheme country) : Option Proxy) with
  | none       => return none
  | some proxy =>
    let info : ProxyInfo := {
      proxy       := proxy.addr
      types       := Proto.all.filter proxy.hasType |>.map Proto.asStr
      avgRespTime := proxy.avgRespTime
      errorRate   := proxy.errorRate
    }
    Async.exec (.add .holder proxy)
    return some info

def handleReportDead (addr : Str) : Async Bool := do
  match Key.parse addr with
  | some k => Pool.remove k
  | none   => return false

end Mcp
