import ProxyBroker.Json.Decode
import ProxyBroker.Persist.Types
import ProxyBroker.Objects.IpParse
import ProxyBroker.Utils
import Mathlib.Data.List.Sort

-- A list of proxies is saved as a file with a document on each line.
namespace Persist

open Json

section Serialize

def typesSorted (p : Proxy) : List (Proto × Option AnonLevel) :=
  (Types.entries p.types).mergeSort fun e e' =>
    let k := e.1.displayOrderKey
    let k' := e'.1.displayOrderKey
    k.1 < k'.1 || (k.1 = k'.1 && k.2 ≤ k'.2)

-- Neither part of a location is left out. What is missing is empty, or `null` for a city.
def geoToJson (geo : Option Country) : Json :=
  let region := geo.bind Country.region
  let country : Json := obj
    [("code".toList, str ((geo.map Country.code).getD [])),
     ("name".toList, str ((geo.map Country.name).getD []))]
  let regionJson : Json := obj
    [("code".toList, str ((region.map Region.code).getD [])),
     ("name".toList, str ((region.map Region.name).getD []))]
  obj
    [("city".toList, ((geo.bind Country.city).map str).getD null),
     ("country".toList, country),
     ("region".toList, regionJson)]

def asnToJson (asn : Option Asn) : Json :=
  match asn with
  | some a => obj [("number".toList, num a.number.toNat 0), ("org".toList, (a.org.map str).getD null)]
  | none   => null

-- Numbers with two digits after the decimal point.
def decimal2 (x : ℚ) : Json :=
  num (roundHalfEven (x * 100)) 2

def serialize (p : Proxy) : Json :=
  obj
    [("host".toList, str p.host.display),
     ("port".toList, num p.port.toNat 0),
     ("geo".toList, geoToJson p.geo),
     ("asn".toList, asnToJson p.asn),
     ("types".toList, arr ((typesSorted p).map entryToJson)),
     ("avg_resp_time".toList, decimal2 p.avgRespTime),
     ("error_rate".toList, decimal2 p.errorRate)]

end Serialize

section Deserialize

structure RawCountry where
  code : Str
  name : Str

structure RawRegion where
  code : Str
  name : Str

structure RawGeo where
  country : RawCountry
  region  : RawRegion
  city    : Option Str

structure RawAsn where
  number : Nat
  org    : Option Str

structure RawType where
  proto : Str
  level : Str

structure Raw where
  host  : Str
  port  : Nat
  geo   : RawGeo
  asn   : Option RawAsn
  types : List RawType

def readCountry (v : Json) : Option RawCountry := do
  let f ← fields ["code".toList, "name".toList] v
  let code ← withDefault asStr [] (f "code".toList)
  let name ← withDefault asStr [] (f "name".toList)
  some ⟨code, name⟩

def readRegion (v : Json) : Option RawRegion := do
  let f ← fields ["code".toList, "name".toList] v
  let code ← withDefault asStr [] (f "code".toList)
  let name ← withDefault asStr [] (f "name".toList)
  some ⟨code, name⟩

def readGeo (v : Json) : Option RawGeo := do
  let f ← fields ["country".toList, "region".toList, "city".toList] v
  let country ← withDefault readCountry ⟨[], []⟩ (f "country".toList)
  let region ← withDefault readRegion ⟨[], []⟩ (f "region".toList)
  let city ← withDefault (readOption asStr) none (f "city".toList)
  some ⟨country, region, city⟩

def readAsn (v : Json) : Option RawAsn := do
  let f ← fields ["number".toList, "org".toList] v
  let number ← withDefault (readUnsigned (2 ^ 32 - 1)) 0 (f "number".toList)
  let org ← withDefault (readOption asStr) none (f "org".toList)
  some ⟨number, org⟩

def readType (v : Json) : Option RawType := do
  let f ← fields ["type".toList, "level".toList] v
  let proto ← required asStr (f "type".toList)
  let level ← withDefault asStr [] (f "level".toList)
  some ⟨proto, level⟩

def readRaw (v : Json) : Option Raw := do
  let f ← fields ["host".toList, "port".toList, "geo".toList, "asn".toList, "types".toList] v
  let host ← required asStr (f "host".toList)
  let port ← required (readUnsigned 65535) (f "port".toList)
  let geo ← withDefault readGeo ⟨⟨[], []⟩, ⟨[], []⟩, none⟩ (f "geo".toList)
  let asn ← withDefault (readOption readAsn) none (f "asn".toList)
  let types ← withDefault (readList readType) [] (f "types".toList)
  some ⟨host, port, geo, asn, types⟩

def geoOfRaw (geo : RawGeo) : Option Country :=
  if geo.country.code = [] then none
  else some
    { code   := geo.country.code
      name   := geo.country.name
      region := if geo.region.code = [] ∧ geo.region.name = [] then none else some ⟨geo.region.code, geo.region.name⟩
      city   := geo.city.filter (· ≠ []) }

def typeOfRaw (t : RawType) : Option (Proto × Option AnonLevel) := do
  let proto ← Proto.parse t.proto
  let level ← if t.level = [] then some none else (AnonLevel.parse t.level).map some
  some (proto, level)

def proxyOfRaw (raw : Raw) : Option Proxy := do
  let host ← IpAddr.parse raw.host
  let types ← raw.types.mapM typeOfRaw
  some
    { Proxy.new host (.ofNat raw.port) ∅ with
      geo   := geoOfRaw raw.geo
      asn   := raw.asn.map fun a => ⟨.ofNat a.number, a.org⟩
      types := types.foldl Types.insert Types.empty }

def deserialize (v : Json) : Option Proxy := do
  let raw ← readRaw v
  proxyOfRaw raw

end Deserialize

variable (S : Serde)

def writeNdjson (ps : List Proxy) : Bytes :=
  ps.flatMap fun p => Utf8.encode (S.toText (serialize p)) ++ Utf8.encode ['\n']

-- The lines of a file are valid iff the file is.
def readNdjson (bs : Bytes) : Option (List Proxy) := do
  let s ← fromUtf8 bs
  ((Str.lines s).filter fun line => Str.trim line ≠ []).mapM fun line => do
    let v ← S.fromText line
    deserialize v

end Persist
