import ProxyBroker.Persist.Ndjson
import ProxyBroker.Objects.Theorems.IpText

namespace Persist

open Json

section Reading

theorem blind_readCountry : Blind readCountry := by
  unfold readCountry
  exact Blind.struct fun f => by simp only [blind_asStr.withDefault]

theorem blind_readRegion : Blind readRegion := by
  unfold readRegion
  exact Blind.struct fun f => by simp only [blind_asStr.withDefault]

theorem blind_readGeo : Blind readGeo := by
  unfold readGeo
  exact Blind.struct fun f => by
    simp only [blind_readCountry.withDefault, blind_readRegion.withDefault, blind_asStr.readOption.withDefault]

theorem blind_readAsn : Blind readAsn := by
  have hn : Blind (readUnsigned (2 ^ 32 - 1)) := blind_readUnsigned (by decide)
  unfold readAsn
  exact Blind.struct fun f => by simp only [hn.withDefault, blind_asStr.readOption.withDefault]

theorem blind_readType : Blind readType := by
  unfold readType
  exact Blind.struct fun f => by simp only [blind_asStr.required, blind_asStr.withDefault]

theorem blind_readRaw : Blind readRaw := by
  have hp : Blind (readUnsigned 65535) := blind_readUnsigned (by decide)
  unfold readRaw
  exact Blind.struct fun f => by
    simp only [blind_asStr.required, hp.required, blind_readGeo.withDefault, blind_readAsn.readOption.withDefault,
      blind_readType.readList.withDefault]

end Reading

section Proxies

-- A location that can be told apart from a missing one, and whose parts can.
structure Storable (c : Country) : Prop where
  code   : c.code ≠ []
  region : ∀ r ∈ c.region, r.code ≠ [] ∨ r.name ≠ []
  city   : ∀ s ∈ c.city, s ≠ []

-- What is saved of a proxy.
def saved (p : Proxy) : Proxy :=
  { Proxy.new p.host p.port ∅ with geo := p.geo, asn := p.asn, types := p.types }

def rawGeo (geo : Option Country) : RawGeo where
  country := ⟨(geo.map Country.code).getD [], (geo.map Country.name).getD []⟩
  region  := ⟨((geo.bind Country.region).map Region.code).getD [], ((geo.bind Country.region).map Region.name).getD []⟩
  city    := geo.bind Country.city

def rawType (e : Proto × Option AnonLevel) : RawType where
  proto := e.1.asStr
  level := (e.2.map AnonLevel.asStr).getD []

def raw (p : Proxy) : Raw where
  host  := p.host.display
  port  := p.port.toNat
  geo   := rawGeo p.geo
  asn   := p.asn.map fun a => ⟨a.number.toNat, a.org⟩
  types := (typesSorted p).map rawType

theorem readGeo_geoToJson (geo : Option Country) : readGeo (geoToJson geo) = some (rawGeo geo) := by
  unfold geoToJson rawGeo
  cases geo.bind Country.city <;> rfl

theorem readAsn_obj (a : Asn) :
    readAsn (obj [("number".toList, num a.number.toNat 0), ("org".toList, (a.org.map str).getD null)]) =
    some (RawAsn.mk a.number.toNat a.org) := by
  have ho : readOption asStr ((a.org.map str).getD null) = some a.org := by cases a.org <;> rfl
  calc
    _ = (readUnsigned (2 ^ 32 - 1) (num a.number.toNat 0)).bind fun number =>
          (readOption asStr ((a.org.map str).getD null)).bind fun org => some (RawAsn.mk number org) := rfl
    _ = some (RawAsn.mk a.number.toNat a.org) := by
      rw [readUnsigned_num (Nat.le_sub_one_of_lt a.number.toNat_lt), ho, Option.bind_some, Option.bind_some]

theorem readAsn_asnToJson (asn : Option Asn) :
    readOption readAsn (asnToJson asn) = some (asn.map fun a => ⟨a.number.toNat, a.org⟩) := by
  cases asn
  case none   => rfl
  case some a => exact congrArg (Option.map some) (readAsn_obj a)

theorem readTypes_typesSorted (p : Proxy) :
    readList readType (arr ((typesSorted p).map entryToJson)) = some ((typesSorted p).map rawType) := by
  have h (e : Proto × Option AnonLevel) : readType (entryToJson e) = some (rawType e) := rfl
  exact readList_map h _

theorem readRaw_serialize (p : Proxy) : readRaw (serialize p) = some (raw p) := by
  calc
    readRaw (serialize p)
    _ = (readUnsigned 65535 (num p.port.toNat 0)).bind fun port =>
          (readGeo (geoToJson p.geo)).bind fun geo =>
          (readOption readAsn (asnToJson p.asn)).bind fun asn =>
          (readList readType (arr ((typesSorted p).map entryToJson))).bind fun types =>
          some ⟨p.host.display, port, geo, asn, types⟩ := rfl
    _ = some (raw p) := by
      rw [readUnsigned_num (Nat.le_sub_one_of_lt p.port.toNat_lt), readGeo_geoToJson, readAsn_asnToJson,
        readTypes_typesSorted]
      rfl

theorem typeOfRaw_rawType (e : Proto × Option AnonLevel) : typeOfRaw (rawType e) = some e := by
  obtain ⟨t, l⟩ := e
  cases l <;> simp [typeOfRaw, rawType, Proto.parse_asStr, AnonLevel.parse_asStr, AnonLevel.asStr_ne_nil]

theorem geoOfRaw_rawGeo {geo : Option Country} (h : ∀ c ∈ geo, Storable c) : geoOfRaw (rawGeo geo) = geo := by
  cases geo
  case none => rfl
  case some c =>
    obtain ⟨code, name, region, city⟩ := c
    obtain ⟨hc, hr, hs⟩ := h _ rfl
    have hn : (rawGeo (some ⟨code, name, region, city⟩)).country.code ≠ [] := hc
    rw [geoOfRaw, if_neg hn]
    congr 2
    case e_region =>
      cases region
      case none   => rfl
      case some r => exact if_neg fun h => (hr r rfl).elim (absurd h.left) (absurd h.right)
    case e_city =>
      cases city
      case none   => rfl
      case some s => exact Option.filter_eq_some_iff.mpr ⟨rfl, by simpa using hs s rfl⟩

theorem typesSorted_perm (p : Proxy) : (typesSorted p).Perm (Types.entries p.types) :=
  List.mergeSort_perm ..

theorem proxyOfRaw_raw {p : Proxy} (h : ∀ c ∈ p.geo, Storable c) : proxyOfRaw (raw p) = some (saved p) := by
  have ha : (p.asn.map fun a => RawAsn.mk a.number.toNat a.org).map (fun a => Asn.mk (.ofNat a.number) a.org) = p.asn := by
    cases p.asn <;> simp
  have ht : ((typesSorted p).map rawType).mapM typeOfRaw = some (typesSorted p) := by
    rw [mapM_some (h := id) fun e _ => typeOfRaw_rawType e, List.map_id]
  calc
    proxyOfRaw (raw p)
    _ = (IpAddr.parse p.host.display).bind fun host =>
          (((typesSorted p).map rawType).mapM typeOfRaw).bind fun types =>
          some
            { Proxy.new host (.ofNat p.port.toNat) ∅ with
              geo   := geoOfRaw (rawGeo p.geo)
              asn   := (p.asn.map fun a => RawAsn.mk a.number.toNat a.org).map fun a => ⟨.ofNat a.number, a.org⟩
              types := types.foldl Types.insert Types.empty } := rfl
    _ = some (saved p) := by
      rw [IpAddr.parse_display, ht, Option.bind_some, Option.bind_some, geoOfRaw_rawGeo h, ha,
        foldl_insert_perm (typesSorted_perm p), UInt16.ofNat_toNat]
      rfl

theorem deserialize_serialize {p : Proxy} (h : ∀ c ∈ p.geo, Storable c) {w : Json} (hw : w.core = (serialize p).core) :
    deserialize w = some (saved p) := by
  rw [deserialize, ← blind_readRaw, hw, blind_readRaw, readRaw_serialize]
  exact proxyOfRaw_raw h

end Proxies

section Files

variable {S : Serde}

theorem depth_geoToJson (geo : Option Country) : (geoToJson geo).depth ≤ 2 := by
  unfold geoToJson
  cases geo.bind Country.city <;> simp [depth, depthFields]

theorem depth_asnToJson (asn : Option Asn) : (asnToJson asn).depth ≤ 2 := by
  cases asn
  case none => simp [asnToJson, depth]
  case some a =>
    obtain ⟨_, org⟩ := a
    cases org <;> simp [asnToJson, depth, depthFields]

theorem depth_serialize (p : Proxy) : (serialize p).depth < 128 := by
  have hg := depth_geoToJson p.geo
  have ha := depth_asnToJson p.asn
  have ht : (arr ((typesSorted p).map entryToJson)).depth ≤ 1 + 1 := by
    refine depth_arr_le.mpr fun v hv => ?_
    obtain ⟨e, -, rfl⟩ := List.mem_map.mp hv
    simp [entryToJson, depth, depthFields]
  have h : (serialize p).depth ≤ 2 + 1 := by
    refine depth_obj_le.mpr ?_
    simp only [List.forall_mem_cons]
    exact ⟨Nat.zero_le _, Nat.zero_le _, hg, ha, ht, Nat.zero_le _, Nat.zero_le _, by simp⟩
  omega

theorem writeNdjson_eq (ps : List Proxy) :
    writeNdjson S ps = Utf8.encode (ps.flatMap fun p => S.toText (serialize p) ++ ['\n']) := by
  rw [Utf8.encode, List.flatMap_assoc]
  exact List.flatMap_congr fun p _ => (Utf8.encode_append ..).symm

theorem lines_documents (hS : S.Faithful) (ps : List Proxy) :
    Str.lines (ps.flatMap fun p => S.toText (serialize p) ++ ['\n']) = ps.map fun p => S.toText (serialize p) := by
  induction ps
  case nil          => rfl
  case cons p ps hi =>
    obtain ⟨hn, hr⟩ := hS.oneLine (serialize p)
    rw [List.flatMap_cons, List.append_assoc, List.singleton_append, Str.lines_cons_lf hn hr, hi, List.map_cons]

theorem readNdjson_writeNdjson (hS : S.Faithful) {ps : List Proxy} (h : ∀ p ∈ ps, ∀ c ∈ p.geo, Storable c) :
    readNdjson S (writeNdjson S ps) = some (ps.map saved) := by
  have hb : ∀ line ∈ ps.map (fun p => S.toText (serialize p)), decide (Str.trim line ≠ []) = true := by
    intro line hl
    obtain ⟨p, -, rfl⟩ := List.mem_map.mp hl
    obtain ⟨s, hs⟩ : ∃ s, S.toText (serialize p) = '\x7b' :: s := hS.object _
    have hm : '\x7b' ∈ S.toText (serialize p) := by rw [hs]; exact List.mem_cons_self
    exact decide_eq_true (Str.trim_ne_nil hm (by decide))
  rw [readNdjson, writeNdjson_eq, fromUtf8_encode, Option.bind_eq_bind, Option.bind_some, lines_documents hS,
    List.filter_eq_self.mpr hb]
  refine mapM_some fun p hp => ?_
  obtain ⟨w, hr, hw⟩ := hS.reads _ (depth_serialize p)
  rw [hr]
  exact deserialize_serialize (h p hp) hw

-- Proxies can be saved and loaded, and so can those that have been loaded.
theorem ndjson_round_trip (hS : S.Faithful) {ps : List Proxy} (h : ∀ p ∈ ps, ∀ c ∈ p.geo, Storable c) :
    readNdjson S (writeNdjson S ps) = some (ps.map saved) ∧
    readNdjson S (writeNdjson S (ps.map saved)) = some (ps.map saved) := by
  refine ⟨readNdjson_writeNdjson hS h, ?_⟩
  have hs : ∀ q ∈ ps.map saved, ∀ c ∈ q.geo, Storable c := List.forall_mem_map.mpr h
  rw [readNdjson_writeNdjson hS hs, List.map_map]
  rfl

theorem ndjson_round_trip_compact :
    let c : Country := ⟨"SE".toList, "Sweden".toList, some ⟨"E".toList, "Östergötland".toList⟩, some "Linköping".toList⟩
    let p := { Proxy.new (.v4 1 2 3 4) 8080 ∅ with geo := some c, requests := 3 }.addType .http (some .high)
    let q := { Proxy.new (.v6 0x2001 0xdb8 0 0 0 0 0 1) 1080 ∅ with asn := some ⟨15169, some "Google".toList⟩ }
    (∀ r ∈ [p, q], ∀ c ∈ r.geo, Storable c) ∧
    readNdjson .compact (writeNdjson .compact [p, q]) = some [saved p, saved q] ∧
    readNdjson .compact (writeNdjson .compact [saved p, saved q]) = some [saved p, saved q] := by
  intro c p q
  have h : ∀ r ∈ [p, q], ∀ c ∈ r.geo, Storable c := by
    have hc : Storable c := ⟨by decide, by decide, by decide⟩
    simp only [List.forall_mem_cons]
    refine ⟨?_, ?_, by simp⟩
    · rintro _ ⟨⟩
      exact hc
    · rintro _ ⟨⟩
  exact ⟨h, ndjson_round_trip Serde.compact_faithful h⟩

end Files

end Persist
