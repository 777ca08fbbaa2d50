import ProxyBroker.Broker.Theorems.Gather
import ProxyBroker.Objects.Theorems.IpChars
import ProxyBroker.Parse.Theorems.Scan

open Parse

namespace Broker

variable {d : Decimal} {protocols : List Proto} {pairs : List (Str × Str)} {cand : Candidate} {cs out : List Candidate}

def Candidate.key (c : Candidate) : Str × UInt16 :=
  (c.host, c.port)

section Dedup

-- A candidate is put at the end unless there is one with its host and port.
def push (out : List Candidate) (cand : Candidate) : List Candidate :=
  if cand.key ∈ out.map Candidate.key then out else out ++ [cand]

theorem extract_eq : extract protocols pairs = (pairs.filterMap (readPair protocols.toFinset)).foldl push [] := by
  rw [extract]
  congr 1
  funext out cand
  refine if_congr ?_ rfl rfl
  simp [Candidate.key]

theorem nodup_foldl_push (h : (out.map Candidate.key).Nodup) : ((cs.foldl push out).map Candidate.key).Nodup := by
  induction cs generalizing out
  case nil          => exact h
  case cons c cs hi =>
    refine hi ?_
    unfold push
    split_ifs with hc
    · exact h
    · rw [List.map_append]
      refine List.nodup_append.mpr ⟨h, by simp, ?_⟩
      rintro _ ha _ hk rfl
      exact hc (List.mem_singleton.mp hk ▸ ha)

theorem foldl_push_of_nodup (h : ((out ++ cs).map Candidate.key).Nodup) : cs.foldl push out = out ++ cs := by
  induction cs generalizing out
  case nil          => simp
  case cons c cs hi =>
    have hc : c.key ∉ out.map Candidate.key := by
      rw [List.map_append, List.map_cons] at h
      exact fun hm => List.disjoint_of_nodup_append h hm List.mem_cons_self
    rw [List.foldl_cons, push, if_neg hc, hi (by simpa using h), List.append_assoc, List.singleton_append]

theorem mem_extract (h : cand ∈ extract protocols pairs) : ∃ pair ∈ pairs, readPair protocols.toFinset pair = some cand :=
  List.mem_filterMap.mp (by simpa using subset_foldl _ _ h)

end Dedup

section Pairs

variable {protocols : Finset Proto}

theorem readPair_listed (e : Listed d) : readPair protocols (e.host, e.digits) = some ⟨e.host, e.port, protocols⟩ := by
  have hp : Str.parseU16 e.digits = some e.port := Str.parseU16_ofNat e.port
  have hz : e.port ≠ 0 := by
    rintro hz
    have := e.port_ge
    simp [hz] at this
  have hh : IpAddr.parse e.host = some (.v4 e.a₀ e.a₁ e.a₂ e.a₃) := IpAddr.parse_display (.v4 e.a₀ e.a₁ e.a₂ e.a₃)
  have hc : canonicalizeIp e.host = some e.host := by
    have hs : Str.splitOnce ['%'] e.host = none :=
      Str.splitOnce_eq_none_iff.mpr (IpAddr.not_mem_displayV4 (x := '%') (by decide) (by decide) _ _ _ _)
    rw [canonicalizeIp, hs, hh]
    rfl
  have hu : isUnspecified (.v4 e.a₀ e.a₁ e.a₂ e.a₃) = false := by simpa [isUnspecified] using e.host_ne
  simp [readPair, hp, hz, hc, hh, hu]

theorem not_decimal {s : Str} {c : Char} (hc : ∀ c ∈ s, d.isDecimal c = true ∨ c = '.') (ha : c.toNat < 128)
    (hd : c.isDigit = false) (hn : c ≠ '.') : c ∉ s := fun hm => by
  simpa [d.ascii c ha, hd, hn] using hc c hm

-- What is read from an address that consists of digits and dots.
theorem readPair_sound {pair : Str × Str} (h : readPair protocols pair = some cand)
    (hc : ∀ c ∈ pair.1, d.isDecimal c = true ∨ c = '.') : cand.port ≠ 0 ∧
      ∃ a₀ a₁ a₂ a₃, (a₀, a₁, a₂, a₃) ≠ (0, 0, 0, 0) ∧ cand.host = IpAddr.displayV4 a₀ a₁ a₂ a₃ := by
  simp only [readPair, Option.bind_eq_bind, Option.bind_eq_some_iff] at h
  obtain ⟨port, -, h⟩ := h
  split_ifs at h with hz
  obtain ⟨host, hh, h⟩ := Option.bind_eq_some_iff.mp h
  split_ifs at h with hu
  cases h
  have hs : Str.splitOnce ['%'] pair.1 = none :=
    Str.splitOnce_eq_none_iff.mpr (not_decimal hc (by decide) (by decide) (by decide))
  rw [canonicalizeIp, hs] at hh
  obtain ⟨a, ha, rfl⟩ := Option.map_eq_some_iff.mp hh
  obtain ⟨a₀, a₁, a₂, a₃, rfl⟩ :=
    IpAddr.exists_v4_of_parse ha (not_decimal hc (by decide) (by decide) (by decide))
  rw [IpAddr.parse_display] at hu
  exact ⟨hz, a₀, a₁, a₂, a₃, by simpa [isUnspecified] using hu, rfl⟩

end Pairs

theorem mem_findAddrsGlobalFrom {text : Str} {fuel i : Nat} {pair : Str × Str}
    (h : pair ∈ findAddrsGlobalFrom d text fuel i) : ∀ c ∈ pair.1, d.isDecimal c = true ∨ c = '.' := by
  induction fuel generalizing i
  case zero         => cases h
  case succ fuel hi =>
    rw [findAddrsGlobalFrom] at h
    cases hm : (ipv4Re d).findAt text i
    case none =>
      rw [hm] at h
      cases h
    case some m =>
      obtain ⟨-, -, ⟨n, hn, he⟩, -⟩ := Regular.findAt_eq_some.mp hm
      have hs : slice text m.1 m.2 = (text.drop m.1).take n := by rw [slice, he, Nat.add_sub_cancel_left]
      rw [hm] at h
      dsimp only at h
      cases hp : portAfter d text m.2
      case none   => exact hi (by simpa [hp] using h)
      case some p =>
        rw [hp] at h
        rcases List.mem_cons.mp h with rfl | h
        · exact hs ▸ (ipv4Re_all.of_mem_lengths (List.mem_of_mem_head? hn)).right
        · exact hi h

theorem length_le_render (es : List (Listed d)) : es.length ≤ (render es).length := by
  induction es
  case nil          => rfl
  case cons e es hi =>
    have := e.le_length_digits
    rw [render, List.flatMap_cons, ← render, List.length_append, List.length_append, Listed.rest]
    simp only [List.length_append, List.length_cons]
    omega

-- A list of proxies that differ from each other, of which each is separated from the next one.
structure Listing (d : Decimal) where
  entries : List (Listed d)
  gaps    : ∀ e ∈ entries.dropLast, e.gap ≠ []
  nodup   : (entries.map fun e => (e.host, e.port)).Nodup

-- What is extracted from a list of proxies is what it lists, and what is extracted from any text is clean.
theorem extract_complete (d : Decimal) (protocols : List Proto) :
    (∀ l : Listing d, extract protocols (findAddrsGlobal d (render l.entries)) =
      l.entries.map fun e => ⟨e.host, e.port, protocols.toFinset⟩) ∧
    ∀ text, ((extract protocols (findAddrsGlobal d text)).map Candidate.key).Nodup ∧
      ∀ cand ∈ extract protocols (findAddrsGlobal d text), cand.port ≠ 0 ∧
        ∃ a₀ a₁ a₂ a₃, (a₀, a₁, a₂, a₃) ≠ (0, 0, 0, 0) ∧ cand.host = IpAddr.displayV4 a₀ a₁ a₂ a₃ := by
  constructor
  case left =>
    intro l
    have hs : findAddrsGlobal d (render l.entries) = l.entries.map fun e => (e.host, e.digits) := by
      refine findAddrsGlobalFrom_render l.gaps (List.nil_append (render l.entries)).symm (by simp) (Nat.lt_succ_of_le ?_)
      exact length_le_render _
    have hr : (readPair protocols.toFinset ∘ fun e : Listed d => (e.host, e.digits)) =
        some ∘ fun e => ⟨e.host, e.port, protocols.toFinset⟩ := funext readPair_listed
    rw [hs, extract_eq, List.filterMap_map, hr, List.filterMap_eq_map]
    exact foldl_push_of_nodup (by simpa [Candidate.key, Function.comp_def] using l.nodup)
  case right =>
    refine fun text => ⟨?_, fun cand hc => ?_⟩
    · rw [extract_eq]
      exact nodup_foldl_push List.nodup_nil
    · obtain ⟨pair, hp, hr⟩ := mem_extract hc
      exact readPair_sound hr (mem_findAddrsGlobalFrom hp)

namespace ListingExample

def web : Listed .asciiOnly where
  a₀       := 10
  a₁       := 0
  a₂       := 0
  a₃       := 1
  port     := 8080
  sep      := ":".toList
  gap      := "\n".toList
  host_ne  := by decide
  port_ge  := by decide
  sep_ne   := by decide
  sep_free := by simp [Free, Decimal.asciiOnly]
  gap_free := by simp [Free, Decimal.asciiOnly]

def socks : Listed .asciiOnly where
  a₀       := 192
  a₁       := 168
  a₂       := 1
  a₃       := 20
  port     := 1080
  sep      := "</td><td>".toList
  gap      := []
  host_ne  := by decide
  port_ge  := by decide
  sep_ne   := by decide
  sep_free := by simp [Free, Decimal.asciiOnly]
  gap_free := by simp

-- Two proxies of different hosts and ports, with different texts between them.
def listing : Listing .asciiOnly where
  entries := [web, socks]
  gaps    := by decide
  nodup   := by decide

theorem render_listing : render listing.entries = "10.0.0.1:8080\n192.168.1.20</td><td>1080".toList := by
  decide

theorem extract_complete_two :
    extract [.http] (findAddrsGlobal .asciiOnly "10.0.0.1:8080\n192.168.1.20</td><td>1080".toList) =
      [⟨"10.0.0.1".toList, 8080, {.http}⟩, ⟨"192.168.1.20".toList, 1080, {.http}⟩] := by
  have h := (extract_complete .asciiOnly [.http]).left listing
  rw [render_listing] at h
  exact h

end ListingExample

end Broker
