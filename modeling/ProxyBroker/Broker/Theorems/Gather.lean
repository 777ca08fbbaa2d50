import ProxyBroker.Broker.Gather
import ProxyBroker.Objects.Theorems.IpText

namespace Broker

-- The address that a candidate is taken for.
def address (cand : Candidate) : Option Key :=
  (IpAddr.parse cand.host).map (⟨·, cand.port⟩)

section Extraction

variable {protocols : List Proto} {pairs : List (Str × Str)} {cand : Candidate}

theorem subset_foldl (cs out : List Candidate) :
    cs.foldl (fun out cand => if out.any fun c => c.host = cand.host ∧ c.port = cand.port then out else out ++ [cand])
      out ⊆ out ++ cs := by
  induction cs generalizing out
  case nil          => simp
  case cons c cs hi =>
    refine List.Subset.trans (hi _) fun x hx => ?_
    dsimp only at hx
    split_ifs at hx <;> simp only [List.mem_append, List.mem_cons, List.not_mem_nil, or_false] at hx ⊢ <;> tauto

-- An extracted candidate mentions the protocols of its provider, its port is not zero, and its host is
-- either the canonical form of an address other than the unspecified ones, or has a zone.
theorem extract_sound (h : cand ∈ extract protocols pairs) :
    cand.protocols = protocols.toFinset ∧ cand.port ≠ 0 ∧
    ((∃ a, address cand = some ⟨a, cand.port⟩ ∧ cand.host = a.display ∧ ¬isUnspecified a) ∨ '%' ∈ cand.host) := by
  have hm : cand ∈ pairs.filterMap (readPair protocols.toFinset) := by
    simpa using subset_foldl _ _ h
  obtain ⟨pair, -, hp⟩ := List.mem_filterMap.mp hm
  simp only [readPair, Option.bind_eq_bind, Option.bind_eq_some_iff] at hp
  obtain ⟨port, -, hp⟩ := hp
  split_ifs at hp with hz
  obtain ⟨host, hh, hp⟩ := Option.bind_eq_some_iff.mp hp
  split_ifs at hp with hu
  cases hp
  refine ⟨rfl, hz, ?_⟩
  unfold canonicalizeIp at hh
  cases hs : Str.splitOnce ['%'] pair.1
  case some bz =>
    rw [hs] at hh
    obtain ⟨a, -, ha⟩ := Option.bind_eq_some_iff.mp hh
    split_ifs at ha
    cases ha
    exact .inr (by simp)
  case none =>
    rw [hs] at hh
    obtain ⟨a, -, rfl⟩ := Option.map_eq_some_iff.mp hh
    rw [IpAddr.parse_display] at hu
    exact .inl ⟨a, by simp [address, IpAddr.parse_display], rfl, by simpa using hu⟩

end Extraction

variable {d : Databases} {set : Option (Finset Str)} {countries : Option (List Str)}

-- Whether an address is in one of the countries.
def passes (d : Databases) (set : Option (Finset Str)) (k : Key) : Bool :=
  countryOk d (attachGeo d (Proxy.new k.host k.port ∅)) set

section Stream

variable {cs : List Candidate} {seen : List Key} {p : Proxy} {k : Key} {cand : Candidate} {host : IpAddr}

theorem keep_of_none (h : address cand = none) : keep d set seen cand = (none, seen) := by
  rw [keep, Option.map_eq_none_iff.mp h]

theorem keep_of_seen (h : address cand = some k) (hk : k ∈ seen) : keep d set seen cand = (none, seen) := by
  obtain ⟨host, hp, rfl⟩ := Option.map_eq_some_iff.mp h
  rw [keep, hp]
  exact if_pos hk

theorem keep_of_new (h : address cand = some k) (hk : k ∉ seen) :
    keep d set seen cand = (if passes d set k then some (proxyOf d k.host cand) else none, k :: seen) := by
  obtain ⟨host, hp, rfl⟩ := Option.map_eq_some_iff.mp h
  rw [keep, hp]
  exact if_neg hk

theorem key_proxyOf (h : address cand = some k) : (proxyOf d k.host cand).key = k := by
  obtain ⟨_, _, rfl⟩ := Option.map_eq_some_iff.mp h
  rfl

theorem find?_cons_of_ne (h : address cand ≠ some k) :
    (cand :: cs).find? (address · = some k) = cs.find? (address · = some k) :=
  List.find?_cons_of_neg (by simpa using h)

theorem find?_cons_of_eq (h : address cand = some k) : (cand :: cs).find? (address · = some k) = some cand :=
  List.find?_cons_of_pos (by simpa using h)

-- The first candidate with an address stands for it.
theorem mem_filterMap_iff : p ∈ filterMap d set cs seen ↔
    ∃ k cand, k ∉ seen ∧ passes d set k ∧ cs.find? (address · = some k) = some cand ∧ p = proxyOf d k.host cand := by
  induction cs generalizing seen
  case nil => simp [filterMap]
  case cons c cs hi =>
    rw [filterMap]
    cases ha : address c
    case none =>
      have hf (k : Key) : (c :: cs).find? (address · = some k) = cs.find? (address · = some k) :=
        find?_cons_of_ne (by simp [ha])
      simp only [keep_of_none ha, hf, Option.toList_none, List.nil_append]
      exact hi
    case some k₀ =>
      have hf {k : Key} (hk : k ≠ k₀) : (c :: cs).find? (address · = some k) = cs.find? (address · = some k) :=
        find?_cons_of_ne (by simpa [ha] using hk.symm)
      by_cases hk₀ : k₀ ∈ seen
      case pos =>
        simp only [keep_of_seen ha hk₀, Option.toList_none, List.nil_append]
        refine hi.trans (exists₂_congr fun k cand => and_congr_right fun hk => ?_)
        rw [hf (k := k) fun h => hk (by rw [h]; exact hk₀)]
      case neg =>
        simp only [keep_of_new ha hk₀, List.mem_append, hi, List.mem_cons, not_or]
        constructor
        · rintro (hp | ⟨k, cand, ⟨hn, hk⟩, hs, hc, rfl⟩)
          · split_ifs at hp with hs
            · cases List.mem_singleton.mp hp
              exact ⟨k₀, c, hk₀, hs, find?_cons_of_eq ha, rfl⟩
            · simp at hp
          · exact ⟨k, cand, hk, hs, (hf hn).trans hc, rfl⟩
        · rintro ⟨k, cand, hk, hs, hc, rfl⟩
          by_cases hn : k = k₀
          case pos =>
            subst hn
            rw [find?_cons_of_eq ha] at hc
            cases hc
            exact .inl (by simp [hs])
          case neg => exact .inr ⟨k, cand, ⟨hn, hk⟩, hs, (hf hn).symm.trans hc, rfl⟩

-- No address is passed on twice.
theorem nodup_filterMap : ((filterMap d set cs seen).map Proxy.key).Nodup := by
  induction cs generalizing seen
  case nil => simp [filterMap]
  case cons c cs hi =>
    rw [filterMap, List.map_append]
    refine List.Nodup.append ?_ hi fun k hk hk' => ?_
    · cases (keep d set seen c).1 <;> simp
    · obtain ⟨p, hp, rfl⟩ := List.mem_map.mp hk
      obtain ⟨q, hq, hk'⟩ := List.mem_map.mp hk'
      obtain ⟨k, cand, hn, -, hc, rfl⟩ := mem_filterMap_iff.mp hq
      cases ha : address c
      case none => simp [keep_of_none ha] at hp
      case some k₀ =>
        by_cases hs : k₀ ∈ seen
        case pos => simp [keep_of_seen ha hs] at hp
        case neg =>
          rw [keep_of_new ha hs] at hp hn
          have hk₀ : p = proxyOf d k₀.host c := by simp at hp; exact hp.2.symm
          rw [key_proxyOf (by simpa using List.find?_some hc), hk₀, key_proxyOf ha] at hk'
          exact hn (by simp [hk'])

theorem grabLoop_cons (limit : Option Nat) (out : List Proxy) : grabLoop d set limit (cand :: cs) seen out =
    if limit.any (· ≤ out.length) then out
    else grabLoop d set limit cs (keep d set seen cand).2 (out ++ (keep d set seen cand).1.toList) := by
  rw [grabLoop, keep]
  cases IpAddr.parse cand.host
  case none => simp
  case some host =>
    dsimp only
    split_ifs <;> simp

-- A limit cuts off the stream.
theorem grabLoop_eq (limit : Option Nat) (out : List Proxy) :
    grabLoop d set limit cs seen out =
    out ++ limit.elim (filterMap d set cs seen) fun l => (filterMap d set cs seen).take (l - out.length) := by
  induction cs generalizing seen out
  case nil => cases limit <;> simp [grabLoop, filterMap]
  case cons c cs hi =>
    rw [grabLoop_cons, filterMap, hi]
    cases limit
    case none => simp
    case some l =>
      by_cases hl : l ≤ out.length
      case pos => simp [hl]
      case neg =>
        have hk : (keep d set seen c).1.toList.length ≤ l - out.length := by
          cases (keep d set seen c).1
          case none => simp
          case some => simp; omega
        simp [hl, List.take_append, List.take_of_length_le hk, Nat.sub_sub]

end Stream

section Orders

variable {results batches batches₁ batches₂ : List (List Candidate)} {p : Proxy} {k : Key}

-- The addresses that the providers list, and that are in one of the countries.
def listed (d : Databases) (countries : Option (List Str)) (results : List (List Candidate)) : Finset Key :=
  ((results.flatten.filterMap address).filter (passes d (uppercaseSet d countries))).toFinset

-- What is known of a proxy that was gathered: its address, and the protocols it may speak.
def triple (p : Proxy) : Key × Finset Proto :=
  (p.key, p.expectedTypes)

-- The listings of an address all name the same protocols.
def Unanimous (results : List (List Candidate)) : Prop :=
  ∀ c₁ ∈ results.flatten, ∀ c₂ ∈ results.flatten,
    address c₁ = address c₂ → address c₁ ≠ none → c₁.protocols = c₂.protocols

instance : Decidable (Unanimous results) :=
  inferInstanceAs <| Decidable <| ∀ c₁ ∈ results.flatten, ∀ c₂ ∈ results.flatten, _ → _ → _

-- Each address is gathered once, as it was listed first.
structure Gathered (d : Databases) (countries : Option (List Str)) (results batches : List (List Candidate))
    (ps : List Proxy) : Prop where
  nodup     : (ps.map Proxy.key).Nodup
  addresses : (ps.map Proxy.key).toFinset = listed d countries results
  first     : ∀ p ∈ ps, (batches.flatten.find? (address · = some p.key)).map (·.protocols) = some p.expectedTypes

theorem mem_listed :
    k ∈ listed d countries results ↔ (∃ c ∈ results.flatten, address c = some k) ∧ passes d (uppercaseSet d countries) k := by
  rw [listed, List.mem_toFinset, List.mem_filter, List.mem_filterMap]

theorem listed_perm (h : batches.Perm results) : listed d countries batches = listed d countries results := by
  ext k
  simp only [mem_listed, h.flatten.mem_iff]

theorem grab_eq (limit : Option Nat) : grab d ⟨countries, limit⟩ batches =
    limit.elim (findSource d countries batches) (findSource d countries batches).take := by
  rw [grab, grabLoop_eq]
  rfl

theorem mem_findSource_iff : p ∈ findSource d countries batches ↔
    ∃ k cand, passes d (uppercaseSet d countries) k ∧ batches.flatten.find? (address · = some k) = some cand ∧
    p = proxyOf d k.host cand := by
  simp [findSource, mem_filterMap_iff]

theorem findSource_gathered (h : batches.Perm results) :
    Gathered d countries results batches (findSource d countries batches) where
  nodup := nodup_filterMap
  addresses := by
    ext k
    simp only [← listed_perm h, mem_listed, List.mem_toFinset, List.mem_map, mem_findSource_iff]
    constructor
    · rintro ⟨_, ⟨k', cand, hs, hc, rfl⟩, rfl⟩
      have ha : address cand = some k' := by simpa using List.find?_some hc
      rw [key_proxyOf ha]
      exact ⟨⟨cand, List.mem_of_find?_eq_some hc, ha⟩, hs⟩
    · rintro ⟨⟨c, hc, ha⟩, hs⟩
      have hf : (batches.flatten.find? (address · = some k)).isSome := List.find?_isSome.mpr ⟨c, hc, by simpa using ha⟩
      obtain ⟨cand, hf⟩ := Option.isSome_iff_exists.mp hf
      exact ⟨_, ⟨k, cand, hs, hf, rfl⟩, key_proxyOf (by simpa using List.find?_some hf)⟩
  first := by
    intro p hp
    obtain ⟨k, cand, -, hc, rfl⟩ := mem_findSource_iff.mp hp
    rw [key_proxyOf (by simpa using List.find?_some hc), hc]
    rfl

namespace Gathered

variable {ps ps₁ ps₂ : List Proxy}

theorem length_eq (h : Gathered d countries results batches ps) : ps.length = (listed d countries results).card := by
  rw [← h.addresses, List.toFinset_card_of_nodup h.nodup, List.length_map]

-- The protocols of an address are those of one of its listings.
theorem exists_listing (h : Gathered d countries results batches ps) (hp : p ∈ ps) :
    ∃ c ∈ batches.flatten, address c = some p.key ∧ c.protocols = p.expectedTypes := by
  obtain ⟨c, hc, hs⟩ := Option.map_eq_some_iff.mp (h.first p hp)
  exact ⟨c, List.mem_of_find?_eq_some hc, by simpa using List.find?_some hc, hs⟩

theorem triples_subset (hu : Unanimous results) (hb₁ : batches₁.Perm results) (hb₂ : batches₂.Perm results)
    (h₁ : Gathered d countries results batches₁ ps₁) (h₂ : Gathered d countries results batches₂ ps₂) :
    (ps₁.map triple).toFinset ⊆ (ps₂.map triple).toFinset := by
  intro t ht
  obtain ⟨p, hp, rfl⟩ := List.mem_map.mp (List.mem_toFinset.mp ht)
  have hk : p.key ∈ (ps₂.map Proxy.key).toFinset := by
    rw [h₂.addresses, ← h₁.addresses]
    exact List.mem_toFinset.mpr (List.mem_map_of_mem hp)
  obtain ⟨q, hq, he⟩ := List.mem_map.mp (List.mem_toFinset.mp hk)
  obtain ⟨c₁, hc₁, ha₁, hp₁⟩ := h₁.exists_listing hp
  obtain ⟨c₂, hc₂, ha₂, hp₂⟩ := h₂.exists_listing hq
  have := hu c₁ (hb₁.flatten.mem_iff.mp hc₁) c₂ (hb₂.flatten.mem_iff.mp hc₂) (by rw [ha₁, ha₂, he]) (by simp [ha₁])
  exact List.mem_toFinset.mpr <| List.mem_map.mpr ⟨q, hq, by rw [triple, triple, he, ← hp₁, ← hp₂, this]⟩

end Gathered

-- Only hosts with a zone are passed over.
theorem zone_of_address_none {spec : ProviderSpec} {pairs : Option (List (Str × Str))} {cand : Candidate}
    (hc : cand ∈ fetch spec pairs) (ha : address cand = none) : '%' ∈ cand.host := by
  cases pairs
  case none => simp [fetch] at hc
  case some =>
    obtain ⟨-, -, ⟨a, h, -⟩ | h⟩ := extract_sound hc
    · simp [ha] at h
    · exact h

-- The order in which the providers answer can be seen only in the protocols of an address that several of
-- them list.
theorem gather_orders (d : Databases) (countries : Option (List Str)) (results batches₁ batches₂ : List (List Candidate))
    (h₁ : Unordered maxConcurrentProviders results [] batches₁)
    (h₂ : Unordered maxConcurrentProviders results [] batches₂) :
    (∀ batches ∈ [batches₁, batches₂],
      Gathered d countries results batches (grab d ⟨countries, none⟩ batches) ∧
      (∀ l, grab d ⟨countries, some l⟩ batches = (grab d ⟨countries, none⟩ batches).take l ∧
        (grab d ⟨countries, some l⟩ batches).length = min l (listed d countries results).card ∧
        ((grab d ⟨countries, some l⟩ batches).map Proxy.key).Nodup) ∧
      findSource d countries batches = grab d ⟨countries, none⟩ batches) ∧
    (∀ spec pairs, ∀ cand ∈ fetch spec pairs, address cand = none → '%' ∈ cand.host) ∧
    (Unanimous results → ((grab d ⟨countries, none⟩ batches₁).map triple).toFinset =
      ((grab d ⟨countries, none⟩ batches₂).map triple).toFinset) := by
  have hp₁ : batches₁.Perm results := by simpa using h₁.perm
  have hp₂ : batches₂.Perm results := by simpa using h₂.perm
  simp only [grab_eq, Option.elim_none, Option.elim_some]
  refine ⟨fun batches hb => ?_, fun _ _ _ => zone_of_address_none, fun hu => ?_⟩
  · have hp : batches.Perm results := by
      rcases List.mem_pair.mp hb with rfl | rfl
      · exact hp₁
      · exact hp₂
    have hg : Gathered d countries results batches _ := findSource_gathered hp
    refine ⟨hg, fun l => ⟨trivial, ?_, ?_⟩, trivial⟩
    · rw [List.length_take, hg.length_eq]
    · exact hg.nodup.sublist ((List.take_sublist _ _).map _)
  · have hg₁ : Gathered d countries results batches₁ _ := findSource_gathered hp₁
    have hg₂ : Gathered d countries results batches₂ _ := findSource_gathered hp₂
    exact (hg₁.triples_subset hu hp₁ hp₂ hg₂).antisymm (hg₂.triples_subset hu hp₂ hp₁ hg₁)

theorem unordered_forth (a b : List Candidate) : Unordered maxConcurrentProviders [a, b] [] [a, b] := by
  refine .start (Nat.lt_of_sub_eq_succ rfl) (.start (Nat.lt_of_sub_eq_succ rfl) ?_)
  refine @Unordered.complete _ _ a [] [] [b] _ (.inl rfl) ?_
  exact @Unordered.complete _ _ b [] [] [] _ (.inl rfl) .done

theorem unordered_back (a b : List Candidate) : Unordered maxConcurrentProviders [a, b] [] [b, a] := by
  refine .start (Nat.lt_of_sub_eq_succ rfl) (.start (Nat.lt_of_sub_eq_succ rfl) ?_)
  refine @Unordered.complete _ _ b [] [a] [] _ (.inl rfl) ?_
  exact @Unordered.complete _ _ a [] [] [] _ (.inl rfl) .done

-- Two providers for HTTP whose pages overlap.
theorem gather_orders_overlap :
    let d : Databases := ⟨fun _ => none, fun _ => none, id⟩
    let a := fetch ⟨[.http]⟩ (some [("1.1.1.1".toList, "80".toList)])
    let b := fetch ⟨[.http]⟩ (some [("2.2.2.2".toList, "3128".toList), ("1.1.1.1".toList, "80".toList)])
    Gathered d none [a, b] [b, a] (grab d ⟨none, none⟩ [b, a]) ∧
    ((grab d ⟨none, none⟩ [a, b]).map triple).toFinset = ((grab d ⟨none, none⟩ [b, a]).map triple).toFinset := by
  intro d a b
  obtain ⟨hg, -, ht⟩ := gather_orders d none [a, b] [a, b] [b, a] (unordered_forth a b) (unordered_back a b)
  exact ⟨(hg [b, a] (by simp)).1, ht (by decide)⟩

-- Two providers list the same address, one for HTTP and one for SOCKS5.
theorem gather_order_shows :
    let d : Databases := ⟨fun _ => none, fun _ => none, id⟩
    let a := fetch ⟨[.http]⟩ (some [("1.1.1.1".toList, "80".toList)])
    let b := fetch ⟨[.socks5]⟩ (some [("1.1.1.1".toList, "80".toList)])
    Unordered maxConcurrentProviders [a, b] [] [a, b] ∧ Unordered maxConcurrentProviders [a, b] [] [b, a] ∧
    ((grab d ⟨none, none⟩ [a, b]).map triple).toFinset ≠ ((grab d ⟨none, none⟩ [b, a]).map triple).toFinset := by
  intro d a b
  exact ⟨unordered_forth a b, unordered_back a b, by decide⟩

end Orders
end Broker
