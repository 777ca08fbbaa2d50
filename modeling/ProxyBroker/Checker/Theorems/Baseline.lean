import ProxyBroker.Checker.Build
import ProxyBroker.Checker.Theorems.Anonymity

open Prog Checker

namespace Judge

variable {u : Unicode} {real : Finset IpAddr} {tr tr' : Trace effects} {j j' : Judge} {js : List Judge}

-- A judge has been reached, and has shown a page with a marker and a real address unless it is one for mail.
structure Verified (u : Unicode) (real : Finset IpAddr) (tr : Trace effects) (j : Judge) : Prop where
  resolved : ∃ ip, j.ip = some ip ∧ ⟨.resolve j.host, some ip⟩ ∈ tr
  page     : j.scheme ≠ .smtp → ∃ n body,
    ⟨.get j.url (Utils.requestHeaders (some (Utils.freshMarker n))), some (200, some body)⟩ ∈ tr ∧
    Utils.freshMarker n <:+: u.toLowercase body ∧ anonymityLevel u real j.marks body = .transparent ∧
    j.marks = ⟨matchCount "via".toList (u.toLowercase body), matchCount "proxy".toList (u.toLowercase body)⟩

-- Probing a judge does not change where it is.
structure SameSite (j j' : Judge) : Prop where
  url    : j'.url = j.url
  scheme : j'.scheme = j.scheme
  host   : j'.host = j.host
  path   : j'.path = j.path

theorem Verified.mono (h : Verified u real tr j) (ht : tr ⊆ tr') : Verified u real tr' j where
  resolved :=
    have ⟨ip, hi, he⟩ := h.resolved
    ⟨ip, hi, ht he⟩
  page hs  :=
    have ⟨n, body, he, hp⟩ := h.page hs
    ⟨n, body, ht he, hp⟩

-- The page of the baseline shows the address of this host itself.
theorem baseline_eq_some {marker body : Str} {m : Marks} (h : baseline u real marker body = some m) :
    marker <:+: u.toLowercase body ∧ anonymityLevel u real m body = .transparent ∧
    m = ⟨matchCount "via".toList (u.toLowercase body), matchCount "proxy".toList (u.toLowercase body)⟩ := by
  unfold baseline at h
  dsimp only at h
  split_ifs at h with hb
  exact ⟨hb.right, anonymityLevel_eq_transparent.mpr hb.left, (Option.some.inj h).symm⟩

theorem verify_eq_some {marker : Str} {resp : Option (UInt16 × Option Str)}
    (h : verify u real j marker resp = some j') : ∃ body, resp = some (200, some body) ∧
      ∃ m, baseline u real marker body = some m ∧ { j with marks := m } = j' := by
  unfold verify at h
  split at h
  case h_1 body => exact ⟨body, rfl, Option.map_eq_some_iff.mp h⟩
  case h_2      => cases h

theorem probe_runs (h : (probe u real j).Runs tr (.ret (some j'))) : Verified u real tr j' ∧ SameSite j j' := by
  cases h
  case call ip h =>
    cases (ip : Option IpAddr)
    case none => cases h
    case some ip =>
      change Runs (if j.scheme = .smtp then _ else _) _ _ at h
      split_ifs at h with hs
      case pos =>
        obtain ⟨rfl, he⟩ := Runs.ret_inv h
        cases he
        exact ⟨⟨⟨ip, rfl, List.mem_cons_self⟩, fun hn => absurd hs hn⟩, rfl, rfl, rfl, rfl⟩
      case neg =>
        cases h
        case call n h =>
          cases h
          case call resp h =>
            obtain ⟨rfl, he⟩ := Runs.ret_inv h
            obtain ⟨body, hr, m, hb, rfl⟩ := verify_eq_some (Prog.ret.inj he).symm
            obtain ⟨hm, ht, hc⟩ := baseline_eq_some hb
            subst hr
            exact ⟨⟨⟨ip, rfl, by simp⟩, fun _ => ⟨n, body, by simp, hm, ht, hc⟩⟩, rfl, rfl, rfl, rfl⟩

theorem probes_runs {res : List Judge} (h : (probes u real js).Runs tr (.ret res)) (hj : j' ∈ res) :
    Verified u real tr j' ∧ ∃ j ∈ js, SameSite j j' := by
  induction js generalizing tr res
  case nil =>
    obtain ⟨rfl, he⟩ := Runs.ret_inv h
    cases he
    cases hj
  case cons j js hi =>
    obtain ⟨r, tr₁, tr₂, rfl, h₁, h₂⟩ := Runs.of_bind_ret h
    obtain ⟨rest, tr₃, tr₄, rfl, h₃, h₄⟩ := Runs.of_bind_ret (p := probes u real js) h₂
    obtain ⟨rfl, he⟩ := Runs.ret_inv h₄
    cases he
    rcases List.mem_append.mp hj with hj | hj
    · obtain rfl := Option.mem_toList.mp hj
      obtain ⟨hv, hs⟩ := probe_runs h₁
      exact ⟨hv.mono (List.subset_append_left ..), j, List.mem_cons_self, hs⟩
    · obtain ⟨hv, j₀, hm, hs⟩ := hi h₃ hj
      exact ⟨hv.mono fun e he => by simp [he], j₀, List.mem_cons_of_mem _ hm, hs⟩

theorem probeAll_runs {p : JudgePool} {s : JudgeScheme} (h : (JudgePool.probeAll u real js).Runs tr (.ret p))
    (hj : j' ∈ p.bucket s) : j'.scheme = s ∧ Verified u real tr j' ∧ ∃ j ∈ js, SameSite j j' := by
  obtain ⟨res, tr₁, tr₂, rfl, h₁, h₂⟩ := Runs.of_bind_ret (p := probes u real js) h
  obtain ⟨rfl, he⟩ := Runs.ret_inv h₂
  cases he
  rw [JudgePool.bucket_foldl_push] at hj
  have hj : j' ∈ res ∧ j'.scheme = s := by cases s <;> simpa [JudgePool.bucket] using hj
  rw [List.append_nil]
  exact ⟨hj.right, probes_runs h₁ hj.left⟩

end Judge

namespace FullChecker

open Judge

variable {urls : UrlParser} {u : Unicode} {q : FindQuery} {endpoints : List Str} {tr : Trace effects} {x : FullChecker}

-- An endpoint has reported an address.
def Reported (tr : Trace effects) (endpoints : List Str) (ip : IpAddr) : Prop :=
  ∃ url ∈ endpoints, ∃ status body, ⟨.get url [], some (status, some body)⟩ ∈ tr ∧ IpAddr.parse (Str.trim body) = some ip

theorem reported_runs {ips : List IpAddr} {ip : IpAddr} (h : (Resolver.reported endpoints).Runs tr (.ret ips))
    (hi : ip ∈ ips) : Reported tr endpoints ip := by
  induction endpoints generalizing tr ips
  case nil =>
    obtain ⟨rfl, he⟩ := Runs.ret_inv h
    cases he
    cases hi
  case cons url endpoints hind =>
    cases h
    case call resp h =>
      obtain ⟨rest, tr₁, tr₂, rfl, h₁, h₂⟩ := Runs.of_bind_ret (p := Resolver.reported endpoints) h
      obtain ⟨rfl, he⟩ := Runs.ret_inv h₂
      cases he
      rcases List.mem_append.mp hi with hi | hi
      · obtain ⟨⟨status, text⟩, rfl, ht⟩ := Option.bind_eq_some_iff.mp (Option.mem_toList.mp hi)
        obtain ⟨body, rfl, hb⟩ := Option.bind_eq_some_iff.mp ht
        exact ⟨url, List.mem_cons_self, status, body, List.mem_cons_self, hb⟩
      · obtain ⟨url', hm, status, body, he, hb⟩ := hind h₁ hi
        exact ⟨url', List.mem_cons_of_mem _ hm, status, body, by simp [he], hb⟩

-- What a checker rests on.
structure Grounded (urls : UrlParser) (u : Unicode) (q : FindQuery) (endpoints : List Str) (tr : Trace effects)
    (x : FullChecker) : Prop where
  requested : x.requested = q.types ∧ q.types ≠ []
  addresses : x.realExtIps ≠ ∅ ∧ ∀ ip ∈ x.realExtIps, Reported tr endpoints ip
  judges    : ∀ s, ∀ j ∈ x.judges.bucket s,
    j.scheme = s ∧ Verified u x.realExtIps tr j ∧ ∃ c ∈ candidates urls q, SameSite c j
  judged    : x.mode = .judged → ∃ s, x.judges.bucket s ≠ []
  liveness  : ∀ lt, x.mode = .liveness lt → (∀ s, x.judges.bucket s = []) ∧ lt.scheme ≠ .smtp ∧
    q.livenessUrl ≠ none ∧ ⟨.resolve lt.host, some lt.ip⟩ ∈ tr

theorem resolve_runs {url : Str} {lt : LivenessTarget} (h : (LivenessTarget.resolve urls url).Runs tr (.ret (some lt))) :
    lt.scheme ≠ .smtp ∧ ⟨.resolve lt.host, some lt.ip⟩ ∈ tr := by
  unfold LivenessTarget.resolve at h
  split at h
  case h_1 => cases h
  case h_2 j hj =>
    split_ifs at h with hs
    · cases h
    · cases h
      case call ip h =>
        obtain ⟨rfl, he⟩ := Runs.ret_inv h
        obtain ⟨a, rfl, rfl⟩ := Option.map_eq_some_iff.mp (Prog.ret.inj he).symm
        exact ⟨hs, List.mem_cons_self⟩

theorem chooseMode_runs {p : JudgePool} {m : FullMode} (h : (chooseMode urls q p).Runs tr (.ret (some m))) :
    (m = .judged → ∃ s, p.bucket s ≠ []) ∧ ∀ lt, m = .liveness lt → (∀ s, p.bucket s = []) ∧ lt.scheme ≠ .smtp ∧
      q.livenessUrl ≠ none ∧ ⟨.resolve lt.host, some lt.ip⟩ ∈ tr := by
  unfold chooseMode at h
  split_ifs at h with he
  case pos =>
    split at h
    case h_2 => cases h
    case h_1 url hu =>
      obtain ⟨r, tr₁, tr₂, rfl, h₁, h₂⟩ := Runs.of_bind_ret (p := LivenessTarget.resolve urls url) h
      obtain ⟨rfl, hm⟩ := Runs.ret_inv h₂
      obtain ⟨lt, rfl, rfl⟩ := Option.map_eq_some_iff.mp (Prog.ret.inj hm).symm
      obtain ⟨hs, hr⟩ := resolve_runs h₁
      refine ⟨by simp, ?_⟩
      rintro _ ⟨⟩
      exact ⟨JudgePool.isEmpty_iff.mp he, hs, by simp [hu], by simp [hr]⟩
  case neg =>
    obtain ⟨rfl, hm⟩ := Runs.ret_inv h
    cases hm
    refine ⟨fun _ => ?_, by simp⟩
    rw [JudgePool.isEmpty_iff] at he
    push Not at he
    exact he

-- A checker only exists on a baseline: the addresses of this host are known, and every judge has been seen to show one
-- of them and to echo a marker, so that its page alone is taken for that of a transparent proxy.
theorem build_grounded (h : (build urls u q endpoints).Runs tr (.ret (.ok x))) : Grounded urls u q endpoints tr x := by
  unfold build at h
  split_ifs at h with hq
  · cases h
  · obtain ⟨r, tr₁, tr₂, rfl, h₁, h₂⟩ := Runs.of_bind_ret (p := Resolver.externalIps endpoints) h
    obtain ⟨found, tr₁, tr₃, rfl, h₃, h₄⟩ := Runs.of_bind_ret (p := Resolver.reported endpoints) h₁
    obtain ⟨rfl, he⟩ := Runs.ret_inv h₄
    by_cases hf : found = []
    case pos =>
      rw [if_pos hf] at he
      cases he
      cases h₂
    case neg =>
      rw [if_neg hf] at he
      cases he
      change Runs (new urls u q found.toFinset) tr₂ _ at h₂
      rw [new, if_neg hq] at h₂
      obtain ⟨p, tr₄, tr₅, rfl, h₅, h₆⟩ := Runs.of_bind_ret (p := JudgePool.probeAll ..) h₂
      obtain ⟨m, tr₆, tr₇, rfl, h₇, h₈⟩ := Runs.of_bind_ret (p := chooseMode urls q p) h₆
      cases m
      case none => cases h₈
      case some m =>
        obtain ⟨rfl, hx⟩ := Runs.ret_inv h₈
        cases hx
        obtain ⟨hj, hl⟩ := chooseMode_runs h₇
        refine ⟨⟨rfl, hq⟩, ⟨by simpa using hf, fun ip hi => ?_⟩, fun s j hm => ?_, hj, fun lt hm => ?_⟩
        · obtain ⟨url, hu, status, body, he, hb⟩ := reported_runs h₃ (List.mem_toFinset.mp hi)
          exact ⟨url, hu, status, body, by simp [he], hb⟩
        · obtain ⟨hs, hv, c, hc⟩ := probeAll_runs h₅ hm
          exact ⟨hs, hv.mono fun e he => by simp [he], c, hc⟩
        · obtain ⟨hb, hs, hu, he⟩ := hl lt hm
          exact ⟨hb, hs, hu, by simp [he]⟩

namespace BaselineExample

def parser : UrlParser := fun _ => some ⟨"http".toList, some "j".toList, "/".toList, none⟩

def query : FindQuery where
  types           := [⟨.http, none⟩]
  judges          := ["http://j/".toList]
  dnsbl           := []
  retry           := ⟨3, {.timeout}⟩
  backoff         := 0
  post            := false
  strict          := false
  relaxedValidity := false
  trustCheck      := false
  requireTrusted  := true
  livenessUrl     := none

def candidate : Judge :=
  ⟨"http://j/".toList, .http, "j".toList, "/".toList, none, ⟨0, 0⟩⟩

def self : IpAddr := .v4 1 2 3 4

def echo : Str :=
  "1000 1.2.3.4".toList

theorem baseline_echo : baseline .asciiOnly {self} (Utils.freshMarker 0) echo = some ⟨0, 0⟩ := by
  have hd : Delimited .asciiOnly (Unicode.asciiOnly.toLowercase echo) "1.2.3.4".toList :=
    ⟨"1000 ".toList, [], by decide, by simp; decide, by simp⟩
  have hb : (∃ ip ∈ ({self} : Finset IpAddr), ip.display ∈ Utils.getAllIp Unicode.asciiOnly.toDecimal
      (Unicode.asciiOnly.toLowercase echo)) ∧ Utils.freshMarker 0 <:+: Unicode.asciiOnly.toLowercase echo :=
    ⟨⟨self, Finset.mem_singleton_self _, hd.mem_getAllIp (show Spells "1.2.3.4".toList self by decide)⟩, by decide⟩
  exact if_pos (e := none) hb

theorem probe_candidate : (probe .asciiOnly {self} candidate).Runs
    [⟨.resolve "j".toList, some self⟩, ⟨.random 9000, (0 : Nat)⟩,
      ⟨.get candidate.url (Utils.requestHeaders (some (Utils.freshMarker 0))), some (200, some echo)⟩]
    (.ret (some { candidate with ip := some self })) := by
  have hv : verify .asciiOnly {self} { candidate with ip := some self } (Utils.freshMarker 0) (some (200, some echo)) =
      some { candidate with ip := some self } := by
    rw [verify, baseline_echo]
    rfl
  exact .call (.call (.call (hv ▸ .refl)))

theorem build_runs : ∃ tr x, (build parser .asciiOnly query ["e".toList]).Runs tr (.ret (.ok x)) := by
  have he : (Resolver.externalIps ["e".toList]).Runs [⟨.get "e".toList [], some (200, some "1.2.3.4".toList)⟩]
      (.ret (.ok {self})) := .call .refl
  have hp : (JudgePool.probeAll .asciiOnly {self} [candidate]).Runs _ _ :=
    Runs.bind_ret (Runs.bind_ret probe_candidate .refl) .refl
  have hc : candidates parser query = [candidate] := rfl
  refine ⟨_, _, Runs.bind_ret he (Runs.bind_ret (hc ▸ hp) (Runs.bind_ret .refl .refl))⟩

theorem build_grounded_http : ∃ tr x, (build parser .asciiOnly query ["e".toList]).Runs tr (.ret (.ok x)) ∧
    Grounded parser .asciiOnly query ["e".toList] tr x := by
  obtain ⟨tr, x, hr⟩ := build_runs
  exact ⟨tr, x, hr, build_grounded hr⟩

end BaselineExample

end FullChecker
