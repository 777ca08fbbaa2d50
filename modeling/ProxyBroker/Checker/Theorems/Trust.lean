import ProxyBroker.Checker.Theorems.Attempt
import ProxyBroker.Server.Theorems.HostPort

open Checker

namespace Str

-- A separator is found behind what does not contain its first character.
theorem splitOnce_append {c d : Char} {s : Str} (h : c ∉ s) (t : Str) :
    splitOnce [c, d] (s ++ [c, d] ++ t) = some (s, t) := by
  induction s
  case nil => simp [splitOnce, stripPrefix]
  case cons e s hi =>
    obtain ⟨he, hs⟩ := List.ne_and_not_mem_of_not_mem_cons h
    have hp : stripPrefix [c, d] (e :: (s ++ [c, d] ++ t)) = none := by
      rw [stripPrefix_eq_none_iff]
      rintro ⟨u, hu⟩
      exact he (List.cons.inj hu).left
    rw [List.append_assoc] at hi hp ⊢
    rw [List.cons_append, splitOnce, hp, hi hs]
    rfl

theorem splitOnce_prefix {sep s l r : Str} (h : splitOnce sep s = some (l, r)) : l ++ sep <+: s := by
  induction s generalizing l
  case nil => cases h
  case cons c s hi =>
    rw [splitOnce] at h
    split at h
    case h_1 t ht =>
      cases h
      exact ⟨_, (stripPrefix_eq_some ht).symm⟩
    case h_2 =>
      obtain ⟨⟨l', r'⟩, ht, he⟩ := Option.map_eq_some_iff.mp h
      cases he
      exact List.cons_prefix_cons.mpr ⟨rfl, hi ht⟩

theorem mem_trim {s : Str} {a b c : Char} {m : Str} (ha : isWhitespace a = false) (hb : isWhitespace b = false)
    (hc : c ∈ m) {pre post : Str} (h : s = pre ++ a :: m ++ b :: post) : c ∈ trim s := by
  have hd (l : Str) (x : Char) (r : Str) (hx : isWhitespace x = false) :
      ∃ l', (l ++ x :: r).dropWhile isWhitespace = l' ++ x :: r := by
    induction l
    case nil => exact ⟨[], by simp [hx]⟩
    case cons y l hi =>
      obtain ⟨l', hl⟩ := hi
      by_cases hy : isWhitespace y
      · exact ⟨l', by simp [hy, hl]⟩
      · exact ⟨y :: l, by simp [hy]⟩
  obtain ⟨l, hl⟩ := hd pre a (m ++ b :: post) ha
  have hs : s = pre ++ a :: (m ++ b :: post) := by simpa using h
  have hr : (l ++ a :: (m ++ b :: post)).reverse = post.reverse ++ b :: (m.reverse ++ a :: l.reverse) := by simp
  obtain ⟨l', hl'⟩ := hd post.reverse b (m.reverse ++ a :: l.reverse) hb
  rw [trim, hs, hl, hr, hl']
  simp [hc]

end Str

namespace TrustReport

-- A name that an echo shows as one of a header.
def IsName (name : Str) : Prop :=
  name ≠ [] ∧ ∀ c ∈ name, c.isAlphanum ∨ c = '-'

-- A header that was not sent, and that is not expected of a proxy either.
def Foreign (name : Str) : Prop :=
  Str.asciiLower name ∉ sentHeaderNames.map Str.asciiLower ∧ Str.asciiLower name ∉ benign

instance (name : Str) : Decidable (Foreign name) :=
  inferInstanceAs (Decidable (_ ∧ _))

variable {name value line marker : Str} {fs : Utils.Headers}

theorem IsName.isWhitespace (h : IsName name) : ∀ c ∈ name, Str.isWhitespace c = false := by
  intro c hc
  rcases h.right c hc with hc | rfl
  · rw [Str.isAlphanum_iff] at hc
    simp [Str.isWhitespace]
    omega
  · decide

theorem IsName.colon_not_mem (h : IsName name) : ':' ∉ name := by
  intro hc
  rcases h.right _ hc with hc | hc
  · exact absurd hc (by decide)
  · exact absurd hc (by decide)

theorem IsName.asciiLower (h : IsName name) : IsName (Str.asciiLower name) := by
  refine ⟨by simpa [Str.asciiLower] using h.left, fun c hc => ?_⟩
  obtain ⟨d, hd, rfl⟩ := List.mem_map.mp hc
  rcases h.right d hd with hd | rfl
  · left
    rw [Str.isAlphanum_iff] at hd ⊢
    rw [Str.toNat_toLower]
    split_ifs <;> omega
  · exact .inr rfl

-- The name of a header is read from its line.
theorem headerName_line (h : IsName name) : headerName (Utils.Headers.line (name, value)) = some (Str.asciiLower name) := by
  have hs : Str.splitOnce ": ".toList (Utils.Headers.line (name, value)) = some (name, value) :=
    Str.splitOnce_append h.colon_not_mem value
  have ha : (Str.asciiLower name).all (fun c => c.isAlphanum || c = '-') = true :=
    List.all_eq_true.mpr fun c hc => by simpa using h.asciiLower.right c hc
  rw [headerName, hs]
  dsimp only [Option.bind_eq_bind, Option.bind_some]
  rw [Str.trim_word h.isWhitespace, if_pos ⟨h.asciiLower.left, ha⟩]

theorem injected_line (h : IsName name) : injected sentHeaderNames (Utils.Headers.line (name, value)) ↔ Foreign name := by
  simp [injected, headerName_line h, Foreign]

-- What a judge shows that echoes the lines of a request.
def echo (line : Str) (fs : Utils.Headers) : Str :=
  (line :: fs.map Utils.Headers.line ++ [[]]).flatMap (· ++ ['\r', '\n'])

theorem starts_with {method path n : Str} {c : Char} (hm : IsName method) (hp : c ≠ ':')
    (h : n ++ ": ".toList <+: method ++ ' ' :: c :: path) : ∃ post, n = method ++ ' ' :: c :: post := by
  have hc : ':' ∉ method ++ [' ', c] := by
    simp [hm.colon_not_mem, Ne.symm hp]
  obtain ⟨t, ht⟩ := h
  have ht : n ++ (':' :: ' ' :: t) = (method ++ [' ', c]) ++ path := by simpa using ht
  rcases List.append_eq_append_iff.mp ht with ⟨as, he, ha⟩ | ⟨as, he, -⟩
  · cases as
    case nil  => exact ⟨[], by simpa using he.symm⟩
    case cons =>
      obtain ⟨rfl, -⟩ := List.cons.inj ha
      exact absurd (by rw [he]; simp) hc
  · exact ⟨as, by simpa using he⟩

-- A line that is not taken for one of a header.
theorem headerName_request {method path : Str} {c : Char} (hm : IsName method) (hc : Str.isWhitespace c = false)
    (hp : c ≠ ':') : headerName (method ++ ' ' :: c :: path) = none := by
  rw [headerName]
  cases hs : Str.splitOnce ": ".toList (method ++ ' ' :: c :: path)
  case none => rfl
  case some a =>
    obtain ⟨n, r⟩ := a
    obtain ⟨post, hn⟩ := starts_with hm hp (Str.splitOnce_prefix hs)
    obtain ⟨d, m, rfl⟩ := List.exists_cons_of_ne_nil hm.left
    -- The name would contain the blank after the method.
    have hb : ' ' ∈ Str.trim n := Str.mem_trim (m := m ++ [' '])
      (hm.isWhitespace d List.mem_cons_self) hc (by simp) (show n = [] ++ d :: (m ++ [' ']) ++ c :: post by simp [hn])
    have ha : ¬(Str.asciiLower (Str.trim n)).all (fun c => c.isAlphanum || c = '-') = true := by
      intro ha
      have := List.all_eq_true.mp ha ' ' (List.mem_map.mpr ⟨' ', hb, by decide⟩)
      revert this
      decide
    dsimp only [Option.bind_eq_bind, Option.bind_some]
    rw [if_neg fun h => ha h.right]

-- Whether the echo of a request has headers that it should not have is found out exactly. It does not matter in which
-- order they are, nor in which letter case.
theorem assess_echo (marker : Str) (hl : '\n' ∉ line) (hn : headerName line = none)
    (hf : ∀ f ∈ fs, IsName f.1 ∧ '\n' ∉ f.2) : assess sentHeaderNames marker (echo line fs) =
      (if marker <:+: echo line fs then [] else [.canaryMismatch]) ++
      (if ∃ f ∈ fs, Foreign f.1 then [.injectedHeader] else []) := by
  have hi : (Str.lines (echo line fs)).any (injected sentHeaderNames) = true ↔ ∃ f ∈ fs, Foreign f.1 := by
    have hw : ∀ l ∈ line :: fs.map Utils.Headers.line ++ [[]], '\n' ∉ l := by
      intro l h
      rw [List.cons_append, List.mem_cons, List.mem_append, List.mem_map, List.mem_singleton] at h
      rcases h with rfl | ⟨f, hm, rfl⟩ | rfl
      · exact hl
      · obtain ⟨h₁, h₂⟩ := hf f hm
        have h₁ : '\n' ∉ f.1 := fun hc => absurd (h₁.isWhitespace _ hc) (by decide)
        simp [Utils.Headers.line, h₁, h₂]
      · simp
    have hz : injected sentHeaderNames [] = false := by decide
    rw [echo, Str.lines_flatMap hw, List.cons_append, List.any_cons, List.any_append, List.any_map, injected, hn]
    simp only [Option.any_none, Bool.false_or, List.any_cons, List.any_nil, hz, Bool.or_false, List.any_eq_true,
      Function.comp]
    exact exists_congr fun f => and_congr_right fun hm => injected_line (hf f hm).left
  rw [assess]
  simp only [hi]

theorem infix_echo {f : Str × Str} {v : Str} (hf : f ∈ fs) (hv : v <:+: f.2) : v <:+: echo line fs := by
  have hm : Utils.Headers.line f ∈ line :: fs.map Utils.Headers.line ++ [[]] := by
    simpa using .inr (.inl ⟨_, _, hf, rfl⟩)
  obtain ⟨pre, post, he⟩ := List.append_of_mem hm
  have hl : f.2 <:+: Utils.Headers.line f := (List.suffix_append ..).isInfix
  refine (hv.trans hl).trans ⟨pre.flatMap (· ++ ['\r', '\n']), ['\r', '\n'] ++ post.flatMap (· ++ ['\r', '\n']), ?_⟩
  rw [echo, he, List.flatMap_append, List.flatMap_cons]
  simp

end TrustReport

-- Pieces that are joined, and their ends.
theorem intercalate_append {sep : Str} {ls : List Str} (h : ls ≠ []) : sep.intercalate ls ++ sep = ls.flatMap (· ++ sep) := by
  induction ls
  case nil => contradiction
  case cons l ls hi =>
    cases ls
    case nil => simp
    case cons l' ls =>
      rw [List.flatMap_cons, ← hi (by simp)]
      simp [List.intercalate, List.intersperse]

namespace FullChecker

open TrustReport

variable {u : Unicode} {x : FullChecker} {j : Judge} {t : Proto} {marker : Str} {fs : Utils.Headers}

-- The headers and the first line of a test request.
def testHeaders (j : Judge) (marker : Str) : Utils.Headers :=
  Utils.requestHeaders (some marker) ++
    [("Host".toList, j.host), ("Connection".toList, "close".toList), ("Content-Length".toList, "0".toList)]

def requestLine (x : FullChecker) (j : Judge) (t : Proto) : Str :=
  (if x.post then "POST".toList else "GET".toList) ++ ' ' :: requestPath j.host j.path t ++ " HTTP/1.1".toList

theorem testRequest_eq : x.testRequest j t marker = Utf8.encode (echo (x.requestLine j t) (testHeaders j marker)) := by
  have hr : (testHeaders j marker).render ++ ['\r', '\n'] = ((testHeaders j marker).map Utils.Headers.line).flatMap
      (· ++ ['\r', '\n']) := intercalate_append (by simp [testHeaders, Utils.requestHeaders])
  have hh : ((Utils.requestHeaders (some marker)).insert "Host".toList j.host
      |>.insert "Connection".toList "close".toList
      |>.insert "Content-Length".toList "0".toList) = testHeaders j marker := rfl
  rw [testRequest, hh, echo, List.cons_append, List.flatMap_cons, List.flatMap_append, ← hr]
  simp [requestText, requestLine]

-- What a judge may be called.
structure Addressed (j : Judge) : Prop where
  rooted : j.path.head? = some '/'
  path   : '\n' ∉ j.path
  host   : '\n' ∉ j.host

theorem lf_not_mem_requestLine (hj : Addressed j) : '\n' ∉ x.requestLine j t := by
  have hp : '\n' ∉ requestPath j.host j.path t := by
    unfold requestPath
    split_ifs
    · simp [hj.host, hj.path]
    · exact hj.path
  unfold requestLine
  cases x.post <;> simp [hp]

theorem headerName_requestLine (hj : Addressed j) : headerName (x.requestLine j t) = none := by
  have hm : IsName (if x.post then "POST".toList else "GET".toList) := by
    cases x.post
    · exact ⟨by decide, by simp⟩
    · exact ⟨by decide, by simp⟩
  have hp : ∃ c s, requestPath j.host j.path t = c :: s ∧ Str.isWhitespace c = false ∧ c ≠ ':' := by
    unfold requestPath
    split_ifs
    · exact ⟨'h', _, rfl, by decide, by decide⟩
    · obtain ⟨s, hs⟩ := List.head?_eq_some_iff.mp hj.rooted
      exact ⟨'/', s, hs, by decide, by decide⟩
  obtain ⟨c, s, hs, hc, hn⟩ := hp
  rw [requestLine, hs, List.append_assoc, List.cons_append, List.cons_append]
  exact headerName_request hm hc hn

theorem caps_eq {c : Caps} (h₁ : c.cookieEcho = true) (h₂ : c.refererEcho = true) : c = ⟨true, true⟩ := by
  obtain ⟨a, b⟩ := c
  obtain rfl : a = true := h₁
  obtain rfl : b = true := h₂
  rfl

-- A test request is a line and some headers. If a proxy forwards it as it is, up to additional headers and the order of
-- headers, and the judge echoes it, then the proxy works, and it is trusted if and only if none of the additional
-- headers is foreign.
theorem assess_forwarded (u : Unicode) (x : FullChecker) (t : Proto) (marker : Str) (hj : Addressed j)
    (hf : ∀ f ∈ fs, IsName f.1 ∧ '\n' ∉ f.2) (hs : testHeaders j marker ⊆ fs)
    (hip : Utils.getAllIp u.toDecimal (echo (x.requestLine j t) fs) ≠ ∅) :
    x.testRequest j t marker = Utf8.encode (echo (x.requestLine j t) (testHeaders j marker)) ∧
    x.assess u j t marker (echo (x.requestLine j t) fs) = .working {
      level := if t.checksAnonLevel then some (anonymityLevel u x.realExtIps j.marks (echo (x.requestLine j t) fs)) else none
      caps  := ⟨true, true⟩
      trust := if x.trustCheck ∧ ∃ f ∈ fs, Foreign f.1 then [.injectedHeader] else [] } := by
  refine ⟨testRequest_eq, ?_⟩
  have hm : marker <:+: echo (x.requestLine j t) fs := by
    refine infix_echo (f := ("User-Agent".toList, "PxBroker/".toList ++ Negotiator.pkgVersion ++ '/' :: marker)) ?_ ?_
    · exact hs (List.mem_append_left _ List.mem_cons_self)
    · exact ⟨"PxBroker/".toList ++ Negotiator.pkgVersion ++ ['/'], [], by simp⟩
  have hc : capsFromContent (echo (x.requestLine j t) fs) = ⟨true, true⟩ := by
    have hc : "cookie=ok".toList <:+: echo (x.requestLine j t) fs :=
      infix_echo (f := ("Cookie".toList, "cookie=ok".toList)) (hs (by simp [testHeaders, Utils.requestHeaders])) List.infix_rfl
    have hr : "https://www.google.com/".toList <:+: echo (x.requestLine j t) fs :=
      infix_echo (f := ("Referer".toList, "https://www.google.com/".toList))
        (hs (by simp [testHeaders, Utils.requestHeaders])) List.infix_rfl
    exact caps_eq (cookieEcho_iff.mpr hc) (refererEcho_iff.mpr hr)
  have hv : x.isValid u marker (echo (x.requestLine j t) fs) = true :=
    isValid_iff.mpr ⟨hm, hip, fun _ => ⟨congrArg Caps.refererEcho hc, congrArg Caps.cookieEcho hc⟩⟩
  have ht := assess_echo marker (lf_not_mem_requestLine (x := x) (t := t) hj) (headerName_requestLine hj) hf
  rw [if_pos hm, List.nil_append] at ht
  rw [assess, if_pos hv, hc, ht]
  cases x.trustCheck
  case false => simp
  case true  => rw [if_pos rfl, if_congr (and_iff_right rfl) rfl rfl]

namespace TrustExample

def judge : Judge :=
  ⟨"http://1.2.3.4/".toList, .http, "1.2.3.4".toList, "/".toList, none, ⟨0, 0⟩⟩

def wary : FullChecker :=
  { AttemptExample.checker with trustCheck := true }

-- A proxy adds a header that may be added, and one that may not.
def forwarded : Utils.Headers :=
  ("X-Forwarded-For".toList, "1.2.3.4".toList) :: testHeaders judge "1234".toList ++ [("X-Ad".toList, "1".toList)]

theorem forwarded_isName : ∀ f ∈ forwarded, IsName f.1 ∧ '\n' ∉ f.2 := by
  have ha : (forwarded.all fun f =>
      decide (f.1 ≠ []) && f.1.all (fun c => c.isAlphanum || decide (c = '-')) && decide ('\n' ∉ f.2)) = true := by
    decide +kernel
  intro f hf
  have := List.all_eq_true.mp ha f hf
  simpa [IsName, and_assoc] using this

theorem assess_forwarded_injected : ∃ obs, obs.trust = [.injectedHeader] ∧
    wary.assess .asciiOnly judge .socks5 "1234".toList (echo (wary.requestLine judge .socks5) forwarded) = .working obs := by
  have hd : Delimited .asciiOnly (echo (wary.requestLine judge .socks5) forwarded) "1.2.3.4".toList :=
    ⟨"GET / HTTP/1.1\r\nX-Forwarded-For: ".toList, _, rfl, by simp; decide, by simp; decide⟩
  refine ⟨_, ?_, (assess_forwarded .asciiOnly wary .socks5 "1234".toList ⟨by decide, by decide, by decide⟩ ?_ ?_ ?_).right⟩
  · have hx : wary.trustCheck = true ∧ ∃ f ∈ forwarded, Foreign f.1 :=
      ⟨rfl, ("X-Ad".toList, "1".toList), by simp [forwarded], by decide⟩
    exact if_pos (e := []) hx
  · exact forwarded_isName
  · exact fun f hf => List.mem_append_left _ (List.mem_cons_of_mem _ hf)
  · exact Finset.ne_empty_of_mem (a := IpAddr.display (.v4 1 2 3 4)) (hd.mem_getAllIp (by decide))

end TrustExample

end FullChecker
