import ProxyBroker.Server.Theorems.Message
import ProxyBroker.Server.Theorems.Access
import ProxyBroker.Utils.Theorems.Base64

open Prog Utf8 Trace

namespace Server

variable {e : AuthExpect} {u p : Bytes}

-- The gate for HTTP clients lets every request pass that carries the given value.
def HttpAccepts (e : AuthExpect) (value : Str) : Prop :=
  ∀ req : ClientRequest, req.frontend ≠ .socks5 → req.proxyAuth = some value → isAuthorized (some e) req

-- The request of RFC 1929.
def passwordRequest (u p : Bytes) : Bytes :=
  [0x01, UInt8.ofNat u.length] ++ u ++ [UInt8.ofNat p.length] ++ p

-- The method selection of SOCKS5 succeeds for a client that offers the given username and password.
def SocksAccepts (e : AuthExpect) (u p : Bytes) : Prop :=
  ∃ methods tr, (socks5Auth methods (some e)).Runs tr (.ret (some ())) ∧ fromClient tr = passwordRequest u p

theorem httpAccepts_iff {value : Str} : HttpAccepts e value ↔ value = e.basic := by
  constructor
  · intro h
    have := h ⟨.http, .httpForward, [], 0, [], some value, []⟩ nofun rfl
    simpa [isAuthorized] using this
  · rintro rfl req - hv
    simp [isAuthorized, hv]

section Socks

variable (hu : u.length ≤ 255) (hp : p.length ≤ 255)

include hu hp

theorem toNat_ofNat_length : (UInt8.ofNat u.length).toNat = u.length ∧ (UInt8.ofNat p.length).toNat = p.length :=
  ⟨UInt8.toNat_ofNat_of_lt' (Nat.lt_succ_of_le hu), UInt8.toNat_ofNat_of_lt' (Nat.lt_succ_of_le hp)⟩

-- The lengths in the request tell where the username and the password end.
theorem passwordRequest_inj {ver ulen plen : UInt8} {u' p' : Bytes}
    (h : passwordRequest u p = [ver, ulen] ++ u' ++ [plen] ++ p') (hu' : u'.length = ulen.toNat) :
    u = u' ∧ p = p' := by
  obtain ⟨hn, -⟩ := toNat_ofNat_length hu hp
  simp only [passwordRequest, List.cons_append, List.nil_append, List.append_assoc, List.cons.injEq] at h
  obtain ⟨-, rfl, h⟩ := h
  obtain ⟨hu, hp⟩ := List.append_inj h (by rw [hu', hn])
  exact ⟨hu, (List.cons.inj hp).right⟩

theorem socks5Auth_runs (hm : u = encode e.user ∧ p = encode e.pass) : SocksAccepts e u p := by
  obtain ⟨hn, hn'⟩ := toNat_ofNat_length hu hp
  have h₁ := readExact_runs [0x01, UInt8.ofNat u.length]
  have h₂ := readExact_runs u
  have h₃ := readExact_runs [UInt8.ofNat p.length]
  have h₄ := readExact_runs p
  rw [← hn] at h₂
  rw [← hn'] at h₄
  refine ⟨[0x02], ⟨.net (.clientWrite [0x05, 0x02]), .done⟩ ::
    (takes [0x01, UInt8.ofNat u.length] ++ (takes u ++ (takes [UInt8.ofNat p.length] ++ (takes p ++
      [⟨.net (.clientWrite [0x01, 0x00]), .done⟩])))), .call ?_, ?_⟩
  · refine h₁.bind_ret (h₂.bind_ret (h₃.bind_ret (h₄.bind_ret ?_)))
    dsimp only
    rw [if_pos hm]
    exact .call .refl
  · have hf (bs : Bytes) : (takes bs).flatMap Event.fromClient = bs := fromClient_takes bs
    simp [fromClient, hf, Event.fromClient, passwordRequest]

theorem socksAccepts_iff : SocksAccepts e u p ↔ u = encode e.user ∧ p = encode e.pass := by
  refine ⟨?_, socks5Auth_runs hu hp⟩
  rintro ⟨methods, tr, hr, hf⟩
  have h := (socks5Auth_password methods : Sat (accessControl (some e)) _ _ []).result hr rfl
  obtain ⟨-, ver, ulen, plen, h, hl, -⟩ := h
  rw [accessControl, Monitor.history_after, List.nil_append, hf, fromClient_nil, List.nil_append] at h
  exact passwordRequest_inj hu hp h hl

end Socks

theorem colon_not_mem_encode {s : Str} (h : ':' ∉ s) : colon ∉ encode s :=
  fun hc => h (mem_of_mem_encode (by decide) hc)

-- Where the first colon is, is where the username ends.
theorem append_colon_inj {u' p' : Bytes} (hu : colon ∉ u) (hu' : colon ∉ u') :
    u ++ colon :: p = u' ++ colon :: p' ↔ u = u' ∧ p = p' := by
  constructor
  · intro h
    have h' : u = u' := (prefix_concat_iff hu hu').mp ⟨p, by simpa using h⟩
    subst h'
    simpa using h
  · rintro ⟨rfl, rfl⟩
    rfl

theorem httpAccepts_ofAuth_iff {up : Str} {bs : Bytes} :
    HttpAccepts (.ofAuth up) ("Basic ".toList ++ base64Encode bs) ↔ bs = encode up := by
  rw [httpAccepts_iff]
  simp only [AuthExpect.ofAuth, List.append_cancel_left_eq]
  exact base64Encode_injective.eq_iff

-- For every argument of `--auth`: both of the gates accept the same credentials if and only if it contains
-- a colon, or is too long for a username.
theorem gates_agree_iff (up : Str) :
    (∀ u p : Bytes, u.length ≤ 255 → p.length ≤ 255 → colon ∉ u →
      (SocksAccepts (.ofAuth up) u p ↔
        HttpAccepts (.ofAuth up) ("Basic ".toList ++ base64Encode (u ++ colon :: p)))) ↔
    ':' ∈ up ∨ 255 < (encode up).length := by
  by_cases hc : ':' ∈ up
  case pos =>
    simp only [hc, true_or, iff_true]
    intro u p hu hp hn
    obtain ⟨⟨user, pass⟩, hs⟩ := Option.ne_none_iff_exists'.mp (mt Str.splitOnce_eq_none_iff.mp (not_not.mpr hc))
    obtain ⟨rfl, hl⟩ := Str.splitOnce_eq_some hs
    have he : encode (user ++ ':' :: pass) = encode user ++ colon :: encode pass := by
      rw [encode_append]
      rfl
    rw [socksAccepts_iff hu hp, httpAccepts_ofAuth_iff, he, append_colon_inj hn (colon_not_mem_encode hl)]
    simp [AuthExpect.ofAuth, hs]
  case neg =>
    have hs := Str.splitOnce_eq_none_iff.mpr hc
    have hn := colon_not_mem_encode hc
    have hh (u p : Bytes) : ¬HttpAccepts (.ofAuth up) ("Basic ".toList ++ base64Encode (u ++ colon :: p)) := by
      rw [httpAccepts_ofAuth_iff]
      intro h
      exact hn (h ▸ by simp)
    simp only [hc, false_or, hh, iff_false]
    constructor
    · intro h
      by_contra hl
      refine h (encode up) [] (by omega) (by simp) hn ((socksAccepts_iff (by omega) (by simp)).mpr ?_)
      simp [AuthExpect.ofAuth, hs, encode]
    · intro hl u p hu hp _ ha
      obtain ⟨rfl, -⟩ := (socksAccepts_iff hu hp).mp ha
      simp only [AuthExpect.ofAuth, hs, Option.getD_none] at hu
      omega

theorem gates_disagree :
    SocksAccepts (.ofAuth "user".toList) (encode "user".toList) [] ∧
    "Basic dXNlcjo=".toList = "Basic ".toList ++ base64Encode (encode "user:".toList) ∧
    ¬HttpAccepts (.ofAuth "user".toList) "Basic dXNlcjo=".toList := by
  refine ⟨socks5Auth_runs (by decide) (by decide) (by decide), by decide, ?_⟩
  rw [httpAccepts_iff]
  decide

end Server
