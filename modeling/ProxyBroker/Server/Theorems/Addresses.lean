import ProxyBroker.Objects.Theorems.IpText
import ProxyBroker.Pool.Theorems.Total
import ProxyBroker.Server.Theorems.HostPort

open Pool

theorem Proxy.parse_addr (p : Proxy) : Key.parse p.addr = some p.key := by
  unfold addr
  split
  case h_1 h => rw [h, Key.parse_v4, key, h]
  case h_2 h => rw [h, Key.parse_v6, key, h]

namespace Server

-- The request-target by which a proxy is removed.
def removeUrl (t : Str) : Str :=
  "http://proxycontrol/api/remove/".toList ++ t

-- What is told about a proxy has its IPv6 address without brackets, so that the last colon has to be the right one.
theorem splitHostPort_display (k : Key) (default : UInt16) :
    splitHostPort k.display default = (k.host.display, k.port) := by
  have hb {x : Char} (hd : ∀ n < 16, x ≠ n.digitChar) (hp : x ≠ '.') (hc : x ≠ ':') : x ∉ k.host.display :=
    IpAddr.not_mem_display hd hp hc k.host
  have hd {c : Char} (h : c.isDigit = false) : c ∉ Str.ofNat k.port.toNat := Str.not_mem_ofNat h
  have hn : k.host.display ≠ [] := fun h => by
    have := IpAddr.parse_display k.host
    rw [h] at this
    cases this
  rw [Key.display, splitHostPort_plain hn (hd (by decide)) (hd (by decide)) (Str.ofNat_ne_nil _), Str.parseU16_ofNat]
  · rfl
  · intro s hs
    exact (hb (x := '[') (by decide) (by decide) (by decide) (hs ▸ List.mem_cons_self)).elim

theorem splitHostPort_addr (p : Proxy) (default : UInt16) :
    splitHostPort p.addr default = (p.host.display, p.port) := by
  unfold Proxy.addr
  split
  case h_1 => exact splitHostPort_display p.key default
  case h_2 =>
    have hb : ']' ∉ p.host.display := IpAddr.not_mem_display (by decide) (by decide) (by decide) p.host
    have hi : ¬[']', ':'] <:+: p.host.display := fun h => hb (h.subset List.mem_cons_self)
    have hs := splitOnce_bracket hi (Str.ofNat p.port.toNat)
    have he := splitHostPort_bracketed hs default
    rw [Str.parseU16_ofNat] at he
    exact he

section Removal

variable {c : Config} {k : Key} {t : Str} {req : ClientRequest} {s : State}

-- The entries with an address are removed from any pool, and nothing else changes.
def Removes {α : Type} (c : Config) (k : Key) (p : Async α) : Prop :=
  ∀ s, (machine c).Total p (fun _ s' => s' = { s with state := s.state.filter (·.proxy.key ≠ k) }) s

theorem serveControl_remove (h : req.path = removeUrl t) (peer : IpAddr) :
    serveControl req peer true = (do
      removeParsed (splitHostPort t 0).1 (splitHostPort t 0).2
      let _ ← writeAll noContent) := by
  have hs : Str.splitN '/' 3 (((Str.stripPrefix "http://proxycontrol".toList req.path).getD req.path).dropWhile
      (· = '/')) = ["api".toList, "remove".toList, t] := by
    rw [h]
    rfl
  unfold serveControl
  simp only [hs]
  rw [if_pos trivial]
  rfl

theorem writeAll_total {bs : Bytes} {post : Bool → State → Prop} (h : ∀ b, post b s) :
    (machine c).Total (writeAll bs) post s := by
  refine ⟨⟨.done, s, rfl⟩, fun r s' ha => ?_⟩
  obtain rfl : s' = s := ha
  cases (r : WriteResult) <;> exact h _

theorem serveControl_removes (h : req.path = removeUrl t) (ht : splitHostPort t 0 = (k.host.display, k.port)) (peer : IpAddr) :
    Removes c k (serveControl req peer true) := by
  intro s
  rw [serveControl_remove h, ht, removeParsed, IpAddr.parse_display]
  simp only [Machine.total_bind, remove_total, Machine.total_pure]
  exact writeAll_total fun _ => rfl

-- Wherever a proxy is told by its address, that address can be used to have it removed.
theorem published_removes (c : Config) (p : Proxy) (req : ClientRequest) (peer : IpAddr) :
    Removes c p.key (serveControl { req with path := removeUrl p.key.display } peer true) ∧
    Removes c p.key (serveControl { req with path := removeUrl p.addr } peer true) ∧
    Removes c p.key (Mcp.handleReportDead p.addr) ∧
    ∀ s, (machine c).Total (Mcp.handleReportDead p.addr)
      (fun r _ => r = true ↔ ∃ e ∈ s.state, e.proxy.key = p.key) s := by
  have hr : Mcp.handleReportDead p.addr = Pool.remove p.key := by
    rw [Mcp.handleReportDead, Proxy.parse_addr]
  refine ⟨serveControl_removes rfl (splitHostPort_display ..) peer, serveControl_removes rfl (splitHostPort_addr ..) peer,
    fun s => ?_, fun s => ?_⟩
  · rw [hr, remove_total]
    rfl
  · rw [hr, remove_total, decide_eq_true_iff, length_remove_iff]

end Removal

end Server
