import ProxyBroker.Pool.Theorems.Removal

open Prog Pool

namespace Op

-- The operations that dial a proxy: connecting to it, and negotiating over the connection.
def IsDialing : Op → Prop
  | net (.dial ..) => True
  | o              => o.IsNegotiation

end Op

namespace Connector

variable {α : Type}

-- The points at which a future can be gone: it has completed, or it was dropped while it waited.
def CanEnd : Async α → Prop
  | .ret _    => True
  | .call o _ => o.IsAwait

-- The future is waiting for a proxy that it dials.
def IsDialing : Async α → Prop
  | .ret _    => False
  | .call o _ => o.IsDialing

-- All proxies that were leased have been returned to the pool or evicted.
def Settled (tr : Trace Effects) : Prop :=
  (tr.leased.map Proxy.ident).Perm (tr.returned.map Proxy.ident)

variable {c : Config} {fuel : Nat} {cfg : RotateConfig} {uri : Connector.Uri} {tr : Trace Effects}
variable {q : Async (Except IoError Negotiator.Stream)}

-- The proxies that are leased but not handed back are those that the task still has.
theorem settled_iff {h : Option Lease} (ha : Lease.monitor.Accepts none tr)
    (hh : Lease.monitor.after none tr = h) : Settled tr ↔ h = none := by
  have hb := Lease.balance ha
  rw [hh] at hb
  cases h
  case none =>
    have : tr.leased.map Proxy.ident = tr.returned.map Proxy.ident := by simpa [Lease.idents] using hb
    simp [Settled, this]
  case some l =>
    simp only [reduceCtorEq, iff_false]
    intro hp
    have h₁ := hp.length_eq
    have h₂ := congrArg List.length hb
    simp only [Lease.idents, List.length_map, List.length_append, Option.toList_none, Option.toList_some,
      List.length_nil, List.length_singleton] at h₁ h₂
    omega

-- Once the future of a connection is gone, all proxies that it had leased are back in the pool or
-- evicted, unless it was dropped while it dialed one of them.
theorem connect_settled_iff (h : (connect c fuel cfg uri).Runs tr q) (hq : CanEnd q) :
    Settled tr ↔ ¬IsDialing q := by
  have hs : Sat Lease.monitor (connect c fuel cfg uri) (fun _ h => h = none) none := connect_lease ..
  rw [settled_iff (hs.accepts h) rfl]
  have hd := hs.run h
  generalize Lease.monitor.after none tr = l at hd
  cases q
  case ret => exact iff_of_true hd id
  case call o k =>
    have ho := ((connect_uses ..).of_run h).left.left
    replace hd := hd.left
    have dialing (hl : l.isSome) (hd : o.IsDialing) : l = none ↔ ¬IsDialing (.call o k) :=
      iff_of_false (Option.isSome_iff_ne_none.mp hl) (not_not.mpr hd)
    cases o
    case net o =>
      cases o
      case resolve => exact iff_of_true hd id
      case dial =>
        obtain ⟨_, rfl, -⟩ := hd
        exact dialing rfl trivial
      case upWrite ph _ =>
        cases ph
        · exact dialing hd trivial
        · exact (ho : False).elim
      case upRead ph _ =>
        cases ph
        · exact dialing hd trivial
        · exact (ho : False).elim
      case socks4 | socks5 | tls => exact dialing hd trivial
      all_goals exact (ho : False).elim
    case pool o =>
      cases o
      case park => exact iff_of_true hd id
      all_goals exact (hq : False).elim
    case env o =>
      cases o
      case nextProxy | sleep | check | never => exact iff_of_true hd id
      all_goals exact (hq : False).elim
    case history => exact (hq : False).elim

open LeaseExample in
theorem connect_exec :
    ∃ k, (machine .default).Exec pool (connect .default 1 ⟨1⟩ LeaseExample.uri) leasing { pool with state := [] }
      (.call (.net (.dial .relay proxy.key)) k) :=
  have hc : (machine .default).answers pool ⟨.pool .loadCursor, (0 : UInt64)⟩ pool := ⟨rfl, rfl⟩
  ⟨_, .call rfl <| .call rfl <| .call hc <| .call rfl <| .call answers_select .refl⟩

open LeaseExample in
-- A connection is dropped while it dials the only proxy of a pool, which is lost to the pool.
theorem connect_dropped :
    ∃ (s : State) (k : _), (machine .default).Exec pool (connect .default 1 ⟨1⟩ LeaseExample.uri) leasing s
        (.call (.net (.dial .relay proxy.key)) k) ∧
      CanEnd (.call (.net (.dial .relay proxy.key)) k) ∧
      ¬Settled leasing ∧ s.proxies = [] ∧ s.evictions = 0 :=
  have ⟨k, h⟩ := connect_exec
  ⟨_, k, h, trivial, (by simp : ¬[proxy.ident].Perm []), rfl, rfl⟩

open LeaseExample in
-- If the same connection is granted, then the proxy has been handed back by the time it is used.
theorem connect_settled_granted :
    ∃ tr, tr = leasing ++ returning ++ [⟨.pool .notifyWaiters, ()⟩] ∧ tr.leased = [proxy] ∧
      (connect .default 1 ⟨1⟩ LeaseExample.uri).Runs tr (.ret (.ok .plain)) ∧ Settled tr :=
  have h : (connect .default 1 ⟨1⟩ LeaseExample.uri).Runs (leasing ++ returning ++ [⟨.pool .notifyWaiters, ()⟩])
      (.ret (.ok .plain)) := .call <| .call <| .call <| .call <| .call <| .call <| .call <| .call .refl
  ⟨_, rfl, rfl, h, (connect_settled_iff h trivial).mpr id⟩

end Connector
