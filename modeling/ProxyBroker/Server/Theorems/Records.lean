import ProxyBroker.Objects.Theorems.IpText
import ProxyBroker.Pool.Theorems.Services

open Prog Pool

namespace Op

def Records : Op → Prop
  | history (.record ..) => True
  | _                    => False

variable {o : Op}

theorem IsCheckout.not_records (h : o.IsCheckout) : ¬o.Records := by
  cases o
  case history => exact (h : False).elim
  all_goals exact id

theorem IsUpkeep.not_records (h : o.IsUpkeep) : ¬o.Records := by
  cases o
  case history => exact (h : False).elim
  all_goals exact id

theorem IsClientSide.not_records (h : o.IsClientSide) : ¬o.Records := by
  cases o
  case history => exact (h : False).elim
  all_goals exact id

theorem IsControl.not_records {removeAllowed : Bool} (h : o.IsControl removeAllowed) : ¬o.Records := by
  cases o
  case history o =>
    cases o
    case record => exact (h : False).elim
    case get    => exact id
  all_goals exact id

end Op

namespace Server

variable {c : Config} {auth : Option AuthExpect} {fuel : Nat} {peer : IpAddr} {tr : Trace Effects}

-- No client is taken for another one, and no request-target for another one either.
theorem historyKey_injective {peer' : IpAddr} {u u' : Str} :
    historyKey peer u = historyKey peer' u' ↔ peer = peer' ∧ u = u' := by
  constructor
  case mpr => exact fun h => h.left ▸ h.right ▸ rfl
  case mp =>
    intro h
    have ht (a : IpAddr) (v : Str) : (historyKey a v).takeWhile (· ≠ '-') = a.display := by
      have hn : '-' ∉ a.display := IpAddr.not_mem_display (by decide) (by decide) (by decide) a
      rw [historyKey, List.takeWhile_append_of_pos fun c hc => by simpa using fun he : c = '-' => hn (he ▸ hc)]
      simp
    have hd := ht peer u
    rw [h, ht] at hd
    obtain rfl := IpAddr.display_injective hd
    exact ⟨rfl, (List.cons.inj (List.append_cancel_left h)).right⟩

-- A request for `url` has just been relayed by way of the proxy.
def Relays (c : Config) (auth : Option AuthExpect) (tr : Trace Effects) (url : Str) (p : Proxy) : Prop :=
  ∃ req tr₁ tr₂ tr₃ target, tr = tr₁ ++ tr₂ ++ tr₃ ∧ req.path = url ∧
    (parseClientRequest auth).Runs tr₁ (.ret (some req)) ∧
    (relay p (chooseProto p req.scheme) target req c.httpAllowedCodes).Runs tr₃ (.ret .ok)

-- Demands that only such requests are recorded.
def recording (c : Config) (auth : Option AuthExpect) (peer : IpAddr) : Monitor Effects (Trace Effects) :=
  .history fun tr o => ∀ k v, o = .history (.record k v) →
    ∃ url p, k = historyKey peer url ∧ v = p.key.display ∧ Relays c auth tr url p

theorem sat_unrecorded {α : Type} {p : Async α} (hp : p.Uses fun o => ¬Op.Records o) (tr : Trace Effects) :
    Sat (recording c auth peer) p (fun a tr' => ∃ tr₁, tr' = tr ++ tr₁ ∧ p.Runs tr₁ (.ret a)) tr := by
  refine hp.sat_runs (fun tr o ho k v he => ?_) tr
  subst he
  exact absurd trivial ho

theorem writeAll_unrecorded {α : Type} {bs : Bytes} {a : α} :
    Uses (fun o => ¬Op.Records o) (do let _ ← writeAll bs; pure a : Async α) :=
  Uses.bind (writeAll_uses id) fun _ => trivial

theorem settle_recording {j : Job} {p : Proxy} {outcome : RelayOutcome} (hp : j.peer = peer)
    (h : outcome = .ok → Relays c auth tr j.req.path p) :
    Sat (recording c auth peer) (settle j p outcome) (fun _ tr' => tr <+: tr') tr := by
  have hh {q : Async Unit} {b : Bool} (hq : q.Uses Op.IsHandback) (tr : Trace Effects) :
      Sat (recording c auth peer) (do q; return b) (fun _ tr' => tr <+: tr') tr := by
    refine (sat_unrecorded ?_ tr).mono fun _ _ ⟨_, h, _⟩ => h ▸ List.prefix_append ..
    exact Uses.bind (hq.mono fun _ h => h.isCheckout.not_records) fun _ => trivial
  cases outcome
  case ok =>
    refine ⟨?_, fun _ => (hh (putInner_handback ..) _).mono fun _ _ => (List.prefix_append ..).trans⟩
    rintro k v ⟨⟩
    exact ⟨_, p, hp ▸ rfl, rfl, h rfl⟩
  case retryableFailure => exact hh (putFailed_handback ..) _
  case clientCommitted  => exact hh (putFailed_handback ..) _
  case clientGone       => exact hh (putInner_handback ..) _

theorem attempts_recording {j : Job} (hp : j.peer = peer) (hc : j.config = c) {tr₁ : Trace Effects}
    (hr : (parseClientRequest auth).Runs tr₁ (.ret (some j.req))) (tries attempt : Nat) (ht : tr₁ <+: tr) :
    Sat (recording c auth peer) (attempts j tries attempt) (fun _ _ => True) tr := by
  have fail (tr : Trace Effects) :
      Sat (recording c auth peer) (do let _ ← writeAll (terminalFailure j.req.frontend)) (fun _ _ => True) tr :=
    (sat_unrecorded writeAll_unrecorded tr).mono fun _ _ _ => trivial
  induction tries generalizing attempt tr
  case zero => exact fail tr
  case succ hi =>
    unfold attempts
    simp only [sat_bind]
    refine (sat_unrecorded ((getLoop_uses ..).mono fun _ => Op.IsCheckout.not_records) tr).mono fun chosen tr' h => ?_
    obtain ⟨tr₂, rfl, -⟩ := h
    rcases chosen with _ | proxy
    case none => exact fail _
    simp only [sat_bind]
    refine (sat_unrecorded (Async.uses_when ((Async.uses_exec _).mpr id)) _).mono fun _ tr' h => ?_
    obtain ⟨tr₃, rfl, -⟩ := h
    have hn : (relay proxy (chooseProto proxy j.req.scheme) j.target j.req j.config.httpAllowedCodes).Uses
        fun o => ¬Op.Records o := by
      refine (relay_uses_net ..).mono fun o h => ?_
      obtain ⟨_, rfl⟩ := h
      exact id
    refine (sat_unrecorded hn _).mono fun outcome tr' h => ?_
    obtain ⟨tr₄, rfl, hl⟩ := h
    have ht := ht.trans ((List.prefix_append tr tr₂).trans (List.prefix_append _ tr₃))
    have hs := ht.trans (List.prefix_append _ tr₄)
    refine (settle_recording hp ?_).mono fun again tr' h => ?_
    · rintro rfl
      obtain ⟨tr₅, he⟩ := ht
      exact ⟨j.req, tr₁, tr₅, tr₄, j.target, by rw [he], rfl, hr, hc ▸ hl⟩
    · cases again
      case false => trivial
      case true  => exact hi _ (hs.trans h)

theorem accept_job {ctx : ConnCtx} {j : Job} (h : (accept ctx peer).Runs tr (.ret (some j))) :
    ∃ tr₁ tr₂, tr = tr₁ ++ tr₂ ∧ (parseClientRequest ctx.expectedAuth).Runs tr₁ (.ret (some j.req)) ∧
      j.peer = peer ∧ j.config = ctx.config := by
  obtain ⟨r, tr₁, tr₂, rfl, h₁, h₂⟩ := h.of_bind_ret
  rcases r with _ | req
  case none => cases h₂.ret_inv.right
  dsimp only at h₂
  split_ifs at h₂
  · obtain ⟨_, _, _, rfl, -, h⟩ := h₂.of_bind_ret
    cases h.ret_inv.right
  · obtain ⟨_, _, _, rfl, -, h⟩ := h₂.of_bind_ret
    cases h.ret_inv.right
  · obtain ⟨_, _, _, rfl, -, h⟩ := h₂.of_bind_ret
    cases h.ret_inv.right
    exact ⟨tr₁, _, rfl, h₁, rfl, rfl⟩

theorem handleClient_recording :
    Sat (recording c auth peer) (handleClient ⟨c, auth, fuel⟩ peer) (fun _ _ => True) [] := by
  have ha : (accept ⟨c, auth, fuel⟩ peer).Uses fun o => ¬Op.Records o :=
    accept_uses _ peer (fun _ => Op.IsClientSide.not_records) (fun _ => Op.IsControl.not_records) (fun _ => id)
  unfold handleClient
  simp only [sat_bind]
  refine (sat_unrecorded ha []).mono fun j tr' h => ?_
  obtain ⟨tr, rfl, hr⟩ := h
  rcases j with _ | j
  case none => trivial
  obtain ⟨tr₁, tr₂, rfl, hr, hp, hc⟩ := accept_job hr
  exact attempts_recording hp hc hr _ _ (List.prefix_append ..)

theorem AnyService.unrecorded {p : Async Unit} (h : AnyService c p)
    (hn : ∀ auth fuel peer, p ≠ handleClient ⟨c, auth, fuel⟩ peer) : p.Uses fun o => ¬Op.Records o := by
  have up {q : Async Unit} (h : q.Uses Op.IsUpkeep) : q.Uses fun o => ¬Op.Records o :=
    h.mono fun _ => Op.IsUpkeep.not_records
  cases h
  case service h =>
    cases h
    case importer                      => exact importer_uses_of id id (fun _ => id) id id ..
    case handleClient auth fuel peer   => exact absurd rfl (hn auth fuel peer)
    case reconcile                     => exact up (Watch.reconcile_uses _)
    case rechecker                     => exact up (Scheduler.rechecker_uses ..)
    case handleReportDead              =>
      exact up <| Uses.bind (Mcp.handleReportDead_uses _) fun _ => trivial
    case connect =>
      refine Uses.bind ?_ fun _ => trivial
      exact Connector.connect_uses_of (fun _ => Op.IsCheckout.not_records) (fun _ => id) (fun _ => id) ..
  case handleGetProxy =>
    refine Uses.bind (Uses.bind ⟨id, fun _ => trivial⟩ fun r => ?_) fun _ => trivial
    split
    · trivial
    · exact ⟨id, fun _ => trivial⟩

-- Whatever is recorded has just been relayed, for the client by which it was requested.
theorem AnyService.records {p q : Async Unit} {pre suf : Trace Effects} {k v : Str} {r : Unit} (h : AnyService c p)
    (hr : p.Runs (pre ++ ⟨.history (.record k v), r⟩ :: suf) q) : ∃ auth fuel peer url proxy,
      p = handleClient ⟨c, auth, fuel⟩ peer ∧ k = historyKey peer url ∧ v = proxy.key.display ∧
      Relays c auth pre url proxy := by
  by_cases hn : ∃ auth fuel peer, p = handleClient ⟨c, auth, fuel⟩ peer
  case pos =>
    obtain ⟨auth, fuel, peer, rfl⟩ := hn
    have hi := handleClient_recording.issued hr k v rfl
    rw [recording, Monitor.history_after, List.nil_append] at hi
    obtain ⟨url, proxy, hk, hv, hl⟩ := hi
    exact ⟨auth, fuel, peer, url, proxy, rfl, hk, hv, hl⟩
  case neg =>
    push Not at hn
    exact (((AnyService.unrecorded h hn).of_run hr).right ⟨.history (.record k v), r⟩ (by simp) trivial).elim

end Server
