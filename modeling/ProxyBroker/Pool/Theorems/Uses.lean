import ProxyBroker.Pool.Program

open Prog

namespace Op

-- The operations that negotiate a connection to a proxy.
def IsNegotiation : Op → Prop
  | net (.upWrite .negotiation _) | net (.upRead .negotiation _) => True
  | net (.socks4 ..) | net (.socks5 ..) | net (.tls _)           => True
  | _                                                            => False

-- The operations that negotiate a connection to a proxy, if all that is sent in the clear is a request, and the proxy is
-- given no other credentials.
def Negotiates (request : Bytes) (creds : Option Credentials) : Op → Prop
  | net (.upWrite .negotiation bs)  => bs = request
  | net (.upRead .negotiation _)    => True
  | net (.socks5 _ _ c)             => c = creds
  | net (.socks4 ..) | net (.tls _) => True
  | _                               => False

-- The operations that transfer data, over the connection to the client or the one to a proxy.
def IsStreaming : Op → Prop
  | net (.dial ..) | net (.resolve _) => False
  | net _                             => True
  | _                                 => False

-- The operations of a task that does not lease any proxies.
def IsIdle : Op → Prop
  | pool (.select _) | pool (.tryGet ..)                             => False
  | pool (.push .holder _) | pool (.evict _) | pool (.add .holder _) => False
  | net (.dial ..) | net (.upWrite ..) | net (.upRead ..)            => False
  | net (.socks4 ..) | net (.socks5 ..) | net (.tls _)               => False
  | env (.bench _) | env .panic                                      => False
  | _                                                                => True

-- The operations of a task that looks after which proxies are in the pool, but never uses any of them.
def IsUpkeep : Op → Prop
  | env (.bench _) | env .panic                                      => False
  | pool .addrs | pool (.remove _) | pool (.add .outsider _) | env _ => True
  | _                                                                => False

-- The operations by which a leased proxy is handed back.
def IsReturn : Op → Prop
  | pool (.push .holder _) | pool (.evict _) | pool .notifyWaiters => True
  | env _ | history _                                              => True
  | _                                                              => False

-- The operations by which `Pool` itself hands a proxy back.
def IsHandback : Op → Prop
  | pool (.push .holder _) | pool (.evict _) | pool .notifyWaiters | env _ => True
  | _                                                                      => False

-- The operations that a task performs which serves clients with the proxies of a pool. It does not
-- decide by itself which proxies are in the pool.
def IsServing : Op → Prop
  | pool (.push .outsider _) | pool .storeExhausted | pool (.add ..) => False
  | pool (.remove _) | pool .addrs | pool (.tryGet ..)               => False
  | _                                                                => True

-- The operations that open a connection over some proxy of a pool.
def IsConnecting : Op → Prop
  | net (.dial ..) | net (.resolve _) => True
  | net o                             => (net o).IsNegotiation
  | o                                 => o.IsServing

-- The operations of a checkout, in the course of which proxies can be probed and handed back.
def IsCheckout : Op → Prop
  | pool .notified | pool .park | pool .loadExhausted | pool (.pin _) | pool (.recordSession ..) => True
  | pool .loadCursor | pool .bumpCursor | pool (.select _) | net (.dial .probe _)                => True
  | net o                                                                                        => (net o).IsNegotiation
  | o                                                                                            => o.IsHandback

-- The operations by which a proxy is leased: those on the pool, and those of a probe.
def IsLeasing : Op → Prop
  | net (.dial .probe _) => True
  | net o                => (net o).IsNegotiation
  | o                    => o.IsServing

variable {o : Op}

theorem Negotiates.isNegotiation {request : Bytes} {creds : Option Credentials} (h : o.Negotiates request creds) :
    o.IsNegotiation := by
  cases o
  case net o =>
    cases o
    case upWrite ph _ => cases ph <;> trivial
    case upRead ph _  => cases ph <;> trivial
    all_goals trivial
  all_goals exact (h : False).elim

theorem IsUpkeep.isIdle (h : o.IsUpkeep) : o.IsIdle := by
  cases o
  case pool o =>
    cases o
    case add g _ => cases g <;> trivial
    all_goals trivial
  case env o => cases o <;> exact h
  all_goals exact (h : False).elim

theorem IsNegotiation.isStreaming (h : o.IsNegotiation) : o.IsStreaming := by
  cases o
  case net o => cases o <;> trivial
  all_goals exact (h : False).elim

theorem IsStreaming.isServing (h : o.IsStreaming) : o.IsServing := by
  cases o
  case net => trivial
  all_goals exact (h : False).elim

theorem IsReturn.isServing (h : o.IsReturn) : o.IsServing := by
  cases o
  case pool o =>
    cases o
    case push g _ =>
      cases g
      · trivial
      · exact (h : False).elim
    all_goals trivial
  all_goals trivial

theorem IsHandback.isReturn (h : o.IsHandback) : o.IsReturn := by
  cases o
  case pool o =>
    cases o
    case push g _ => cases g <;> exact h
    all_goals exact h
  all_goals trivial

theorem IsHandback.isCheckout (h : o.IsHandback) : o.IsCheckout := by
  cases o
  case pool o => cases o <;> first | exact h | trivial
  case net    => exact (h : False).elim
  all_goals exact h

theorem IsNegotiation.isCheckout (h : o.IsNegotiation) : o.IsCheckout := by
  cases o
  case net o =>
    cases o
    case dial => exact (h : False).elim
    all_goals exact h
  all_goals exact (h : False).elim

theorem IsCheckout.isLeasing (h : o.IsCheckout) : o.IsLeasing := by
  cases o
  case pool o => cases o <;> first | trivial | exact IsReturn.isServing (IsHandback.isReturn h)
  case net o =>
    cases o
    case dial d k => cases d <;> exact h
    all_goals exact h
  all_goals trivial

theorem IsReturn.isLeasing (h : o.IsReturn) : o.IsLeasing := by
  cases o
  case pool => exact IsReturn.isServing h
  case net  => exact (h : False).elim
  all_goals trivial

theorem IsNegotiation.isLeasing (h : o.IsNegotiation) : o.IsLeasing :=
  IsCheckout.isLeasing (IsNegotiation.isCheckout h)

theorem IsNegotiation.isConnecting (h : o.IsNegotiation) : o.IsConnecting := by
  cases o
  case net o => cases o <;> first | exact h | trivial
  all_goals exact (h : False).elim

theorem IsLeasing.isConnecting (h : o.IsLeasing) : o.IsConnecting := by
  cases o
  case net o =>
    cases o
    case dial d _ => trivial
    all_goals first | exact h | trivial
  all_goals exact h

theorem IsConnecting.isServing (h : o.IsConnecting) : o.IsServing := by
  cases o
  case net => trivial
  all_goals exact h

theorem IsLeasing.isServing (h : o.IsLeasing) : o.IsServing := by
  cases o
  case net => trivial
  all_goals exact h

end Op

namespace Negotiator

variable (target : Target) (creds : Option Credentials) {request : Bytes}

theorem readHeadLoop_uses (n : Nat) (buf : Bytes) :
    (readHeadLoop n buf).Uses (Op.Negotiates request creds) := by
  induction n generalizing buf
  case zero => trivial
  case succ hi =>
    refine Uses.bind ⟨trivial, fun _ => trivial⟩ fun r => ?_
    split
    case h_4 =>
      dsimp only
      split_ifs
      · trivial
      · trivial
      · exact hi _
    all_goals trivial

theorem readExactLoop_uses (n need : Nat) (acc : Bytes) :
    (readExactLoop n need acc).Uses (Op.Negotiates request creds) := by
  induction n generalizing need acc <;> cases need
  case succ.succ hi need =>
    refine Uses.bind ⟨trivial, fun _ => trivial⟩ fun r => ?_
    split
    case h_3 =>
      dsimp only
      split_ifs
      · trivial
      · exact hi ..
    all_goals trivial
  all_goals trivial

theorem httpConnect_uses :
    (httpConnect target creds).Uses (Op.Negotiates (connectRequest target.host target.port creds) creds) := by
  refine Uses.bind ⟨rfl, fun _ => trivial⟩ fun r => ?_
  split
  case h_3 =>
    refine Uses.bind (readHeadLoop_uses ..) fun r => ?_
    split <;> (try split_ifs) <;> trivial
  all_goals trivial

-- The only request that is sent during a negotiation is the one for a tunnel.
theorem negotiate_uses_request (proto : Proto) :
    (negotiate proto target creds).Uses (Op.Negotiates (connectRequest target.host target.port creds) creds) := by
  cases proto
  case http => trivial
  case https =>
    refine Uses.bind (httpConnect_uses ..) fun r => ?_
    split
    · trivial
    · exact Uses.bind ⟨trivial, fun _ => trivial⟩ fun r => trivial
  case socks4 =>
    simp only [negotiate, socks4]
    split
    · exact Uses.bind ⟨trivial, fun _ => trivial⟩ fun r => trivial
    · trivial
  case socks5 => exact Uses.bind ⟨rfl, fun _ => trivial⟩ fun r => trivial
  case connect80 => exact Uses.bind (httpConnect_uses ..) fun r => trivial
  case connect25 =>
    refine Uses.bind (httpConnect_uses ..) fun r => ?_
    split
    · trivial
    · refine Uses.bind (Uses.bind (readExactLoop_uses ..) fun r => ?_) fun r => trivial
      split <;> (try split_ifs) <;> trivial

theorem negotiate_uses (proto : Proto) : (negotiate proto target creds).Uses Op.IsNegotiation :=
  (negotiate_uses_request target creds proto).mono fun _ => Op.Negotiates.isNegotiation

theorem probeTunnel_uses_of {P : Op → Prop} (k : Key) (hd : P (.net (.dial .probe k)))
    (hn : ∀ o, o.IsNegotiation → P o) : (probeTunnel k target creds).Uses P := by
  refine Uses.bind ⟨hd, fun _ => trivial⟩ fun r => ?_
  split
  · exact Uses.bind (Uses.mono (negotiate_uses ..) hn) fun r => trivial
  · trivial

-- What a proxy replies that accepts the request for a tunnel.
def accepting : Bytes :=
  Utf8.encode "HTTP/1.1 200\r\n\r\n".toList

def tunnelling : Trace Effects :=
  ⟨.net (.upWrite .negotiation (connectRequest target.host target.port creds)), .done⟩ ::
  accepting.map fun b => ⟨.net (.upRead .negotiation 1), .data [b]⟩

theorem httpConnect_runs :
    (httpConnect target creds).Runs (tunnelling target creds) (.ret (.ok ())) :=
  .call <| .call <| .call <| .call <| .call <| .call <| .call <| .call <| .call <| .call <| .call <|
  .call <| .call <| .call <| .call <| .call <| .call .refl

theorem negotiate_connect80_runs :
    (negotiate .connect80 target creds).Runs (tunnelling target creds) (.ret (.ok .plain)) := by
  rw [← List.append_nil (tunnelling target creds)]
  exact (httpConnect_runs target creds).bind_ret .refl

theorem probeTunnel_runs (k : Key) :
    (probeTunnel k target creds).Runs
      (⟨.net (.dial .probe k), .ok⟩ :: tunnelling target creds) (.ret true) := by
  refine .call ?_
  rw [← List.append_nil (tunnelling target creds)]
  exact (negotiate_connect80_runs target creds).bind_ret .refl

end Negotiator

namespace Pool

variable (c : Config) (p : Proxy) (scheme : Scheme) (key : ClientKey)

theorem putInner_handback (blocked : Option Instant) : (putInner c p blocked).Uses Op.IsHandback := by
  unfold putInner
  split_ifs
  · exact ⟨trivial, fun _ => trivial⟩
  · exact Uses.bind ⟨trivial, fun _ => trivial⟩ fun _ => ⟨trivial, fun _ => trivial⟩

theorem putFailed_handback : (putFailed c p).Uses Op.IsHandback := by
  refine Uses.bind ⟨trivial, fun _ => trivial⟩ fun now => ?_
  dsimp only
  split
  · exact putInner_handback ..
  · exact Async.uses_panic.mpr trivial

theorem putInner_uses (blocked : Option Instant) : (putInner c p blocked).Uses Op.IsReturn :=
  (putInner_handback ..).mono fun _ => Op.IsHandback.isReturn

theorem putFailed_uses : (putFailed c p).Uses Op.IsReturn :=
  (putFailed_handback ..).mono fun _ => Op.IsHandback.isReturn

theorem pinned_uses : (pinned c key).Uses Op.IsCheckout := by
  unfold pinned
  split
  · exact Uses.bind ⟨trivial, fun _ => trivial⟩ fun _ => trivial
  · trivial

theorem trySelect_uses : (trySelect c scheme key).Uses Op.IsCheckout := by
  refine Uses.bind (pinned_uses ..) fun sticky => ?_
  refine Uses.bind ⟨trivial, fun _ => trivial⟩ fun cursor => ?_
  refine Uses.bind ⟨trivial, fun _ => trivial⟩ fun now => ?_
  refine Uses.bind ⟨trivial, fun _ => trivial⟩ fun chosen => ?_
  split
  · trivial
  · refine Uses.bind (Async.uses_when ⟨trivial, fun _ => trivial⟩) fun _ => ?_
    exact Uses.bind (Async.uses_when ⟨trivial, fun _ => trivial⟩) fun _ => trivial

theorem getLoop_uses (fuel n : Nat) : (getLoop c scheme key fuel n).Uses Op.IsCheckout := by
  induction fuel generalizing n
  case zero => exact Async.uses_never.mpr trivial
  case succ hi =>
    refine Uses.bind ⟨trivial, fun _ => trivial⟩ fun _ => ?_
    refine Uses.bind (trySelect_uses ..) fun chosen => ?_
    split
    case h_1 proxy =>
      split
      · refine Uses.bind (Negotiator.probeTunnel_uses_of _ _ _ trivial fun _ => Op.IsNegotiation.isCheckout) fun live => ?_
        cases live
        · refine Uses.bind (Uses.mono (putFailed_handback ..) fun _ => Op.IsHandback.isCheckout) fun _ => ?_
          split
          · trivial
          · exact hi _
        · trivial
      · trivial
    case h_2 =>
      refine Uses.bind ⟨trivial, fun _ => trivial⟩ fun exhausted => ?_
      cases exhausted
      · exact Uses.bind ⟨trivial, fun _ => trivial⟩ fun _ => hi _
      · exact trySelect_uses ..

theorem get_uses (fuel : Nat) : (Pool.get c fuel scheme key).Uses Op.IsLeasing :=
  (getLoop_uses ..).mono fun _ => Op.IsCheckout.isLeasing

end Pool
