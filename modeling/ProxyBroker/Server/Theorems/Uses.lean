import ProxyBroker.Server.HandleClient
import ProxyBroker.Pool.Theorems.Uses

open Prog

namespace Op

-- The operations that read from or write to the client, and do nothing else.
def IsClientSide : Op → Prop
  | net (.clientRead _) | net (.clientWrite _) => True
  | _                                          => False

def IsClientRead : Op → Prop
  | net (.clientRead _) => True
  | _                   => False

-- What is done for a client by the control API, depending on whether removals are allowed.
def IsControl (removeAllowed : Bool) : Op → Prop
  | net (.clientWrite _) | history (.get _) => True
  | pool (.remove _)                        => removeAllowed = true
  | _                                       => False

-- What is done for a client once a connection over a proxy has been negotiated, other than the splice.
def Acknowledges (p : Proxy) (req : Server.ClientRequest) : Op → Prop
  | net (.upWrite .exchange bs)                 => req.frontend = .httpForward ∧ bs = Server.toSend p req.raw
  | net (.upRead .exchange _) | net (.clientWrite _) => True
  | _                                           => False

variable {o : Op} {removeAllowed : Bool}

theorem Acknowledges.isStreaming {p : Proxy} {req : Server.ClientRequest} (h : o.Acknowledges p req) :
    o.IsStreaming := by
  cases o
  case net o => cases o <;> trivial
  all_goals exact (h : False).elim

theorem IsClientRead.isClientSide (h : o.IsClientRead) : o.IsClientSide := by
  cases o
  case net o => cases o <;> trivial
  all_goals exact (h : False).elim

theorem IsClientSide.isIdle (h : o.IsClientSide) : o.IsIdle := by
  cases o
  case net o => cases o <;> trivial
  all_goals exact (h : False).elim

theorem IsControl.isIdle (h : o.IsControl removeAllowed) : o.IsIdle := by
  cases o
  case pool o => cases o <;> trivial
  case net o  => cases o <;> trivial
  all_goals trivial

end Op

namespace Server

variable {α : Type} {j : Job} {p : Proxy} {expected : Option AuthExpect}

theorem settle_uses (outcome : RelayOutcome) : (settle j p outcome).Uses Op.IsReturn := by
  cases outcome
  case ok =>
    refine Uses.bind ⟨trivial, fun _ => trivial⟩ fun _ => ?_
    exact Uses.bind (Pool.putInner_uses ..) fun _ => trivial
  case clientGone => exact Uses.bind (Pool.putInner_uses ..) fun _ => trivial
  all_goals exact Uses.bind (Pool.putFailed_uses ..) fun _ => trivial

theorem writeAll_uses {P : Op → Prop} {bs : Bytes} (h : P (.net (.clientWrite bs))) :
    (writeAll bs).Uses P := by
  refine Uses.bind ((Async.uses_net _).mpr h) fun r => ?_
  split <;> trivial

theorem readExactLoop_uses (fuel need : Nat) (acc : Bytes) :
    (readExactLoop fuel need acc).Uses Op.IsClientRead := by
  induction fuel generalizing need acc <;> cases need
  case succ.succ hi need =>
    refine Uses.bind ⟨trivial, fun _ => trivial⟩ fun r => ?_
    split
    · exact hi ..
    · trivial
  all_goals trivial

theorem readRequestLoop_uses (fuel : Nat) (buf : Bytes) :
    (readRequestLoop fuel buf).Uses Op.IsClientRead := by
  induction fuel generalizing buf
  case zero => trivial
  case succ hi =>
    refine Uses.bind ⟨trivial, fun _ => trivial⟩ fun r => ?_
    split
    · dsimp only
      split_ifs
      · trivial
      · exact hi _
    · trivial

-- Reading a number of bytes, and giving up if that fails.
theorem readExact_bind_uses {n : Nat} {f : Bytes → Async (Option α)}
    (h : ∀ bs, (f bs).Uses Op.IsClientSide) :
    Uses Op.IsClientSide (readExact n >>= fun | some bs => f bs | _ => pure none) := by
  refine Uses.bind ((readExactLoop_uses ..).mono fun _ => Op.IsClientRead.isClientSide) fun r => ?_
  split
  · exact h _
  · trivial

theorem writeAll_then_uses {bs : Bytes} {a b : Option α} :
    Uses Op.IsClientSide (do if !(← writeAll bs) then return a else return b) :=
  Uses.bind (writeAll_uses trivial) fun ok => by cases ok <;> trivial

theorem writeAll_none_uses {bs : Bytes} :
    Uses Op.IsClientSide (do let _ ← writeAll bs; return none : Async (Option α)) :=
  Uses.bind (writeAll_uses trivial) fun _ => trivial

theorem socks5Auth_uses (methods : Bytes) : (socks5Auth methods expected).Uses Op.IsClientSide := by
  unfold socks5Auth
  split
  case h_1 =>
    split
    · exact writeAll_none_uses
    · exact writeAll_then_uses
  case h_2 =>
    split
    · exact writeAll_none_uses
    · refine Uses.bind (writeAll_uses trivial) fun ok => ?_
      cases ok
      case false => trivial
      refine readExact_bind_uses fun _ => readExact_bind_uses fun _ => ?_
      refine readExact_bind_uses fun _ => readExact_bind_uses fun _ => ?_
      split
      · exact writeAll_then_uses
      · exact writeAll_none_uses

theorem socks5Addr_uses (atyp : UInt8) : (socks5Addr atyp).Uses Op.IsClientSide := by
  unfold socks5Addr
  split_ifs
  · exact readExact_bind_uses fun _ => readExact_bind_uses fun _ => trivial
  · exact readExact_bind_uses fun _ => readExact_bind_uses fun _ => trivial
  · exact readExact_bind_uses fun _ => readExact_bind_uses fun _ => readExact_bind_uses fun _ => trivial
  · exact writeAll_none_uses

theorem parseSocks5Request_uses : (parseSocks5Request expected).Uses Op.IsClientSide := by
  refine readExact_bind_uses fun _ => readExact_bind_uses fun _ => ?_
  refine Uses.bind (socks5Auth_uses _) fun r => ?_
  split
  case h_2 => trivial
  refine readExact_bind_uses fun hdr => ?_
  split_ifs
  · trivial
  · exact writeAll_none_uses
  · refine Uses.bind (socks5Addr_uses _) fun r => ?_
    split <;> trivial

theorem parseClientRequest_uses : (parseClientRequest expected).Uses Op.IsClientSide := by
  refine readExact_bind_uses fun _ => ?_
  split_ifs
  · exact parseSocks5Request_uses
  · refine Uses.bind ((readRequestLoop_uses ..).mono fun _ => Op.IsClientRead.isClientSide) fun r => ?_
    split <;> trivial

theorem serveControl_uses (req : ClientRequest) (peer : IpAddr) (removeAllowed : Bool) :
    (serveControl req peer removeAllowed).Uses (Op.IsControl removeAllowed) := by
  have reply (bs : Bytes) :
      Uses (Op.IsControl removeAllowed) (do let _ ← writeAll bs : Async Unit) :=
    Uses.bind (writeAll_uses trivial) fun _ => trivial
  unfold serveControl
  dsimp only
  split
  case h_1 operation params _ =>
    split_ifs with _ hr
    · exact reply _
    · refine Uses.bind ?_ fun _ => reply _
      unfold removeParsed
      split
      · refine Uses.bind (Uses.bind ?_ fun _ => trivial) fun _ => trivial
        exact (Async.uses_pool _).mpr (by simpa [Op.IsControl] using hr)
      · trivial
    · refine Uses.bind ((Async.uses_history _).mpr trivial) fun r => ?_
      split <;> exact reply _
    · exact reply _
  case h_2 => exact reply _

theorem readStatusLoop_uses (req : ClientRequest) (n : Nat) (head : Bytes) :
    (readStatusLoop n head).Uses (Op.Acknowledges p req) := by
  induction n generalizing head
  case zero => trivial
  case succ hi =>
    refine Uses.bind ⟨trivial, fun _ => trivial⟩ fun r => ?_
    split
    case h_4 =>
      dsimp only
      split_ifs
      · trivial
      · exact hi _
    all_goals trivial

theorem acknowledge_uses (req : ClientRequest) (allowed : Option (List UInt16)) :
    (acknowledge p req allowed).Uses (Op.Acknowledges p req) := by
  have ack (bs : Bytes) :
      Uses (Op.Acknowledges p req)
        (do if !(← writeAll bs) then return some .clientGone else return none :
          Async (Option RelayOutcome)) :=
    Uses.bind (writeAll_uses trivial) fun ok => by cases ok <;> trivial
  unfold acknowledge
  split
  case h_3 hf =>
    refine Uses.bind ⟨⟨hf, rfl⟩, fun _ => trivial⟩ fun r => ?_
    split
    case h_3 =>
      split_ifs
      · trivial
      · refine Uses.bind (readStatusLoop_uses ..) fun r => ?_
        split
        · trivial
        · split_ifs
          · trivial
          · exact ack _
    all_goals trivial
  all_goals exact ack _

theorem relay_uses_net (proto : Proto) (target : Negotiator.Target) (req : ClientRequest)
    (allowed : Option (List UInt16)) : (relay p proto target req allowed).Uses fun o => ∃ n, o = Op.net n := by
  have net {o : Op} (h : o.IsStreaming) : ∃ n, o = Op.net n := by
    cases o
    case net n => exact ⟨n, rfl⟩
    all_goals exact (h : False).elim
  refine Uses.bind ⟨⟨_, rfl⟩, fun _ => trivial⟩ fun r => ?_
  split
  case h_3 =>
    refine Uses.bind ((Negotiator.negotiate_uses ..).mono fun _ h => net h.isStreaming) fun r => ?_
    split
    · trivial
    · refine Uses.bind ((acknowledge_uses ..).mono fun _ h => net h.isStreaming) fun r => ?_
      split
      · trivial
      · exact Uses.bind ⟨⟨_, rfl⟩, fun _ => trivial⟩ fun _ => trivial
  all_goals trivial

theorem relay_uses (proto : Proto) (target : Negotiator.Target) (req : ClientRequest)
    (allowed : Option (List UInt16)) : (relay p proto target req allowed).Uses Op.IsServing :=
  (relay_uses_net ..).mono fun | _, ⟨_, rfl⟩ => trivial

theorem attempts_uses (tries attempt : Nat) : (attempts j tries attempt).Uses Op.IsServing := by
  induction tries generalizing attempt
  case zero => exact Uses.bind (writeAll_uses trivial) fun _ => trivial
  case succ hi =>
    refine Uses.bind ((Pool.get_uses ..).mono fun _ h => h.isServing) fun chosen => ?_
    split
    · exact Uses.bind (writeAll_uses trivial) fun _ => trivial
    · refine Uses.bind (Async.uses_when ⟨trivial, fun _ => trivial⟩) fun _ => ?_
      refine Uses.bind (relay_uses ..) fun outcome => ?_
      refine Uses.bind ((settle_uses _).mono fun _ h => h.isServing) fun again => ?_
      cases again
      · trivial
      · exact hi _

-- Before its loop over the attempts, `handleClient` reads the request, and then either replies to it,
-- or hands it to the control API, or resolves its host.
theorem accept_uses (ctx : ConnCtx) (peer : IpAddr) {P : Op → Prop} (hi : ∀ o, o.IsClientSide → P o)
    (hc : ∀ o, o.IsControl (controlRemoveAllowed ctx.expectedAuth.isSome peer) → P o)
    (hr : ∀ host, P (.net (.resolve host))) : (accept ctx peer).Uses P := by
  refine Uses.bind (parseClientRequest_uses.mono hi) fun r => ?_
  split
  case h_2 => trivial
  split_ifs
  · exact Uses.bind (writeAll_uses <| hi _ trivial) fun _ => trivial
  · exact Uses.bind ((serveControl_uses ..).mono hc) fun _ => trivial
  · exact Uses.bind ((Async.uses_net _).mpr <| hr _) fun _ => trivial

end Server
