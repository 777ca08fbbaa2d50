import ProxyBroker.Server.Wire
import ProxyBroker.Server.Theorems.Uses
import ProxyBroker.Pool.Theorems.Lease

open Prog

namespace Server

-- What has been taken from a client, and what was sent to the proxy that is currently leased for it.
structure Flow where
  taken : Bytes
  proxy : Option Proxy
  sent  : Bytes

namespace Flow

def initial : Flow where
  taken := []
  proxy := none
  sent  := []

def next (s : Flow) (e : Event Effects) : Flow where
  taken := s.taken ++ e.fromClient
  proxy := e.leases.or s.proxy
  sent  := e.send s.sent

def after (tr : Trace Effects) : Flow :=
  tr.foldl next initial

end Flow

end Server

-- The operations that neither take anything from the client nor send anything to a proxy, nor have to do
-- with which proxy is leased.
def Op.IsQuiet : Op → Prop
  | net (.clientRead _) | net (.dial ..) | net (.upWrite .exchange _) | net .splice => False
  | pool (.select _) | pool (.tryGet ..) | pool (.push ..) | pool (.evict _)        => False
  | _                                                                              => True

-- The operations before the first attempt, which do not concern a proxy.
def Op.IsPreliminary : Op → Prop
  | net (.clientRead _) => True
  | o                   => o.IsQuiet

-- The operations by which bytes get from the client to a proxy.
def Op.Transfers : Op → Prop
  | net (.clientRead _) | net (.dial ..) | net (.upWrite .exchange _) | net .splice => True
  | _                                                                               => False

namespace Op

variable {o : Op}

theorem IsClientSide.isPreliminary (h : o.IsClientSide) : o.IsPreliminary := by
  cases o
  case net o => cases o <;> trivial
  all_goals exact (h : False).elim

theorem IsQuiet.isPreliminary (h : o.IsQuiet) : o.IsPreliminary := by
  cases o
  case net o => cases o <;> trivial
  all_goals exact h

theorem IsNegotiation.isQuiet (h : o.IsNegotiation) : o.IsQuiet := by
  cases o
  case net o =>
    cases o
    case upWrite ph _ => cases ph <;> trivial
    all_goals trivial
  all_goals exact (h : False).elim

theorem IsControl.isQuiet {removeAllowed : Bool} (h : o.IsControl removeAllowed) : o.IsQuiet := by
  cases o
  case pool o => cases o <;> trivial
  case net o  => cases o <;> trivial
  all_goals trivial

end Op

namespace Server

variable {s : Flow}

theorem Flow.next_quiet {o : Op} {r : o.Ret} (h : o.IsQuiet) : s.next ⟨o, r⟩ = s := by
  cases o
  case pool o =>
    cases o <;> first
      | exact (h : False).elim
      | simp [Flow.next, Event.fromClient, Event.leases, PoolOp.leases, Event.send]
  case net o =>
    cases o
    case upWrite ph _ =>
      cases ph <;> first
        | exact (h : False).elim
        | simp [Flow.next, Event.fromClient, Event.leases, Event.send]
    all_goals first | exact (h : False).elim | simp [Flow.next, Event.fromClient, Event.leases, Event.send]
  all_goals simp [Flow.next, Event.fromClient, Event.leases, Event.send]

theorem Flow.next_clientRead (n : Nat) (r : ReadResult) :
    s.next ⟨.net (.clientRead n), r⟩ = { s with taken := s.taken ++ r.delivered n } := by
  simp [Flow.next, Event.fromClient, Event.leases, Event.send]

theorem Flow.next_dial (d : Dial) (k : Key) (r : DialResult) :
    s.next ⟨.net (.dial d k), r⟩ = { s with sent := [] } := by
  simp [Flow.next, Event.fromClient, Event.leases, Event.send]

theorem Flow.next_select (ctx : Pool.SelectCtx) (r : Option Proxy) :
    s.next ⟨.pool (.select ctx), r⟩ = { s with proxy := r.or s.proxy } := by
  simp [Flow.next, Event.fromClient, Event.leases, PoolOp.leases, Event.send]

theorem Flow.next_push (g : Giver) (e : Pool.Pooled) (r : Unit) :
    s.next ⟨.pool (.push g e), r⟩ = { s with sent := [] } := by
  simp [Flow.next, Event.fromClient, Event.leases, PoolOp.leases, Event.send]

theorem Flow.next_evict (p : Proxy) (r : Unit) :
    s.next ⟨.pool (.evict p), r⟩ = { s with sent := [] } := by
  simp [Flow.next, Event.fromClient, Event.leases, PoolOp.leases, Event.send]

theorem Flow.next_upWrite (b : Bytes) (r : WriteResult) :
    s.next ⟨.net (.upWrite .exchange b), r⟩ = { s with sent := s.sent ++ b } := by
  simp [Flow.next, Event.fromClient, Event.leases, Event.send]

theorem Flow.next_splice (r : Spliced) :
    s.next ⟨.net .splice, r⟩ =
    { s with taken := s.taken ++ r.toUpstream, sent := s.sent ++ r.toUpstream } := by
  simp [Flow.next, Event.fromClient, Event.leases, Event.send]

theorem Flow.after_snoc (tr : Trace Effects) (e : Event Effects) : after (tr ++ [e]) = (after tr).next e := by
  simp [after]

theorem Flow.after_taken (tr : Trace Effects) : (after tr).taken = tr.fromClient := by
  induction tr using List.reverseRecOn
  case nil                    => rfl
  case append_singleton tr e h => simp [after_snoc, next, h]

end Server
