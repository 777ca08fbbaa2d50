import ProxyBroker.Server.Theorems.Flow
import ProxyBroker.Server.Theorems.Handshake

open Prog Utf8 Negotiator Trace

-- How an event changes the bytes that have arrived, after its negotiation, over the current connection to a
-- proxy. Other than in `send`, a write only counts as far as it went.
def Event.arrive (up : Bytes) : Event Effects → Bytes
  | ⟨.net (.dial ..), _⟩ | ⟨.pool (.push ..), _⟩ | ⟨.pool (.evict _), _⟩ => []
  | ⟨.net (.upWrite .exchange bs), r⟩ => up ++ WriteResult.delivered bs r
  | ⟨.net .splice, r⟩                 => up ++ r.toUpstream
  | _                                 => up

-- The bytes that have arrived, after its negotiation, over the current connection to a proxy.
def Trace.arrived (tr : Trace Effects) : Bytes :=
  tr.foldl Event.arrive []

namespace Server

variable {α : Type}

-- What a proxy is sent ahead of what is spliced.
def payload (p : Proxy) (req : ClientRequest) : Bytes :=
  if req.frontend = .httpForward then toSend p req.raw else []

-- What has happened to a connection of a client.
structure Meter where
  flow    : Flow
  arrived : Bytes
  dialed  : Option (Dial × Key)
  spliced : Bool

def Meter.next (s : Meter) (e : Event Effects) : Meter where
  flow    := s.flow.next e
  arrived := e.arrive s.arrived
  dialed  := Event.redial s.dialed e
  spliced := match e.op with
    | .net .splice => true
    | _            => s.spliced

def Meter.initial : Meter where
  flow    := .initial
  arrived := []
  dialed  := none
  spliced := false

def Meter.after (tr : Trace Effects) : Meter :=
  tr.foldl Meter.next initial

section Stages

variable (req : ClientRequest) (t₀ : Bytes) (p : Proxy) (s : Meter)

-- The proxy `p` was sent what it is to be sent before the splice.
structure Primed : Prop where
  direct : s.spliced = false
  taken  : s.flow.taken = t₀
  proxy  : s.flow.proxy = some p
  dialed : s.dialed = some (.relay, p.key)
  sent   : s.flow.sent = payload p req

-- The client's bytes `t₀` have been taken, and nothing was sent over the current connection.
structure Waiting : Prop where
  direct  : s.spliced = false
  taken   : s.flow.taken = t₀
  sent    : s.flow.sent = []
  arrived : s.arrived = []

-- An attempt has been spliced, which may be over.
structure Joined : Prop where
  spliced : s.spliced = true
  sent    : s.flow.sent = [] ∨ ∃ p y, s.flow.proxy = some p ∧ s.dialed = some (.relay, p.key) ∧
    s.flow.taken = t₀ ++ y ∧ s.flow.sent = payload p req ++ y ∧ s.arrived = payload p req ++ y

-- Whatever a proxy has been sent, it is what it is to be sent.
def Held : Prop :=
  Waiting t₀ s ∨ (∃ p, Primed req t₀ p s) ∨ Joined req t₀ s

end Stages

-- Demands that the client is not read anymore, that a new attempt begins with nothing but what was taken from
-- the client at first, and that an attempt is spliced once it has been sent its head.
def delivery (req : ClientRequest) (t₀ : Bytes) : Monitor Effects Meter where
  demand s
    | .net (.clientRead _)                   => False
    | .net .splice                           => ∃ p, Primed req t₀ p s ∧ s.arrived = payload p req
    | .net (.dial ..) | .pool (.select _)    => Waiting t₀ s
    | .net (.upWrite .exchange _)            => Waiting t₀ s
    | _                                      => Held req t₀ s
  next := Meter.next

section Attempts

variable {j : Job} {p : Proxy} {req : ClientRequest} {t₀ : Bytes} {s s' : Meter} {o : Op}

theorem Waiting.held (h : Waiting t₀ s) : Held req t₀ s :=
  .inl h

theorem Primed.held (h : Primed req t₀ p s) : Held req t₀ s :=
  .inr (.inl ⟨p, h⟩)

theorem Meter.next_quiet {r : o.Ret} (h : o.IsQuiet) : s.next ⟨o, r⟩ = s := by
  have hf := Flow.next_quiet (s := s.flow) (r := r) h
  obtain ⟨f, up, d, b⟩ := s
  cases o
  case pool o =>
    cases o <;> first | exact (h : False).elim | simpa [Meter.next, Event.redial, Event.arrive] using hf
  case net o =>
    cases o
    case upWrite ph _ =>
      cases ph <;> first | exact (h : False).elim | simpa [Meter.next, Event.redial, Event.arrive] using hf
    all_goals first | exact (h : False).elim | simpa [Meter.next, Event.redial, Event.arrive] using hf
  all_goals simpa [Meter.next, Event.redial, Event.arrive] using hf

theorem demand_quiet (h : o.IsQuiet) (hs : Held req t₀ s) : (delivery req t₀).demand s o := by
  cases o
  case net o =>
    cases o
    case upWrite ph _ =>
      cases ph
      · exact hs
      · exact (h : False).elim
    all_goals first | exact hs | exact (h : False).elim
  case pool o => cases o <;> first | exact hs | exact (h : False).elim
  all_goals exact hs

theorem sat_still {p : Async α} (hp : p.Uses Op.IsQuiet) (hs : Held req t₀ s) :
    Sat (delivery req t₀) p (fun _ s' => s' = s) s := by
  refine hp.sat (Φ := (· = s)) ?_ ?_ rfl
  · rintro _ o ho rfl
    exact demand_quiet ho hs
  · rintro _ o r ho rfl
    exact Meter.next_quiet ho

theorem sat_still_bind {β : Type} {p : Async α} {f : α → Async β} {post : β → Meter → Prop}
    (hp : p.Uses Op.IsQuiet) (hs : Held req t₀ s) (hf : ∀ a, Sat (delivery req t₀) (f a) post s) :
    Sat (delivery req t₀) (p >>= f) post s := by
  rw [sat_bind]
  refine (sat_still hp hs).mono fun a s' h => ?_
  rw [h]
  exact hf a

theorem pinned_quiet (config : Pool.Config) (key : Pool.ClientKey) : (Pool.pinned config key).Uses Op.IsQuiet := by
  unfold Pool.pinned
  split_ifs
  · exact Uses.bind ⟨trivial, fun _ => trivial⟩ fun _ => trivial
  · trivial

-- A proxy is leased while nothing has been sent.
theorem trySelect_delivery (config : Pool.Config) (scheme : Scheme) (key : Pool.ClientKey) (h : Waiting t₀ s) :
    Sat (delivery req t₀) (Pool.trySelect config scheme key)
      (fun r s => Waiting t₀ s ∧ ∀ p, r = some p → s.flow.proxy = some p) s := by
  have hw {b : Prop} [Decidable b] {o : PoolOp} (ho : (Op.pool o).IsQuiet) :
      (Async.when b <| Async.exec o).Uses Op.IsQuiet :=
    Async.uses_when ⟨ho, fun _ => trivial⟩
  unfold Pool.trySelect
  refine sat_still_bind (pinned_quiet ..) h.held fun sticky => ?_
  refine sat_still_bind ((Async.uses_pool _).mpr trivial) h.held fun cursor => ?_
  refine sat_still_bind ((Async.uses_env _).mpr trivial) h.held fun now => ?_
  simp only [sat_bind, Async.sat_pool]
  refine ⟨h, fun chosen => ?_⟩
  have hn : (delivery req t₀).next s
      ⟨.pool (.select ⟨scheme, config.strategy, sticky, cursor, now, config.preferConnect⟩), chosen⟩ =
      { s with flow := { s.flow with proxy := Option.or chosen s.flow.proxy } } :=
    congrArg (Meter.mk · s.arrived s.dialed s.spliced) (Flow.next_select _ chosen)
  rw [hn]
  have h : Waiting t₀ { s with flow := { s.flow with proxy := Option.or chosen s.flow.proxy } } :=
    ⟨h.direct, h.taken, h.sent, h.arrived⟩
  cases chosen
  case none => exact ⟨h, by simp⟩
  case some chosen =>
    refine sat_still_bind (hw trivial) h.held fun _ => sat_still_bind (hw trivial) h.held fun _ => ?_
    exact ⟨h, fun p hp => by simpa using hp⟩

-- A connection is closed when its proxy is handed back.
def Meter.closed (s : Meter) : Meter :=
  { s with flow := { s.flow with sent := [] }, arrived := [] }

theorem Held.closed (h : Held req t₀ s) : Waiting t₀ s.closed ∨ Joined req t₀ s.closed := by
  rcases h with h | ⟨p, h⟩ | h
  · exact .inl ⟨h.direct, h.taken, rfl, rfl⟩
  · exact .inl ⟨h.direct, h.taken, rfl, rfl⟩
  · exact .inr ⟨h.spliced, .inl rfl⟩

theorem putInner_delivery (config : Pool.Config) (p : Proxy) (blocked : Option Instant) (hs : Held req t₀ s) :
    Sat (delivery req t₀) (Pool.putInner config p blocked) (fun _ s' => s' = s.closed) s := by
  have hc : Held req t₀ s.closed := hs.closed.imp_right .inr
  unfold Pool.putInner
  split_ifs
  · simp only [Async.sat_exec]
    exact ⟨hs, fun r => congrArg (Meter.mk · [] s.dialed s.spliced) (Flow.next_evict p r)⟩
  · simp only [sat_bind, Async.sat_exec]
    refine ⟨hs, fun r => ?_⟩
    have hn : (delivery req t₀).next s ⟨.pool (.push .holder ⟨p, blocked⟩), r⟩ = s.closed :=
      congrArg (Meter.mk · [] s.dialed s.spliced) (Flow.next_push _ _ r)
    rw [hn]
    exact ⟨hc, fun _ => Meter.next_quiet trivial⟩

theorem putFailed_delivery (config : Pool.Config) (p : Proxy) (hs : Held req t₀ s) :
    Sat (delivery req t₀) (Pool.putFailed config p) (fun _ s' => s' = s.closed) s := by
  refine sat_still_bind ((Async.uses_env _).mpr trivial) hs fun now => ?_
  dsimp only
  split
  · exact putInner_delivery config p _ hs
  · exact (Async.sat_panic _).mpr hs

theorem Waiting.closed (h : Waiting t₀ s) : s.closed = s := by
  obtain ⟨⟨_, _, sent⟩, arrived, _, _⟩ := s
  obtain rfl : sent = [] := h.sent
  obtain rfl : arrived = [] := h.arrived
  rfl

theorem Meter.next_dial (d : Dial) (k : Key) (r : DialResult) :
    s.next ⟨.net (.dial d k), r⟩ = { s.closed with dialed := some (d, k) } :=
  congrArg (Meter.mk · [] (some (d, k)) s.spliced) (Flow.next_dial d k r)

theorem Waiting.dial (h : Waiting t₀ s) (d : Dial) (k : Key) (r : DialResult) :
    Waiting t₀ (s.next ⟨.net (.dial d k), r⟩) ∧ (s.next ⟨.net (.dial d k), r⟩).flow.proxy = s.flow.proxy ∧
    (s.next ⟨.net (.dial d k), r⟩).dialed = some (d, k) := by
  rw [Meter.next_dial, h.closed]
  exact ⟨⟨h.direct, h.taken, h.sent, h.arrived⟩, rfl, rfl⟩

-- The connection that is used for a probe.
theorem verifyLive_delivery (config : Pool.Config) (p : Proxy) (h : Waiting t₀ s) :
    Sat (delivery req t₀) (Pool.verifyLive config p)
      (fun _ s' => Waiting t₀ s' ∧ s'.flow.proxy = s.flow.proxy) s := by
  unfold Pool.verifyLive probeTunnel
  simp only [sat_bind, Async.sat_net]
  refine ⟨h, fun r => ?_⟩
  obtain ⟨h, hp, -⟩ := h.dial .probe p.key r
  change Sat _ _ _ (s.next _)
  split
  · refine sat_still_bind ((negotiate_uses ..).mono fun _ => Op.IsNegotiation.isQuiet) h.held fun _ => ?_
    exact ⟨h, hp⟩
  · exact ⟨h, hp⟩

theorem getLoop_delivery (config : Pool.Config) (scheme : Scheme) (key : Pool.ClientKey) (fuel n : Nat)
    (h : Waiting t₀ s) :
    Sat (delivery req t₀) (Pool.getLoop config scheme key fuel n)
      (fun r s => Waiting t₀ s ∧ ∀ p, r = some p → s.flow.proxy = some p) s := by
  induction fuel generalizing n s
  case zero => exact (Async.sat_never _).mpr h.held
  case succ fuel hi =>
    unfold Pool.getLoop
    refine sat_still_bind ((Async.uses_exec _).mpr trivial) h.held fun _ => ?_
    rw [sat_bind]
    refine (trySelect_delivery config scheme key h).mono fun r s hr => ?_
    obtain ⟨h, hp⟩ := hr
    cases r
    case none =>
      refine sat_still_bind ((Async.uses_pool _).mpr trivial) h.held fun exhausted => ?_
      dsimp only
      split_ifs
      · exact trySelect_delivery config scheme key h
      · exact sat_still_bind ((Async.uses_exec _).mpr trivial) h.held fun _ => hi n h
    case some p =>
      dsimp only
      by_cases hv : config.verifyOnLease.isSome = true
      · rw [if_pos hv, sat_bind]
        refine (verifyLive_delivery config p h).mono fun live s' hs => ?_
        obtain ⟨h, he⟩ := hs
        cases live
        case true => exact ⟨h, he ▸ hp⟩
        case false =>
          simp only [Bool.false_eq_true, if_false]
          rw [sat_bind]
          refine (putFailed_delivery config p h.held).mono fun _ s' hs => ?_
          have h : Waiting t₀ s' := by rwa [hs, h.closed]
          split_ifs
          · exact ⟨h, by simp⟩
          · exact hi _ h
      · rw [if_neg hv]
        exact ⟨h, hp⟩

theorem readStatusLoop_quiet (n : Nat) (head : Bytes) : (readStatusLoop n head).Uses Op.IsQuiet := by
  induction n generalizing head
  case zero => trivial
  case succ hi =>
    refine Uses.bind ⟨trivial, fun _ => trivial⟩ fun r => ?_
    split
    case h_4 =>
      dsimp only
      split_ifs
      · trivial
      · exact hi _
    all_goals trivial

theorem Meter.next_upWrite (b : Bytes) (r : WriteResult) :
    s.next ⟨.net (.upWrite .exchange b), r⟩ =
    { s with flow := { s.flow with sent := s.flow.sent ++ b }, arrived := s.arrived ++ r.delivered b } :=
  congrArg (Meter.mk · (s.arrived ++ r.delivered b) s.dialed s.spliced) (Flow.next_upWrite b r)

theorem writeAll_then_quiet {bs : Bytes} {a b : Option RelayOutcome} :
    Uses Op.IsQuiet (do if !(← writeAll bs) then return a else return b : Async (Option RelayOutcome)) :=
  Uses.bind (writeAll_uses trivial) fun ok => by cases ok <;> trivial

-- However the client is acknowledged, the proxy is sent its head, or it is not to be sent one. If it comes to a
-- splice, then the head has arrived as a whole.
theorem acknowledge_delivery (h : Waiting t₀ s) (hp : s.flow.proxy = some p) (hd : s.dialed = some (.relay, p.key))
    (allowed : Option (List UInt16)) :
    Sat (delivery req t₀) (acknowledge p req allowed)
      (fun o s' => Primed req t₀ p s' ∧ (o = none → s'.arrived = payload p req)) s := by
  have ack (hf : req.frontend ≠ .httpForward) (bs : Bytes) :
      Sat (delivery req t₀) (do if !(← writeAll bs) then return some RelayOutcome.clientGone else return none)
        (fun o s' => Primed req t₀ p s' ∧ (o = none → s'.arrived = payload p req)) s := by
    refine (sat_still writeAll_then_quiet h.held).mono fun _ s' he => ?_
    rw [he, h.arrived, payload, if_neg hf]
    exact ⟨⟨h.direct, h.taken, hp, hd, by rw [h.sent, payload, if_neg hf]⟩, fun _ => rfl⟩
  unfold acknowledge
  split
  case h_1 hf => exact ack (by simp [hf]) _
  case h_2 hf => exact ack (by simp [hf]) _
  case h_3 hf =>
    simp only [forward, sat_bind, Async.sat_net]
    refine ⟨h, fun r => ?_⟩
    rw [show (delivery req t₀).next s ⟨.net (.upWrite .exchange (toSend p req.raw)), r⟩ = _ from
      Meter.next_upWrite _ r, h.sent, h.arrived, List.nil_append, List.nil_append]
    have hp : Primed req t₀ p
        { s with flow := { s.flow with sent := toSend p req.raw }, arrived := r.delivered (toSend p req.raw) } :=
      ⟨h.direct, h.taken, hp, hd, by rw [payload, if_pos hf]⟩
    split
    case h_1 => exact ⟨hp, by simp⟩
    case h_2 => exact ⟨hp, by simp⟩
    case h_3 =>
      refine (sat_still ?_ hp.held).mono fun _ s' he => ?_
      · split_ifs
        · trivial
        · refine Uses.bind (readStatusLoop_quiet ..) fun r => ?_
          split
          · trivial
          · split_ifs
            · trivial
            · exact writeAll_then_quiet
      · rw [he]
        exact ⟨hp, fun _ => by rw [payload, if_pos hf, WriteResult.delivered]⟩

theorem Meter.next_splice (r : Spliced) : s.next ⟨.net .splice, r⟩ =
    ⟨{ s.flow with taken := s.flow.taken ++ r.toUpstream, sent := s.flow.sent ++ r.toUpstream },
      s.arrived ++ r.toUpstream, s.dialed, true⟩ :=
  congrArg (Meter.mk · (s.arrived ++ r.toUpstream) s.dialed true) (Flow.next_splice r)

theorem Primed.splice (h : Primed req t₀ p s) (ha : s.arrived = payload p req) (r : Spliced) :
    Joined req t₀ (s.next ⟨.net .splice, r⟩) := by
  rw [Meter.next_splice]
  exact ⟨rfl, .inr ⟨p, r.toUpstream, h.proxy, h.dialed, by rw [h.taken], by rw [h.sent], by rw [ha]⟩⟩

-- After an attempt that can be retried, nothing has been spliced.
def Attempted (req : ClientRequest) (t₀ : Bytes) (outcome : RelayOutcome) (s : Meter) : Prop :=
  Held req t₀ s ∧ ∀ e, outcome = .retryableFailure e → s.spliced = false

theorem relay_delivery (h : Waiting t₀ s) (hp : s.flow.proxy = some p) (proto : Proto) (target : Target)
    (allowed : Option (List UInt16)) :
    Sat (delivery req t₀) (relay p proto target req allowed) (Attempted req t₀) s := by
  unfold relay
  simp only [sat_bind, Async.sat_net]
  refine ⟨h, fun r => ?_⟩
  obtain ⟨h, he, hd⟩ := h.dial .relay p.key r
  change Sat _ _ _ (s.next _)
  split
  · exact ⟨h.held, fun _ _ => h.direct⟩
  · exact ⟨h.held, fun _ _ => h.direct⟩
  · refine sat_still_bind ((negotiate_uses ..).mono fun _ => Op.IsNegotiation.isQuiet) h.held fun r => ?_
    split
    · exact ⟨h.held, fun _ _ => h.direct⟩
    · rw [sat_bind]
      refine (acknowledge_delivery h (he.trans hp) hd allowed).mono fun outcome s' hs => ?_
      split
      · exact ⟨hs.left.held, fun _ _ => hs.left.direct⟩
      · simp only [sat_bind, Async.sat_net]
        obtain ⟨hs, ha⟩ := hs
        refine ⟨⟨p, hs, ha rfl⟩, fun r => ⟨.inr (.inr (hs.splice (ha rfl) r)), fun e he => ?_⟩⟩
        split_ifs at he

theorem settle_delivery (p : Proxy) (outcome : RelayOutcome) (hs : Held req t₀ s) :
    Sat (delivery req t₀) (settle j p outcome)
      (fun again s' => s' = s.closed ∧ (again = true → ∃ e, outcome = .retryableFailure e)) s := by
  cases outcome
  case ok =>
    refine sat_still_bind ((Async.uses_history _).mpr trivial) hs fun _ => ?_
    simp only [sat_bind, Pool.putOk]
    exact (putInner_delivery _ _ _ hs).mono fun _ s' h => ⟨h, by simp⟩
  case retryableFailure e =>
    simp only [settle, sat_bind]
    exact (putFailed_delivery _ _ hs).mono fun _ s' h => ⟨h, fun _ => ⟨e, rfl⟩⟩
  case clientCommitted e =>
    simp only [settle, sat_bind]
    exact (putFailed_delivery _ _ hs).mono fun _ s' h => ⟨h, by simp⟩
  case clientGone =>
    simp only [settle, sat_bind, Pool.putOk]
    exact (putInner_delivery _ _ _ hs).mono fun _ s' h => ⟨h, by simp⟩

theorem attempts_delivery (tries attempt : Nat) (h : Waiting t₀ s) :
    Sat (delivery j.req t₀) (attempts j tries attempt) (fun _ s => Held j.req t₀ s) s := by
  have hq (b : Bytes) : (do let _ ← writeAll b : Async Unit).Uses Op.IsQuiet :=
    Uses.bind (writeAll_uses trivial) fun _ => trivial
  induction tries generalizing attempt s
  case zero => exact (sat_still (hq _) h.held).mono fun _ s' hs => hs ▸ h.held
  case succ tries hi =>
    unfold attempts
    rw [sat_bind]
    refine (getLoop_delivery j.config j.req.scheme j.key j.fuel 0 h).mono fun r s hr => ?_
    obtain ⟨h, hp⟩ := hr
    cases r
    case none => exact (sat_still (hq _) h.held).mono fun _ s' hs => hs ▸ h.held
    case some p =>
      refine sat_still_bind (Async.uses_when ⟨trivial, fun _ => trivial⟩) h.held fun _ => ?_
      dsimp only
      rw [sat_bind]
      refine (relay_delivery h (hp p rfl) _ j.target _).mono fun outcome s₁ h₁ => ?_
      obtain ⟨h₁, hj⟩ := h₁
      rw [sat_bind]
      refine (settle_delivery p outcome h₁).mono fun again s₂ h₂ => ?_
      obtain ⟨rfl, ha⟩ := h₂
      cases again
      case false => exact h₁.closed.imp_right .inr
      case true =>
        obtain ⟨e, he⟩ := ha rfl
        refine hi _ (h₁.closed.resolve_right fun hc => ?_)
        exact Bool.false_ne_true ((hj e he).symm.trans hc.spliced)

end Attempts

section Run

variable {j : Job} {req : ClientRequest} {t₀ : Bytes} {s : Meter} {tr : Trace Effects}

theorem delivery_after (s : Meter) (tr : Trace Effects) : (delivery req t₀).after s tr = tr.foldl Meter.next s := by
  induction tr generalizing s
  case nil     => rfl
  case cons hi => exact hi _

theorem Meter.after_append (tr tr' : Trace Effects) :
    (delivery req t₀).after (after tr) tr' = after (tr ++ tr') := by
  rw [delivery_after, after, after, List.foldl_append]

theorem Meter.after_snoc (tr : Trace Effects) (e : Event Effects) : after (tr ++ [e]) = (after tr).next e := by
  simp [after]

-- The meter shows what can be read off the trace.
theorem Meter.after_eq (tr : Trace Effects) :
    (after tr).flow = Flow.after tr ∧ (after tr).arrived = Trace.arrived tr ∧ (after tr).dialed = lastDial tr := by
  induction tr using List.reverseRecOn
  case nil => exact ⟨rfl, rfl, rfl⟩
  case append_singleton tr e hi =>
    obtain ⟨hf, ha, hd⟩ := hi
    rw [after_snoc]
    refine ⟨?_, ?_, ?_⟩
    · simp [next, hf, Flow.after_snoc]
    · simp [next, ha, Trace.arrived]
    · simp [next, hd]

theorem Meter.after_spliced (tr : Trace Effects) : (after tr).spliced = true ↔ ∃ e ∈ tr, e.op = .net .splice := by
  induction tr using List.reverseRecOn
  case nil => simp [after, initial]
  case append_singleton tr e hi =>
    have hn : ((after tr).next e).spliced = true ↔ (after tr).spliced = true ∨ e.op = .net .splice := by
      obtain ⟨o, r⟩ := e
      cases o
      case net o => cases o <;> simp [next]
      all_goals simp [next]
    rw [after_snoc, hn, hi]
    simp [or_and_right, exists_or]

theorem waiting_preliminary {e : Event Effects} (he : e.op.IsPreliminary) (h : Waiting t₀ s) :
    Waiting (t₀ ++ e.fromClient) (s.next e) := by
  have hq (hq : e.op.IsQuiet) : Waiting (t₀ ++ e.fromClient) (s.next e) := by
    have hf : s.flow.next e = s.flow := Flow.next_quiet hq
    have ht : t₀ ++ e.fromClient = t₀ := by simpa [Flow.next, h.taken] using congrArg Flow.taken hf
    rw [show s.next e = s from Meter.next_quiet hq, ht]
    exact h
  obtain ⟨o, r⟩ := e
  cases o
  case net o =>
    cases o
    case clientRead n =>
      refine ⟨h.direct, ?_, ?_, ?_⟩
      · simp [Meter.next, Flow.next, h.taken]
      · simp [Meter.next, Flow.next, Event.send, h.sent]
      · simp [Meter.next, Event.arrive, h.arrived]
    all_goals exact hq he
  all_goals exact hq he

theorem waiting_after (h : ∀ e ∈ tr, e.op.IsPreliminary) : Waiting (fromClient tr) (Meter.after tr) := by
  induction tr using List.reverseRecOn
  case nil => exact ⟨rfl, rfl, rfl, rfl⟩
  case append_singleton tr e hi =>
    rw [Meter.after_snoc, fromClient_snoc]
    exact waiting_preliminary (h e (by simp)) (hi fun e he => h e (by simp [he]))

theorem accept_preliminary {ctx : ConnCtx} {peer : IpAddr} {q : Async (Option Job)}
    (h : (accept ctx peer).Runs tr q) : ∀ e ∈ tr, e.op.IsPreliminary := by
  refine ((accept_uses ctx peer ?_ ?_ ?_).of_run h).right
  · exact fun o ho => ho.isPreliminary
  · exact fun o ho => ho.isQuiet.isPreliminary
  · exact fun _ => trivial

-- All that was read from the client when its request has been accepted is its opening.
theorem accept_opening {ctx : ConnCtx} {peer : IpAddr} (h : (accept ctx peer).Runs tr (.ret (some j))) :
    Opening ctx.expectedAuth (fromClient tr) j.req := by
  have hs : Sat (.history fun _ _ => True) (accept ctx peer)
      (fun r tr => ∀ j, r = some j → Opening ctx.expectedAuth (fromClient tr) j.req) [] := by
    have refused {α : Type} {p : Async α} {tr : Trace Effects} : Sat (.history fun _ _ => True)
        (p >>= fun _ => (pure none : Async (Option Job)))
        (fun r tr => ∀ j, r = some j → Opening ctx.expectedAuth (fromClient tr) j.req) tr := by
      rw [sat_bind]
      exact .of_forall (fun _ _ => trivial) fun _ _ => by simp
    unfold accept
    rw [sat_bind]
    have hp : Sat (.history fun _ _ => True) (parseClientRequest ctx.expectedAuth)
        (Yields fun req bs => Opening ctx.expectedAuth bs req) [] :=
      parseClientRequest_speaks.weaken rfl fun _ _ _ => trivial
    refine hp.mono fun r tr hr => ?_
    cases r
    case none => simp
    case some req =>
      dsimp only
      split_ifs
      · exact refused
      · exact refused
      · simp only [sat_bind, Async.sat_net]
        refine ⟨trivial, fun ip => ?_⟩
        rintro _ ⟨⟩
        simpa [Event.fromClient] using (hr.right req rfl).right
  have := hs.result h
  rw [Monitor.history_after, List.nil_append] at this
  exact this j rfl

theorem Opening.raw_eq {expected : Option AuthExpect} {bs : Bytes} (h : Opening expected bs req)
    (hf : req.frontend = .httpForward) : req.raw = bs := by
  cases h
  case http _ hp =>
    simp only [parseHttp, Option.bind_eq_bind, Option.bind_eq_some_iff] at hp
    obtain ⟨_, -, _, -, _, -, hp⟩ := hp
    split_ifs at hp
    · cases hp
      simp at hf
    · obtain ⟨_, -, hp⟩ := Option.bind_eq_some_iff.mp hp
      cases hp
      rfl
  case socks h =>
    cases h
    simp [socksRequest] at hf

-- What the proxy of an attempt has been sent, after its negotiation, before anything is spliced.
def Offered (req : ClientRequest) (tr : Trace Effects) : Prop :=
  (Flow.after tr).sent = [] ∨ ∃ p, (Flow.after tr).proxy = some p ∧ lastDial tr = some (.relay, p.key) ∧
    (Flow.after tr).sent = payload p req

-- What has arrived at the proxy of an attempt by the time that it is spliced, and what will have arrived after.
def Handed (req : ClientRequest) (tr : Trace Effects) (r : Spliced) : Prop :=
  ∃ p, (Flow.after tr).proxy = some p ∧ lastDial tr = some (.relay, p.key) ∧ Trace.arrived tr = payload p req ∧
    Trace.arrived (tr ++ [⟨.net .splice, r⟩]) = payload p req ++ r.toUpstream

theorem held_of_demand {o : Op} (h : (delivery req t₀).demand s o) : Held req t₀ s := by
  cases o
  case pool o => cases o <;> first | exact Waiting.held h | exact h
  case net o =>
    cases o
    case clientRead  => exact (h : False).elim
    case dial        => exact Waiting.held h
    case upWrite ph _ => cases ph <;> first | exact Waiting.held h | exact h
    case splice =>
      obtain ⟨p, hp, -⟩ : ∃ p, Primed req t₀ p s ∧ s.arrived = payload p req := h
      exact hp.held
    all_goals exact h
  all_goals exact h

theorem Held.direct (h : Held req t₀ s) (hs : s.spliced ≠ true) : Waiting t₀ s ∨ ∃ p, Primed req t₀ p s :=
  h.imp_right fun h => h.resolve_right fun hj => hs hj.spliced

-- As long as nothing is spliced, the client is not read, and no proxy is sent more than its head.
theorem Held.offered (h : Held req t₀ (Meter.after tr)) (hs : ∀ e ∈ tr, e.op ≠ .net .splice) :
    fromClient tr = t₀ ∧ Offered req tr := by
  obtain ⟨hf, -, hd⟩ := Meter.after_eq tr
  have hn : (Meter.after tr).spliced ≠ true := by
    rw [Ne, Meter.after_spliced]
    rintro ⟨e, he, ho⟩
    exact hs e he ho
  rw [← Flow.after_taken, Offered, ← hf, ← hd]
  rcases h.direct hn with h | ⟨p, h⟩
  · exact ⟨h.taken, .inl h.sent⟩
  · exact ⟨h.taken, .inr ⟨p, h.proxy, h.dialed, h.sent⟩⟩

-- Nothing is transferred anymore once something has been spliced.
theorem not_transfers {o : Op} (h : (delivery req t₀).demand s o) (hs : s.spliced = true) : ¬o.Transfers := by
  have hw (h : Waiting t₀ s) : False := by simpa [hs] using h.direct
  cases o
  case net o =>
    cases o
    case clientRead   => exact fun _ => h
    case dial         => exact fun _ => hw h
    case upWrite ph _ =>
      cases ph
      · exact id
      · exact fun _ => hw h
    case splice =>
      obtain ⟨p, hp, -⟩ : ∃ p, Primed req t₀ p s ∧ s.arrived = payload p req := h
      exact fun _ => by simpa [hs] using hp.direct
    all_goals exact id
  all_goals exact id

theorem fromClient_eq_nil (h : ∀ e ∈ tr, ¬e.op.Transfers) : fromClient tr = [] := by
  rw [fromClient, List.flatMap_eq_nil_iff]
  rintro ⟨o, r⟩ he
  have ho := h _ he
  cases o
  case net o => cases o <;> first | rfl | exact absurd trivial ho
  all_goals rfl

section HandleClient

variable {ctx : ConnCtx} {peer : IpAddr} {tr₀ pre suf : Trace Effects} {q : Async Unit}
variable (h₀ : (accept ctx peer).Runs tr₀ (.ret (some j))) (h : (handleClient ctx peer).Runs (tr₀ ++ tr) q)
include h₀ h

theorem attempts_sat :
    (attempts j ctx.config.maxTries 0).Runs tr q ∧
    Sat (delivery j.req (fromClient tr₀)) (attempts j ctx.config.maxTries 0)
      (fun _ s => Held j.req (fromClient tr₀) s) (Meter.after tr₀) :=
  ⟨(h₀.bind _).of_append h, attempts_delivery _ _ (waiting_after (accept_preliminary h₀))⟩

theorem attempts_demand {e : Event Effects} (he : tr = pre ++ e :: suf) :
    (delivery j.req (fromClient tr₀)).demand (Meter.after (tr₀ ++ pre)) e.op := by
  obtain ⟨hr, hs⟩ := attempts_sat h₀ h
  rw [← Meter.after_append]
  exact hs.issued (he ▸ hr)

theorem attempts_held (he : tr = pre ++ suf) : Held j.req (fromClient tr₀) (Meter.after (tr₀ ++ pre)) := by
  cases suf
  case cons => exact held_of_demand (attempts_demand h₀ h he)
  case nil =>
    obtain ⟨hr, hs⟩ := attempts_sat h₀ h
    have := hs.run (he ▸ hr)
    rw [List.append_nil, Meter.after_append] at this
    cases q
    case ret  => exact this
    case call => exact held_of_demand this.left

theorem attempts_offered (he : tr = pre ++ suf) (hn : ∀ e ∈ pre, e.op ≠ .net .splice) :
    fromClient pre = [] ∧ Offered j.req (tr₀ ++ pre) := by
  refine ((attempts_held h₀ h he).offered fun e hm hs => ?_).imp_left fun ht => ?_
  · rcases List.mem_append.mp hm with hm | hm
    · have := accept_preliminary h₀ e hm
      rw [hs] at this
      exact this
    · exact hn e hm hs
  · simpa [fromClient_append] using ht

theorem attempts_handed {r : Spliced} (he : tr = pre ++ ⟨.net .splice, r⟩ :: suf) :
    (∀ e ∈ pre, e.op ≠ .net .splice) ∧ Handed j.req (tr₀ ++ pre) r := by
  obtain ⟨p, hs, ha⟩ : ∃ p, Primed j.req (fromClient tr₀) p (Meter.after (tr₀ ++ pre)) ∧
    (Meter.after (tr₀ ++ pre)).arrived = payload p j.req := attempts_demand h₀ h he
  obtain ⟨hf, hv, hl⟩ := Meter.after_eq (tr₀ ++ pre)
  refine ⟨fun e hm he => ?_, p, hf ▸ hs.proxy, hl ▸ hs.dialed, hv ▸ ha, ?_⟩
  · have := (Meter.after_spliced (tr₀ ++ pre)).mpr ⟨e, List.mem_append_right _ hm, he⟩
    rw [hs.direct] at this
    exact Bool.false_ne_true this
  · rw [Trace.arrived, List.foldl_append, ← Trace.arrived, ← hv, ha]
    rfl

theorem attempts_over {r : Spliced} (he : tr = pre ++ ⟨.net .splice, r⟩ :: suf) : ∀ e ∈ suf, ¬e.op.Transfers := by
  intro e hm
  obtain ⟨s₁, s₂, rfl⟩ := List.append_of_mem hm
  have hd : (delivery j.req (fromClient tr₀)).demand (Meter.after (tr₀ ++ (pre ++ ⟨.net .splice, r⟩ :: s₁))) e.op := by
    have ht : tr = pre ++ ⟨.net .splice, r⟩ :: s₁ ++ e :: s₂ := by simp [he]
    exact attempts_demand h₀ h ht
  exact not_transfers hd ((Meter.after_spliced _).mpr ⟨⟨.net .splice, r⟩, by simp, rfl⟩)

end HandleClient

-- For every run of `handleClient` that has reached its loop over the attempts: what was read from the client so
-- far is its opening. As long as nothing is spliced, no more is read, and no proxy is sent anything but the head
-- of the request, if it is to be forwarded. Once an attempt is spliced, its proxy has received this head as a
-- whole, and all that is ever taken from the client in addition is what it receives then.
theorem handleClient_delivers (ctx : ConnCtx) (peer : IpAddr) {tr₀ : Trace Effects} {q : Async Unit}
    (h₀ : (accept ctx peer).Runs tr₀ (.ret (some j))) (h : (handleClient ctx peer).Runs (tr₀ ++ tr) q) :
    Opening ctx.expectedAuth (fromClient tr₀) j.req ∧
    (j.req.frontend = .httpForward → j.req.raw = fromClient tr₀) ∧
    (∀ pre suf, tr = pre ++ suf → (∀ e ∈ pre, e.op ≠ .net .splice) →
      fromClient pre = [] ∧ Offered j.req (tr₀ ++ pre)) ∧
    ∀ pre r suf, tr = pre ++ ⟨.net .splice, r⟩ :: suf →
      (∀ e ∈ pre, e.op ≠ .net .splice) ∧ Handed j.req (tr₀ ++ pre) r ∧ (∀ e ∈ suf, ¬e.op.Transfers) ∧
      fromClient (tr₀ ++ tr) = fromClient tr₀ ++ r.toUpstream := by
  have ho := accept_opening h₀
  refine ⟨ho, ho.raw_eq, fun pre suf => attempts_offered h₀ h, fun pre r suf he => ?_⟩
  obtain ⟨hn, hh⟩ := attempts_handed h₀ h he
  have hu := attempts_over h₀ h he
  refine ⟨hn, hh, hu, ?_⟩
  have hp : fromClient pre = [] := (attempts_offered h₀ h he hn).left
  have hs : fromClient suf = [] := fromClient_eq_nil hu
  calc fromClient (tr₀ ++ tr)
    _ = fromClient tr₀ ++ (fromClient pre ++ (r.toUpstream ++ fromClient suf)) := by
      rw [he, fromClient_append, fromClient_append]
      rfl
    _ = fromClient tr₀ ++ r.toUpstream := by simp [hp, hs]

end Run

namespace DeliveryExample

-- A request with a body that is not served by the first proxy, but by the second one.
def ctx : ConnCtx where
  config       := .default
  expectedAuth := none
  fuel         := 1

def peer : IpAddr :=
  .v4 127 0 0 1

def head : Bytes :=
  encode "POST http://x/ HTTP/1.1\r\nContent-Length: 2\r\n\r\n".toList

def proxy (n : UInt8) : Proxy :=
  (Proxy.new (.v4 10 0 0 n) 8080 ∅).addType .http none

def job : Job where
  config := ctx.config
  fuel   := 1
  peer   := peer
  key    := .ip peer
  target := ⟨"x".toList, none, 80⟩
  req    := {
    scheme    := .http
    frontend  := .httpForward
    host      := "x".toList
    port      := 80
    raw       := head
    proxyAuth := none
    path      := "http://x/".toList
  }

def opening : Trace Effects :=
  reads head ++ [⟨.net (.resolve "x".toList), none⟩]

def lease (n : UInt8) : Trace Effects := [
  ⟨.pool .notified, ()⟩,
  ⟨.pool .loadCursor, (0 : UInt64)⟩,
  ⟨.env .now, (0 : Instant)⟩,
  ⟨.pool (.select ⟨.http, .best, none, 0, 0, false⟩), some (proxy n)⟩
]

def failing : Trace Effects := lease 1 ++ [
  ⟨.net (.dial .relay (proxy 1).key), .failed⟩,
  ⟨.env (.bench ctx.config.failTimeout), (0 : Instant)⟩,
  ⟨.pool (.push .holder ⟨(proxy 1).recordAttempt none (some .connFailed), some ctx.config.failTimeout⟩), ()⟩,
  ⟨.pool .notifyWaiters, ()⟩
]

def serving : Trace Effects := lease 2 ++ [
  ⟨.pool .bumpRotations, ()⟩,
  ⟨.net (.dial .relay (proxy 2).key), .ok⟩,
  ⟨.net (.upWrite .exchange (toSend (proxy 2) head)), .done⟩
]

def body : Spliced :=
  ⟨[], encode "ok".toList, true⟩

theorem head_isBuffered : IsBuffered head where
  http     := by decide
  complete := by decide
  first    := by decide

theorem accept_runs : (accept ctx peer).Runs opening (.ret (some job)) :=
  ((parseClientRequest_runs none head_isBuffered).bind _).trans (.call .refl)

theorem handleClient_runs :
    ∃ q, (handleClient ctx peer).Runs (opening ++ (failing ++ serving ++ [⟨.net .splice, body⟩])) q :=
  ⟨_, (accept_runs.bind _).trans <|
    .call <| .call <| .call <| .call <| .call <| .call <| .call <| .call <|
    .call <| .call <| .call <| .call <| .call <| .call <| .call <| .call .refl⟩

end DeliveryExample

open DeliveryExample in
theorem handleClient_delivers_retry :
    Offered job.req (opening ++ failing) ∧ Handed job.req (opening ++ (failing ++ serving)) body ∧
    fromClient (opening ++ (failing ++ serving ++ [⟨.net .splice, body⟩])) = head ++ encode "ok".toList := by
  obtain ⟨q, h⟩ := handleClient_runs
  obtain ⟨-, hw, ho, hs⟩ := handleClient_delivers ctx peer accept_runs h
  obtain ⟨-, hh, -, hc⟩ := hs (failing ++ serving) body [] rfl
  refine ⟨(ho failing _ (List.append_assoc ..) (by simp [failing, lease])).right, hh, ?_⟩
  rw [hc, ← hw rfl]
  rfl

end Server
