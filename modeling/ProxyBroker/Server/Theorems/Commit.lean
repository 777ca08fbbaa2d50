import ProxyBroker.Server.Wire
import ProxyBroker.Server.Theorems.Head
import ProxyBroker.Server.Theorems.Uses

open Prog Utf8 Negotiator Trace

namespace Op

-- The operations with which `Pool.get` and `relay` begin, and with which a proxy is drawn.
def StartsAttempt : Op → Prop
  | pool .notified | pool (.select _) | net (.dial ..) => True
  | _                                                  => False

def IsClientWrite : Op → Prop
  | net (.clientWrite _) => True
  | _                    => False

end Op

theorem Op.IsReturn.not_startsAttempt {o : Op} (h : o.IsReturn) : ¬o.StartsAttempt := by
  cases o
  case pool o => cases o <;> first | exact id | exact (h : False).elim
  case net    => exact (h : False).elim
  all_goals exact id

theorem Op.IsReturn.not_isClientWrite {o : Op} (h : o.IsReturn) : ¬o.IsClientWrite := by
  cases o
  case net => exact (h : False).elim
  all_goals exact id

namespace Event

variable {o : Op} {r : o.Ret}

theorem toClient_leasing (h : o.IsLeasing) : toClient ⟨o, r⟩ = [] := by
  cases o
  case net o => cases o <;> first | rfl | cases h
  all_goals rfl

theorem receive_negotiation (h : o.IsNegotiation) (up : Bytes) : receive up ⟨o, r⟩ = up := by
  cases o
  case net o =>
    cases o
    case upRead ph _ => cases ph <;> first | rfl | cases h
    all_goals first | rfl | cases h
  all_goals rfl

theorem redial_negotiation (h : o.IsNegotiation) (c) : redial c ⟨o, r⟩ = c := by
  cases o
  case net o => cases o <;> first | rfl | cases h
  all_goals rfl

theorem receive_return (h : o.IsReturn) (up : Bytes) : receive up ⟨o, r⟩ = up := by
  cases o
  case net => cases h
  all_goals rfl

theorem redial_return (h : o.IsReturn) (c) : redial c ⟨o, r⟩ = c := by
  cases o
  case net => cases h
  all_goals rfl

end Event

namespace Server

-- The status line of a response, which is cut off after `statusLimit` bytes.
def statusLine (bs : Bytes) : Bytes :=
  let head := bs.take statusLimit
  head.take (head.idxOf lf + 1)

-- `Delivered p req allowed up out` means that a client which has received `out` has only been shown
-- the proxy `p`, from which the bytes `up` were received: its acknowledgement and then those bytes,
-- possibly cut short, and with nothing but a line about `p` inserted behind a status line.
def Delivered (p : Proxy) (req : ClientRequest) (allowed : Option (List UInt16)) (up out : Bytes) :
    Prop :=
  match req.frontend with
  | .httpConnect => out <+: connectAck p ++ up
  | .socks5      => out <+: socksAck ++ up
  | .httpForward =>
    (out <+: up ∨ ∃ rest, up = statusLine up ++ rest ∧ crlf <:+ statusLine up ∧
      out <+: statusLine up ++ xProxyInfo p ++ rest) ∧
    (requestHasBody req.raw = false → out ≠ [] → allowed.all (parseHttpStatus (statusLine up) ∈ ·))

-- A client which has been refused has only received a failure reply, possibly cut short.
def Refused (frontend : Frontend) (tr : Trace Effects) : Prop :=
  toClient tr <+: terminalFailure frontend ∧
  ∀ e ∈ tr, e.toClient ≠ [] → e.op = .net (.clientWrite (terminalFailure frontend))

-- Everything that a client may have received from the loop over the attempts.
def Sound (j : Job) (tr : Trace Effects) : Prop :=
  Refused j.req.frontend tr ∨
  ∃ p : Proxy, lastDial tr = some (.relay, p.key) ∧
    Delivered p j.req j.config.httpAllowedCodes (received tr) (toClient tr)

-- Demands that an attempt is only started, and a reply only written, while the client has not
-- received anything.
def commitBoundary (j : Job) : Monitor Effects (Trace Effects) :=
  .history fun tr o => Sound j tr ∧ (o.StartsAttempt ∨ o.IsClientWrite → toClient tr = [])

def RelayOutcome.IsRetryable : RelayOutcome → Prop
  | retryableFailure _ => True
  | _                  => False

variable {j : Job} {p : Proxy} {tr : Trace Effects} {req : ClientRequest}
variable {allowed : Option (List UInt16)}

theorem delivered_nil (up : Bytes) : Delivered p req allowed up [] := by
  unfold Delivered
  cases req.frontend <;> simp

theorem refused_of_silent {frontend : Frontend} (h : toClient tr = []) : Refused frontend tr := by
  refine ⟨by simp [h], fun e he hne => absurd ?_ hne⟩
  exact List.flatMap_eq_nil_iff.mp h e he

theorem sound_of_silent (h : toClient tr = []) : Sound j tr :=
  .inl <| refused_of_silent h

section StatusLine

-- What `readStatusLine` yields: at most `statusLimit` bytes, up to the first LF.
structure IsStatusLine (line : Bytes) : Prop where
  length : line.length ≤ statusLimit
  single : lf ∉ line.dropLast
  ends   : line.getLast? = some lf ∨ line.length = statusLimit

variable {line : Bytes} (hl : IsStatusLine line)
include hl

theorem IsStatusLine.statusLine_append (rest : Bytes) : statusLine (line ++ rest) = line := by
  by_cases he : line.getLast? = some lf
  · obtain ⟨x, rfl⟩ := List.getLast?_eq_some_iff.mp he
    have hx : lf ∉ x := by simpa using hl.single
    have hn : x.length + 1 ≤ statusLimit := by simpa using hl.length
    have hh : (x ++ [lf] ++ rest).take statusLimit = x ++ lf :: rest.take (statusLimit - x.length - 1) := by
      have hx' : statusLimit = x.length + (statusLimit - x.length - 1 + 1) := by omega
      rw [List.append_assoc, hx', List.take_length_add_append]
      simp
    simp only [statusLine, hh]
    rw [List.idxOf_append_of_notMem hx, List.idxOf_cons_self, Nat.add_zero]
    simp [List.take_length_add_append]
  · have hn : line.length = statusLimit := hl.ends.resolve_left he
    have hh : (line ++ rest).take statusLimit = line := by simp [← hn]
    have hx : lf ∉ line := by
      intro hm
      have hne := List.ne_nil_of_mem hm
      rw [← List.dropLast_append_getLast hne, List.mem_append, List.mem_singleton] at hm
      rcases hm with hm | hm
      · exact hl.single hm
      · exact he <| hm ▸ List.getLast?_eq_some_getLast hne
    simp only [statusLine, hh]
    exact List.take_of_length_le (by rw [List.idxOf_of_notMem hx]; omega)

-- The only line end of a status line is its last one, so a header is inserted at its end or not at all.
theorem IsStatusLine.injectHeader (l : Bytes) :
    injectHeader line l = line ∨ (crlf <:+ line ∧ injectHeader line l = line ++ l) := by
  cases hc : crlfPos line
  case none => exact .inl <| injectHeader_none hc
  case some n =>
    obtain ⟨x, y, rfl, rfl, hn⟩ := crlfPos_some_iff.mp hc
    cases y using List.reverseRecOn
    case nil => exact .inr ⟨⟨x, rfl⟩, by simp [injectHeader_split hn]⟩
    case append_singleton y b _ =>
      have hd : (x ++ cr :: lf :: (y ++ [b])).dropLast = x ++ cr :: lf :: y := by
        rw [← List.cons_append, ← List.cons_append, ← List.append_assoc, List.dropLast_concat]
      exact absurd (by simp [hd]) hl.single

end StatusLine

section

variable {o : Op} {r : o.Ret}

theorem demand_of_silent (h : toClient tr = []) : (commitBoundary j).demand tr o :=
  ⟨sound_of_silent h, fun _ => h⟩

-- The connection to `p` has yielded the bytes `up`, but the client has not received anything.
structure Fresh (p : Proxy) (up : Bytes) (tr : Trace Effects) : Prop where
  dialed   : lastDial tr = some (.relay, p.key)
  received : received tr = up
  silent   : toClient tr = []

theorem Fresh.negotiation {up : Bytes} (h : Fresh p up tr) (ho : o.IsNegotiation) :
    Fresh p up (tr ++ [⟨o, r⟩]) where
  dialed   := by simp [Event.redial_negotiation ho, h.dialed]
  received := by simp [Event.receive_negotiation ho, h.received]
  silent   := by simp [Event.toClient_leasing ho.isLeasing, h.silent]

-- The client has received what it may receive if `p` is the proxy that serves it.
def Served (j : Job) (p : Proxy) (tr : Trace Effects) : Prop :=
  lastDial tr = some (.relay, p.key) ∧
  Delivered p j.req j.config.httpAllowedCodes (received tr) (toClient tr)

theorem Fresh.served {up : Bytes} (h : Fresh p up tr) : Served j p tr :=
  ⟨h.dialed, h.silent ▸ delivered_nil _⟩

theorem Served.return (h : Served j p tr) (ho : o.IsReturn) : Served j p (tr ++ [⟨o, r⟩]) := by
  simpa [Served, Event.redial_return ho, Event.receive_return ho, Event.toClient_leasing ho.isLeasing]
    using h

theorem Served.demand (h : Served j p tr) (hs : ¬o.StartsAttempt) (hw : ¬o.IsClientWrite) :
    (commitBoundary j).demand tr o :=
  ⟨.inr ⟨p, h⟩, fun ho => by tauto⟩

end

-- Whatever a splice yields in addition, the client has only been served by `p`.
def Ready (j : Job) (p : Proxy) (tr : Trace Effects) : Prop :=
  lastDial tr = some (.relay, p.key) ∧
  ∀ bs, Delivered p j.req j.config.httpAllowedCodes (received tr ++ bs) (toClient tr ++ bs)

theorem Ready.served (h : Ready j p tr) : Served j p tr :=
  ⟨h.left, by simpa using h.right []⟩

theorem get_commit (h : toClient tr = []) (fuel : Nat) (scheme : Scheme) (key : Pool.ClientKey) :
    Sat (commitBoundary j) (Pool.get j.config fuel scheme key) (fun _ tr => toClient tr = []) tr := by
  refine (Pool.get_uses ..).sat (fun _ _ _ => demand_of_silent) (fun tr o r ho h => ?_) h
  simp [commitBoundary, h, Event.toClient_leasing ho]

theorem readStatusLoop_commit {n : Nat} {head : Bytes} (h : Fresh p head tr) (hl : lf ∉ head)
    (hn : head.length + n = statusLimit) :
    Sat (commitBoundary j) (readStatusLoop n head)
      (fun r tr => (∃ up, Fresh p up tr) ∧ ∀ line, r = .ok line → Fresh p line tr ∧ IsStatusLine line)
      tr := by
  induction n generalizing head tr
  case zero =>
    refine ⟨⟨_, h⟩, ?_⟩
    rintro _ ⟨⟩
    exact ⟨h, hn.le, fun hm => hl <| List.dropLast_subset _ hm, .inr hn⟩
  case succ n hi =>
    unfold readStatusLoop
    simp only [sat_bind, Async.sat_net]
    refine ⟨demand_of_silent h.silent, fun r => ?_⟩
    have hf : Fresh p (head ++ ReadResult.delivered 1 r)
        ((commitBoundary j).next tr ⟨.net (.upRead .exchange 1), r⟩) := {
      dialed   := by simp [commitBoundary, Event.redial, h.dialed]
      received := by simp [commitBoundary, Event.receive, h.received]
      silent   := by simp [commitBoundary, Event.toClient, h.silent]
    }
    generalize (commitBoundary j).next tr ⟨.net (.upRead .exchange 1), r⟩ = tr' at hf ⊢
    rcases r with ⟨_ | ⟨byte, bs⟩⟩ | _ | _
    case data.cons =>
      have hf : Fresh p (head ++ [byte]) tr' := by simpa [ReadResult.delivered] using hf
      dsimp only
      split_ifs with hc
      · refine ⟨⟨_, hf⟩, ?_⟩
        rintro _ ⟨⟩
        refine ⟨hf, by simp; omega, by simpa using hl, ?_⟩
        simp at hc ⊢
        rcases hc with rfl | hc
        · exact .inl rfl
        · exact .inr (by omega)
      · refine hi hf ?_ (by simp; omega)
        simp_all
    all_goals exact ⟨⟨_, hf⟩, by rintro _ ⟨⟩⟩

-- A write to a client that has not received anything delivers some prefix of what is written.
theorem writeAll_commit {bs up : Bytes} (h : Fresh p up tr)
    (hp : ∀ out, out <+: bs → Delivered p j.req j.config.httpAllowedCodes up out)
    (hb : ∀ bs', Delivered p j.req j.config.httpAllowedCodes (up ++ bs') (bs ++ bs')) :
    Sat (commitBoundary j) (writeAll bs)
      (fun ok tr => Served j p tr ∧ (ok = true → Ready j p tr)) tr := by
  unfold writeAll
  simp only [sat_bind, Async.sat_net]
  refine ⟨demand_of_silent h.silent, fun r => ?_⟩
  have hs : Served j p ((commitBoundary j).next tr ⟨.net (.clientWrite bs), r⟩) := by
    refine ⟨by simp [commitBoundary, Event.redial, h.dialed], ?_⟩
    simpa [commitBoundary, Event.receive, Event.toClient, h.received, h.silent]
      using hp _ (WriteResult.delivered_prefix bs r)
  rcases r with _ | _ | _
  case done =>
    refine ⟨hs, fun _ => ⟨hs.left, fun bs' => ?_⟩⟩
    simpa [commitBoundary, Event.receive, Event.toClient, h.received, h.silent,
      WriteResult.delivered] using hb bs'
  all_goals exact ⟨hs, by simp⟩

-- What is known about the client's view once the attempt has ended, or once the splice can begin.
def Acknowledged (j : Job) (p : Proxy) (o : Option RelayOutcome) (tr : Trace Effects) : Prop :=
  match o with
  | some outcome => Served j p tr ∧ (outcome.IsRetryable → toClient tr = [])
  | none         => Ready j p tr

-- What a client receives of an allowed response of which it has seen the rewritten status line.
theorem delivered_injected {line rest out : Bytes} (hl : IsStatusLine line)
    (hf : req.frontend = .httpForward) (ha : ¬allowed.any (parseHttpStatus line ∉ ·))
    (ho : out <+: injectHeader line (xProxyInfo p) ++ rest) :
    Delivered p req allowed (line ++ rest) out := by
  simp only [Delivered, hf, hl.statusLine_append]
  refine ⟨?_, fun _ _ => by cases allowed <;> simp_all⟩
  rcases hl.injectHeader (xProxyInfo p) with hi | ⟨hc, hi⟩
  · exact .inl <| hi ▸ ho
  · exact .inr ⟨rest, rfl, hc, hi ▸ ho⟩

theorem forward_commit (h : Fresh p [] tr) (hf : j.req.frontend = .httpForward) :
    Sat (commitBoundary j) (forward p j.req j.config.httpAllowedCodes) (Acknowledged j p) tr := by
  unfold forward
  simp only [sat_bind, Async.sat_net]
  refine ⟨demand_of_silent h.silent, fun r => ?_⟩
  have h : Fresh p [] ((commitBoundary j).next tr ⟨.net (.upWrite .exchange (toSend p j.req.raw)), r⟩) := {
    dialed   := by simp [commitBoundary, Event.redial, h.dialed]
    received := by simp [commitBoundary, Event.receive, h.received]
    silent   := by simp [commitBoundary, Event.toClient, h.silent]
  }
  generalize (commitBoundary j).next tr ⟨.net (.upWrite .exchange (toSend p j.req.raw)), r⟩ = tr at h ⊢
  rcases r with _ | _ | _
  case done =>
    dsimp only
    split_ifs with hb
    · exact ⟨h.dialed, fun bs => by simp [Delivered, hf, hb, h.received, h.silent]⟩
    · simp only [sat_bind]
      refine (readStatusLoop_commit h (by simp) rfl).mono fun r tr hr => ?_
      obtain ⟨⟨up, h⟩, hl⟩ := hr
      rcases r with e | line
      case error => exact ⟨h.served, fun _ => h.silent⟩
      case ok =>
        obtain ⟨h, hl⟩ := hl line rfl
        dsimp only
        split_ifs with ha
        · exact ⟨h.served, fun _ => h.silent⟩
        · simp only [sat_bind]
          refine (writeAll_commit h ?_ ?_).mono fun ok tr hw => ?_
          · intro out ho
            simpa using delivered_injected hl hf ha (by simpa using ho : out <+: _ ++ [])
          · exact fun bs => delivered_injected hl hf ha List.prefix_rfl
          · cases ok
            · exact ⟨hw.left, by simp [RelayOutcome.IsRetryable]⟩
            · exact hw.right rfl
  all_goals exact ⟨h.served, fun _ => h.silent⟩

theorem acknowledge_commit (h : Fresh p [] tr) :
    Sat (commitBoundary j) (acknowledge p j.req j.config.httpAllowedCodes) (Acknowledged j p) tr := by
  -- An acknowledgement precedes everything that is received.
  have ack (bs : Bytes)
      (hd : ∀ up out, out <+: bs ++ up → Delivered p j.req j.config.httpAllowedCodes up out) :
      Sat (commitBoundary j)
        (do if !(← writeAll bs) then return some .clientGone else return none)
        (Acknowledged j p) tr := by
    simp only [sat_bind]
    refine (writeAll_commit h ?_ ?_).mono fun ok tr hw => ?_
    · exact fun out ho => hd [] out (by simpa using ho)
    · exact fun bs' => hd _ _ List.prefix_rfl
    · cases ok
      · exact ⟨hw.left, by simp [RelayOutcome.IsRetryable]⟩
      · exact hw.right rfl
  unfold acknowledge
  split
  case h_1 hf => exact ack _ fun up out ho => by simpa [Delivered, hf] using ho
  case h_2 hf => exact ack _ fun up out ho => by simpa [Delivered, hf] using ho
  case h_3 hf => exact forward_commit h hf

theorem relay_commit (h : toClient tr = []) (proto : Proto) :
    Sat (commitBoundary j) (relay p proto j.target j.req j.config.httpAllowedCodes)
      (fun outcome tr => Served j p tr ∧ (outcome.IsRetryable → toClient tr = [])) tr := by
  unfold relay
  simp only [sat_bind, Async.sat_net]
  refine ⟨demand_of_silent h, fun r => ?_⟩
  have h : Fresh p [] ((commitBoundary j).next tr ⟨.net (.dial .relay p.key), r⟩) := {
    dialed   := by simp [commitBoundary, Event.redial]
    received := by simp [commitBoundary, Event.receive]
    silent   := by simp [commitBoundary, Event.toClient, h]
  }
  generalize (commitBoundary j).next tr ⟨.net (.dial .relay p.key), r⟩ = tr at h ⊢
  rcases r with _ | _ | _
  case ok =>
    simp only [sat_bind]
    refine Sat.mono (Uses.sat (Φ := Fresh p []) (negotiate_uses ..) ?_ ?_ h) fun r tr h => ?_
    · exact fun _ _ _ h => demand_of_silent h.silent
    · exact fun _ _ _ ho h => h.negotiation ho
    rcases r with e | _
    case error => exact ⟨h.served, fun _ => h.silent⟩
    case ok =>
      simp only [sat_bind]
      refine (acknowledge_commit h).mono fun o tr ha => ?_
      rcases o with _ | outcome
      case some => exact ha
      case none =>
        refine ⟨ha.served.demand (by simp [Op.StartsAttempt]) (by simp [Op.IsClientWrite]), fun r => ?_⟩
        refine ⟨⟨by simpa [commitBoundary, Event.redial] using ha.left, ?_⟩, ?_⟩
        · simpa [commitBoundary, Event.receive, Event.toClient] using ha.right r.toClient
        · split_ifs <;> simp [RelayOutcome.IsRetryable]
  all_goals exact ⟨h.served, fun _ => h.silent⟩

theorem settle_again (outcome : RelayOutcome) {M : Type} {m : Monitor Effects M} {s : M} {Φ : M → Prop}
    (h : Sat m (settle j p outcome) (fun _ => Φ) s) :
    Sat m (settle j p outcome) (fun again s => Φ s ∧ (again = true → outcome.IsRetryable)) s := by
  cases outcome
  all_goals
    simp only [settle, sat_bind] at h ⊢
    simpa [RelayOutcome.IsRetryable] using h

-- Handing back a proxy does not change what the client has received.
theorem settle_commit (outcome : RelayOutcome)
    (h : Served j p tr ∧ (outcome.IsRetryable → toClient tr = [])) :
    Sat (commitBoundary j) (settle j p outcome)
      (fun again tr => Served j p tr ∧ (again = true → toClient tr = [])) tr := by
  let Φ := fun tr => Served j p tr ∧ (outcome.IsRetryable → toClient tr = [])
  refine (settle_again outcome <| Uses.sat (Φ := Φ) (settle_uses ..) ?_ ?_ h).mono ?_
  · exact fun _ _ ho h => h.left.demand ho.not_startsAttempt ho.not_isClientWrite
  · intro tr o r ho h
    refine ⟨h.left.return ho, fun hr => ?_⟩
    simp [commitBoundary, h.right hr, Event.toClient_leasing ho.isLeasing]
  · exact fun _ _ ⟨h, hr⟩ => ⟨h.left, h.right ∘ hr⟩

theorem writeAll_refuse (h : toClient tr = []) :
    Sat (commitBoundary j) (writeAll (terminalFailure j.req.frontend)) (fun _ tr => Sound j tr) tr := by
  unfold writeAll
  simp only [sat_bind, Async.sat_net]
  refine ⟨demand_of_silent h, fun r => ?_⟩
  have hs : Sound j (tr ++ [⟨.net (.clientWrite (terminalFailure j.req.frontend)), r⟩]) := by
    refine .inl ⟨?_, fun e he hne => ?_⟩
    · simpa [h, Event.toClient] using WriteResult.delivered_prefix _ r
    · rcases List.mem_append.mp he with he | he
      · exact refused_of_silent h |>.right e he hne
      · simp_all
  rcases r with _ | _ | _ <;> exact hs

-- The loop over the attempts is only ever continued while the client has not received anything.
theorem attempts_commit (h : toClient tr = []) (tries attempt : Nat) :
    Sat (commitBoundary j) (attempts j tries attempt) (fun _ tr => Sound j tr) tr := by
  induction tries generalizing attempt tr
  case zero =>
    simp only [attempts, sat_bind]
    exact (writeAll_refuse h).mono fun _ _ h => h
  case succ hi =>
    simp only [attempts, sat_bind]
    refine (get_commit h ..).mono fun chosen tr h => ?_
    rcases chosen with _ | p
    case none =>
      simp only [sat_bind]
      exact (writeAll_refuse h).mono fun _ _ h => h
    case some =>
      simp only [sat_bind]
      refine Sat.mono (Uses.sat (Φ := (toClient · = [])) (P := Op.IsLeasing) ?_ ?_ ?_ h) fun _ tr h => ?_
      · exact Async.uses_when ⟨trivial, fun _ => trivial⟩
      · exact fun _ _ _ => demand_of_silent
      · exact fun tr o r ho h => by simp [commitBoundary, h, Event.toClient_leasing ho]
      refine (relay_commit h _).mono fun outcome tr h => ?_
      refine (settle_commit outcome h).mono fun again tr h => ?_
      obtain ⟨h, hr⟩ := h
      cases again
      case false => exact .inr ⟨p, h⟩
      case true  => exact hi (hr rfl) _

-- For every run of `handleClient` that has reached its loop over the attempts: once the client has
-- received a byte, no attempt is started and no reply is written anymore. So what it receives is a
-- failure reply, or the answer of a single proxy.
theorem handleClient_commit (ctx : ConnCtx) (peer : IpAddr) {tr₀ : Trace Effects} {q : Async Unit}
    (h₀ : (accept ctx peer).Runs tr₀ (.ret (some j))) (h : (handleClient ctx peer).Runs (tr₀ ++ tr) q) :
    Sound j tr ∧
    ∀ pre e suf, tr = pre ++ e :: suf → e.op.StartsAttempt ∨ e.op.IsClientWrite → toClient pre = [] := by
  have hr : (attempts j ctx.config.maxTries 0).Runs tr q := (h₀.bind _).of_append h
  have hs : Sat (commitBoundary j) (attempts j ctx.config.maxTries 0) (fun _ tr => Sound j tr) [] :=
    attempts_commit rfl _ _
  constructor
  · have := hs.run hr
    rw [commitBoundary, Monitor.history_after, List.nil_append] at this
    cases q
    case ret  => exact this
    case call => exact this.left.left
  · rintro pre e suf rfl
    have := (hs.issued hr).right
    rwa [commitBoundary, Monitor.history_after, List.nil_append] at this

namespace SocksExample

-- A SOCKS5 client that is served by its first proxy.
def ctx : ConnCtx where
  config       := .default
  expectedAuth := none
  fuel         := 1

def peer : IpAddr :=
  .v4 127 0 0 1

def proxy : Proxy :=
  (Proxy.new (.v4 10 0 0 1) 1080 ∅).addType .socks5 none

def job : Job where
  config := ctx.config
  fuel   := 1
  peer   := peer
  key    := .ip peer
  target := ⟨"10.0.0.2".toList, none, 80⟩
  req    := {
    scheme    := .https
    frontend  := .socks5
    host      := "10.0.0.2".toList
    port      := 80
    raw       := []
    proxyAuth := none
    path      := "10.0.0.2:80".toList
  }

def greeting : Trace Effects := [
  ⟨.net (.clientRead 1), .data [0x05]⟩,
  ⟨.net (.clientRead 1), .data [1]⟩,
  ⟨.net (.clientRead 1), .data [0x00]⟩,
  ⟨.net (.clientWrite [0x05, 0x00]), .done⟩,
  ⟨.net (.clientRead 4), .data [0x05, 0x01, 0x00, 0x01]⟩,
  ⟨.net (.clientRead 4), .data [10, 0, 0, 2]⟩,
  ⟨.net (.clientRead 2), .data [0, 80]⟩,
  ⟨.net (.resolve "10.0.0.2".toList), none⟩
]

def exchange : Trace Effects := [
  ⟨.pool .notified, ()⟩,
  ⟨.pool .loadCursor, (0 : UInt64)⟩,
  ⟨.env .now, (0 : Instant)⟩,
  ⟨.pool (.select ⟨.https, .best, none, 0, 0, false⟩), some proxy⟩,
  ⟨.net (.dial .relay proxy.key), .ok⟩,
  ⟨.net (.socks5 (.host "10.0.0.2".toList) 80 none), .ok⟩,
  ⟨.net (.clientWrite socksAck), .done⟩,
  ⟨.net .splice, ⟨[1, 2], [], true⟩⟩
]

def settling : Trace Effects := [
  ⟨.history (.record (historyKey peer "10.0.0.2:80".toList) proxy.key.display), ()⟩,
  ⟨.pool (.push .holder ⟨proxy.recordAttempt (some 0) none, none⟩), ()⟩,
  ⟨.pool .notifyWaiters, ()⟩
]

theorem accept_runs : (accept ctx peer).Runs greeting (.ret (some job)) :=
  .call <| .call <| .call <| .call <| .call <| .call <| .call <| .call .refl

theorem handleClient_runs : ∃ q, (handleClient ctx peer).Runs (greeting ++ exchange) q :=
  ⟨_, (accept_runs.bind _).trans <|
    .call <| .call <| .call <| .call <| .call <| .call <| .call <| .call .refl⟩

end SocksExample

open SocksExample in
theorem handleClient_commit_socks5 :
    toClient exchange = socksAck ++ [1, 2] ∧ Sound job exchange :=
  have ⟨_, h⟩ := handleClient_runs
  ⟨rfl, (handleClient_commit ctx peer accept_runs h).left⟩

end Server
