import ProxyBroker.Resumption.Trail
import ProxyBroker.Pool.Theorems.Frame
import ProxyBroker.Server.Theorems.Commit

open Prog Pool

namespace Op

-- The operations that have no part in an attempt other than what surrounds it.
def IsAside : Op → Prop
  | pool (.select _) | pool .bumpRotations | net (.dial .relay _) => False
  | _                                                             => True

variable {o : Op}

theorem IsReturn.isAside (h : o.IsReturn) : o.IsAside := by
  cases o
  case pool o => cases o <;> trivial
  case net    => exact (h : False).elim
  all_goals trivial

theorem IsStreaming.isAside (h : o.IsStreaming) : o.IsAside := by
  cases o
  case net o => cases o <;> trivial
  all_goals exact (h : False).elim

theorem IsNegotiation.isAside (h : o.IsNegotiation) : o.IsAside :=
  h.isStreaming.isAside

theorem IsClientSide.isAside (h : o.IsClientSide) : o.IsAside := by
  cases o
  case net o => cases o <;> trivial
  all_goals exact (h : False).elim

theorem IsControl.isAside {removeAllowed : Bool} (h : o.IsControl removeAllowed) : o.IsAside := by
  cases o
  case pool o => cases o <;> trivial
  case net o  => cases o <;> trivial
  all_goals trivial

end Op

-- The address of the entry that is going to be selected.
def Pool.State.picks (s : State) (ctx : SelectCtx) : Option Key :=
  (bestFor s.state ctx (nextRand s.rng)).bind fun i => s.state[i]?.map (·.proxy.key)

namespace Server

-- The addresses that attempts are made with.
def attempted (tr : Trace Effects) : List Key :=
  tr.filterMap fun
    | ⟨.net (.dial .relay k), _⟩ => some k
    | _                          => none

def pairs (as : List Key) : List (Key × Key) :=
  as.zip as.tail

-- The number of attempts after the first one whose address differs from the previous one.
def switches (as : List Key) : Nat :=
  ((pairs as).filter fun (a, b) => a ≠ b).length

-- The addresses of the attempts so far, and of the entry that was picked most recently. Whenever a rotation
-- is counted, these are the addresses that the server takes to be different.
structure Rotation where
  addrs   : List Key
  pick    : Option Key
  counted : List (Option Key × Option Key)

namespace Rotation

def next (w : Rotation) : State × Event Effects → Rotation
  | (s, ⟨.pool (.select ctx), _⟩)    => { w with pick := s.picks ctx }
  | (_, ⟨.pool .bumpRotations, _⟩)   => { w with counted := w.counted ++ [(w.addrs.getLast?, w.pick)] }
  | (_, ⟨.net (.dial .relay k), _⟩)  => { w with addrs := w.addrs ++ [k] }
  | _                                => w

def after (w : Rotation) (l : List (State × Event Effects)) : Rotation :=
  l.foldl next w

def start : Rotation where
  addrs   := []
  pick    := none
  counted := []

end Rotation

-- Whenever another proxy is picked for a request, it is not at the address of the previous attempt.
def Rotates (l : List (State × Event Effects)) : Prop :=
  ∀ x ∈ (Rotation.start.after l).counted, x.1 ≠ x.2

variable {c d : Config} {R : State → State → Prop} {s s' : State} {l l₁ l₂ : List (State × Event Effects)} {w : Rotation}
variable {α : Type} {p : Async α} {q : Async α} {r : Option Proxy} {scheme : Scheme} {key : ClientKey}

namespace Rotation

@[simp]
theorem after_nil : w.after [] = w :=
  rfl

@[simp]
theorem after_cons {x : State × Event Effects} : w.after (x :: l) = (w.next x).after l :=
  rfl

@[simp]
theorem after_append : w.after (l₁ ++ l₂) = (w.after l₁).after l₂ :=
  List.foldl_append

theorem next_counted {o : Op} {r : o.Ret} (ho : o ≠ .pool .bumpRotations) :
    (w.next (s, ⟨o, r⟩)).counted = w.counted := by
  cases o
  case pool o => cases o <;> first | rfl | exact absurd rfl ho
  case net o =>
    cases o
    case dial d k => cases d <;> rfl
    all_goals rfl
  all_goals rfl

theorem next_aside {x : State × Event Effects} (h : x.2.op.IsAside) : w.next x = w := by
  obtain ⟨s, ⟨o, r⟩⟩ := x
  cases o
  case pool o => cases o <;> first | rfl | exact (h : False).elim
  case net o =>
    cases o
    case dial d k => cases d <;> first | rfl | exact (h : False).elim
    all_goals rfl
  all_goals rfl

theorem after_aside (h : (machine c).Trail R s p l s' q) (hp : p.Uses Op.IsAside) : w.after l = w :=
  h.foldl_eq hp (fun _ _ => next_aside) w

theorem addrs_after : (w.after l).addrs = w.addrs ++ attempted (l.map Prod.snd) := by
  induction l generalizing w
  case nil => simp [attempted]
  case cons x l hi =>
    obtain ⟨s, ⟨o, r⟩⟩ := x
    rw [after_cons, hi]
    cases o
    case pool o => cases o <;> rfl
    case net o =>
      cases o
      case dial d k => cases d <;> simp [next, attempted]
      all_goals rfl
    all_goals rfl

-- Nobody else counts rotations.
theorem rotations_after (hR : ∀ s s', R s s' → s'.rotations = s.rotations) (h : (machine c).Trail R s p l s' q) :
    s'.rotations + w.counted.length = s.rotations + (w.after l).counted.length := by
  induction h generalizing w
  case refl => rfl
  case call s s₁ s₂ s' o k r l q hr ha _ hi =>
    have hs : s₂.rotations + w.counted.length = s.rotations + (w.next (s₁, ⟨o, r⟩)).counted.length := by
      rw [← hR _ _ hr]
      by_cases ho : o = .pool .bumpRotations
      · subst ho
        cases (ha : _ = _)
        simp only [next, List.length_append, List.length_singleton]
        omega
      · rw [(answers_frame ha).rotations ho, next_counted ho]
    have := @hi (w.next (s₁, ⟨o, r⟩))
    rw [after_cons]
    omega

end Rotation

theorem picks_eq {ctx : SelectCtx} (h : (r, s') = s.select ctx) : s.picks ctx = r.map Proxy.key := by
  unfold State.select at h
  unfold State.picks
  split at h
  case h_1 hb =>
    cases h
    rw [hb]
    rfl
  case h_2 i hb =>
    cases h
    rw [hb, Option.bind_some, Option.map_map]
    rfl

namespace Rotation

theorem trySelect_after (h : (machine c).Trail R s (trySelect d scheme key) l s' (.ret r)) :
    ∃ pick, w.after l = { w with pick := pick } ∧ (r.isSome → pick = r.map Proxy.key) := by
  have hp : (pinned d key).Uses Op.IsAside := by
    unfold pinned
    split
    · exact Uses.bind ⟨trivial, fun _ => trivial⟩ fun _ => trivial
    · trivial
  obtain ⟨sticky, l₁, l₂, s₁, rfl, h₁, h⟩ := Machine.Trail.of_bind (p := pinned d key) h
  cases h
  case call h =>
    cases h
    case call h =>
      cases h
      case call chosen ha h =>
        rw [after_append, after_aside h₁ hp]
        cases chosen
        case none =>
          obtain ⟨rfl, -, hr⟩ := h.of_ret
          cases hr
          exact ⟨_, rfl, by simp⟩
        case some p =>
          obtain ⟨_, l₁, l₂, _, rfl, h₁, h⟩ := Machine.Trail.of_bind (p := Async.when _ _) h
          obtain ⟨_, l₃, l₄, _, rfl, h₂, h⟩ := Machine.Trail.of_bind h
          obtain ⟨rfl, -, hr⟩ := h.of_ret
          cases hr
          refine ⟨_, ?_, fun _ => picks_eq ha⟩
          rw [after_cons, after_cons, after_cons, after_append, after_append,
            after_aside h₁ (Async.uses_when ⟨trivial, fun _ => trivial⟩),
            after_aside h₂ (Async.uses_when ⟨trivial, fun _ => trivial⟩)]
          rfl

-- Nothing else than a selection matters for what is picked.
theorem getLoop_after {fuel n : Nat} (h : (machine c).Trail R s (getLoop d scheme key fuel n) l s' (.ret r)) :
    ∃ pick, w.after l = { w with pick := pick } ∧ (r.isSome → pick = r.map Proxy.key) := by
  induction fuel generalizing s l w n
  case zero =>
    cases h
    case call r _ _ => exact r.elim
  case succ fuel hi =>
    unfold getLoop at h
    cases h
    case call h =>
      obtain ⟨r', l₁, l₂, s₁, rfl, h₁, h⟩ := Machine.Trail.of_bind (p := trySelect d scheme key) h
      obtain ⟨pick, hw, hp⟩ := trySelect_after (w := w) h₁
      -- The first event is the one that registers the task for being woken up.
      change ∃ pick, w.after (l₁ ++ l₂) = { w with pick := pick } ∧ _
      rw [after_append, hw]
      cases r'
      case none =>
        cases h
        case call exhausted _ h =>
          cases exhausted
          case true =>
            have ht := trySelect_after (w := { w with pick := pick }) (h : (machine c).Trail R _ (trySelect d scheme key) _ _ _)
            exact ht
          case false =>
            cases h
            case call h =>
              have ht := hi (w := { w with pick := pick }) h
              exact ht
      case some p =>
        dsimp only at h
        by_cases hv : d.verifyOnLease.isSome = true
        case neg =>
          rw [if_neg hv] at h
          obtain ⟨rfl, -, hr⟩ := h.of_ret
          cases hr
          exact ⟨pick, rfl, hp⟩
        case pos =>
          rw [if_pos hv] at h
          obtain ⟨b, l₃, l₄, s₂, rfl, h₂, h⟩ := h.of_bind
          have hq : (verifyLive d p).Uses Op.IsAside :=
            Negotiator.probeTunnel_uses_of _ _ _ trivial fun _ => Op.IsNegotiation.isAside
          rw [after_append, after_aside h₂ hq]
          cases b
          case true =>
            obtain ⟨rfl, -, hr⟩ := h.of_ret
            cases hr
            exact ⟨pick, rfl, hp⟩
          case false =>
            obtain ⟨_, l₅, l₆, s₃, rfl, h₃, h⟩ := Machine.Trail.of_bind (p := putFailed d p) h
            rw [after_append, after_aside h₃ ((putFailed_uses ..).mono fun _ => Op.IsReturn.isAside)]
            split_ifs at h
            · obtain ⟨rfl, -, hr⟩ := h.of_ret
              cases hr
              exact ⟨pick, rfl, by simp⟩
            · exact hi h

theorem relay_after {p : Proxy} {proto : Proto} {target : Negotiator.Target} {req : ClientRequest}
    {allowed : Option (List UInt16)} {outcome : RelayOutcome}
    (h : (machine c).Trail R s (relay p proto target req allowed) l s' (.ret outcome)) :
    w.after l = { w with addrs := w.addrs ++ [p.key] } := by
  cases h
  case call r _ h =>
    rw [after_cons]
    cases r
    case failed | timedOut =>
      obtain ⟨rfl, -⟩ := h.of_ret
      rfl
    case ok =>
      refine after_aside h (?_ : Uses Op.IsAside (Negotiator.negotiate proto target p.auth >>= _))
      refine Uses.bind ((Negotiator.negotiate_uses ..).mono fun _ => Op.IsNegotiation.isAside) fun r => ?_
      split
      · trivial
      · refine Uses.bind ((acknowledge_uses ..).mono fun _ h => h.isStreaming.isAside) fun r => ?_
        split
        · trivial
        · exact Uses.bind ⟨trivial, fun _ => trivial⟩ fun _ => trivial

-- The addresses that are compared when a rotation is counted are those of consecutive attempts.
def Consistent (w : Rotation) : Prop :=
  w.counted = (pairs w.addrs).map (Prod.map some some)

theorem pairs_concat {as : List Key} {a b : Key} : pairs (as ++ [a, b]) = pairs (as ++ [a]) ++ [(a, b)] := by
  induction as
  case nil => rfl
  case cons a' as hi => cases as <;> simp_all [pairs]

-- A further attempt.
theorem Consistent.attempt (h : w.Consistent) (k : Key) :
    Consistent ⟨w.addrs ++ [k], some k, if w.addrs = [] then w.counted else w.counted ++ [(w.addrs.getLast?, some k)]⟩ := by
  obtain ⟨addrs, pick, counted⟩ := w
  cases addrs using List.reverseRecOn
  case nil => simpa [Consistent, pairs] using h
  case append_singleton as a _ =>
    have hc : counted = (pairs (as ++ [a])).map (Prod.map some some) := h
    simp [Consistent, pairs_concat, hc]

theorem attempts_after {j : Job} {tries n : Nat} (hw : w.Consistent) (hn : 0 < n ↔ w.addrs ≠ [])
    (h : (machine c).Trail R s (attempts j tries n) l s' (.ret ())) : (w.after l).Consistent := by
  have hq : Uses Op.IsAside (do let _ ← writeAll (terminalFailure j.req.frontend) : Async Unit) :=
    Uses.bind (writeAll_uses trivial) fun _ => trivial
  induction tries generalizing s l w n
  case zero => exact (after_aside h hq).symm ▸ hw
  case succ tries hi =>
    unfold attempts at h
    obtain ⟨r, l₁, l₂, s₁, rfl, h₁, h⟩ := h.of_bind
    obtain ⟨pick, hp, hk⟩ := getLoop_after (w := w) h₁
    rw [after_append, hp]
    cases r
    case none => exact (after_aside h hq).symm ▸ hw
    case some p =>
      have hk : pick = some p.key := hk rfl
      subst hk
      obtain ⟨_, l₃, l₄, s₂, rfl, h₃, h⟩ := Machine.Trail.of_bind (p := Async.when _ _) h
      obtain ⟨outcome, l₅, l₆, s₃, rfl, h₅, h⟩ := Machine.Trail.of_bind (p := relay ..) h
      obtain ⟨again, l₇, l₈, s₄, rfl, h₇, h⟩ := Machine.Trail.of_bind (p := settle ..) h
      have hb : Rotation.after { w with pick := some p.key } l₃ = ⟨w.addrs, some p.key,
          if w.addrs = [] then w.counted else w.counted ++ [(w.addrs.getLast?, some p.key)]⟩ := by
        unfold Async.when at h₃
        split_ifs at h₃ with h₀
        · rw [if_neg (hn.mp h₀)]
          cases h₃
          case call h₃ =>
            obtain ⟨rfl, -⟩ := h₃.of_ret
            rfl
        · rw [if_pos (by simpa using mt hn.mpr h₀)]
          obtain ⟨rfl, -⟩ := h₃.of_ret
          rfl
      rw [after_append, hb, after_append, relay_after h₅, after_append,
        after_aside h₇ ((settle_uses _).mono fun _ => Op.IsReturn.isAside)]
      cases again
      case false =>
        obtain ⟨rfl, -⟩ := h.of_ret
        exact hw.attempt p.key
      case true => exact hi (hw.attempt p.key) (by simp) h

theorem handleClient_after {ctx : ConnCtx} {peer : IpAddr}
    (h : (machine c).Trail R s (handleClient ctx peer) l s' (.ret ())) : (start.after l).Consistent := by
  obtain ⟨j, l₁, l₂, s₁, rfl, h₁, h⟩ := h.of_bind
  have ha : (accept ctx peer).Uses Op.IsAside :=
    accept_uses ctx peer (fun _ => Op.IsClientSide.isAside) (fun _ => Op.IsControl.isAside) fun _ => trivial
  rw [after_append, after_aside h₁ ha]
  cases j
  case none =>
    obtain ⟨rfl, -⟩ := h.of_ret
    rfl
  case some j => exact attempts_after (rfl : start.Consistent) (by simp [start]) h

end Rotation

-- The counter counts the switches of a request exactly if every further proxy that is picked for it is at another
-- address than the one before, whatever other tasks do to the pool meanwhile.
theorem rotations_eq_iff {ctx : ConnCtx} {peer : IpAddr} (hR : ∀ s s', R s s' → s'.rotations = s.rotations)
    (h : (machine ctx.config).Trail R s (handleClient ctx peer) l s' (.ret ())) :
    s'.rotations = s.rotations + switches (attempted (l.map Prod.snd)) ↔ Rotates l := by
  have hc : (Rotation.start.after l).counted = (pairs (attempted (l.map Prod.snd))).map (Prod.map some some) := by
    rw [Rotation.handleClient_after h, Rotation.addrs_after]
    rfl
  have hr := Rotation.rotations_after (w := .start) hR h
  simp only [Rotation.start, List.length_nil, Nat.add_zero] at hr
  rw [hr, Nat.add_left_cancel_iff, ← Rotation.start, hc, List.length_map, eq_comm, switches,
    List.length_filter_eq_length_iff, Rotates, hc, List.forall_mem_map]
  simp

namespace RotationExample

def ctx : ConnCtx where
  config       := { Config.default with maxTries := 2 }
  expectedAuth := none
  fuel         := 1

def first : Proxy :=
  (Proxy.new (.v4 10 0 0 1) 1080 ∅).addType .socks5 none

def second : Proxy :=
  (Proxy.new (.v4 10 0 0 3) 1080 ∅).addType .socks5 none

def failed (p : Proxy) : Proxy :=
  p.recordAttempt none (some .connFailed)

def selecting (p : Proxy) : Trace Effects := [
  ⟨.pool .notified, ()⟩,
  ⟨.pool .loadCursor, (0 : UInt64)⟩,
  ⟨.env .now, (0 : Instant)⟩,
  ⟨.pool (.select ⟨.https, .best, none, 0, 0, false⟩), some p⟩
]

def returning (p : Proxy) : Trace Effects := [
  ⟨.env (.bench (30 * 10 ^ 9)), (0 : Instant)⟩,
  ⟨.pool (.push .holder ⟨failed p, some (30 * 10 ^ 9)⟩), ()⟩,
  ⟨.pool .notifyWaiters, ()⟩
]

-- Two attempts that fail.
def serving (p q : Proxy) : Trace Effects :=
  SocksExample.greeting ++ (selecting p ++ ([⟨.net (.dial .relay p.key), .failed⟩] ++ (returning p ++
    (selecting q ++ (⟨.pool .bumpRotations, ()⟩ :: ([⟨.net (.dial .relay q.key), .failed⟩] ++ (returning q ++
    [⟨.net (.clientWrite (terminalFailure .socks5)), .done⟩])))))))

def pool (entries : List Pooled) : State :=
  { State.fromProxies ctx.config [] with state := entries }

def blocked (p : Proxy) : Pooled :=
  ⟨failed p, some (30 * 10 ^ 9)⟩

def job : Job :=
  { SocksExample.job with config := ctx.config }

-- The pools before and after each of the two selections.
theorem serving_exec {p q : Proxy} {es es₁ es₂ : List Pooled}
    (h₁ : (some p, pool es₁) = (pool es).select ⟨.https, .best, none, 0, 0, false⟩)
    (h₂ : (some q, pool es₂) = (pool (es₁ ++ [blocked p])).select ⟨.https, .best, none, 0, 0, false⟩)
    (hp : unhealthy ctx.config (failed p) = false) (hq : unhealthy ctx.config (failed q) = false) :
    (machine ctx.config).Exec (pool es) (handleClient ctx SocksExample.peer) (serving p q)
      { pool (es₂ ++ [blocked q]) with rotations := 1 } (.ret ()) := by
  have ha : (machine ctx.config).Exec (pool es) (accept ctx SocksExample.peer) SocksExample.greeting (pool es)
      (.ret (some job)) :=
    .call rfl <| .call rfl <| .call rfl <| .call rfl <| .call rfl <| .call rfl <| .call rfl <| .call rfl .refl
  have hr (s : State) (p : Proxy) : (machine ctx.config).Exec s (relay p (chooseProto p .https) job.target job.req none)
      [⟨.net (.dial .relay p.key), .failed⟩] s (.ret (.retryableFailure .connFailed)) :=
    .call rfl .refl
  have hs (s : State) (p : Proxy) (hp : unhealthy ctx.config (failed p) = false) :
      (machine ctx.config).Exec s (settle job p (.retryableFailure .connFailed)) (returning p) (s.push (blocked p))
        (.ret true) := by
    refine .call rfl (?_ : (machine ctx.config).Exec s (putInner ctx.config (failed p) (some (30 * 10 ^ 9)) >>= _) _ _ _)
    rw [putInner, hp]
    exact .call rfl <| .call rfl .refl
  refine ha.bind_ret <| .call rfl <| .call ⟨rfl, rfl⟩ <| .call rfl <| .call h₁ ?_
  refine (hr _ p).bind_ret <| (hs _ p hp).bind_ret ?_
  refine .call rfl <| .call ⟨rfl, rfl⟩ <| .call rfl <| .call h₂ <| .call rfl ?_
  refine (hr _ q).bind_ret <| (hs _ q hq).bind_ret ?_
  exact .call rfl .refl

end RotationExample

open RotationExample in
-- The only proxy of a pool is picked again although it is benched, which is counted as a rotation.
theorem rotations_same_proxy : ∃ l s',
    (machine ctx.config).Trail Eq (pool [⟨first, none⟩]) (handleClient ctx SocksExample.peer) l s' (.ret ()) ∧
    s'.rotations ≠ (pool [⟨first, none⟩]).rotations + switches (attempted (l.map Prod.snd)) := by
  have he := @serving_exec first (failed first) [⟨first, none⟩] [] [] (by decide) (by decide) (by decide) (by decide)
  obtain ⟨l, h, hl⟩ := Machine.Trail.of_exec he Eq.refl
  exact ⟨l, _, h, by rw [hl]; decide⟩

open RotationExample in
theorem rotations_eq_iff_two : ∃ l, Rotates l ∧ attempted (l.map Prod.snd) = [first.key, second.key] := by
  have he := @serving_exec first second [⟨first, none⟩, ⟨second, none⟩] [⟨second, none⟩] [blocked first]
    (by decide) (by decide) (by decide) (by decide)
  obtain ⟨l, h, hl⟩ := Machine.Trail.of_exec he Eq.refl
  exact ⟨l, (rotations_eq_iff (by rintro _ _ rfl; rfl) h).mp (by rw [hl]; decide), by rw [hl]; decide⟩

end Server
