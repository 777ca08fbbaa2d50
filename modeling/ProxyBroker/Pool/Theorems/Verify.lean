import ProxyBroker.Resumption.Ongoing
import ProxyBroker.Pool.Waiting
import ProxyBroker.Pool.Theorems.Checkout

open Prog Negotiator

namespace Pool

variable {c : Config} {scheme : Scheme} {key : ClientKey} {p : Proxy} {tr : Trace Effects} {fuel n : Nat}

-- The proxy was probed with success.
def Probed (c : Config) (p : Proxy) (tr : Trace Effects) : Prop :=
  ∃ pre probe suf, tr = pre ++ probe ++ suf ∧ (verifyLive c p).Runs probe (.ret true)

-- The proxy was selected when there was nothing left to be imported.
def SelectedLate (p : Proxy) (tr : Trace Effects) : Prop :=
  ∃ pre ctx suf, tr = pre ++ ⟨.pool (.select ctx), some p⟩ :: suf ∧ ⟨.pool .loadExhausted, true⟩ ∈ pre

-- What has been found out in the course of a run.
theorem Probed.or_selectedLate_of_suffix {tr' : Trace Effects} (hs : tr <:+ tr')
    (h : Probed c p tr ∨ SelectedLate p tr) : Probed c p tr' ∨ SelectedLate p tr' := by
  obtain ⟨t, rfl⟩ := hs
  rcases h with ⟨pre, probe, suf, rfl, hr⟩ | ⟨pre, ctx, suf, rfl, he⟩
  · exact .inl ⟨t ++ pre, probe, suf, by simp, hr⟩
  · exact .inr ⟨t ++ pre, ctx, suf, by simp, List.mem_append_right _ he⟩

theorem trySelect_selects (h : (trySelect c scheme key).Runs tr (.ret (some p))) :
    ∃ pre ctx suf, tr = pre ++ ⟨.pool (.select ctx), some p⟩ :: suf := by
  obtain ⟨sticky, tr₁, tr₂, rfl, -, h⟩ := Runs.of_bind_ret (p := pinned c key) h
  cases h
  case call h =>
    cases h
    case call h =>
      cases h
      case call r h =>
        cases r
        case none =>
          obtain ⟨-, hr⟩ := Runs.ret_inv h
          cases hr
        case some chosen =>
          obtain ⟨_, _, _, rfl, -, h⟩ := Runs.of_bind_ret (p := Async.when _ _) h
          obtain ⟨_, _, _, rfl, -, h⟩ := Runs.of_bind_ret h
          obtain ⟨rfl, hr⟩ := h.ret_inv
          cases hr
          exact ⟨tr₁ ++ [_, _], _, _, by rw [List.append_assoc]; rfl⟩

-- A proxy that is handed out was probed, unless it was found by the last look.
theorem getLoop_probed (hv : c.verifyOnLease.isSome) (h : (getLoop c scheme key fuel n).Runs tr (.ret (some p))) :
    Probed c p tr ∨ SelectedLate p tr := by
  induction fuel generalizing tr n
  case zero =>
    cases h
    case call r _ => exact r.elim
  case succ fuel hi =>
    unfold getLoop at h
    cases h
    case call h =>
      obtain ⟨r, tr₁, tr₂, rfl, h₁, h⟩ := Runs.of_bind_ret (p := trySelect c scheme key) h
      cases r
      case none =>
        cases h
        case call exhausted h =>
          cases exhausted
          case true =>
            obtain ⟨pre, ctx, suf, rfl⟩ := trySelect_selects (h : (trySelect c scheme key).Runs _ _)
            exact .inr ⟨_ :: tr₁ ++ ⟨.pool .loadExhausted, true⟩ :: pre, ctx, suf, (by rw [List.append_assoc]; rfl), by simp⟩
          case false =>
            cases h
            case call h =>
              refine Probed.or_selectedLate_of_suffix ?_ (hi h)
              exact ((List.suffix_cons _ _).trans (List.suffix_cons _ _)).trans
                ((List.suffix_append tr₁ _).trans (List.suffix_cons _ _))
      case some q =>
        dsimp only at h
        rw [if_pos hv] at h
        obtain ⟨b, tr₃, tr₄, rfl, h₂, h⟩ := h.of_bind_ret
        cases b
        case true =>
          obtain ⟨rfl, hr⟩ := h.ret_inv
          cases hr
          exact .inl ⟨_ :: tr₁, tr₃, [], by rw [List.append_nil, List.append_nil]; rfl, h₂⟩
        case false =>
          obtain ⟨_, tr₅, tr₆, rfl, -, h⟩ := Runs.of_bind_ret (p := putFailed c q) h
          split_ifs at h
          · obtain ⟨-, hr⟩ := h.ret_inv
            cases hr
          · refine Probed.or_selectedLate_of_suffix ?_ (hi h)
            exact (List.suffix_append tr₅ _).trans ((List.suffix_append tr₃ _).trans
              ((List.suffix_append tr₁ _).trans (List.suffix_cons _ _)))

theorem Probed.dials (h : Probed c p tr) : ∃ e ∈ tr, e.op = .net (.dial .probe p.key) := by
  obtain ⟨pre, probe, suf, rfl, hr⟩ := h
  cases hr
  case call => exact ⟨_, List.mem_append_left _ <| List.mem_append_right _ List.mem_cons_self, rfl⟩

-- A call of `get` finds nothing when it looks for the last time.
def NothingLate (x : Attended Effects State (Ongoing Effects (Option Proxy))) (l : Attended.Label Effects) : Prop :=
  ∀ ctx r, l = .own ⟨.pool (.select ctx), r⟩ → ⟨.pool .loadExhausted, true⟩ ∈ x.actor.done →
    supporting x.system.shared.state ctx.scheme = ∅

-- Whatever other tasks do in the meantime.
theorem get_probed {service : Async Unit → Prop} {s₀ : State} {ls : List (Attended.Label Effects)}
    {x : Attended Effects State (Ongoing Effects (Option Proxy))} (hv : c.verifyOnLease.isSome)
    (h : Attended.Run (machine c) service Ongoing.Moves NothingLate ⟨⟨s₀, []⟩, .start (get c fuel scheme key)⟩ ls x)
    (hr : x.actor.rest = .ret (some p)) : Probed c p x.actor.done := by
  have hg := Ongoing.runs h
  rw [hr] at hg
  refine (getLoop_probed hv hg).resolve_right ?_
  rintro ⟨pre, ctx, suf, hd, he⟩
  have hn := Ongoing.own_events h (P := fun pre e => ∀ ctx r, e = ⟨.pool (.select ctx), r⟩ →
    ⟨.pool .loadExhausted, true⟩ ∈ pre → r = none) (fun x e s' hx ha ctx r he hm => ?_) hd ctx _ rfl he
  · cases hn
  · subst he
    have hs := hx ctx r rfl hm
    rcases State.select_cases (ha : (r, s') = State.select _ ctx) with ⟨hr, -⟩ | ⟨i, e, _, hi, -⟩
    · exact hr
    · exact absurd hi.tier.left (hs ▸ Set.notMem_empty i)

namespace VerifyExample

def config : Config :=
  { Config.default with verifyOnLease := some 1 }

def proxy : Proxy :=
  (Proxy.new (.v4 10 0 0 1) 8080 ∅).addType .http none

def client : ClientKey :=
  .ip (.v4 127 0 0 1)

def ctx : SelectCtx :=
  ⟨.http, .best, none, 0, 0, false⟩

-- The pool after the importer has ended.
def imported : State :=
  { State.spawned with state := [⟨proxy, none⟩], exhausted := true }

-- The first look finds nothing.
def looking : Trace Effects :=
  [⟨.pool .notified, ()⟩, ⟨.pool .loadCursor, (0 : UInt64)⟩, ⟨.env .now, (0 : Instant)⟩, ⟨.pool (.select ctx), none⟩]

def importing : Trace Effects :=
  [⟨.env .nextProxy, some proxy⟩, ⟨.pool (.push .outsider ⟨proxy, none⟩), ()⟩, ⟨.pool .notifyWaiters, ()⟩,
   ⟨.env .nextProxy, none⟩, ⟨.pool .storeExhausted, ()⟩]

def lookingAgain : Trace Effects :=
  [⟨.pool .loadExhausted, true⟩, ⟨.pool .loadCursor, (0 : UInt64)⟩, ⟨.env .now, (0 : Instant)⟩,
   ⟨.pool (.select ctx), some proxy⟩]

def found : Trace Effects :=
  [⟨.pool .notified, ()⟩, ⟨.pool .loadCursor, (0 : UInt64)⟩, ⟨.env .now, (0 : Instant)⟩,
   ⟨.pool (.select ctx), some proxy⟩]

-- What is left of the call after the first look.
def remaining : Async (Option Proxy) := do
  let exhausted : Bool := ← Async.pool .loadExhausted
  if exhausted then
    trySelect config .http client
  else
    Async.exec .park
    getLoop config .http client 0 0

end VerifyExample

open VerifyExample in
-- The importer pushes its only proxy, and ends, between the two looks.
theorem get_unprobed : ∃ ls x,
    Attended.Run (machine config) (fun q => ∃ l : Call, q = l.code config) Ongoing.Moves (fun _ _ => True)
      ⟨⟨.spawned, []⟩, .start (get config 1 .http client)⟩ ls x ∧
    x.actor.rest = .ret (some proxy) ∧ ¬Probed config proxy x.actor.done := by
  have h₁ : (machine config).Exec .spawned (get config 1 .http client) looking .spawned remaining :=
    .call rfl <| .call ⟨rfl, rfl⟩ <| .call rfl <| .call rfl .refl
  have h₂ : ∃ ts, System.Run (machine config) (fun q => ∃ l : Call, q = l.code config) (fun _ _ => True)
      ⟨.spawned, []⟩ importing ⟨imported, ts⟩ :=
    ⟨_, .spawn (.spawn ⟨.importer 2, rfl⟩) <|
      .event (.first rfl) trivial <| .event (.first rfl) trivial <| .event (.first rfl) trivial <|
      .event (.first rfl) trivial <| .event (.first rfl) trivial .refl⟩
  have h₃ : (machine config).Exec imported remaining lookingAgain { imported with state := [] } (.ret (some proxy)) :=
    .call ⟨rfl, rfl⟩ <| .call ⟨rfl, rfl⟩ <| .call rfl <| .call rfl .refl
  obtain ⟨ts, h₂⟩ := h₂
  obtain ⟨ls, hr, -⟩ := (Ongoing.exec .refl h₁ fun _ _ _ _ _ _ => trivial).others h₂
  refine ⟨_, _, Ongoing.exec hr h₃ fun _ _ _ _ _ _ => trivial, rfl, fun h => ?_⟩
  obtain ⟨e, he, hd⟩ := h.dials
  simp only [looking, lookingAgain, List.nil_append, List.cons_append, List.mem_cons, List.not_mem_nil, or_false] at he
  rcases he with rfl | rfl | rfl | rfl | rfl | rfl | rfl | rfl <;> cases hd

open VerifyExample in
-- The proxy is in the pool from the beginning.
theorem get_probed_first : ∃ x : Attended Effects State (Ongoing Effects (Option Proxy)),
    x.actor.rest = .ret (some proxy) ∧ Probed config proxy x.actor.done := by
  have he : (machine config).Exec imported (get config 1 .http client) (found ++ (probing config proxy ++ []))
      { imported with state := [] } (.ret (some proxy)) := by
    refine .call rfl <| .call ⟨rfl, rfl⟩ <| .call rfl <| .call rfl ?_
    exact verifyLive_probing.bind_ret (.refl : (machine config).Exec _ _ [] _ _)
  have hn : ∀ e ∈ found ++ (probing config proxy ++ []), e.op ≠ .pool .loadExhausted := by
    simp [found, probing, tunnelling]
  have hr : ∃ ls, Attended.Run (machine config) (fun _ => False) Ongoing.Moves NothingLate
      ⟨⟨imported, []⟩, .start (get config 1 .http client)⟩ ls
      ⟨⟨{ imported with state := [] }, []⟩, ⟨[] ++ (found ++ (probing config proxy ++ [])), .ret (some proxy)⟩⟩ := by
    refine ⟨_, Ongoing.exec .refl he fun pre e suf x ht hx ctx r hl hm => ?_⟩
    rw [hx] at hm
    exact absurd rfl <| hn _ (ht ▸ List.mem_append_left _ hm)
  obtain ⟨ls, hr⟩ := hr
  exact ⟨_, rfl, get_probed rfl hr rfl⟩

end Pool
