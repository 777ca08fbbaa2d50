import ProxyBroker.Server.AcceptLoop
import ProxyBroker.Resumption.Trail

namespace AcceptLoop

open Nursery

variable (c : Params)

-- The operations by which `wait_ready` looks at the pool.
def IsLook : Effects.Op → Prop
  | .pool .notified | .pool .park | .pool .len | .pool .loadExhausted => True
  | _                                                                 => False

-- How far the loop has come.
inductive Stage
  | gating
  | waiting
  | accepting
  | spawning (peer : IpAddr)
  | dropping (last : Bool)
  | ended

-- The stage after a permit was dropped.
def Stage.next (last : Bool) : Stage :=
  if last then ended else waiting

inductive Stage.Moves : Stage → Event Ops → Stage → Prop
  | entered   : Moves gating ⟨.poll, false⟩ gating
  | ungated   : c.minQueue = 0 → Moves gating ⟨.poll, false⟩ waiting
  | cancelled : Moves gating ⟨.poll, true⟩ ended
  | looked {o : Effects.Op} {r : o.Ret} : IsLook o → Moves gating ⟨.race o, some r⟩ gating
  | dropped {o : Effects.Op} : Moves gating ⟨.race o, none⟩ ended
  | filled {n : Nat} : c.minQueue ≤ n → Moves gating ⟨.race (.pool .len), some n⟩ waiting
  | exhausted : Moves gating ⟨.race (.pool .loadExhausted), some true⟩ waiting
  | acquired : Moves waiting ⟨.acquire, true⟩ accepting
  | unacquired : Moves waiting ⟨.acquire, false⟩ ended
  | accepted {peer : IpAddr} : Moves accepting ⟨.accept, .client peer⟩ (spawning peer)
  | failed : Moves accepting ⟨.accept, .failed⟩ (dropping false)
  | stopped : Moves accepting ⟨.accept, .cancelled⟩ (dropping true)
  | spawned {peer : IpAddr} : Moves (spawning peer) ⟨.spawn peer, ()⟩ waiting
  | released {last : Bool} : Moves (dropping last) ⟨.release, ()⟩ (next last)

-- The gate either gives way to the first pass of the loop, or it ends the loop.
def Gates : Prog Ops (Option Phase) → Stage → Prop
  | .ret none, v      => v = .ended
  | .ret (some ph), v => ph = .serving ∧ v = .waiting
  | .call o k, v      => v = .gating ∧ ∀ r, ∃ w, Stage.Moves c .gating ⟨o, r⟩ w ∧ Gates (k r) w

-- What is left of a pass.
inductive Left : Stage → Prog Ops (Option Phase) → Prop
  | waiting : Left .waiting (.call .acquire afterAcquire)
  | accepting : Left .accepting (.call .accept afterAccept)
  | spawning {peer : IpAddr} : Left (.spawning peer) (.call (.spawn peer) fun _ => .ret (some .serving))
  | last : Left (.dropping true) (.call .release fun _ => .ret none)
  | dropping : Left (.dropping false) (.call .release fun _ => .ret (some .serving))

inductive Reaches : Option (Iteration Ops Phase) → Stage → Prop
  | gating {tr : Trace Ops} {p : Prog Ops (Option Phase)} : Gates c p .gating → Reaches (some ⟨.gate, tr, p⟩) .gating
  | serving {tr : Trace Ops} {p : Prog Ops (Option Phase)} {v : Stage} :
    Left v p → Reaches (some ⟨.serving, tr, p⟩) v
  | ended : Reaches none .ended

-- The tasks next to the loop: those that were there from the beginning, the clients that are being served, and those
-- that are not anymore.
inductive Served
  | other (t : Thread Effects)
  | client (peer : IpAddr) (t : Thread Effects)
  | gone (peer : IpAddr) (t : Thread Effects)

namespace Served

def thread : Served → Thread Effects
  | other t | client _ t | gone _ t => t

def isClient : Served → Bool
  | client .. => true
  | _         => false

def peer : Served → Option IpAddr
  | other _               => none
  | client p _ | gone p _ => some p

inductive Moves : Served → Event Ops → Served → Prop
  | other {tr : Trace Effects} {o : Effects.Op} {k : o.Ret → Async Unit} {r : o.Ret} :
    Moves (other ⟨tr, .call o k⟩) ⟨.task o, r⟩ (other ⟨tr ++ [⟨o, r⟩], k r⟩)
  | client {p : IpAddr} {tr : Trace Effects} {o : Effects.Op} {k : o.Ret → Async Unit} {r : o.Ret} :
    Moves (client p ⟨tr, .call o k⟩) ⟨.task o, r⟩ (client p ⟨tr ++ [⟨o, r⟩], k r⟩)
  | left {p : IpAddr} {t : Thread Effects} : t.code.isOver → Moves (client p t) ⟨.release, ()⟩ (gone p t)

def started : Op → Option Served
  | .spawn peer => client peer ⟨[], Server.handleClient (ctx c) peer⟩
  | _           => none

end Served

inductive Serves : Prog Ops Unit → Served → Prop
  | other {tr : Trace Effects} {p : Async Unit} : Serves (detached p) (.other ⟨tr, p⟩)
  | client {peer : IpAddr} {tr : Trace Effects} {p : Async Unit} :
    Serves (task p >>= fun _ => exec .release) (.client peer ⟨tr, p⟩)
  | gone {peer : IpAddr} {t : Thread Effects} : t.code.isOver → Serves (.ret ()) (.gone peer t)

def stages : Nursery Ops State Stage Served where
  machine := ⟨Answers c⟩
  main    := Stage.Moves c
  task    := Served.Moves
  starts  := Served.started c
  outside := Shutdown

def firstStage (pool : Pool.State) (others : List (Async Unit)) : Config State Stage Served where
  shared := ⟨pool, max c.maxClients 1, false⟩
  main   := .gating
  tasks  := others.map fun p => .other ⟨[], p⟩

-- A run of the server that only tells how far everyone has come.
abbrev Staged (pool : Pool.State) (others : List (Async Unit)) :=
  (stages c).Run (firstStage c pool others)

section Following

variable {c}

theorem gates_call {o : Op} {k : o.Ret → Prog Ops (Option Phase)}
    (h : ∀ r, ∃ w, Stage.Moves c .gating ⟨o, r⟩ w ∧ Gates c (k r) w) : Gates c (Prog.call (S := Ops) o k) .gating :=
  ⟨rfl, h⟩

-- An operation of a future that is still waiting to get past the gate.
theorem race_gates {o : Effects.Op} {k : o.Ret → Async Unit} {f : Option Unit → Prog Ops (Option Phase)}
    (h₀ : f none = .ret none)
    (h : ∀ r : o.Ret, ∃ w, Stage.Moves c .gating ⟨.race o, some r⟩ w ∧ Gates c (race (k r) >>= f) w) :
    Gates c (race (Prog.call (S := Effects) o k) >>= f) .gating := by
  refine gates_call (o := .race o) fun (r : Option o.Ret) => ?_
  cases r
  case none   => exact ⟨.ended, .dropped, (congrArg (Gates c · .ended) h₀).mpr rfl⟩
  case some r => exact h r

theorem waitReadyLoop_gates (n : Nat) {f : Option Unit → Prog Ops (Option Phase)} (h₀ : f none = .ret none)
    (h₁ : f (some ()) = .ret (some .serving)) :
    Gates c (race (Pool.waitReadyLoop c.minQueue n) >>= f) .gating := by
  have hw : Gates c (f (some ())) .waiting := h₁ ▸ ⟨rfl, rfl⟩
  induction n
  case zero => exact race_gates h₀ fun r => r.elim
  case succ n hi =>
    refine race_gates h₀ fun _ => ⟨_, .looked trivial, race_gates h₀ fun (m : Nat) => ?_⟩
    by_cases hm : c.minQueue ≤ m
    · refine ⟨_, .filled hm, ?_⟩
      show Gates c (race (if c.minQueue ≤ m then .ret () else _) >>= f) _
      rw [if_pos hm]
      exact hw
    · refine ⟨_, .looked trivial, ?_⟩
      show Gates c (race (if c.minQueue ≤ m then .ret () else _) >>= f) _
      rw [if_neg hm]
      refine race_gates h₀ fun (b : Bool) => ?_
      cases b
      case false => exact ⟨_, .looked trivial, race_gates h₀ fun _ => ⟨_, .looked trivial, hi⟩⟩
      case true  => exact ⟨_, .exhausted, hw⟩

theorem gate_gates : Gates c (gate c) .gating := by
  refine gates_call fun b => ?_
  cases b
  case true  => exact ⟨_, .cancelled, rfl⟩
  case false =>
    by_cases hn : c.minQueue = 0
    · refine ⟨_, .ungated hn, ?_⟩
      unfold Pool.waitReady
      rw [if_pos hn]
      exact ⟨rfl, rfl⟩
    · refine ⟨_, .entered, ?_⟩
      unfold Pool.waitReady
      rw [if_neg hn]
      exact waitReadyLoop_gates c.fuel rfl rfl

variable {i j : Option (Iteration Ops Phase)} {v : Stage} {e : Event Ops}

theorem Reaches.moves (h : Reaches c i v) (hm : Iteration.Moves (Phase.body c) i e j) :
    ∃ w, Stage.Moves c v e w ∧ Reaches c j w := by
  cases h
  case gating hg =>
    cases hm
    case event k r =>
      obtain ⟨w, hm, hw⟩ := hg.right r
      refine ⟨w, hm, ?_⟩
      cases hk : k r
      case ret ph =>
        rw [hk] at hw
        cases ph
        case none    => exact hw ▸ .ended
        case some ph =>
          obtain ⟨rfl, rfl⟩ := hw
          exact .serving .waiting
      case call =>
        rw [hk] at hw
        exact hw.left ▸ .gating ⟨rfl, hw.right⟩
  case serving hl =>
    cases hl
    case waiting =>
      cases hm
      case event r =>
        cases r
        case false => exact ⟨_, .unacquired, .ended⟩
        case true  => exact ⟨_, .acquired, .serving .accepting⟩
    case accepting =>
      cases hm
      case event r =>
        cases r
        case client    => exact ⟨_, .accepted, .serving .spawning⟩
        case failed    => exact ⟨_, .failed, .serving .dropping⟩
        case cancelled => exact ⟨_, .stopped, .serving .last⟩
    case spawning =>
      cases hm
      case event => exact ⟨_, .spawned, .serving .waiting⟩
    case last =>
      cases hm
      case event => exact ⟨_, .released, .ended⟩
    case dropping =>
      cases hm
      case event => exact ⟨_, .released, .serving .waiting⟩
  case ended => cases hm

theorem task_call {α : Type} {o : Effects.Op} {k : o.Ret → Async α} :
    task (Prog.call (S := Effects) o k) =
      if o.isPanic then .ret none else Prog.call (S := Ops) (.task o) fun r => task (k r) :=
  rfl

theorem Serves.moves {p q : Prog Ops Unit} {t : Served} (h : Serves p t) (hp : p.Performs e q) :
    ∃ t', t.Moves e t' ∧ Serves q t' := by
  cases h
  case other tr p =>
    cases p
    case ret => cases hp
    case call o k =>
      rw [detached, task_call] at hp
      split at hp
      · cases hp
      · cases hp
        case call => exact ⟨_, .other, .other⟩
  case client tr p =>
    cases p
    case ret =>
      cases hp
      case call => exact ⟨_, .left rfl, .gone rfl⟩
    case call o k =>
      rw [task_call] at hp
      split at hp
      case isTrue ho =>
        cases hp
        case call => exact ⟨_, .left ho, .gone ho⟩
      case isFalse =>
        cases hp
        case call => exact ⟨_, .client, .client⟩
  case gone => cases hp

variable (c) in
theorem simulation : Simulation (nursery c) (stages c) (Reaches c) Serves where
  machine := rfl
  outside := rfl
  task _ _ _ _ h hp := h.moves hp
  main _ _ e _ h hm := by
    refine ⟨?_, h.moves hm⟩
    obtain ⟨o, r⟩ := e
    cases o
    case spawn peer => exact .some .client
    all_goals exact .none

-- Every run of the server is also a run of its stages.
theorem Run.staged {pool : Pool.State} {others : List (Async Unit)} {log : Log Ops}
    {x : Config State (Option (Iteration Ops Phase)) (Prog Ops Unit)} (h : Run c pool others log x) :
    ∃ y, Staged c pool others log y ∧ Related (Reaches c) Serves x y := by
  refine (simulation c).run h ⟨rfl, .gating gate_gates, ?_⟩
  clear h
  induction others
  case nil       => exact .nil
  case cons _ hi => exact .cons .other hi

end Following

-- The permit that the loop has acquired but has not moved into a task yet.
def Stage.held : Stage → Nat
  | accepting | spawning _ | dropping _ => 1
  | _                                   => 0

-- The client that has been accepted but has no task yet.
def Stage.pending : Stage → List IpAddr
  | spawning peer => [peer]
  | _             => []

def Stage.IsOpen : Stage → Prop
  | gating | ended => False
  | _              => True

-- What the pool was like when the loop got past its gate.
def Opens : Event Ops → Prop
  | ⟨.race (.pool .len), some n⟩              => c.minQueue ≤ n
  | ⟨.race (.pool .loadExhausted), some b⟩ => b = true
  | _                                         => False

-- What the tasks next to the loop have done.
def work : Nursery.Actor × Event Ops → Option (Event Effects)
  | ⟨.task _, .task o, r⟩ => some ⟨o, r⟩
  | _                     => none

def arrivals (log : Log Ops) : List IpAddr :=
  (log.of .main).filterMap arrival

structure Books (pool : Pool.State) (others : List (Async Unit)) (log : Log Ops) (x : Config State Stage Served) :
    Prop where
  permits : x.shared.permits + x.tasks.countP Served.isClient + x.main.held = max c.maxClients 1
  opened  : x.main.IsOpen → c.minQueue = 0 ∨ ∃ e, (.main, e) ∈ log ∧ Opens c e
  stopped : x.main = .ended ∨ x.main = .dropping true → x.shared.cancelled
  peers   : ∃ ps, x.tasks.map Served.peer = others.map (fun _ => none) ++ ps.map some ∧
    arrivals log = ps ++ x.main.pending
  serving : ∀ t ∈ x.tasks, ∀ p, t.peer = some p →
    (Server.handleClient (ctx c) p).Runs t.thread.trace t.thread.code
  system  : System.Runs (Pool.machine c.config) (AnyService c.config) ⟨pool, others.map (⟨[], ·⟩)⟩ (log.filterMap work)
    ⟨x.shared.pool, x.tasks.map Served.thread⟩

section Invariant

variable {c} {pool : Pool.State} {others : List (Async Unit)} {log : Log Ops} {s s' : State} {u u' : Stage}
variable {vs : List Served} {v v' : Served} {i : Nat} {e : Event Ops}

theorem Books.first : Books c pool others [] (firstStage c pool others) where
  permits := by simp [firstStage, Stage.held, Served.isClient, List.countP_map, Function.comp_def]
  opened  := nofun
  stopped := nofun
  peers   := ⟨[], by simp [firstStage, Served.peer, Function.comp_def], rfl⟩
  serving := by simp [firstStage, Served.peer]
  system  := by simpa [firstStage, Served.thread, Function.comp_def] using .refl

-- Looking at a pool does not change it.
theorem look_pool {o : Effects.Op} {r : o.Ret} {p : Pool.State} (ho : IsLook o)
    (h : (Pool.machine c.config).answers s.pool ⟨o, r⟩ p) : p = s.pool := by
  cases o
  case pool o =>
    cases o
    case notified | park   => exact h
    case len | loadExhausted => exact h.right
    all_goals exact (ho : False).elim
  all_goals exact (ho : False).elim

theorem arrivals_main : arrivals (log ++ [(.main, e)]) = arrivals log ++ (arrival e).toList := by
  unfold arrivals
  rw [Log.of_snoc_self, List.filterMap_append]
  cases h : arrival e <;> simp [h]

theorem work_main : (log ++ [(Actor.main, e)]).filterMap work = log.filterMap work := by
  simp [work]

-- The loop goes on without a task being started.
theorem Books.advance (h : Books c pool others log ⟨s, u, vs⟩)
    (hp : s'.permits + u'.held = s.permits + u.held) (hs : s'.pool = s.pool)
    (hc : u' = .ended ∨ u' = .dropping true → s'.cancelled)
    (ho : u'.IsOpen → c.minQueue = 0 ∨ (∃ e, (.main, e) ∈ log ∧ Opens c e) ∨ Opens c e)
    (ha : u.pending ++ (arrival e).toList = u'.pending) :
    Books c pool others (log ++ [(.main, e)]) ⟨s', u', vs ++ []⟩ where
  permits := by
    have := h.permits
    rw [List.append_nil]
    dsimp only at this ⊢
    omega
  opened hu := by
    rcases ho hu with hm | ⟨e', he, hm⟩ | hm
    · exact .inl hm
    · exact .inr ⟨e', List.mem_append_left _ he, hm⟩
    · exact .inr ⟨e, by simp, hm⟩
  stopped := hc
  peers := by
    obtain ⟨ps, hv, hl⟩ := h.peers
    refine ⟨ps, by rwa [List.append_nil], ?_⟩
    rw [arrivals_main, hl, List.append_assoc]
    exact congrArg _ ha
  serving := by
    rw [List.append_nil]
    exact h.serving
  system := by
    rw [List.append_nil, work_main, hs]
    exact h.system

theorem Books.main (h : Books c pool others log ⟨s, u, vs⟩) (hm : Stage.Moves c u e u') (ha : Answers c s e s') :
    Books c pool others (log ++ [(.main, e)]) ⟨s', u', vs ++ (Served.started c e.op).toList⟩ := by
  have ho := h.opened
  cases hm
  case entered =>
    cases ha
    exact h.advance rfl rfl nofun nofun rfl
  case ungated hn =>
    cases ha
    exact h.advance rfl rfl nofun (fun _ => .inl hn) rfl
  case cancelled =>
    cases ha
    case poll hc => exact h.advance rfl rfl (fun _ => hc rfl) nofun rfl
  case looked o r hl =>
    cases ha
    case race hr => exact h.advance rfl (look_pool hl hr) nofun nofun rfl
  case dropped =>
    cases ha
    case dropped hc _ => exact h.advance rfl rfl (fun _ => hc) nofun rfl
  case filled hn =>
    cases ha
    case race hr => exact h.advance rfl (look_pool (o := .pool .len) trivial hr) nofun (fun _ => .inr (.inr hn)) rfl
  case exhausted =>
    cases ha
    case race hr =>
      exact h.advance rfl (look_pool (o := .pool .loadExhausted) trivial hr) nofun (fun _ => .inr (.inr rfl)) rfl
  case acquired =>
    cases ha
    case acquired hn =>
      exact h.advance (by simp [hn, Stage.held]) rfl nofun (fun _ => (ho trivial).imp_right .inl) rfl
  case unacquired =>
    cases ha
    case unacquired hc => exact h.advance rfl rfl (fun _ => hc) nofun rfl
  case accepted | failed =>
    cases ha
    exact h.advance rfl rfl nofun (fun _ => (ho trivial).imp_right .inl) rfl
  case stopped =>
    cases ha
    case cancelled hc => exact h.advance rfl rfl (fun _ => hc) (fun _ => (ho trivial).imp_right .inl) rfl
  case spawned peer =>
    cases ha
    have hp : s.permits + vs.countP Served.isClient + 1 = max c.maxClients 1 := h.permits
    constructor
    case permits =>
      simp [Served.started, Served.isClient, Stage.held]
      omega
    case opened  => exact fun _ => (ho trivial).imp_right fun ⟨e, he, hm⟩ => ⟨e, List.mem_append_left _ he, hm⟩
    case stopped => exact nofun
    case peers =>
      obtain ⟨ps, hv, hl⟩ := h.peers
      refine ⟨ps ++ [peer], ?_, ?_⟩
      · simp only [List.map_append, hv, List.append_assoc]
        rfl
      · rw [arrivals_main, hl]
        rfl
    case serving =>
      intro t ht p hp
      rcases List.mem_append.mp ht with ht | ht
      · exact h.serving t ht p hp
      · cases List.mem_singleton.mp ht
        cases hp
        exact .refl
    case system =>
      rw [work_main, List.map_append]
      have hs : AnyService c.config (Server.handleClient (ctx c) peer) := .service (.handleClient ..)
      simpa [Served.started, Served.thread] using h.system.trans (.spawn (.spawn hs) .refl)
  case released last =>
    cases ha
    cases last
    · exact h.advance rfl rfl nofun (fun _ => (ho trivial).imp_right .inl) rfl
    · exact h.advance rfl rfl (fun _ => h.stopped (.inr rfl)) nofun rfl

theorem Served.Moves.peer (hm : v.Moves e v') : v'.peer = v.peer := by
  cases hm <;> rfl

theorem Served.Moves.runs {p : IpAddr} (hm : v.Moves e v')
    (h : (Server.handleClient (ctx c) p).Runs v.thread.trace v.thread.code) :
    (Server.handleClient (ctx c) p).Runs v'.thread.trace v'.thread.code := by
  cases hm
  case other | client => exact h.snoc _
  case left           => exact h

theorem arrivals_task : arrivals (log ++ [(.task i, e)]) = arrivals log := by
  unfold arrivals
  rw [Log.of_snoc_ne (a := .main) (b := .task i) nofun]

theorem work_task : (log ++ [(Actor.task i, e)]).filterMap work = log.filterMap work ++ (work (.task i, e)).toList := by
  rw [List.filterMap_append]
  cases h : work (.task i, e) <;> simp [h]

-- A task performs an event on the pool, or it drops its permit.
theorem Served.Moves.system {vs₁ vs₂ : List Served} {x₀ : System Effects Pool.State} {tr : Trace Effects}
    (hm : v.Moves e v') (ha : Answers c s e s')
    (h : System.Runs (Pool.machine c.config) (AnyService c.config) x₀ tr
      ⟨s.pool, (vs₁ ++ v :: vs₂).map Served.thread⟩) :
    System.Runs (Pool.machine c.config) (AnyService c.config) x₀ (tr ++ (work (.task i, e)).toList)
      ⟨s'.pool, (vs₁ ++ v' :: vs₂).map Served.thread⟩ := by
  rw [List.map_append, List.map_cons] at h ⊢
  cases hm
  case other | client =>
    cases ha
    case task ha => exact h.trans (.event (.event ha) trivial .refl)
  case left =>
    cases ha
    exact (List.append_nil tr).symm ▸ h

theorem Served.Moves.permits {vs₁ vs₂ : List Served} (hm : v.Moves e v') (ha : Answers c s e s') :
    s'.permits + (vs₁ ++ v' :: vs₂).countP Served.isClient = s.permits + (vs₁ ++ v :: vs₂).countP Served.isClient := by
  rw [List.countP_append, List.countP_append, List.countP_cons, List.countP_cons]
  cases hm
  case other | client =>
    cases ha
    rfl
  case left =>
    cases ha
    simp [Served.isClient]
    omega

theorem Books.task (h : Books c pool others log ⟨s, u, vs⟩) (hv : vs[i]? = some v) (hm : v.Moves e v')
    (ha : Answers c s e s') : Books c pool others (log ++ [(.task i, e)]) ⟨s', u, vs.set i v'⟩ := by
  obtain ⟨hi, rfl⟩ := List.getElem?_eq_some_iff.mp hv
  have hl : vs = vs.take i ++ vs[i] :: vs.drop (i + 1) := by rw [List.getElem_cons_drop, List.take_append_drop]
  have hset : vs.set i v' = vs.take i ++ v' :: vs.drop (i + 1) := List.set_eq_take_append_cons_drop .. ▸ if_pos hi
  have hp : vs.map Served.peer = (vs.set i v').map Served.peer := by
    rw [hset, List.map_append, List.map_cons, hm.peer, ← List.map_cons, ← List.map_append, ← hl]
  constructor
  case permits =>
    have hc : s'.permits + (vs.take i ++ v' :: vs.drop (i + 1)).countP Served.isClient =
        s.permits + (vs.take i ++ vs[i] :: vs.drop (i + 1)).countP Served.isClient := hm.permits ha
    rw [← hl] at hc
    rw [hset]
    exact hc ▸ h.permits
  case opened =>
    exact fun hu => (h.opened hu).imp_right fun ⟨e, he, ho⟩ => ⟨e, List.mem_append_left _ he, ho⟩
  case stopped =>
    intro hu
    have hc := h.stopped hu
    cases ha
    all_goals exact hc
  case peers =>
    rw [arrivals_task, ← hp]
    exact h.peers
  case serving =>
    intro t ht p htp
    rcases List.mem_or_eq_of_mem_set ht with ht | rfl
    · exact h.serving t ht p htp
    · exact hm.runs (h.serving _ (List.getElem_mem hi) p (hm.peer ▸ htp))
  case system =>
    have hs := h.system
    rw [hl] at hs
    rw [work_task, hset]
    exact hm.system ha hs

theorem Books.step {x y : Config State Stage Served} {e : Option (Actor × Event Ops)} (h : Books c pool others log x)
    (hs : (stages c).Step x e y) : Books c pool others (log ++ e.toList) y := by
  cases hs
  case main hm ha    => exact h.main hm ha
  case task hv hm ha => exact h.task hv hm ha
  case outside hs =>
    cases hs
    rw [Option.toList, List.append_nil]
    exact ⟨h.permits, h.opened, fun _ => rfl, h.peers, h.serving, h.system⟩

theorem Staged.books {x : Config State Stage Served} (h : Staged c pool others log x) : Books c pool others log x := by
  induction h
  case refl       => exact .first
  case step hs hi => exact hi.step hs

end Invariant

variable {c} {pool : Pool.State} {others : List (Async Unit)} {log log₁ log₂ : Log Ops}
variable {x : Config State (Option (Iteration Ops Phase)) (Prog Ops Unit)} {y : Config State Stage Served}

theorem Serves.isRunning {p : Prog Ops Unit} {t : Served} (h : Serves p t) (ht : t.peer.isSome) :
    p.isRunning = t.isClient := by
  cases h
  case other     => simp [Served.peer] at ht
  case client p =>
    cases p
    case ret  => rfl
    case call =>
      rw [task_call]
      split <;> rfl
  case gone      => rfl

-- The clients that are being served are those that own a permit.
theorem busy_eq (h : Related (Reaches c) Serves x y) (hb : Books c pool others log y) :
    busy others x = y.tasks.countP Served.isClient := by
  obtain ⟨ps, hp, -⟩ := hb.peers
  have ht := h.tasks
  unfold busy clients
  generalize x.tasks = ts at ht
  generalize y.tasks = vs at ht hp
  clear h hb
  induction others generalizing ts vs
  case nil =>
    rw [List.length_nil, List.drop_zero]
    induction ht generalizing ps
    case nil => rfl
    case cons p t ts vs h _ hi =>
      cases ps
      case nil          => simp at hp
      case cons peer ps =>
        simp only [List.map_nil, List.nil_append, List.map_cons, List.cons.injEq] at hp
        rw [List.countP_cons, List.countP_cons, h.isRunning (hp.left ▸ rfl), hi ps hp.right]
  case cons hi =>
    cases ht
    case nil => simp at hp
    case cons p t ts vs h ht =>
      simp only [List.map_cons, List.cons_append, List.cons.injEq] at hp
      rw [List.length_cons, List.drop_succ_cons, hi ts vs ht hp.right, List.countP_cons_of_neg]
      cases t
      case other => simp [Served.isClient]
      all_goals simp [Served.peer] at hp

-- The loop can get to spawn another task all by itself.
def Admits (x : Config State (Option (Iteration Ops Phase)) (Prog Ops Unit)) : Prop :=
  ∃ log y, (nursery c).Run x log y ∧ (∀ e ∈ log, e.1 = .main) ∧ y.tasks.length = x.tasks.length + 1

theorem Admits.of_step {z : Config State (Option (Iteration Ops Phase)) (Prog Ops Unit)} {e : Event Ops}
    (hs : (nursery c).Step x (some (.main, e)) z) (hl : z.tasks.length = x.tasks.length) (h : Admits (c := c) z) :
    Admits (c := c) x := by
  obtain ⟨log, y, hr, hm, hy⟩ := h
  refine ⟨_, y, (Run.refl.step hs).trans hr, ?_, hl ▸ hy⟩
  simpa using hm

section Admission

variable {s : State} {ts : List (Prog Ops Unit)} {tr : Trace Ops}

theorem admits_spawning {peer : IpAddr} :
    Admits (c := c) ⟨s, some ⟨.serving, tr, .call (S := Ops) (.spawn peer) fun _ => .ret (some .serving)⟩, ts⟩ := by
  refine ⟨_, _, Run.refl.step (.main (e := (⟨Op.spawn peer, ()⟩ : Event Ops)) .event .spawn), by simp, ?_⟩
  simp [nursery, spawned]

theorem admits_accepting (peer : IpAddr) :
    Admits (c := c) ⟨s, some ⟨.serving, tr, .call (S := Ops) .accept afterAccept⟩, ts⟩ :=
  .of_step (.main (e := (⟨Op.accept, .client peer⟩ : Event Ops)) .event .client) (by simp [nursery, spawned])
    admits_spawning

theorem admits_waiting {n : Nat} (peer : IpAddr) (hs : s.permits = n + 1) :
    Admits (c := c) ⟨s, some ⟨.serving, tr, .call (S := Ops) .acquire afterAcquire⟩, ts⟩ :=
  .of_step (.main (e := (⟨Op.acquire, true⟩ : Event Ops)) .event (.acquired hs)) (by simp [nursery, spawned])
    (admits_accepting peer)

theorem Left.admits {p : Prog Ops (Option Phase)} {v : Stage} (h : Left v p) (hv : v ≠ .dropping true)
    (hp : 0 < s.permits + v.held) (peer : IpAddr) : Admits (c := c) ⟨s, some ⟨.serving, tr, p⟩, ts⟩ := by
  cases h
  case waiting   => exact admits_waiting peer (Nat.succ_pred_eq_of_pos hp).symm
  case accepting => exact admits_accepting peer
  case spawning  => exact admits_spawning
  case last      => exact absurd rfl hv
  case dropping  =>
    exact .of_step (.main (e := (⟨Op.release, ()⟩ : Event Ops)) .event .release) (by simp [nursery, spawned])
      (admits_waiting peer rfl)

end Admission

theorem busy_le (h : Run c pool others log x) : busy others x ≤ max c.maxClients 1 := by
  obtain ⟨y, hr, hy⟩ := h.staged
  have hp := hr.books.permits
  rw [busy_eq hy hr.books]
  omega

-- As long as there is a permit left, the loop can take in another client.
theorem admits (h : Run c pool others log x) (hc : x.shared.cancelled = false) (hs : IsServing x)
    (hb : busy others x < max c.maxClients 1) : Admits (c := c) x := by
  obtain ⟨⟨s', v, vs⟩, hr, hy⟩ := h.staged
  have hp : s'.permits + vs.countP Served.isClient + v.held = max c.maxClients 1 := hr.books.permits
  rw [busy_eq hy hr.books] at hb
  obtain ⟨s, i, ts⟩ := x
  obtain ⟨rfl, hm, -⟩ := hy
  obtain ⟨i, rfl, hi⟩ := hs
  cases hm
  case gating => cases hi
  case serving hl =>
    refine hl.admits ?_ (by dsimp only at hb ⊢; omega) (.v4 127 0 0 1)
    rintro rfl
    have := hr.books.stopped (.inr rfl)
    exact absurd this (by simpa using hc)

-- The loop is not left unless the server is shut down.
theorem not_left (h : Run c pool others log x) (hc : x.shared.cancelled = false) : x.main.isSome := by
  obtain ⟨⟨s', v, vs⟩, hr, hy⟩ := h.staged
  obtain ⟨s, i, ts⟩ := x
  obtain ⟨rfl, hm, -⟩ := hy
  cases hm
  case ended => exact absurd (hr.books.stopped (.inl rfl)) (by simpa using hc)
  all_goals rfl

-- A server that has waited for a proxy, and serves its first client, who has sent a byte.
def firstParams : Params where
  config     := .default
  maxClients := 2
  minQueue   := 1
  auth       := none
  fuel       := 1

def firstPool : Pool.State :=
  Pool.State.spawned.push ⟨.new (.v4 10 0 0 1) 1080 ∅, none⟩

def firstPeer : IpAddr :=
  .v4 127 0 0 1

def firstGate : Log Ops := [
  (.main, ⟨.poll, false⟩),
  (.main, ⟨.race (.pool .notified), some ()⟩),
  (.main, ⟨.race (.pool .len), some (1 : Nat)⟩),
  (.main, ⟨.acquire, true⟩)
]

def firstClient : Log Ops := [
  (.main, ⟨.accept, .client firstPeer⟩),
  (.main, ⟨.spawn firstPeer, ()⟩),
  (.task 0, ⟨.task (.net (.clientRead 1)), ReadResult.data [0x05]⟩)
]

theorem firstClient_run : ∃ x, Run firstParams firstPool [] (firstGate ++ firstClient) x ∧ IsServing x ∧
    x.shared.cancelled = false ∧ x.shared.pool = firstPool ∧ x.tasks.length = 1 ∧ busy [] x = 1 := by
  have h : Run firstParams firstPool [] [] (start firstParams firstPool []) := .refl
  have h := h.step (.main (e := (⟨Op.poll, false⟩ : Event Ops)) .event (.poll nofun))
  have h := h.step (.main (e := (⟨Op.race (.pool .notified), some ()⟩ : Event Ops)) .event (.race rfl))
  have h := h.step (.main (e := (⟨Op.race (.pool .len), some (1 : Nat)⟩ : Event Ops)) .event (.race ⟨rfl, rfl⟩))
  have h := h.step (.main (e := (⟨Op.acquire, true⟩ : Event Ops)) .event (.acquired rfl))
  have h := h.step (.main (e := (⟨Op.accept, .client firstPeer⟩ : Event Ops)) .event .client)
  have h := h.step (.main (e := (⟨Op.spawn firstPeer, ()⟩ : Event Ops)) .event .spawn)
  have h := h.step (.task (i := 0) (e := (⟨Op.task (.net (.clientRead 1)), ReadResult.data [0x05]⟩ : Event Ops)) rfl .call
    (.task rfl))
  exact ⟨_, h, ⟨_, rfl, rfl⟩, rfl, rfl, rfl, rfl⟩

-- There are never more than `max_clients` clients being served, and an error of `accept` does not cost a permit.
theorem capacity (h : Run c pool others log x) :
    busy others x ≤ max c.maxClients 1 ∧
    (x.shared.cancelled = false → x.main.isSome ∧
      (IsServing x → busy others x < max c.maxClients 1 → ∃ log' y,
        (nursery c).Run x log' y ∧ (∀ e ∈ log', e.1 = .main) ∧ y.tasks.length = x.tasks.length + 1)) :=
  ⟨busy_le h, fun hc => ⟨not_left h hc, admits h hc⟩⟩

theorem capacity_first : ∃ x log' y, Run firstParams firstPool [] (firstGate ++ firstClient) x ∧ x.tasks.length = 1 ∧
    (nursery firstParams).Run x log' y ∧ (∀ e ∈ log', e.1 = .main) ∧ y.tasks.length = 2 := by
  obtain ⟨x, h, hs, hc, -, ht, hb⟩ := firstClient_run
  obtain ⟨log', y, hr, hm, hy⟩ := ((capacity h).right hc).right hs (by rw [hb]; decide)
  exact ⟨x, log', y, h, ht, hr, hm, by rw [hy, ht]⟩

theorem ready_of_opens {s s' : State} {e : Event Ops} (h : Opens c e) (ha : Answers c s e s') :
    c.minQueue ≤ s.pool.state.length ∨ s.pool.exhausted := by
  cases ha
  case race o r p ha =>
    cases o
    case pool o =>
      cases o
      case len           => exact .inl (ha.left ▸ h)
      case loadExhausted => exact .inr (ha.left ▸ h)
      all_goals exact (h : False).elim
    all_goals exact (h : False).elim
  all_goals simp [Opens] at h

-- No connection is accepted before the run has passed through a state in which the pool was filled, or there was
-- nothing left to fill it with.
theorem gated {r : Accepted} (h : Run c pool others (log₁ ++ (.main, ⟨.accept, r⟩) :: log₂) x) :
    ∃ log₀ log z, log₁ = log₀ ++ log ∧ Run c pool others log₀ z ∧
      (nursery c).Run z (log ++ (.main, ⟨.accept, r⟩) :: log₂) x ∧
      (c.minQueue ≤ z.shared.pool.state.length ∨ z.shared.pool.exhausted) := by
  obtain ⟨y, z, hy, hs, -⟩ := h.before
  obtain ⟨y', hr, ha⟩ := Run.staged hy
  have ho : y'.main.IsOpen := by
    cases hs
    case main hm _ =>
      obtain ⟨_, hm, _⟩ := ha.main.moves hm
      generalize y'.main = v at hm
      cases hm <;> trivial
  rcases hr.books.opened ho with hn | ⟨⟨o, r⟩, he, hq⟩
  · exact ⟨[], _, _, rfl, .refl, h, .inl (hn ▸ Nat.zero_le _)⟩
  · obtain ⟨l₀, l₁, rfl⟩ := List.append_of_mem he
    rw [List.append_assoc] at h
    obtain ⟨z₀, z₁, hz, hs, hc⟩ := h.before
    have hc := (Run.refl.step hs).trans hc
    refine ⟨l₀, _, z₀, rfl, hz, hc, ?_⟩
    cases hs
    case main ha => exact ready_of_opens hq ha

theorem gated_first : ∃ x log₀ log z, firstGate = log₀ ++ log ∧ Run firstParams firstPool [] log₀ z ∧
    (nursery firstParams).Run z (log ++ firstClient) x ∧
    (1 ≤ z.shared.pool.state.length ∨ z.shared.pool.exhausted) :=
  have ⟨x, h, _⟩ := firstClient_run
  ⟨x, gated h⟩

theorem Serves.isOver {p : Prog Ops Unit} {t : Served} (h : Serves p t) (ht : t.peer.isSome) (hp : p.isRunning = false) :
    t.thread.code.isOver = true := by
  rw [h.isRunning ht] at hp
  cases h
  case other  => simp [Served.peer] at ht
  case client => cases hp
  case gone h => exact h

-- The clients and the other tasks work on the pool as the tasks of a system do. Every connection that was accepted is
-- served by exactly one of them, which keeps its permit until it is done. Only the last one may not have a task yet.
theorem refines (h : Run c pool others log x) :
    ∃ (y : System Effects Pool.State) (ps last : List IpAddr),
      System.Runs (Pool.machine c.config) (AnyService c.config) ⟨pool, others.map (⟨[], ·⟩)⟩ (log.filterMap work) y ∧
      y.shared = x.shared.pool ∧ arrivals log = ps ++ last ∧ last.length ≤ 1 ∧
      y.threads.length = others.length + ps.length ∧ x.tasks.length = others.length + ps.length ∧
      ∀ i p, ps[i]? = some p → ∃ t q, y.threads[others.length + i]? = some t ∧ x.tasks[others.length + i]? = some q ∧
        (Server.handleClient (ctx c) p).Runs t.trace t.code ∧ (q.isRunning = false → t.code.isOver = true) := by
  obtain ⟨⟨s, v, vs⟩, hr, hy⟩ := h.staged
  obtain ⟨ps, hps, hl⟩ := hr.books.peers
  have hlen : vs.length = others.length + ps.length := by simpa using congrArg List.length hps
  refine ⟨_, ps, v.pending, hr.books.system, congrArg State.pool hy.shared, hl, ?_, by simpa using hlen,
    hy.tasks.length_eq.trans hlen, ?_⟩
  · cases v <;> simp [Stage.pending]
  · intro i p hi
    have hv : (vs.map Served.peer)[others.length + i]? = some (some p) := by
      rw [hps, List.getElem?_append_right (by simp)]
      simp [hi]
    rw [List.getElem?_map, Option.map_eq_some_iff] at hv
    obtain ⟨t, ht, htp⟩ := hv
    obtain ⟨q, hq, hs⟩ := forall₂_getElem? (T := fun t q => Serves q t) hy.tasks.flip ht
    refine ⟨t.thread, q, by simp [ht], hq, ?_, hs.isOver (htp ▸ rfl)⟩
    exact hr.books.serving t (List.mem_of_getElem? ht) p htp

theorem refines_first : ∃ (y : System Effects Pool.State) (t : Thread Effects),
    System.Runs (Pool.machine .default) (AnyService .default) ⟨firstPool, []⟩
      [⟨.net (.clientRead 1), ReadResult.data [0x05]⟩] y ∧
    y.threads = [t] ∧ (Server.handleClient (ctx firstParams) firstPeer).Runs t.trace t.code := by
  obtain ⟨x, h, -, -, -, ht, -⟩ := firstClient_run
  obtain ⟨y, ps, last, hr, -, ha, -, hy, hx, hp⟩ := refines h
  have hl : ps.length = 1 := by simpa [ht] using hx.symm
  obtain ⟨p, rfl⟩ := List.length_eq_one_iff.mp hl
  obtain ⟨t, ht⟩ := List.length_eq_one_iff.mp (hy.trans hl)
  cases (List.cons_eq_cons.mp (ha : firstPeer :: [] = p :: last)).left
  obtain ⟨t', q, hi, -, hc, -⟩ := hp 0 firstPeer rfl
  rw [ht] at hi
  cases hi
  exact ⟨y, t, hr, ht, hc⟩

end AcceptLoop
