import ProxyBroker.Resumption.Ongoing
import ProxyBroker.Pool.Theorems.Pins
import ProxyBroker.Server.Theorems.Commit
import ProxyBroker.Server.Theorems.Control
import ProxyBroker.Server.Theorems.Records

open Prog Utf8 Trace Pool

namespace Trace

variable {k v : Str} {tr : Trace Effects}

-- Nothing has been recorded for the key since.
theorem lastRecord_eq (h : lastRecord k tr = some v) : ∃ pre r suf,
    tr = pre ++ ⟨.history (.record k v), r⟩ :: suf ∧ ∀ e ∈ suf, ∀ v', e.op ≠ .history (.record k v') := by
  induction tr using List.reverseRecOn
  case nil => cases h
  case append_singleton tr e hi =>
    by_cases he : ∃ v, e.op = .history (.record k v)
    case pos =>
      obtain ⟨o, r⟩ := e
      obtain ⟨v', rfl : o = _⟩ := he
      rw [lastRecord_record, if_pos rfl] at h
      cases h
      exact ⟨tr, r, [], rfl, by simp⟩
    case neg =>
      push Not at he
      have hl : lastRecord k (tr ++ [e]) = lastRecord k tr := by
        by_cases hk : ∃ k' v, e.op = .history (.record k' v)
        · obtain ⟨o, r⟩ := e
          obtain ⟨k', v', rfl : o = _⟩ := hk
          have hn : k' ≠ k := fun hn => he v' (hn ▸ rfl)
          rw [lastRecord_record, if_neg hn]
        · push Not at hk
          exact lastRecord_of_not_record hk
      obtain ⟨pre, r, suf, rfl, hs⟩ := hi (hl ▸ h)
      refine ⟨pre, r, suf ++ [e], by simp, fun e' he' v' => ?_⟩
      rcases List.mem_append.mp he' with he' | he'
      · exact hs e' he' v'
      · cases List.mem_singleton.mp he'
        exact he v'

end Trace

namespace Server

variable {c : Config} {auth : Option AuthExpect} {fuel : Nat} {peer : IpAddr} {u v : Str} {raw : Bytes}
variable {req : ClientRequest} {s₀ : Shared} {ls : List (Attended.Label Effects)}
variable {x : Attended Effects Shared (Ongoing Effects Unit)}

-- The runs of a server, from the point of view of one of its clients.
abbrev Hosting (c : Config) (s₀ : Shared) (auth : Option AuthExpect) (fuel : Nat) (peer : IpAddr) :
    List (Attended.Label Effects) → Attended Effects Shared (Ongoing Effects Unit) → Prop :=
  Attended.Run (Shared.machine c) (AnyService c) Ongoing.Moves (fun _ _ => True)
    ⟨⟨s₀, []⟩, .start (handleClient ⟨c, auth, fuel⟩ peer)⟩

-- One of the connections of a client has relayed a request for exactly `u` by way of the proxy at `v`.
def WasServed (c : Config) (trs : List (Trace Effects)) (peer : IpAddr) (u v : Str) : Prop :=
  ∃ auth fuel q pre r suf proxy, pre ++ ⟨.history (.record (historyKey peer u) v), r⟩ :: suf ∈ trs ∧
    (handleClient ⟨c, auth, fuel⟩ peer).Runs (pre ++ ⟨.history (.record (historyKey peer u) v), r⟩ :: suf) q ∧
    v = proxy.key.display ∧ Relays c auth pre u proxy

-- All that a client is sent if it asks for the history of `u`.
inductive Told (c : Config) (auth : Option AuthExpect) (peer : IpAddr) (req : ClientRequest) (u : Str)
    (ls : List (Attended.Label Effects)) (trs : List (Trace Effects)) (said : Bytes) : Prop
  | refused : isAuthorized auth req = false → said <+: authRequired → Told c auth peer req u ls trs said
  | miss    : said <+: noContent → Told c auth peer req u ls trs said
  | hit {v : Str} {pre suf : List (Attended.Label Effects)} :
    ls = pre ++ .own ⟨.history (.get (historyKey peer u)), some v⟩ :: suf →
    (Attended.events pre).lastRecord (historyKey peer u) = some v → WasServed c trs peer u v →
    said <+: historyReply v → Told c auth peer req u ls trs said

-- What was recorded by whomever.
theorem Hosting.served (h : Hosting c s₀ auth fuel peer ls x) {peer' : IpAddr} {r : Unit}
    (he : ⟨.history (.record (historyKey peer' u) v), r⟩ ∈ Attended.events ls) :
    WasServed c (Ongoing.traces x) peer' u v := by
  have of_runs {p q : Async Unit} {tr : Trace Effects} (hp : AnyService c p) (hr : p.Runs tr q)
      (ht : tr ∈ Ongoing.traces x) (he : ⟨.history (.record (historyKey peer' u) v), r⟩ ∈ tr) :
      WasServed c (Ongoing.traces x) peer' u v := by
    obtain ⟨pre, suf, rfl⟩ := List.append_of_mem he
    obtain ⟨auth', fuel', peer'', url, proxy, rfl, hk, hv, hl⟩ := AnyService.records hp hr
    obtain ⟨rfl, rfl⟩ := historyKey_injective.mp hk
    exact ⟨auth', fuel', q, pre, r, suf, proxy, ht, hr, hv, hl⟩
  obtain ⟨tr, ht, he⟩ := Ongoing.performed h _ he
  rcases List.mem_cons.mp ht with rfl | hm
  · exact of_runs (.service (.handleClient ..)) (Ongoing.runs h) ht he
  · obtain ⟨t, hm', rfl⟩ := List.mem_map.mp hm
    obtain ⟨p, hp, hr⟩ := Ongoing.serving h (by simp [System.Serving]) t hm'
    exact of_runs hp hr ht he

theorem Hosting.told (hs : s₀.Starts c) (h : Hosting c s₀ auth fuel peer ls x) (hb : IsBuffered raw)
    (hp : parseHttp raw = some req) (ha : AsksFor u req) (ht : fromClient x.actor.done <+: raw) :
    Told c auth peer req u ls (Ongoing.traces x) (toClient x.actor.done) := by
  rcases handleClient_replies hb hp ha ht (Ongoing.runs h) with ⟨hn, hw⟩ | hw | ⟨he, hw⟩
  case refused => exact .refused hn hw
  case miss    => exact .miss hw
  case hit v =>
    obtain ⟨pre, suf, rfl⟩ := Ongoing.own_mem h he
    have hv : (Attended.events pre).lastRecord (historyKey peer u) = some v := by
      have hk := h.takes
      rw [Attended.events, List.filterMap_append] at hk
      exact ((get_faithful hs hk).resolve_left (Option.some_ne_none v)).symm
    obtain ⟨tr, r, tr', hl, -⟩ := lastRecord_eq hv
    have hm : ⟨.history (.record (historyKey peer u) v), r⟩ ∈ Attended.events
        (pre ++ .own ⟨.history (.get (historyKey peer u)), some v⟩ :: suf) := by
      rw [Attended.events, List.filterMap_append, ← Attended.events, hl]
      simp
    exact .hit rfl hv (h.served hm) hw

-- The maps of a server stay within their bounds, a client that was just served is pinned, and what a client is
-- told of the history is what it has been relayed by last.
theorem history_faithful (hs : s₀.Starts c) (h : Hosting c s₀ auth fuel peer ls x) :
    x.system.shared.Keeps c (Attended.events ls) ∧
    (∀ fuel scheme key tr p, c.strategy = .sticky → (get c fuel scheme key).Runs tr (.ret (some p)) →
      tr.lastSession = some (key, p.key)) ∧
    (∀ raw req u, IsBuffered raw → parseHttp raw = some req → AsksFor u req → fromClient x.actor.done <+: raw →
      Told c auth peer req u ls (Ongoing.traces x) (toClient x.actor.done)) ∧
    ∀ method u t y, (∀ ch ∈ method ++ u, Str.isWhitespace ch = false) → method ≠ [] →
      Str.eqIgnoreAsciiCase method "CONNECT".toList = false →
      ∃ req, parseHttp (encode (method ++ ' ' :: (controlUrl u ++ ' ' :: t)) ++ y) = some req ∧ AsksFor u req := by
  have hk : x.system.shared.Keeps c (Attended.events ls) := keeps hs h.takes
  refine ⟨hk, fun _ _ _ _ _ hs hr => get_pins hs hr, ?_, ?_⟩
  · exact fun _ _ _ hb hp ha ht => h.told hs hb hp ha ht
  · intro method u t y hw hn hc
    exact parseHttp_control (fun ch hm => hw ch (List.mem_append_left _ hm)) hn hc
      (fun ch hm => hw ch (List.mem_append_right _ hm)) t y

theorem Shared.answers_net {s : Shared} {e : Event Effects} (h : ∃ o, e.op = .net o) : Shared.answers c s e s := by
  obtain ⟨o, r⟩ := e
  obtain ⟨n, rfl : o = _⟩ := h
  exact ⟨rfl, rfl⟩

namespace HistoryExample

open SocksExample

-- After a request was relayed to `10.0.0.2:80`, the same client asks who has served it.
def asking : Bytes :=
  encode "GET http://proxycontrol/api/history/url:10.0.0.2:80 HTTP/1.1\r\n\r\n".toList

def question : ClientRequest where
  scheme    := .http
  frontend  := .httpForward
  host      := controlHost
  port      := 80
  raw       := asking
  proxyAuth := none
  path      := "http://proxycontrol/api/history/url:10.0.0.2:80".toList

theorem asking_isBuffered : IsBuffered asking where
  http     := by decide
  complete := by decide
  first    := by decide

theorem parseHttp_asking : parseHttp asking = some question := by decide

theorem asksFor_question : AsksFor "10.0.0.2:80".toList question where
  frontend := rfl
  path     := rfl

def initial : Shared where
  pool    := .fromProxies .default [proxy]
  history := .new

def leased : State :=
  { State.fromProxies .default [proxy] with state := [] }

-- The history after the request.
def recorded : History :=
  History.new.record (historyKey SocksExample.peer "10.0.0.2:80".toList) proxy.key.display

def final : Shared where
  pool    := leased.push ⟨proxy.recordAttempt (some 0) none, none⟩
  history := recorded

theorem relaying : (Shared.machine .default).Exec initial (handleClient ctx SocksExample.peer)
    (greeting ++ (exchange ++ settling)) final (.ret ()) := by
  have ha : (Shared.machine .default).Exec initial (accept ctx SocksExample.peer) greeting initial (.ret (some job)) :=
    .of_runs accept_runs fun e he => Shared.answers_net (by revert e; simp [greeting])
  have h₁ : Shared.answers .default ⟨leased, .new⟩ ⟨.history (.record (historyKey SocksExample.peer "10.0.0.2:80".toList)
    proxy.key.display), ()⟩ ⟨leased, recorded⟩ := ⟨rfl, rfl⟩
  have h₂ : Shared.answers .default ⟨leased, recorded⟩ ⟨.pool (.push .holder ⟨proxy.recordAttempt (some 0) none, none⟩), ()⟩
    final := ⟨rfl, rfl⟩
  have h₃ : Shared.answers .default final ⟨.pool .notifyWaiters, ()⟩ final := ⟨rfl, rfl⟩
  have hl : Shared.answers .default initial ⟨.pool (.select ⟨.https, .best, none, 0, 0, false⟩), some proxy⟩ ⟨leased, .new⟩ :=
    ⟨rfl, rfl⟩
  exact ha.bind_ret <| .call ⟨rfl, rfl⟩ <| .call ⟨⟨rfl, rfl⟩, rfl⟩ <| .call ⟨rfl, rfl⟩ <| .call hl <|
    .call ⟨rfl, rfl⟩ <| .call ⟨rfl, rfl⟩ <| .call ⟨rfl, rfl⟩ <| .call ⟨rfl, rfl⟩ <|
    .call h₁ <| .call h₂ <| .call h₃ .refl

def reply (v : Str) : Trace Effects := [
  ⟨.history (.get (historyKey SocksExample.peer "10.0.0.2:80".toList)), some v⟩,
  ⟨.net (.clientWrite (historyReply v)), .done⟩
]

theorem asking_exec (auth : Option AuthExpect) (s : Shared) :
    (Shared.machine .default).Exec s (parseClientRequest auth) (reads asking) s (.ret (some question)) := by
  refine .of_runs (parseHttp_asking ▸ parseClientRequest_runs auth asking_isBuffered) fun e he => Shared.answers_net ?_
  obtain ⟨b, -, rfl⟩ := List.mem_map.mp he
  exact ⟨_, rfl⟩

theorem toClient_asking (tr : Trace Effects) : toClient (reads asking ++ tr) = toClient tr := by
  rw [toClient_append, toClient_reads, List.nil_append]
  intro e he
  obtain ⟨b, -, rfl⟩ := List.mem_map.mp he
  trivial

theorem answering : (Shared.machine .default).Exec final (handleClient ctx SocksExample.peer)
    (reads asking ++ reply proxy.key.display) final (.ret ()) := by
  have hc : (Shared.machine .default).Exec final (serveControl question SocksExample.peer true)
      (reply proxy.key.display) final (.ret ()) := by
    rw [serveControl_history asksFor_question.path]
    exact .call ⟨rfl, History.get_record.symm, rfl⟩ <| .call ⟨rfl, rfl⟩ .refl
  have ha : (Shared.machine .default).Exec final (accept ctx SocksExample.peer)
      (reads asking ++ (reply proxy.key.display ++ [])) final (.ret none) := by
    refine (asking_exec none final).bind_ret ?_
    have hg : isAuthorized ctx.expectedAuth question = true := rfl
    dsimp only
    rw [hg, if_neg (by simp), if_pos (show question.host = controlHost from rfl)]
    exact hc.bind_ret .refl
  rw [List.append_nil] at ha
  rw [← List.append_nil (reads asking ++ _)]
  exact ha.bind_ret .refl

def secured : Option AuthExpect :=
  some (.ofAuth "user:pass".toList)

theorem refusing : (Shared.machine .default).Exec initial (handleClient ⟨.default, secured, 1⟩ SocksExample.peer)
    (reads asking ++ [⟨.net (.clientWrite authRequired), .done⟩]) initial (.ret ()) := by
  have ha : (Shared.machine .default).Exec initial (accept ⟨.default, secured, 1⟩ SocksExample.peer)
      (reads asking ++ [⟨.net (.clientWrite authRequired), .done⟩]) initial (.ret none) := by
    refine (asking_exec secured initial).bind_ret ?_
    have hg : isAuthorized secured question = false := rfl
    dsimp only
    rw [hg, if_pos (by simp)]
    exact .call ⟨rfl, rfl⟩ .refl
  rw [← List.append_nil (reads asking ++ _)]
  exact ha.bind_ret .refl

end HistoryExample

open SocksExample HistoryExample in
theorem history_faithful_hit : ∃ ls x, Hosting .default initial none 1 SocksExample.peer ls x ∧
    toClient x.actor.done = historyReply proxy.key.display ∧ x.system.shared.Keeps .default (Attended.events ls) ∧
    Told .default none SocksExample.peer question "10.0.0.2:80".toList ls (Ongoing.traces x) (toClient x.actor.done) := by
  have hs : System.Runs (Shared.machine .default) (AnyService .default) ⟨initial, []⟩ _ _ :=
    .spawn (.spawn (.service (.handleClient none 1 SocksExample.peer))) (.of_exec relaying)
  have h₀ : Hosting .default initial none 1 SocksExample.peer [] ⟨⟨initial, []⟩, _⟩ := .refl
  obtain ⟨ls, h₁, -⟩ := h₀.others hs
  have h := Ongoing.exec h₁ answering fun _ _ _ _ _ _ => trivial
  have hf := history_faithful (.fromProxies [proxy]) h
  refine ⟨_, _, h, ?_, hf.left, hf.right.right.left asking question _ asking_isBuffered parseHttp_asking asksFor_question ?_⟩
  · exact (toClient_asking _).trans (List.append_nil _)
  · have hr : fromClient (reads asking ++ reply proxy.key.display) = asking := by decide
    exact hr ▸ List.prefix_rfl

open SocksExample HistoryExample in
-- A client without credentials is told neither.
theorem history_refused : ∃ ls x, Hosting .default initial secured 1 SocksExample.peer ls x ∧
    x.actor.rest = .ret () ∧ IsBuffered asking ∧ parseHttp asking = some question ∧
    AsksFor "10.0.0.2:80".toList question ∧ fromClient x.actor.done = asking ∧
    ¬toClient x.actor.done <+: noContent ∧ ∀ v, ¬toClient x.actor.done <+: historyReply v := by
  have h₀ : Hosting .default initial secured 1 SocksExample.peer [] ⟨⟨initial, []⟩, _⟩ := .refl
  have h := Ongoing.exec h₀ refusing fun _ _ _ _ _ _ => trivial
  have hd : toClient (reads asking ++ [⟨.net (.clientWrite authRequired), .done⟩]) = authRequired :=
    (toClient_asking _).trans (List.append_nil _)
  refine ⟨_, _, h, rfl, asking_isBuffered, parseHttp_asking, asksFor_question, by decide, ?_⟩
  show ¬toClient (reads asking ++ [⟨.net (.clientWrite authRequired), .done⟩]) <+: noContent ∧
    ∀ v, ¬toClient (reads asking ++ [⟨.net (.clientWrite authRequired), .done⟩]) <+: historyReply v
  rw [hd]
  refine ⟨by decide, ?_⟩
  rintro v ⟨t, ht⟩
  have hv : (historyReply v)[9]? = some 0x32 := rfl
  have ha : (authRequired ++ t)[9]? = some 0x34 := rfl
  rw [← ht, ha] at hv
  exact absurd hv (by decide)

end Server
