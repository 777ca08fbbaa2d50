import ProxyBroker.Keyed.Counts
import ProxyBroker.Objects.Percentile

structure Stats where
  total       : Nat
  working     : Nat
  byProtocol  : Counts Proto Nat
  byAnonymity : Counts AnonLevel Nat
  byCountry   : Counts Str Nat
  errors      : Counts Str UInt32
  avgRespTime : ℚ
  p50RespTime : ℚ
  p90RespTime : ℚ
  p95RespTime : ℚ

structure StatsCollector where
  total       : Nat
  working     : Nat
  byProtocol  : Counts Proto Nat
  byAnonymity : Counts AnonLevel Nat
  byCountry   : Counts Str Nat
  errors      : Counts Str UInt32
  respTimes   : List ℚ

namespace StatsCollector

def initial : StatsCollector where
  total       := 0
  working     := 0
  byProtocol  := fun _ => none
  byAnonymity := fun _ => none
  byCountry   := fun _ => none
  errors      := fun _ => none
  respTimes   := []

def countryOf (p : Proxy) : Str :=
  (p.geo.map Country.code).getD "--".toList

def record (s : StatsCollector) (p : Proxy) : StatsCollector where
  total       := s.total + 1
  working     := if p.isWorking then s.working + 1 else s.working
  byProtocol  := p.typeList.foldl (fun m t => m.add t.1 1) s.byProtocol
  byAnonymity := p.typeList.foldl (fun m t => if t.1 = .http then t.2.elim m (m.add · 1) else m) s.byAnonymity
  byCountry   := s.byCountry.add (countryOf p) 1
  errors      := p.errors.foldl (fun m e => m.add e.1.asStr e.2) s.errors
  respTimes   := if 0 < p.avgRespTime then s.respTimes ++ [p.avgRespTime] else s.respTimes

-- Only an index that is out of range could keep it from returning.
def finish (s : StatsCollector) : Option Stats := do
  let p50 ← percentile s.respTimes (50 / 100)
  let p90 ← percentile s.respTimes (90 / 100)
  let p95 ← percentile s.respTimes (95 / 100)
  return {
    total       := s.total
    working     := s.working
    byProtocol  := s.byProtocol
    byAnonymity := s.byAnonymity
    byCountry   := s.byCountry
    errors      := s.errors
    avgRespTime := if s.respTimes = [] then 0 else round2 (s.respTimes.sum / s.respTimes.length)
    p50RespTime := p50
    p90RespTime := p90
    p95RespTime := p95
  }

-- The collector after the given proxies have been recorded.
def recordAll (ps : List Proxy) : StatsCollector :=
  ps.foldl record initial

@[simp]
theorem recordAll_nil : recordAll [] = initial :=
  rfl

@[simp]
theorem recordAll_snoc (ps : List Proxy) (p : Proxy) : recordAll (ps ++ [p]) = (recordAll ps).record p := by
  simp [recordAll]

theorem recordAll_total (ps : List Proxy) : (recordAll ps).total = ps.length := by
  induction ps using List.reverseRecOn
  case nil            => rfl
  case append_singleton ps p hi => simp [record, hi]

theorem recordAll_working (ps : List Proxy) : (recordAll ps).working = ps.countP Proxy.isWorking := by
  induction ps using List.reverseRecOn
  case nil            => rfl
  case append_singleton ps p hi => cases h : p.isWorking <;> simp [record, hi, h]

end StatsCollector

-- `Stats::from_proxies`.
def Stats.fromProxies (ps : List Proxy) : Option Stats :=
  (StatsCollector.recordAll ps).finish
