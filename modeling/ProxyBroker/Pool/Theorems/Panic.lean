import ProxyBroker.Pool.Theorems.Services

open Prog

namespace Op

variable {o : Op}

end Op

-- A proxy is to be benched until a point in time that cannot be represented.
def Event.overflows : Event Effects → Bool
  | ⟨.env (.bench d), now⟩ => (Instant.checkedAdd now d).isNone
  | _                      => false

-- Every task that works on a pool panics exactly after a point in time has overflowed.
namespace Panic

variable {α β : Type} {p : Async α} {b : Bool} {o : Op}

def monitor : Monitor Effects Bool where
  demand b o := o.isPanic = b
  next b e   := b || e.overflows

theorem after_eq (b : Bool) (tr : Trace Effects) : monitor.after b tr = (b || tr.any Event.overflows) := by
  induction tr generalizing b
  case nil          => exact (Bool.or_false b).symm
  case cons e tr hi => exact (hi _).trans (Bool.or_assoc ..)

def Justified (p : Async α) : Prop :=
  p.Sat monitor (fun _ b => b = false) false

theorem Justified.bind {f : α → Async β} (h : Justified p) (hf : ∀ a, Justified (f a)) : Justified (p >>= f) :=
  (sat_bind ..).mpr <| h.mono fun a _ hb => by
    subst hb
    exact hf a

variable {σ : Type} {m : Machine Effects σ} {service : Async Unit → Prop} {x : System Effects σ} {s₀ : σ}
variable {tr : Trace Effects}

end Panic

namespace Pool

open Panic

variable {c : Config} {p : Proxy} {scheme : Scheme} {key : ClientKey}

end Pool

namespace Connector

open Panic

variable {c : Pool.Config}

end Connector

namespace Server

open Panic

variable {j : Job} {p : Proxy}

end Server
