import ProxyBroker.Objects.Proxy
import Mathlib.Data.List.Sort
import Mathlib.Data.Rat.Floor

namespace percentile

variable (n : Nat) (q : ℚ)

def rank : ℚ :=
  q * (n - 1 : Nat)

-- The casts from `f64` to `usize` saturate.
def lo : Nat :=
  ⌊rank n q⌋₊

def hi : Nat :=
  ⌈rank n q⌉₊

-- The result before it is rounded. An index that is out of range is a panic.
def unrounded (data : List ℚ) : Option ℚ :=
  if data = [] then some 0
  else
    let sorted := data.insertionSort (· ≤ ·)
    let frac := rank sorted.length q - lo sorted.length q
    do
      let a ← sorted[lo sorted.length q]?
      let b ← sorted[hi sorted.length q]?
      return a + frac * (b - a)

end percentile

def percentile (data : List ℚ) (q : ℚ) : Option ℚ :=
  (percentile.unrounded q data).map round2

