import Marshal.Elements

/-!
# Raw regions

A region is untyped memory that is to be taken as `count` elements of `size`
bytes each. It can be cut that way only if the product is its length and the
size is not zero.
-/

namespace Marshal.Region

variable {σ : Type}

def chunks (size : Nat) : Nat → List UInt8 → List (List UInt8)
  | 0, _ => []
  | count + 1, region => region.take size :: chunks size count (region.drop size)

def elements (region : List UInt8) (count size : Nat) : Action Error σ (List (List UInt8)) := do
  if size = 0 ∨ count * size ≠ region.length then
    Action.note (.misfit region.length count size)
    Action.fail .invalidParameter
  else
    return chunks size count region

def mapElements (f : Nat → List UInt8 → List UInt8) (region : List UInt8) (count size : Nat) :
    Action Error σ (List UInt8) := do
  let pieces ← elements region count size
  return (pieces.mapIdx f).flatten

end Marshal.Region
