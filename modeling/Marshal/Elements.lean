import Marshal.Action
import Marshal.Error

/-!
# Arrays, element by element

`codeEach` hands the elements of an array to a coder, one after another, and
stops at the first that fails. One loop serves both directions: an encoding
coder takes the values, a decoding one fills slots. The loop undoes nothing,
so what was coded before a failure stays coded.
-/

namespace Marshal

variable {ε σ α β : Type} {n : Nat}

def codeElement (index : Nat) (coder : Action ε σ Unit) : Action (ElementFailure ε) σ Unit := fun s =>
  match coder s with
  | ⟨.ok (), s, log⟩ => ⟨.ok (), s, log⟩
  | ⟨.error e, s, log⟩ => ⟨.error ⟨index, e⟩, s, log ++ [.elementFailed index]⟩

/-- Codes the elements from number `index` on, and returns the index after the last. -/
def codeFrom (coder : α → Action ε σ Unit) : Nat → List α → Action (ElementFailure ε) σ Nat
  | index, [] => pure index
  | index, x :: xs => do
    codeElement index (coder x)
    codeFrom coder (index + 1) xs

def codeEach (coder : α → Action ε σ Unit) (elements : List α) : Action (ElementFailure ε) σ Nat :=
  codeFrom coder 0 elements

def codeRange (coder : Nat → Action ε σ Unit) : Nat → Nat → Action (ElementFailure ε) σ Nat
  | index, 0 => pure index
  | index, count + 1 => do
    codeElement index (coder index)
    codeRange coder (index + 1) count

theorem codeRange_eq_codeFrom (coder : Nat → Action ε σ Unit) (index count : Nat) :
    codeRange coder index count = codeFrom coder index (List.range' index count) := by
  induction count generalizing index with
  | zero => rfl
  | succ count ih => simp only [codeRange, List.range'_succ, codeFrom, ih]

/-! ## Slots -/

/-- An array beside the source that it is filled from. -/
structure Filling (σ β : Type) (n : Nat) where
  source : σ
  slots : Vector β n

def fillSlot (decode : Action ε σ β) (i : Fin n) : Action ε (Filling σ β n) Unit := fun ⟨source, slots⟩ =>
  match decode source with
  | ⟨.ok x, source, log⟩ => ⟨.ok (), ⟨source, slots.set i x⟩, log⟩
  | ⟨.error e, source, log⟩ => ⟨.error e, ⟨source, slots⟩, log⟩

def fillSlots (decode : Action ε σ β) : Action (ElementFailure ε) (Filling σ β n) Nat :=
  codeEach (fillSlot decode) (List.finRange n)

/-- Decodes `n` elements. A failure keeps the element's own error and drops its index. -/
def decodeArray (decode : Action ε σ β) (blank : β) (n : Nat) : Action ε σ (Vector β n) := fun s =>
  match fillSlots decode ⟨s, Vector.replicate n blank⟩ with
  | ⟨.ok _, ⟨s, slots⟩, log⟩ => ⟨.ok slots, s, log⟩
  | ⟨.error failure, ⟨s, _⟩, log⟩ => ⟨.error failure.source, s, log⟩

end Marshal
