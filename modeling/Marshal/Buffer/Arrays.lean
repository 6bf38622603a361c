import Marshal.Format.Wire
import Marshal.Region

/-!
# Arrays on buffers

Typed elements and raw pieces of a region, each coded by `codeEach`, so that
a failure tells the index of the element. Decoding fills slots; those after a
failure keep what they held.
-/

namespace Marshal

variable {N n : Nat}

namespace Buffer

def encodeArray (f : Format) (xs : List f.Value) : Action (ElementFailure Error) (Buffer N) Nat :=
  codeEach f.encode xs

def decodeSlots (f : Format) : Action (ElementFailure Error) (Filling (Buffer N) f.Value n) Nat :=
  fillSlots (decode f)

def encodePieces (pieces : List (List UInt8)) : Action (ElementFailure Error) (Buffer N) Nat :=
  codeEach encodeBytes pieces

def decodePieces (size : Nat) : Action (ElementFailure Error) (Filling (Buffer N) (List UInt8) n) Nat :=
  fillSlots (decodeBytes size)

end Buffer

def Reader.decodeSlots (f : Format) : Action (ElementFailure Error) (Filling Reader f.Value n) Nat :=
  fillSlots f.decode

end Marshal
