import Marshal.Scalar
import Marshal.Elements

/-!
# Readers

A reader is a position in a list of bytes. Every decode moves it past what was
decoded. One that finds too few bytes, or no terminator, leaves it where it
stood; a text that is no UTF-8 or above its bound puts it back to its start.
-/

namespace Marshal

structure Reader where
  bytes : List UInt8
  position : Nat
deriving DecidableEq

namespace Reader

variable {α : Type}

def ofBytes (bytes : List UInt8) : Reader := ⟨bytes, 0⟩

def unread (r : Reader) : Nat := r.bytes.length - r.position

def isEmpty (r : Reader) : Bool := r.bytes.length ≤ r.position

def rest (r : Reader) : List UInt8 := r.bytes.drop r.position

def moveTo (position : Nat) (r : Reader) : Reader := { r with position }

def seek (position : Nat) : Action Error Reader Unit := do
  let limit ← .view (·.bytes.length)
  if limit < position then
    Action.fail (.invalidPosition position limit)
  else
    Action.update (moveTo position)

def underflow (requested : Nat) : Action Error Reader α := fun r =>
  ⟨.error (.underflow requested r.unread), r, [.underflow r.position requested r.unread]⟩

def decodeBytes (length : Nat) : Action Error Reader (List UInt8) := do
  let r ← .view id
  if r.unread < length then
    underflow length
  else
    Action.update (moveTo (r.position + length))
    return r.rest.take length

def decodeScalar (t : ScalarType) : Action Error Reader t.Carrier := do
  let bytes ← decodeBytes t.width
  return t.ofBytes bytes

def decodeCString : Action Error Reader CString := do
  let r ← .view id
  let s := CString.upToNul r.rest
  if s.bytes.length = r.rest.length then
    underflow (r.rest.length + 1)
  else
    Action.update (moveTo (r.position + s.width))
    return s

def decodeText : Action Error Reader String := do
  let start ← .view (·.position)
  let s ← decodeCString
  match ofUtf8? s.bytes with
  | some text => return text
  | none =>
    Action.update (moveTo start)
    Action.fail .invalidUtf8

def decodeBoundedText (limit : Nat) : Action Error Reader (BoundedText limit) := do
  let start ← .view (·.position)
  let text ← decodeText
  if h : text.utf8ByteSize ≤ limit then
    return ⟨text, h⟩
  else
    Action.note (.textAboveBound text.utf8ByteSize limit)
    Action.update (moveTo start)
    Action.fail .invalidParameter

def decodeMessageId : Action Error Reader MessageId := do
  let value ← decodeScalar .u32
  return ⟨value⟩

def describe (r : Reader) : String :=
  let bytes := ", ".intercalate (r.bytes.map fun b => toString b.toNat)
  s!"Reader \x7b buf: [{bytes}], pos: {r.position} \x7d"

end Reader

end Marshal
