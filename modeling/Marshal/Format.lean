import Marshal.Scalar
import Marshal.MessageId

/-!
# Formats

A format says how a value is laid out; nothing on the wire repeats it. Arrays
have a fixed length, and records are pairs that end in the empty record.
`Format.Value f` is the type of the values of format `f`, so a value always
fits its format.
-/

namespace Marshal

inductive Leaf
  | scalar (t : ScalarType)
  | text
  | cstring
  | messageId
  | boundedText (limit : Nat)
deriving DecidableEq

inductive Format
  | leaf (l : Leaf)
  | array (element : Format) (count : Nat)
  | nothing
  | pair (first second : Format)
deriving DecidableEq

namespace Leaf

@[reducible] def Value : Leaf → Type
  | scalar t => t.Carrier
  | text => String
  | cstring => CString
  | messageId => MessageId
  | boundedText limit => BoundedText limit

def blank : (l : Leaf) → l.Value
  | scalar t => t.ofBits 0
  | text => ""
  | cstring => .upToNul []
  | messageId => ⟨0⟩
  | boundedText _ => ⟨"", Nat.zero_le _⟩

instance instDecidableEqValue : (l : Leaf) → DecidableEq l.Value
  | scalar t => inferInstanceAs (DecidableEq t.Carrier)
  | text => inferInstanceAs (DecidableEq String)
  | cstring => inferInstanceAs (DecidableEq CString)
  | messageId => inferInstanceAs (DecidableEq MessageId)
  | boundedText limit => inferInstanceAs (DecidableEq (BoundedText limit))

end Leaf

namespace Format

abbrev scalar (t : ScalarType) : Format := leaf (.scalar t)

def record : List Format → Format
  | [] => nothing
  | f :: fs => pair f (record fs)

@[reducible] def Value : Format → Type
  | leaf l => l.Value
  | array f n => Vector (Value f) n
  | nothing => Unit
  | pair f g => Value f × Value g

def blank : (f : Format) → f.Value
  | leaf l => l.blank
  | array f n => Vector.replicate n f.blank
  | nothing => ()
  | pair f g => (f.blank, g.blank)

def decEqValue : (f : Format) → DecidableEq f.Value
  | leaf l => inferInstanceAs (DecidableEq l.Value)
  | array f n =>
    have := decEqValue f
    inferInstanceAs (DecidableEq (Vector f.Value n))
  | nothing => inferInstanceAs (DecidableEq Unit)
  | pair f g =>
    have := decEqValue f
    have := decEqValue g
    inferInstanceAs (DecidableEq (f.Value × g.Value))

instance (f : Format) : DecidableEq f.Value := decEqValue f

end Format

structure Item where
  format : Format
  value : format.Value

end Marshal
