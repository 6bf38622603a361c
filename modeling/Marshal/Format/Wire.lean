import Marshal.Buffer
import Marshal.Format

/-!
# Formats on the wire

A value is encoded leaf by leaf, arrays in order and records field by field,
with nothing in between, and decoded in the same order. On a buffer a decode
is all or nothing; on a reader, as in encoding, what came before a failing
leaf stays done.
-/

namespace Marshal

variable {N : Nat}

def Leaf.encode : (l : Leaf) → l.Value → Action Error (Buffer N) Unit
  | scalar t, x => Buffer.encodeScalar t x
  | text, x => Buffer.encodeText x
  | cstring, x => Buffer.encodeCString x
  | messageId, x => Buffer.encodeMessageId x
  | boundedText _, x => Buffer.encodeText x.text

def Leaf.decode : (l : Leaf) → Action Error Reader l.Value
  | scalar t => Reader.decodeScalar t
  | text => Reader.decodeText
  | cstring => Reader.decodeCString
  | messageId => Reader.decodeMessageId
  | boundedText limit => Reader.decodeBoundedText limit

namespace Format

def encode : (f : Format) → f.Value → Action Error (Buffer N) Unit
  | leaf l, x => l.encode x
  | array f _, xs => do
    let _ ← (codeEach f.encode xs.toList).mapError ElementFailure.source
  | nothing, _ => pure ()
  | pair f g, (x, y) => do
    f.encode x
    g.encode y

def decode : (f : Format) → Action Error Reader f.Value
  | leaf l => l.decode
  | array f n => decodeArray f.decode f.blank n
  | nothing => pure ()
  | pair f g => do
    let x ← f.decode
    let y ← g.decode
    return (x, y)

def encodeList (f : Format) (xs : List f.Value) : Action Error (Buffer N) Unit :=
  (array f xs.length).encode ⟨xs.toArray, rfl⟩

end Format

namespace Buffer

def encode (x : Item) : Action Error (Buffer N) Unit := x.format.encode x.value

def encodeWhole (x : Item) : Action Error (Buffer N) Unit := atomically (encode x)

def decode (f : Format) : Action Error (Buffer N) f.Value := read f.decode

end Buffer

end Marshal
