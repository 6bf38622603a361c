import Marshal.Reader

/-!
# Buffers

A buffer has a fixed number of bytes, a cursor and a count of used bytes.
Encoding writes at the cursor and never past the capacity; `sealed` turns what
was written into the message; decoding reads the message from the cursor on
and never past the used bytes. No call clears the storage, so bytes beyond the
cursor and the used count are left over from earlier use.
-/

namespace Marshal

structure Buffer (capacity : Nat) where
  storage : Vector UInt8 capacity
  cursor : Nat
  used : Nat
deriving DecidableEq

structure Checkpoint where
  position : Nat
deriving DecidableEq

def overwrite {α : Type} {N : Nat} (storage : Vector α N) (start : Nat) : List α → Vector α N
  | [] => storage
  | x :: xs => overwrite (storage.setIfInBounds start x) (start + 1) xs

namespace Buffer

variable {N : Nat} {ε α : Type}

def empty (N : Nat) : Buffer N := ⟨Vector.replicate N 0, 0, 0⟩

def remaining (b : Buffer N) : Nat := N - b.cursor

def unread (b : Buffer N) : Nat := b.used - b.cursor

def written (b : Buffer N) : List UInt8 := b.storage.toList.take b.cursor

def message (b : Buffer N) : List UInt8 := b.storage.toList.take b.used

/-! ## Cursor and used count -/

def reset (b : Buffer N) : Buffer N := { b with cursor := 0, used := 0 }

def sealed (b : Buffer N) : Buffer N := { b with cursor := 0, used := b.cursor }

def load (bytes : List UInt8) : Action Error (Buffer N) Unit := fun b =>
  if N < bytes.length then
    ⟨.error (.overflow bytes.length N), b, [.loadRejected bytes.length N]⟩
  else
    ⟨.ok (), ⟨overwrite b.storage 0 bytes, 0, bytes.length⟩, []⟩

/-- Lets `fill` write into the storage. The length it reports is cut to the capacity; if it fails,
what it wrote stays. -/
def receive (fill : Vector UInt8 N → Except ε Nat × Vector UInt8 N) : Action ε (Buffer N) Nat :=
  fun ⟨storage, cursor, used⟩ =>
    match fill storage with
    | (.ok reported, storage) => ⟨.ok (min reported N), ⟨storage, 0, min reported N⟩, []⟩
    | (.error e, storage) => ⟨.error e, ⟨storage, cursor, used⟩, []⟩

def seek (position : Nat) : Action Error (Buffer N) Unit := fun b =>
  if N < position then
    ⟨.error (.invalidPosition position N), b, []⟩
  else
    ⟨.ok (), { b with cursor := position }, []⟩

def checkpoint (b : Buffer N) : Checkpoint := ⟨b.cursor⟩

/-- Any checkpoint will do, also one of another buffer. -/
def restore (saved : Checkpoint) : Action Error (Buffer N) Unit := seek saved.position

def rewind (saved : Checkpoint) (b : Buffer N) : Buffer N := { b with cursor := min saved.position N }

/-! ## Encoding -/

/-- Writes at the cursor and moves it on, room or not. -/
def append (bytes : List UInt8) (b : Buffer N) : Buffer N :=
  { b with storage := overwrite b.storage b.cursor bytes, cursor := b.cursor + bytes.length }

def encodeBytes (bytes : List UInt8) : Action Error (Buffer N) Unit := fun b =>
  if b.remaining < bytes.length then
    ⟨.error (.overflow bytes.length b.remaining), b,
      [.bytesOverflow b.cursor bytes.length b.remaining]⟩
  else
    ⟨.ok (), b.append bytes, []⟩

def encodeScalar (t : ScalarType) (x : t.Carrier) : Action Error (Buffer N) Unit :=
  encodeBytes (t.toBytes x)

def encodeCString (s : CString) : Action Error (Buffer N) Unit := encodeBytes s.image

def encodeText (text : String) : Action Error (Buffer N) Unit := fun b =>
  let bytes := utf8 text
  let needed := bytes.length + 1
  if 0 ∈ bytes then
    ⟨.error .interiorNul, b, []⟩
  else if b.remaining < needed then
    ⟨.error (.overflow needed b.remaining), b, [.textOverflow b.cursor needed b.remaining]⟩
  else
    ⟨.ok (), (b.append bytes).append [0], []⟩

def encodeMessageId (id : MessageId) : Action Error (Buffer N) Unit := encodeScalar .u32 id.value

/-- Runs an encoder and takes the cursor back if it fails. -/
def atomically (encode : Action ε (Buffer N) α) : Action ε (Buffer N) α := fun b =>
  let start := b.checkpoint
  match encode b with
  | ⟨.ok x, b, log⟩ => ⟨.ok x, b, log⟩
  | ⟨.error e, b, log⟩ => ⟨.error e, b.rewind start, log⟩

/-! ## Taking back -/

/-- Takes back the last `length` bytes before the cursor, wherever the message ends. -/
def popBytes (length : Nat) : Action Error (Buffer N) (List UInt8) := fun b =>
  if b.cursor < length then
    ⟨.error (.underflow length b.cursor), b, []⟩
  else
    ⟨.ok (b.written.drop (b.cursor - length)), { b with cursor := b.cursor - length }, []⟩

def popScalar (t : ScalarType) : Action Error (Buffer N) t.Carrier := do
  let bytes ← popBytes t.width
  return t.ofBytes bytes

/-! ## Decoding -/

/-- Reads the message from the cursor on, or nothing if the cursor is past it. -/
def reader (b : Buffer N) : Reader := ⟨b.message, min b.cursor b.used⟩

/-- The cursor follows the reader if the decode succeeds and takes bytes, and else stays. -/
def read (decode : Action Error Reader α) : Action Error (Buffer N) α := fun b =>
  let start := b.reader
  match decode start with
  | ⟨.ok x, r, log⟩ =>
    ⟨.ok x, if start.position < r.position then { b with cursor := r.position } else b, log⟩
  | ⟨.error e, _, log⟩ => ⟨.error e, b, log⟩

def decodeBytes (length : Nat) : Action Error (Buffer N) (List UInt8) := read (Reader.decodeBytes length)

def decodeScalar (t : ScalarType) : Action Error (Buffer N) t.Carrier := read (Reader.decodeScalar t)

def decodeCString : Action Error (Buffer N) CString := read Reader.decodeCString

def decodeText : Action Error (Buffer N) String := read Reader.decodeText

def describe (pretty : Bool) (b : Buffer N) : String :=
  let fields := [s!"capacity: {N}", s!"cursor: {b.cursor}", s!"used: {b.used}"]
  if pretty then
    let lines := String.join (fields.map fun field => s!"    {field},\n")
    s!"Stream \x7b\n{lines}\x7d"
  else
    let line := ", ".intercalate fields
    s!"Stream \x7b {line} \x7d"

end Buffer

end Marshal
