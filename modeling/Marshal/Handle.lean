import Marshal.Buffer
import Marshal.Handle.Status

/-!
# Buffers behind handles

The same buffers for callers that pass memory by address: a handle or a
pointer may be NULL, values arrive as their bytes, and every call returns a
status. A call gets the memory it may write to and returns it as it leaves it.
-/

namespace Marshal

/-- An address: NULL, or that of a variable with this content. -/
inductive Pointer (α : Type)
  | null
  | to (content : α)
deriving DecidableEq

def Pointer.write {α : Type} (content : α) : Pointer α → Pointer α
  | .null => .null
  | .to _ => .to content

abbrev handleCapacity : Nat := 256

/-- The buffer of a live handle, or nothing for NULL. -/
abbrev Handle : Type := Option (Buffer handleCapacity)

structure Reply (α : Type) where
  status : Status
  handle : Handle
  out : α
  log : List Record

/-- A decoded string where it stands in the storage. -/
structure StringView where
  offset : Nat
  text : CString
deriving DecidableEq

namespace Handle

variable {α β μ : Type}

def create : Handle := some (.empty handleCapacity)

def destroy (_ : Handle) : Handle := none

def capacity (h : Handle) : Nat := if h.isSome then handleCapacity else 0

def cursor (h : Handle) : Nat := (h.map Buffer.cursor).getD 0

def used (h : Handle) : Nat := (h.map Buffer.used).getD 0

def data (h : Handle) : Option (List UInt8) := h.map Buffer.written

/-- Memory changes only if the action succeeds. -/
def run (action : Action Error (Buffer handleCapacity) β) (out : α) (write : β → α) (b : Buffer handleCapacity) : Reply α :=
  match action b with
  | ⟨.ok x, b, log⟩ => ⟨.ok, some b, write x, log⟩
  | ⟨.error e, b, log⟩ => ⟨.ofError e, some b, out, log⟩

def execute (action : Action Error (Buffer handleCapacity) Unit) (b : Buffer handleCapacity) : Reply Unit := run action () id b

def refuse (status : Status) (out : α) (b : Buffer handleCapacity) : Reply α := ⟨status, some b, out, []⟩

def onLive (out : α) (call : Buffer handleCapacity → Reply α) : Handle → Reply α
  | none => ⟨.nullPointer, none, out, []⟩
  | some b => call b

def reset : Handle → Reply Unit := onLive () (execute (.update Buffer.reset))

def sealed : Handle → Reply Unit := onLive () (execute (.update Buffer.sealed))

/-! ## Raw bytes and strings

A length of zero makes the pointer irrelevant. -/

def load (bytes : Pointer (List UInt8)) (length : Nat) : Handle → Reply Unit :=
  onLive () <|
    match bytes, length with
    | _, 0 => execute (Buffer.load [])
    | .null, _ => refuse .nullPointer ()
    | .to bytes, length => execute (Buffer.load (bytes.take length))

def encodeBytes (bytes : Pointer (List UInt8)) (length : Nat) : Handle → Reply Unit :=
  onLive () <|
    match bytes, length with
    | _, 0 => refuse .ok ()
    | .null, _ => refuse .nullPointer ()
    | .to bytes, length => execute (Buffer.encodeBytes (bytes.take length))

def decodeBytes (out : Pointer (List UInt8)) (length : Nat) : Handle → Reply (Pointer (List UInt8)) :=
  onLive out <|
    match out, length with
    | _, 0 => refuse .ok out
    | .null, _ => refuse .nullPointer out
    | .to old, length => run (Buffer.decodeBytes length) out fun bytes => .to (bytes ++ old.drop length)

/-- Takes the address of the string's address. -/
def encodeCString (s : Pointer (Pointer CString)) : Handle → Reply Unit :=
  onLive () <|
    match s with
    | .to (.to s) => execute (Buffer.encodeCString s)
    | _ => refuse .nullPointer ()

/-- Only the second address may be NULL. -/
def decodeCString (view : Pointer (Option StringView)) (consumed : Pointer (Option Nat)) :
    Handle → Reply (Pointer (Option StringView) × Pointer (Option Nat)) :=
  onLive (view, consumed) fun b =>
    match view with
    | .null => refuse .nullPointer (view, consumed) b
    | .to _ =>
      run Buffer.decodeCString (view, consumed)
        (fun s => (view.write (some ⟨b.reader.position, s⟩), consumed.write (some s.width))) b

/-! ## Scalars -/

def encode (t : ScalarType) (value : Pointer (List UInt8)) : Handle → Reply Unit :=
  onLive () <|
    match value with
    | .null => refuse .nullPointer ()
    | .to bytes => execute (Buffer.encodeScalar t (t.ofBytes (bytes.take t.width)))

def decode (t : ScalarType) (out : Pointer (List UInt8)) : Handle → Reply (Pointer (List UInt8)) :=
  onLive out <|
    match out with
    | .null => refuse .nullPointer out
    | .to old => run (Buffer.decodeScalar t) out fun x => .to (t.toBytes x ++ old.drop t.width)

/-! ## Arrays -/

/-- Codes the element at an offset; failing is the only way to report. -/
abbrev ElementCallback (μ : Type) : Type := Nat → Action Unit (Handle × μ) Unit

/-- The elements are part of `memory`, which the coder may change; of `elements` it matters only
whether it is NULL. -/
def codeEach (elements : Pointer Unit) (count size : Nat) (coder : Pointer (ElementCallback μ))
    (memory : μ) (failed : Pointer (Option Nat)) : Handle → Reply (μ × Pointer (Option Nat)) :=
  onLive (memory, failed) fun b =>
    match coder with
    | .null => refuse .nullPointer (memory, failed) b
    | .to code =>
      if count = 0 then
        refuse .ok (memory, failed) b
      else if elements = .null then
        refuse .nullPointer (memory, failed) b
      else if size = 0 ∨ UInt64.size ≤ count * size then
        refuse .invalidParameter (memory, failed) b
      else
        match codeRange (fun index => code (index * size)) 0 count (some b, memory) with
        | ⟨.ok _, (h, memory), log⟩ => ⟨.ok, h, (memory, failed), log⟩
        | ⟨.error failure, (h, memory), log⟩ =>
          ⟨.elementFailed, h, (memory, failed.write (some failure.index)), log⟩

end Handle

end Marshal
