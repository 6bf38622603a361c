import Marshal.Handle

/-!
# Sessions of handles

A session has a number of handles, all NULL at first. The element coders of
its arrays are scripts over the caller's memory: they may fail at a given call,
rewind or seal the buffer first, and encode or decode fields of the element.
-/

namespace Marshal.Session

/-! ## Scripted element coders -/

structure Field where
  type : ScalarType
  offset : Nat
  decodes : Bool

inductive Opening
  | nothing | reset | sealed
deriving DecidableEq

structure FieldScript where
  failAt : Option Nat
  opening : Opening
  fields : List Field

/-- The memory of the caller, and how often the coder ran on it. -/
structure Scratch where
  region : List UInt8
  calls : Nat

namespace FieldScript

def check {α : Type} (call : Handle → Reply α) : Action Unit (Handle × Scratch) α := fun (h, m) =>
  let reply := call h
  ⟨if reply.status = .ok then .ok reply.out else .error (), (reply.handle, m), reply.log⟩

def codeField (start : Nat) (field : Field) : Action Unit (Handle × Scratch) Unit := do
  let position := start + field.offset
  let region ← .view (·.2.region)
  let there : Pointer (List UInt8) := .to (region.drop position)
  if field.decodes then
    match ← check (Handle.decode field.type there) with
    | .to bytes => Action.update fun (h, m) => (h, { m with region := region.take position ++ bytes })
    | .null => pure ()
  else
    check (Handle.encode field.type there)

def codeFields (start : Nat) : List Field → Action Unit (Handle × Scratch) Unit
  | [] => pure ()
  | field :: fields => do
    codeField start field
    codeFields start fields

def runOpening : Opening → Action Unit (Handle × Scratch) Unit
  | .nothing => pure ()
  | .reset => check Handle.reset
  | .sealed => check Handle.sealed

def callback (script : FieldScript) : Handle.ElementCallback Scratch := fun start => do
  let calls ← .view (·.2.calls)
  Action.update fun (h, m) => (h, { m with calls := calls + 1 })
  if script.failAt = some calls then
    Action.fail ()
  else
    runOpening script.opening
    codeFields start script.fields

end FieldScript

/-- The elements are string addresses, of eight bytes each. -/
def encodeStrings (strings : List (Pointer CString)) : Handle.ElementCallback Scratch := fun start => do
  let there := strings[start / 8]?.getD .null
  FieldScript.check (Handle.encodeCString (.to there))

/-! ## Calls -/

inductive HandleCall
  | create
  | destroy
  | reset
  | sealed
  | load (bytes : Pointer (List UInt8)) (length : Nat)
  | data
  | encodeBytes (bytes : Pointer (List UInt8)) (length : Nat)
  | decodeBytes (out : Pointer (List UInt8)) (length : Nat)
  | encodeCString (s : Pointer (Pointer CString))
  | decodeCString (view : Pointer (Option StringView)) (consumed : Pointer (Option Nat))
  | encode (t : ScalarType) (value : Pointer (List UInt8))
  | decode (t : ScalarType) (out : Pointer (List UInt8))
  | codeEach (elements : Pointer (List UInt8)) (count size : Nat) (coder : Pointer FieldScript)
      (failed : Pointer (Option Nat))
  | codeStrings (strings : List (Pointer CString))

inductive HandleAnswer
  | created
  | destroyed
  | data (bytes : Option (List UInt8))
  | status (s : Status)

inductive HandleExtra
  | none
  | out (out : Pointer (List UInt8))
  | string (view : Pointer (Option StringView)) (consumed : Pointer (Option Nat))
  | array (failed : Pointer (Option Nat)) (memory : Scratch)
  | strings (failed : Pointer (Option Nat))

structure HandleStep where
  answer : HandleAnswer
  extra : HandleExtra
  handle : Handle
  log : List Record

namespace HandleStep

def ofReply {α : Type} (extra : α → HandleExtra) (reply : Reply α) : HandleStep :=
  ⟨.status reply.status, extra reply.out, reply.handle, reply.log⟩

end HandleStep

/-- The region that an element coder may touch: the elements and sixteen zero bytes after them. -/
def Scratch.ofElements : Pointer (List UInt8) → Scratch
  | .null => ⟨[], 0⟩
  | .to region => ⟨region ++ List.replicate 16 0, 0⟩

def HandleCall.step (c : HandleCall) (h : Handle) : HandleStep :=
  match c with
  | create => ⟨.created, .none, Handle.create, []⟩
  | destroy => ⟨.destroyed, .none, h.destroy, []⟩
  | reset => .ofReply (fun _ => .none) h.reset
  | sealed => .ofReply (fun _ => .none) h.sealed
  | load bytes length => .ofReply (fun _ => .none) (h.load bytes length)
  | data => ⟨.data h.data, .none, h, []⟩
  | encodeBytes bytes length => .ofReply (fun _ => .none) (h.encodeBytes bytes length)
  | decodeBytes out length => .ofReply .out (h.decodeBytes out length)
  | encodeCString s => .ofReply (fun _ => .none) (h.encodeCString s)
  | decodeCString view consumed => .ofReply (fun (v, n) => .string v n) (h.decodeCString view consumed)
  | encode t value => .ofReply (fun _ => .none) (h.encode t value)
  | decode t out => .ofReply .out (h.decode t out)
  | codeEach elements count size coder failed =>
    let there : Pointer Unit := match elements with
      | .null => .null
      | .to _ => .to ()
    let code : Pointer (Handle.ElementCallback Scratch) := match coder with
      | .null => .null
      | .to script => .to script.callback
    .ofReply (fun (memory, failed) => .array failed memory)
      (h.codeEach there count size code (.ofElements elements) failed)
  | codeStrings strings =>
    .ofReply (fun (_, failed) => .strings failed)
      (h.codeEach (.to ()) strings.length 8 (.to (encodeStrings strings)) ⟨[], 0⟩ (.to none))

structure HandleReport where
  answer : HandleAnswer
  extra : HandleExtra
  capacity : Nat
  cursor : Nat
  used : Nat
  log : List Record

def stepHandle (handles : List Handle) (index : Nat) (c : HandleCall) : HandleReport × List Handle :=
  let s := c.step (handles[index]?.getD none)
  (⟨s.answer, s.extra, s.handle.capacity, s.handle.cursor, s.handle.used, s.log⟩,
    handles.set index s.handle)

def runHandles (handles : List Handle) : List (Nat × HandleCall) → List HandleReport × List Handle
  | [] => ([], handles)
  | (index, c) :: rest =>
    let (report, handles) := stepHandle handles index c
    let (reports, handles) := runHandles handles rest
    (report :: reports, handles)

end Marshal.Session
