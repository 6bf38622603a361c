import Marshal.MessageId

/-!
# Errors

Every way in which a call on a buffer, a reader or a route table can be
refused, with its name, its message and its field-by-field description.
-/

namespace Marshal

inductive Error
  | overflow (requested available : Nat)
  /-- More bytes to read than are left, or no terminator among those. -/
  | underflow (requested available : Nat)
  | invalidPosition (position limit : Nat)
  | interiorNul
  | invalidUtf8
  /-- A region that is not `count` elements of one size, or a text above its bound. -/
  | invalidParameter
  | resourceExhausted
  | duplicateMessage (id : MessageId)
  | unknownMessage (id : MessageId)
deriving DecidableEq

namespace Error

def name : Error → String
  | overflow .. => "Overflow"
  | underflow .. => "Underflow"
  | invalidPosition .. => "InvalidPosition"
  | interiorNul => "InteriorNul"
  | invalidUtf8 => "InvalidUtf8"
  | invalidParameter => "InvalidParameter"
  | resourceExhausted => "ResourceExhausted"
  | duplicateMessage _ => "DuplicateMessage"
  | unknownMessage _ => "UnknownMessage"

def message : Error → String
  | overflow requested available =>
    s!"stream overflow: {requested} bytes requested, {available} available"
  | underflow requested available =>
    s!"stream underflow: {requested} bytes requested, {available} available"
  | invalidPosition position limit => s!"invalid cursor position {position} (limit {limit})"
  | interiorNul => "string contains an interior NUL byte"
  | invalidUtf8 => "invalid UTF-8"
  | invalidParameter => "invalid parameter"
  | resourceExhausted => "resource exhausted"
  | duplicateMessage id => s!"handler already registered for message {id.text}"
  | unknownMessage id => s!"no handler for message {id.text}"

def describe (e : Error) : String :=
  match e with
  | overflow requested available | underflow requested available =>
    s!"{e.name} \x7b requested: {requested}, available: {available} \x7d"
  | invalidPosition position limit => s!"{e.name} \x7b position: {position}, limit: {limit} \x7d"
  | duplicateMessage id | unknownMessage id => s!"{e.name} \x7b id: {id.value.toNat} \x7d"
  | _ => e.name

end Error

structure ElementFailure (ε : Type) where
  index : Nat
  source : ε
deriving DecidableEq

namespace ElementFailure

def message {ε : Type} (text : ε → String) (failure : ElementFailure ε) : String :=
  s!"element {failure.index} failed: {text failure.source}"

def describe (failure : ElementFailure Error) : String :=
  s!"ElementFailure \x7b index: {failure.index}, source: {failure.source.describe} \x7d"

end ElementFailure

end Marshal
