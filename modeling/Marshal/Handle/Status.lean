import Marshal.Error

/-!
# Status codes

What a call through a handle returns: a code that stays the same across
versions, and a text for each. Errors that no such call can meet are unknown.
-/

namespace Marshal

inductive Status
  | ok | overflow | underflow | invalidPosition | interiorNul | invalidUtf8 | invalidParameter
  | resourceExhausted | elementFailed | nullPointer | unknown
deriving DecidableEq

namespace Status

def ofError : Error → Status
  | .overflow .. => overflow
  | .underflow .. => underflow
  | .invalidPosition .. => invalidPosition
  | .interiorNul => interiorNul
  | .invalidUtf8 => invalidUtf8
  | .invalidParameter => invalidParameter
  | .resourceExhausted => resourceExhausted
  | .duplicateMessage _ | .unknownMessage _ => unknown

def code : Status → Nat
  | ok => 0
  | overflow => 1
  | underflow => 2
  | invalidPosition => 3
  | interiorNul => 4
  | invalidUtf8 => 5
  | invalidParameter => 6
  | resourceExhausted => 7
  | elementFailed => 8
  | nullPointer => 9
  | unknown => 255

def all : List Status :=
  [ok, overflow, underflow, invalidPosition, interiorNul, invalidUtf8, invalidParameter,
    resourceExhausted, elementFailed, nullPointer, unknown]

def ofCode? (code : Nat) : Option Status := all.find? (·.code = code)

def name : Status → String
  | ok => "Ok"
  | overflow => "Overflow"
  | underflow => "Underflow"
  | invalidPosition => "InvalidPosition"
  | interiorNul => "InteriorNul"
  | invalidUtf8 => "InvalidUtf8"
  | invalidParameter => "InvalidParameter"
  | resourceExhausted => "ResourceExhausted"
  | elementFailed => "ElementFailed"
  | nullPointer => "NullPointer"
  | unknown => "Unknown"

def text : Status → String
  | ok => "Success"
  | overflow => "Stream overflow"
  | underflow => "Stream underflow"
  | invalidPosition => "Invalid cursor position"
  | interiorNul => "String contains a NUL byte"
  | invalidUtf8 => "String is not valid UTF-8"
  | invalidParameter => "Invalid parameter"
  | resourceExhausted => "Resource exhausted"
  | elementFailed => "Element coder failed"
  | nullPointer => "Null pointer"
  | unknown => "Unknown error"

theorem ofCode?_code (s : Status) : ofCode? s.code = some s := by cases s <;> rfl

end Status

end Marshal
