import Marshal.Text

/-!
# Message identifiers

A call is named by 32 bits, which both ends derive from the call's name by the
FNV-1a hash. They are written `0x` and eight hexadecimal digits.
-/

namespace Marshal

structure MessageId where
  value : UInt32
deriving DecidableEq

namespace MessageId

/-- One round of FNV-1a. -/
def mix (hash : UInt32) (byte : UInt8) : UInt32 := (hash ^^^ byte.toUInt32) * 0x01000193

def ofBytes (name : List UInt8) : MessageId := ⟨name.foldl mix 0x811c9dc5⟩

def ofName (name : String) : MessageId := ofBytes (utf8 name)

instance : Ord MessageId := ⟨fun a b => compare a.value b.value⟩

def text (id : MessageId) : String :=
  let digits := Nat.toDigits 16 id.value.toNat
  "0x" ++ String.ofList (List.replicate (8 - digits.length) '0' ++ digits)

def describe (id : MessageId) : String := s!"MessageId({id.value.toNat})"

end MessageId

end Marshal
