/-!
# Strings as bytes

A string travels as its bytes and one NUL, so none of its bytes may be NUL.
`utf8` and `ofUtf8?` relate texts to their bytes, `CString` holds bytes that
can stand before a terminator, and `BoundedText` a text of limited size.
-/

namespace Marshal

def utf8 (text : String) : List UInt8 := text.toByteArray.data.toList

def ofUtf8? (bytes : List UInt8) : Option String := String.fromUTF8? ⟨bytes.toArray⟩

@[simp] theorem length_utf8 (text : String) : (utf8 text).length = text.utf8ByteSize := rfl

theorem ofUtf8?_eq_some_iff {bytes : List UInt8} {text : String} :
    ofUtf8? bytes = some text ↔ utf8 text = bytes := by
  unfold ofUtf8? String.fromUTF8?
  constructor
  · intro h
    split at h
    · cases h; rfl
    · exact absurd h (by simp)
  · rintro rfl
    have h : (⟨(utf8 text).toArray⟩ : ByteArray) = text.toByteArray := rfl
    rw [h, dif_pos text.isValidUTF8]
    rfl

/-- The bytes of a string, without its terminator. -/
structure CString where
  bytes : List UInt8
  nul_free : 0 ∉ bytes
deriving DecidableEq

namespace CString

/-- The string that starts `bytes` and ends before their first NUL, or with them. -/
def upToNul (bytes : List UInt8) : CString where
  bytes := bytes.takeWhile (· != 0)
  nul_free h := by
    have := List.all_eq_true.mp (List.all_takeWhile (p := (· != 0)) (l := bytes)) 0 h
    exact absurd this (by decide)

def ofBytes? (bytes : List UInt8) : Option CString :=
  if h : 0 ∉ bytes then some ⟨bytes, h⟩ else none

def image (s : CString) : List UInt8 := s.bytes ++ [0]

def width (s : CString) : Nat := s.bytes.length + 1

end CString

structure BoundedText (limit : Nat) where
  text : String
  size_le : text.utf8ByteSize ≤ limit
deriving DecidableEq

end Marshal
