import Mathlib
import Marshal.Reader

/-!
# What a reader's decodes return

One equation for each way a decode can end. Fixed widths ask for that many
bytes, strings for a NUL among the bytes left, and every failure leaves the
reader where it stood.
-/

namespace Marshal

open Marshal.Action

/-! ## Strings and their terminator -/

namespace CString

theorem length_image (s : CString) : s.image.length = s.width := by
  rw [image, width, List.length_append, List.length_singleton]

theorem takeWhile_append_of_nul_free {bytes : List UInt8} (h : 0 ∉ bytes) (rest : List UInt8) :
    (bytes ++ rest).takeWhile (· != 0) = bytes ++ rest.takeWhile (· != 0) := by
  apply List.takeWhile_append_of_pos
  intro b hb
  have : b ≠ 0 := fun h0 => h (h0 ▸ hb)
  simpa using this

theorem image_append (s : CString) (rest : List UInt8) : s.image ++ rest = s.bytes ++ 0 :: rest := by
  rw [image, List.append_assoc, List.singleton_append]

theorem upToNul_image_append (s : CString) (rest : List UInt8) : upToNul (s.image ++ rest) = s := by
  rw [image_append]
  unfold upToNul
  congr 1
  rw [takeWhile_append_of_nul_free s.nul_free]
  simp

theorem exists_of_mem {bytes : List UInt8} (h : 0 ∈ bytes) :
    ∃ (s : CString) (rest : List UInt8), bytes = s.image ++ rest := by
  obtain ⟨before, rest, rfl, hb⟩ := List.eq_append_cons_of_mem h
  exact ⟨⟨before, hb⟩, rest, (image_append ⟨before, hb⟩ rest).symm⟩

theorem bytes_upToNul {bytes : List UInt8} (h : 0 ∉ bytes) : (upToNul bytes).bytes = bytes := by
  have := takeWhile_append_of_nul_free h []
  rwa [List.append_nil, List.takeWhile_nil, List.append_nil] at this

end CString

namespace Reader

def Valid (r : Reader) : Prop := r.position ≤ r.bytes.length

@[simp] theorem length_rest (r : Reader) : r.rest.length = r.unread := by rw [rest, unread, List.length_drop]

theorem rest_moveTo_add (r : Reader) {taken rest : List UInt8} (h : r.rest = taken ++ rest) :
    (r.moveTo (r.position + taken.length)).rest = rest := by
  have : (r.moveTo (r.position + taken.length)).rest = r.rest.drop taken.length := by
    rw [Reader.rest, Reader.rest, List.drop_drop]
    rfl
  rw [this, h, List.drop_left]

/-! ## Bytes and scalars -/

theorem decodeBytes_apply (length : Nat) (r : Reader) :
    decodeBytes length r =
      if r.unread < length then underflow length r
      else ⟨.ok (r.rest.take length), r.moveTo (r.position + length), []⟩ := by
  show (if r.unread < length then underflow length
    else (do Action.update (moveTo (r.position + length)); return r.rest.take length)) r = _
  split <;> rfl

theorem decodeBytes_of_append {r : Reader} {taken rest : List UInt8} (h : r.rest = taken ++ rest) :
    decodeBytes taken.length r = ⟨.ok taken, r.moveTo (r.position + taken.length), []⟩ := by
  have hu : ¬ r.unread < taken.length := by
    rw [← length_rest, h, List.length_append]
    omega
  rw [decodeBytes_apply, if_neg hu, h, List.take_left]

theorem decodeBytes_of_le {r : Reader} {length : Nat} (h : length ≤ r.unread) :
    decodeBytes length r = ⟨.ok (r.rest.take length), r.moveTo (r.position + length), []⟩ := by
  rw [decodeBytes_apply, if_neg (Nat.not_lt.mpr h)]

theorem decodeBytes_of_lt {r : Reader} {length : Nat} (h : r.unread < length) :
    decodeBytes length r = underflow length r := by
  rw [decodeBytes_apply, if_pos h]

theorem decodeScalar_of_append (t : ScalarType) {r : Reader} {taken rest : List UInt8}
    (h : r.rest = taken ++ rest) (hw : taken.length = t.width) :
    decodeScalar t r = ⟨.ok (t.ofBytes taken), r.moveTo (r.position + t.width), []⟩ := by
  rw [decodeScalar, bind_apply, ← hw, decodeBytes_of_append h]
  rfl

theorem decodeScalar_of_lt (t : ScalarType) {r : Reader} (h : r.unread < t.width) :
    decodeScalar t r = underflow t.width r := by
  rw [decodeScalar, bind_apply, decodeBytes_of_lt h]
  rfl

theorem decodeMessageId_of_append {r : Reader} {taken rest : List UInt8} (h : r.rest = taken ++ rest)
    (hw : taken.length = 4) :
    decodeMessageId r = ⟨.ok ⟨ScalarType.ofBytes .u32 taken⟩, r.moveTo (r.position + 4), []⟩ := by
  rw [decodeMessageId, bind_apply, decodeScalar_of_append .u32 h hw]
  rfl

theorem decodeMessageId_of_lt {r : Reader} (h : r.unread < 4) : decodeMessageId r = underflow 4 r := by
  rw [decodeMessageId, bind_apply, decodeScalar_of_lt .u32 h]
  rfl

/-! ## Strings -/

theorem decodeCString_apply (r : Reader) :
    decodeCString r =
      if (CString.upToNul r.rest).bytes.length = r.rest.length then underflow (r.rest.length + 1) r
      else ⟨.ok (CString.upToNul r.rest), r.moveTo (r.position + (CString.upToNul r.rest).width), []⟩ := by
  show (if (CString.upToNul r.rest).bytes.length = r.rest.length then underflow (r.rest.length + 1)
    else (do Action.update (moveTo (r.position + (CString.upToNul r.rest).width))
             return CString.upToNul r.rest)) r = _
  split <;> rfl

theorem decodeCString_of_append (s : CString) {r : Reader} {rest : List UInt8} (h : r.rest = s.image ++ rest) :
    decodeCString r = ⟨.ok s, r.moveTo (r.position + s.width), []⟩ := by
  have hl : s.bytes.length ≠ (s.image ++ rest).length := by
    rw [List.length_append, CString.length_image, CString.width]
    omega
  rw [decodeCString_apply, h, CString.upToNul_image_append, if_neg hl]

theorem decodeCString_of_not_mem {r : Reader} (h : 0 ∉ r.rest) :
    decodeCString r = underflow (r.unread + 1) r := by
  rw [decodeCString_apply, CString.bytes_upToNul h, if_pos rfl, length_rest]

theorem decodeText_apply (r : Reader) :
    decodeText r =
      match decodeCString r with
      | ⟨.ok s, r', log⟩ =>
        match ofUtf8? s.bytes with
        | some text => ⟨.ok text, r', log⟩
        | none => ⟨.error .invalidUtf8, r'.moveTo r.position, log⟩
      | ⟨.error e, r', log⟩ => ⟨.error e, r', log⟩ := by
  show (decodeCString >>= fun s => match ofUtf8? s.bytes with
    | some text => pure text
    | none => do Action.update (moveTo r.position); Action.fail .invalidUtf8) r = _
  rw [bind_apply]
  rcases decodeCString r with ⟨_ | s, r', log⟩
  · rfl
  · dsimp only
    cases ofUtf8? s.bytes with
    | none =>
      show (⟨.error .invalidUtf8, r'.moveTo r.position, log ++ []⟩ : Outcome Error Reader String) = _
      rw [List.append_nil]
    | some text => simp only [pure_apply, List.append_nil]

theorem decodeText_of_append (s : CString) {r : Reader} {rest : List UInt8} (h : r.rest = s.image ++ rest) :
    decodeText r =
      match ofUtf8? s.bytes with
      | some text => ⟨.ok text, r.moveTo (r.position + s.width), []⟩
      | none => ⟨.error .invalidUtf8, r, []⟩ := by
  rw [decodeText_apply, decodeCString_of_append s h]
  rfl

theorem decodeText_of_not_mem {r : Reader} (h : 0 ∉ r.rest) : decodeText r = underflow (r.unread + 1) r := by
  rw [decodeText_apply, decodeCString_of_not_mem h]
  rfl

theorem decodeBoundedText_apply (limit : Nat) (r : Reader) :
    decodeBoundedText limit r =
      match decodeText r with
      | ⟨.ok text, r', log⟩ =>
        if h : text.utf8ByteSize ≤ limit then ⟨.ok ⟨text, h⟩, r', log⟩
        else ⟨.error .invalidParameter, r'.moveTo r.position, log ++ [.textAboveBound text.utf8ByteSize limit]⟩
      | ⟨.error e, r', log⟩ => ⟨.error e, r', log⟩ := by
  show (decodeText >>= fun text => if h : text.utf8ByteSize ≤ limit then pure (⟨text, h⟩ : BoundedText limit)
    else do
      Action.note (.textAboveBound text.utf8ByteSize limit)
      Action.update (moveTo r.position)
      Action.fail .invalidParameter) r = _
  rw [bind_apply]
  rcases decodeText r with ⟨_ | text, r', log⟩
  · rfl
  · by_cases h : text.utf8ByteSize ≤ limit
    · simp only [h, dite_true, pure_apply, List.append_nil]
    · simp only [h, dite_false]
      rfl

theorem decodeBoundedText_of_not_mem (limit : Nat) {r : Reader} (h : 0 ∉ r.rest) :
    decodeBoundedText limit r = underflow (r.unread + 1) r := by
  rw [decodeBoundedText_apply, decodeText_of_not_mem h]
  rfl

end Reader

end Marshal
