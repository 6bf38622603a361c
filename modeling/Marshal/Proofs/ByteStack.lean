import Marshal.Proofs.BufferCalls
import Marshal.Proofs.PartialWrites
import Marshal.Proofs.Steps

/-!
# The written bytes are a stack

Encoding pushes bytes and taking back pops them. `ByteStack N` holds `N` bytes
at most and knows neither storage nor used count. Whatever is written to a
buffer and taken back from it, in any order and with any failures between,
the stack answers the same and holds the written bytes (`Buffer.Holds`).
-/

namespace Marshal

open Marshal.Action Session

variable {N : Nat}

structure ByteStack (limit : Nat) where
  bytes : List UInt8
  height_le : bytes.length ≤ limit

namespace ByteStack

variable {limit : Nat}

def height (s : ByteStack limit) : Nat := s.bytes.length

def push (pushed : List UInt8) : Action Error (ByteStack limit) Unit := fun s =>
  if h : s.height + pushed.length ≤ limit then
    ⟨.ok (), ⟨s.bytes ++ pushed, by rwa [List.length_append]⟩, []⟩
  else
    ⟨.error (.overflow pushed.length (limit - s.height)), s, []⟩

def pushForm : Option (List UInt8) → Action Error (ByteStack limit) Unit
  | some image => push image
  | none => Action.fail .interiorNul

def pushItem (x : Item) : Action Error (ByteStack limit) Unit :=
  forM ((x.format.parts x.value).map Part.form) pushForm

/-- Pops the upper bytes and returns them as they lay, the lowest first. -/
def pop (length : Nat) : Action Error (ByteStack limit) (List UInt8) := fun s =>
  if s.height < length then
    ⟨.error (.underflow length s.height), s, []⟩
  else
    ⟨.ok (s.bytes.drop (s.height - length)),
      ⟨s.bytes.take (s.height - length), Nat.le_trans (List.length_take_le' _ _) s.height_le⟩, []⟩

end ByteStack

/-! ## Calls on both -/

namespace Session

inductive WriteCall
  | bytes (bytes : List UInt8)
  | scalar (t : ScalarType) (x : t.Carrier)
  | cstring (s : CString)
  | text (text : String)
  | item (x : Item)
  | whole (x : Item)
  | popBytes (out : List UInt8)
  | popScalar (t : ScalarType)

namespace WriteCall

def onBuffer : WriteCall → Buffer N → Step (Buffer N)
  | bytes written => .ofCall (fun _ => .done) (Buffer.encodeBytes written)
  | scalar t x => .ofCall (fun _ => .done) (Buffer.encodeScalar t x)
  | cstring s => .ofCall (fun _ => .done) (Buffer.encodeCString s)
  | text s => .ofCall (fun _ => .done) (Buffer.encodeText s)
  | item x => .ofCall (fun _ => .done) (Buffer.encode x)
  | whole x => .ofCall (fun _ => .done) (Buffer.encodeWhole x)
  | popBytes out => .ofCopy out (Buffer.popBytes out.length)
  | popScalar t => .ofCall (fun x => .item ⟨.scalar t, x⟩) (Buffer.popScalar t)

def onStack : WriteCall → ByteStack N → Step (ByteStack N)
  | bytes pushed => .ofCall (fun _ => .done) (ByteStack.push pushed)
  | scalar t x => .ofCall (fun _ => .done) (ByteStack.push (t.toBytes x))
  | cstring s => .ofCall (fun _ => .done) (ByteStack.push s.image)
  | text s => .ofCall (fun _ => .done) (ByteStack.pushForm (Part.mk .text s).form)
  | item x => .ofCall (fun _ => .done) (ByteStack.pushItem x)
  | whole x => .ofCall (fun _ => .done) (undoing (ByteStack.pushItem x))
  | popBytes out => .ofCopy out (ByteStack.pop out.length)
  | popScalar t => .ofCall (fun x => .item ⟨.scalar t, x⟩) (do
      let bytes ← ByteStack.pop t.width
      return t.ofBytes bytes)

end WriteCall

end Session

/-! ## Each call -/

namespace Buffer

structure Holds (b : Buffer N) (s : ByteStack N) : Prop where
  cursor_le : b.cursor ≤ N
  written_eq : b.written = s.bytes

def stack (b : Buffer N) : ByteStack N := ⟨b.written, by simp [written]⟩

theorem holds_stack {b : Buffer N} (h : b.cursor ≤ N) : b.Holds b.stack := ⟨h, rfl⟩

theorem Holds.height_eq {b : Buffer N} {s : ByteStack N} (h : b.Holds s) : s.height = b.cursor := by
  rw [ByteStack.height, ← h.written_eq, length_written h.cursor_le]

theorem written_moveCursor (b : Buffer N) {cursor : Nat} (h : cursor ≤ b.cursor) :
    ({ b with cursor := cursor } : Buffer N).written = b.written.take cursor := by
  rw [written, written, List.take_take, Nat.min_eq_left h]

theorem written_rewind_append {b : Buffer N} {bytes : List UInt8} (hb : b.cursor ≤ N)
    (h : bytes.length ≤ b.remaining) : ((b.append bytes).rewind b.checkpoint).written = b.written := by
  have hfit := (le_remaining_iff hb).mp h
  rw [rewind_checkpoint hb, written_moveCursor _ (Nat.le_add_right _ _), written_append b bytes hfit,
    List.take_left' (length_written hb)]

theorem refines_encodeBytes (bytes : List UInt8) :
    Refines (Holds (N := N)) (encodeBytes bytes) (ByteStack.push bytes) := by
  intro b s h
  have hb := h.cursor_le
  have hheight := h.height_eq
  unfold encodeBytes ByteStack.push
  by_cases hroom : bytes.length ≤ b.remaining
  · have hfit := (le_remaining_iff hb).mp hroom
    rw [if_neg (Nat.not_lt.mpr hroom), dif_pos (by rwa [hheight])]
    exact ⟨rfl, hfit, by rw [b.written_append bytes hfit, h.written_eq]⟩
  · have hover : ¬ b.cursor + bytes.length ≤ N := mt (le_remaining_iff hb).mpr hroom
    rw [if_pos (Nat.not_le.mp hroom), dif_neg (by rwa [hheight]), hheight]
    exact ⟨rfl, h⟩

theorem refines_encodeForm (form : Option (List UInt8)) :
    Refines (Holds (N := N)) (encodeForm form) (ByteStack.pushForm form) := by
  cases form with
  | some image => exact refines_encodeBytes image
  | none => exact fun _ _ h => ⟨rfl, h⟩

theorem refines_encode (x : Item) : Refines (Holds (N := N)) (encode x) (ByteStack.pushItem x) :=
  .of_agree (x.format.encode_agree_forms x.value) (.forM refines_encodeForm _)

theorem refines_encodeWhole (x : Item) :
    Refines (Holds (N := N)) (encodeWhole x) (undoing (ByteStack.pushItem x)) := by
  intro b s h
  obtain ⟨hr, hs⟩ := refines_encode x b s h
  cases hb : (encode x b).result with
  | ok _ =>
    rw [encodeWhole, atomically_of_ok hb, undoing_of_ok (hr.symm.trans hb)]
    exact ⟨hr, hs⟩
  | error e =>
    obtain ⟨bytes, hroom, hstate⟩ := x.format.exists_encode_state x.value b
    rw [encodeWhole, atomically_of_error hb, undoing_of_error (hr.symm.trans hb)]
    refine ⟨rfl, Nat.min_le_right _ _, ?_⟩
    dsimp only
    rw [encode, hstate, ← h.written_eq]
    exact written_rewind_append h.cursor_le hroom

theorem refines_popBytes (length : Nat) : Refines (Holds (N := N)) (popBytes length) (ByteStack.pop length) := by
  intro b s h
  have hb := h.cursor_le
  have hheight := h.height_eq
  unfold popBytes ByteStack.pop
  by_cases hlt : b.cursor < length
  · rw [if_pos hlt, if_pos (by rwa [hheight]), hheight]
    exact ⟨rfl, h⟩
  · rw [if_neg hlt, if_neg (by rwa [hheight])]
    refine ⟨?_, Nat.le_trans (Nat.sub_le _ _) hb, ?_⟩
    · show Except.ok (b.written.drop (b.cursor - length)) = Except.ok (s.bytes.drop (s.height - length))
      rw [hheight, h.written_eq]
    · show ({ b with cursor := b.cursor - length } : Buffer N).written = s.bytes.take (s.height - length)
      rw [b.written_moveCursor (Nat.sub_le _ _), hheight, h.written_eq]

theorem refines_popScalar (t : ScalarType) :
    Refines (Holds (N := N)) (popScalar t) (do let bytes ← ByteStack.pop t.width; return t.ofBytes bytes) :=
  (refines_popBytes t.width).bind fun _ => .pure _

end Buffer

theorem Session.WriteCall.refines (c : WriteCall) : Step.Refines (Buffer.Holds (N := N)) c.onBuffer c.onStack := by
  cases c with
  | bytes written => exact .ofCall _ (Buffer.refines_encodeBytes written)
  | scalar t x => exact .ofCall _ (Buffer.refines_encodeBytes (t.toBytes x))
  | cstring s => exact .ofCall _ (Buffer.refines_encodeBytes s.image)
  | text s => exact .ofCall _ (.of_agree (Part.mk .text s).encode_agree (Buffer.refines_encodeForm _))
  | item x => exact .ofCall _ (Buffer.refines_encode x)
  | whole x => exact .ofCall _ (Buffer.refines_encodeWhole x)
  | popBytes out => exact .ofCopy out (Buffer.refines_popBytes out.length)
  | popScalar t => exact .ofCall _ (Buffer.refines_popScalar t)

end Marshal
