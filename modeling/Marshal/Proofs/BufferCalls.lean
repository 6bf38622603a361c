import Marshal.Proofs.Storage

/-!
# What the calls on a buffer return

`read` by the outcome of its decode, `atomically` by that of its encode, and a
seek or a load that is accepted. The reader of a buffer has left what is unread.
-/

namespace Marshal

variable {N : Nat}

namespace Buffer

theorem read_apply {α : Type} (decode : Action Error Reader α) (b : Buffer N) :
    read decode b =
      match decode b.reader with
      | ⟨.ok x, r, log⟩ =>
        ⟨.ok x, if b.reader.position < r.position then { b with cursor := r.position } else b, log⟩
      | ⟨.error e, _, log⟩ => ⟨.error e, b, log⟩ := rfl

theorem read_of_ok {α : Type} {decode : Action Error Reader α} {b : Buffer N} {x : α} {r : Reader}
    (hx : (decode b.reader).result = .ok x) (hr : (decode b.reader).state = r) :
    (read decode b).result = .ok x ∧
      (read decode b).state = if b.reader.position < r.position then { b with cursor := r.position } else b := by
  rw [read_apply]
  rcases hd : decode b.reader with ⟨_ | y, r', log⟩
  · rw [hd] at hx; cases hx
  · rw [hd] at hx hr
    cases hx
    cases hr
    exact ⟨rfl, rfl⟩

theorem read_of_error {α : Type} {decode : Action Error Reader α} {b : Buffer N} {e : Error}
    (h : (decode b.reader).result = .error e) :
    read decode b = ⟨.error e, b, (decode b.reader).log⟩ := by
  rw [read_apply]
  rcases hr : decode b.reader with ⟨e' | y, r, log⟩
  · rw [hr] at h
    cases h
    rfl
  · rw [hr] at h; cases h

theorem atomically_of_ok {ε α : Type} {encode : Action ε (Buffer N) α} {b : Buffer N} {x : α}
    (h : (encode b).result = .ok x) : atomically encode b = encode b := by
  unfold atomically
  rcases he : encode b with ⟨_ | y, b', log⟩
  · rw [he] at h; cases h
  · rfl

theorem atomically_of_error {ε α : Type} {encode : Action ε (Buffer N) α} {b : Buffer N} {e : ε}
    (h : (encode b).result = .error e) :
    atomically encode b = ⟨.error e, (encode b).state.rewind b.checkpoint, (encode b).log⟩ := by
  unfold atomically
  rcases he : encode b with ⟨e' | y, b', log⟩
  · rw [he] at h
    cases h
    rfl
  · rw [he] at h; cases h

theorem seek_of_le {position : Nat} {b : Buffer N} (h : position ≤ N) :
    seek position b = ⟨.ok (), { b with cursor := position }, []⟩ := by
  rw [seek, if_neg (Nat.not_lt.mpr h)]

/-- The clamp takes no effect where the checkpoint was taken within the capacity. -/
theorem rewind_checkpoint {b : Buffer N} (h : b.cursor ≤ N) (c : Buffer N) :
    c.rewind b.checkpoint = { c with cursor := b.cursor } :=
  congrArg (Buffer.mk c.storage · c.used) (Nat.min_eq_left h)

theorem restore_checkpoint {b : Buffer N} (h : b.cursor ≤ N) (c : Buffer N) :
    restore b.checkpoint c = ⟨.ok (), c.rewind b.checkpoint, []⟩ := by
  rw [rewind_checkpoint h]
  exact seek_of_le h

theorem load_of_le {bytes : List UInt8} {b : Buffer N} (h : bytes.length ≤ N) :
    load bytes b = ⟨.ok (), ⟨overwrite b.storage 0 bytes, 0, bytes.length⟩, []⟩ := by
  rw [load, if_neg (Nat.not_lt.mpr h)]

/-! ## The reader of a buffer -/

theorem exists_drop_storage {b : Buffer N} {r : Reader} (h : r.bytes = b.message) (k : Nat) :
    ∃ more, b.storage.toList.drop (r.position + k) = r.rest.drop k ++ more := by
  refine ⟨(b.storage.toList.drop b.used).drop (r.position + k - b.message.length), ?_⟩
  have hsplit : b.storage.toList = b.message ++ b.storage.toList.drop b.used := (List.take_append_drop _ _).symm
  rw [hsplit, List.drop_append, ← hsplit, Reader.rest, h, List.drop_drop (l := b.message)]

theorem unread_reader {b : Buffer N} (h : b.used ≤ N) : b.reader.unread = b.unread := by
  show b.message.length - min b.cursor b.used = b.used - b.cursor
  rw [length_message h]
  omega

theorem rest_reader {b : Buffer N} (h : b.used ≤ N) : b.reader.rest = b.message.drop b.cursor := by
  show b.message.drop (min b.cursor b.used) = b.message.drop b.cursor
  by_cases hc : b.cursor ≤ b.used
  · rw [Nat.min_eq_left hc]
  · have hl := length_message h
    rw [List.drop_of_length_le (by omega), List.drop_of_length_le (by omega)]

theorem message_overwrite (storage : Vector UInt8 N) {bytes : List UInt8} (h : bytes.length ≤ N) :
    (⟨overwrite storage 0 bytes, 0, bytes.length⟩ : Buffer N).message = bytes := by
  rw [message, toList_overwrite _ _ _ (by omega), List.take_zero, List.nil_append, List.take_left]

end Buffer

end Marshal
