import Marshal.Proofs.Bounds

/-!
# The primitive calls with machine arithmetic

Elsewhere positions are natural numbers and ranges are cut with `take` and
`drop`, which never fail. Here each primitive is written with arithmetic that
may end the program: `none` stands for a difference below zero, a sum that
does not fit in 64 bits, a range outside of its slice, or a copy between
slices of two lengths. On a buffer in bounds and on a valid reader none of
this happens, and the outcome is that of the call.
-/

namespace Marshal

open Marshal.Action

/-- An action with machine arithmetic: it ends the program or has an outcome. -/
def Checked (ε σ α : Type) : Type := σ → Option (Outcome ε σ α)

variable {ε δ σ κ α β : Type} {N n : Nat}

namespace Checked

/-! ## Arithmetic -/

def sub (m n : Nat) : Option Nat := if n ≤ m then some (m - n) else none

def add (m n : Nat) : Option Nat := if m + n < 2 ^ 64 then some (m + n) else none

def slice (bytes : List UInt8) (start stop : Nat) : Option (List UInt8) :=
  if start ≤ stop ∧ stop ≤ bytes.length then some ((bytes.take stop).drop start) else none

def copy (storage : Vector UInt8 N) (start stop : Nat) (bytes : List UInt8) : Option (Vector UInt8 N) :=
  if start ≤ stop ∧ stop ≤ N ∧ bytes.length = stop - start then some (overwrite storage start bytes) else none

def store (storage : Vector UInt8 N) (index : Nat) (x : UInt8) : Option (Vector UInt8 N) :=
  if index < N then some (overwrite storage index [x]) else none

/-- A product that is refused, not fatal, if it does not fit. -/
def product (m n : Nat) : Option Nat := if m * n < 2 ^ 64 then some (m * n) else none

theorem sub_of_le {m n : Nat} (h : n ≤ m) : sub m n = some (m - n) := if_pos h

theorem add_of_lt {m n : Nat} (h : m + n < 2 ^ 64) : add m n = some (m + n) := if_pos h

theorem slice_of_le {bytes : List UInt8} {start stop : Nat} (h : start ≤ stop) (hl : stop ≤ bytes.length) :
    slice bytes start stop = some ((bytes.take stop).drop start) := if_pos ⟨h, hl⟩

theorem copy_of_le (storage : Vector UInt8 N) {start : Nat} {bytes : List UInt8} (h : start + bytes.length ≤ N) :
    copy storage start (start + bytes.length) bytes = some (overwrite storage start bytes) :=
  if_pos ⟨by omega, h, by omega⟩

theorem store_of_lt (storage : Vector UInt8 N) {index : Nat} (x : UInt8) (h : index < N) :
    store storage index x = some (overwrite storage index [x]) := if_pos h

theorem guard_of {p : Prop} [Decidable p] (h : p) : (guard p : Option Unit) = some () := if_pos h

/-! ## Actions -/

protected def pure (x : α) : Checked ε σ α := fun s => some ⟨.ok x, s, []⟩

protected def bind (c : Checked ε σ α) (d : α → Checked ε σ β) : Checked ε σ β := fun s => do
  match ← c s with
  | ⟨.ok x, s, log⟩ =>
    let o ← d x s
    return ⟨o.result, o.state, log ++ o.log⟩
  | ⟨.error e, s, log⟩ => return ⟨.error e, s, log⟩

def of (a : Action ε σ α) : Checked ε σ α := fun s => some (a s)

def mapError (f : ε → δ) (c : Checked ε σ α) : Checked δ σ α := fun s => do
  let o ← c s
  return ⟨o.result.mapError f, o.state, o.log⟩

def onSnd (c : Checked ε σ α) : Checked ε (κ × σ) α := fun (k, s) => do
  let o ← c s
  return ⟨o.result, (k, o.state), o.log⟩

end Checked

/-- Where `P` holds, `c` does not end the program, has the outcome of `a`, and `P` holds after it. -/
def Runs (P : σ → Prop) (c : Checked ε σ α) (a : Action ε σ α) : Prop :=
  ∀ s, P s → c s = some (a s) ∧ P (a s).state

theorem runs_of_keeps {P : σ → Prop} {c : Checked ε σ α} {a : Action ε σ α} (hc : ∀ s, P s → c s = some (a s))
    (ha : Keeps P a) : Runs P c a := fun s hs => ⟨hc s hs, ha s hs⟩

/-! ## Buffers -/

namespace Buffer.Checked

open Marshal.Checked

def remaining (b : Buffer N) : Option Nat := sub N b.cursor

def written (b : Buffer N) : Option (List UInt8) := slice b.storage.toList 0 b.cursor

def message (b : Buffer N) : Option (List UInt8) := slice b.storage.toList 0 b.used

def reader (b : Buffer N) : Option Reader := do
  let bytes ← message b
  return ⟨bytes, min b.cursor b.used⟩

def load (bytes : List UInt8) : Checked Error (Buffer N) Unit := fun b =>
  if N < bytes.length then
    return ⟨.error (.overflow bytes.length N), b, [.loadRejected bytes.length N]⟩
  else do
    let storage ← copy b.storage 0 bytes.length bytes
    return ⟨.ok (), ⟨storage, 0, bytes.length⟩, []⟩

def encodeBytes (bytes : List UInt8) : Checked Error (Buffer N) Unit := fun b => do
  let available ← remaining b
  if available < bytes.length then
    return ⟨.error (.overflow bytes.length available), b, [.bytesOverflow b.cursor bytes.length available]⟩
  else
    let stop ← add b.cursor bytes.length
    let storage ← copy b.storage b.cursor stop bytes
    let cursor ← add b.cursor bytes.length
    return ⟨.ok (), { b with storage, cursor }, []⟩

def encodeText (text : String) : Checked Error (Buffer N) Unit := fun b =>
  let bytes := utf8 text
  if 0 ∈ bytes then
    return ⟨.error .interiorNul, b, []⟩
  else do
    let needed ← add bytes.length 1
    let available ← remaining b
    if available < needed then
      return ⟨.error (.overflow needed available), b, [.textOverflow b.cursor needed available]⟩
    else
      let stop ← add b.cursor bytes.length
      let storage ← copy b.storage b.cursor stop bytes
      let last ← add b.cursor bytes.length
      let storage ← store storage last 0
      let cursor ← add b.cursor needed
      return ⟨.ok (), { b with storage, cursor }, []⟩

def popBytes (length : Nat) : Checked Error (Buffer N) (List UInt8) := fun b =>
  if b.cursor < length then
    return ⟨.error (.underflow length b.cursor), b, []⟩
  else do
    let start ← sub b.cursor length
    let bytes ← slice b.storage.toList start b.cursor
    guard (bytes.length = length)
    return ⟨.ok bytes, { b with cursor := start }, []⟩

def atomically (c : Checked ε (Buffer N) α) : Checked ε (Buffer N) α := fun b => do
  match ← c b with
  | ⟨.ok x, b, log⟩ => return ⟨.ok x, b, log⟩
  | ⟨.error e, c, log⟩ => return ⟨.error e, c.rewind b.checkpoint, log⟩

def read (c : Checked Error Reader α) : Checked Error (Buffer N) α := fun b => do
  let start ← reader b
  match ← c start with
  | ⟨.ok x, r, log⟩ =>
    return ⟨.ok x, if start.position < r.position then { b with cursor := r.position } else b, log⟩
  | ⟨.error e, _, log⟩ => return ⟨.error e, b, log⟩

section

variable {b : Buffer N} (hb : b.InBounds)

include hb

theorem remaining_eq : remaining b = some b.remaining := sub_of_le hb.cursor_le

theorem written_eq : written b = some b.written :=
  slice_of_le (Nat.zero_le _) (by rw [Vector.length_toList]; exact hb.cursor_le)

theorem message_eq : message b = some b.message :=
  slice_of_le (Nat.zero_le _) (by rw [Vector.length_toList]; exact hb.used_le)

theorem reader_eq : reader b = some b.reader := by
  rw [reader, message_eq hb]
  rfl

end

example : remaining (⟨#v[7], 2, 0⟩ : Buffer 1) = none := rfl

theorem runs_load (bytes : List UInt8) : Runs (InBounds (N := N)) (load bytes) (Buffer.load bytes) := by
  refine runs_of_keeps (fun b hb => ?_) (keeps_of_sim (sim_load 0 bytes))
  unfold load Buffer.load
  by_cases h : N < bytes.length
  · rw [if_pos h, if_pos h]
    rfl
  · have hcopy : copy b.storage 0 bytes.length bytes = some (overwrite b.storage 0 bytes) :=
      if_pos ⟨Nat.zero_le _, Nat.le_of_not_lt h, rfl⟩
    rw [if_neg h, if_neg h, hcopy]
    rfl

variable (hN : N < 2 ^ 63)

include hN

theorem runs_encodeBytes (bytes : List UInt8) :
    Runs (InBounds (N := N)) (encodeBytes bytes) (Buffer.encodeBytes bytes) := by
  refine runs_of_keeps (fun b hb => ?_) (keeps_of_sim (sim_encodeBytes 0 bytes))
  unfold encodeBytes Buffer.encodeBytes
  rw [remaining_eq hb]
  have hc := hb.cursor_le
  by_cases h : b.remaining < bytes.length
  · simp only [Option.bind_eq_bind, Option.bind_some, if_pos h]
    rfl
  · have hroom : b.cursor + bytes.length ≤ N := by
      rw [Buffer.remaining] at h
      omega
    simp only [Option.bind_eq_bind, Option.bind_some, if_neg h,
      add_of_lt (show b.cursor + bytes.length < 2 ^ 64 by omega), copy_of_le b.storage hroom]
    rfl

theorem runs_encodeText {text : String} (ht : text.utf8ByteSize < 2 ^ 63) :
    Runs (InBounds (N := N)) (encodeText text) (Buffer.encodeText text) := by
  refine runs_of_keeps (fun b hb => ?_) (keeps_of_sim (sim_encodeText 0 text))
  unfold encodeText Buffer.encodeText
  have hc := hb.cursor_le
  have hl := length_utf8 text
  generalize utf8 text = bytes at hl
  dsimp only
  by_cases hz : 0 ∈ bytes
  · rw [if_pos hz, if_pos hz]
    rfl
  rw [if_neg hz, if_neg hz, remaining_eq hb, add_of_lt (show bytes.length + 1 < 2 ^ 64 by omega)]
  by_cases h : b.remaining < bytes.length + 1
  · simp only [Option.bind_eq_bind, Option.bind_some, if_pos h]
    rfl
  · have hroom : b.cursor + bytes.length + 1 ≤ N := by
      rw [Buffer.remaining] at h
      omega
    simp only [Option.bind_eq_bind, Option.bind_some, if_neg h,
      add_of_lt (show b.cursor + bytes.length < 2 ^ 64 by omega),
      copy_of_le b.storage (show b.cursor + bytes.length ≤ N by omega),
      store_of_lt (overwrite b.storage b.cursor bytes) 0 (show b.cursor + bytes.length < N by omega),
      add_of_lt (show b.cursor + (bytes.length + 1) < 2 ^ 64 by omega)]
    rfl

omit hN in
theorem runs_popBytes (length : Nat) :
    Runs (InBounds (N := N)) (popBytes length) (Buffer.popBytes length) := by
  refine runs_of_keeps (fun b hb => ?_) (keeps_of_sim (sim_popBytes 0 length))
  unfold popBytes Buffer.popBytes
  have hc := hb.cursor_le
  by_cases h : b.cursor < length
  · rw [if_pos h, if_pos h]
    rfl
  · have hle : b.cursor ≤ b.storage.toList.length := by rw [Vector.length_toList]; exact hc
    have hslice := slice_of_le (show b.cursor - length ≤ b.cursor by omega) hle
    have hlength : ((b.storage.toList.take b.cursor).drop (b.cursor - length)).length = length := by
      rw [List.length_drop, List.length_take, Vector.length_toList]
      omega
    rw [if_neg h, if_neg h, sub_of_le (show length ≤ b.cursor by omega)]
    simp only [Option.bind_eq_bind, Option.bind_some, hslice, guard_of hlength]
    rfl

omit hN in
theorem runs_atomically {c : Checked ε (Buffer N) α} {a : Action ε (Buffer N) α} (h : Runs InBounds c a) :
    Runs InBounds (atomically c) (Buffer.atomically a) := by
  refine runs_of_keeps (fun b hb => ?_) (keeps_atomically fun b hb => (h b hb).2)
  unfold atomically Buffer.atomically
  rw [(h b hb).1]
  rcases a b with ⟨_ | x, b', log⟩ <;> rfl

omit hN in
theorem runs_read {c : Checked Error Reader α} {d : Action Error Reader α}
    (h : ∀ bytes : List UInt8, bytes.length ≤ N → Runs (Reader.Inside bytes) c d)
    (hd : ∀ bytes, Keeps (Reader.Inside bytes) d) : Runs InBounds (read c) (Buffer.read (N := N) d) := by
  refine runs_of_keeps (fun b hb => ?_) (keeps_of_sim (sim_read 0 hd))
  have hlen : b.message.length ≤ N := by rw [length_message hb.used_le]; exact hb.used_le
  rw [read, read_apply, reader_eq hb]
  simp only [Option.bind_eq_bind, Option.bind_some, (h _ hlen _ hb.reader_inside).1]
  rcases d b.reader with ⟨_ | x, r, log⟩ <;> rfl

end Buffer.Checked

/-! ## Readers -/

namespace Reader.Checked

open Marshal.Checked

def unread (r : Reader) : Option Nat := sub r.bytes.length r.position

def underflow (requested : Nat) : Checked Error Reader α := fun r => do
  let available ← unread r
  return ⟨.error (.underflow requested available), r, [.underflow r.position requested available]⟩

def decodeBytes (length : Nat) : Checked Error Reader (List UInt8) := fun r => do
  let available ← unread r
  if available < length then
    underflow length r
  else
    let stop ← add r.position length
    let bytes ← slice r.bytes r.position stop
    guard (bytes.length = length)
    let position ← add r.position length
    return ⟨.ok bytes, r.moveTo position, []⟩

def decodeCString : Checked Error Reader CString := fun r => do
  let rest ← slice r.bytes r.position r.bytes.length
  let s := CString.upToNul rest
  if s.bytes.length = rest.length then
    let requested ← add rest.length 1
    underflow requested r
  else
    let consumed ← add s.bytes.length 1
    let position ← add r.position consumed
    return ⟨.ok s, r.moveTo position, []⟩

def decodeText : Checked Error Reader String := fun r => do
  match ← decodeCString r with
  | ⟨.ok s, r', log⟩ =>
    match ofUtf8? s.bytes with
    | some text => return ⟨.ok text, r', log⟩
    | none => return ⟨.error .invalidUtf8, r'.moveTo r.position, log⟩
  | ⟨.error e, r', log⟩ => return ⟨.error e, r', log⟩

/-- Going back to the start is a seek, which could be refused. -/
def decodeBoundedText (limit : Nat) : Checked Error Reader (BoundedText limit) := fun r => do
  match ← decodeText r with
  | ⟨.ok text, r', log⟩ =>
    if h : text.utf8ByteSize ≤ limit then
      return ⟨.ok ⟨text, h⟩, r', log⟩
    else
      let log := log ++ [.textAboveBound text.utf8ByteSize limit]
      match seek r.position r' with
      | ⟨.ok (), r', _⟩ => return ⟨.error .invalidParameter, r', log⟩
      | ⟨.error e, r', _⟩ => return ⟨.error e, r', log⟩
  | ⟨.error e, r', log⟩ => return ⟨.error e, r', log⟩

variable {bytes : List UInt8} {r : Reader}

theorem unread_eq (hr : r.Inside bytes) : unread r = some r.unread := sub_of_le hr.valid

theorem underflow_eq (hr : r.Inside bytes) (requested : Nat) :
    underflow requested r = some (Reader.underflow requested r : Outcome Error Reader α) := by
  rw [underflow, unread_eq hr]
  rfl

variable (hbytes : bytes.length < 2 ^ 63)

include hbytes

theorem runs_decodeBytes (length : Nat) :
    Runs (Inside bytes) (decodeBytes length) (Reader.decodeBytes length) := by
  refine runs_of_keeps (fun r hr => ?_) (keeps_decodeBytes length)
  rw [decodeBytes, decodeBytes_apply, unread_eq hr]
  by_cases h : r.unread < length
  · simp only [Option.bind_eq_bind, Option.bind_some, if_pos h, underflow_eq hr]
  · obtain ⟨rfl, hp⟩ := hr
    have hroom : r.position + length ≤ r.bytes.length := by
      rw [Reader.unread] at h
      omega
    have hlength : ((r.bytes.take (r.position + length)).drop r.position).length = length := by
      rw [List.length_drop, List.length_take]
      omega
    have hrest : (r.bytes.take (r.position + length)).drop r.position = r.rest.take length := by
      rw [List.drop_take, Nat.add_sub_cancel_left, Reader.rest]
    simp only [Option.bind_eq_bind, Option.bind_some, if_neg h,
      add_of_lt (show r.position + length < 2 ^ 64 by omega),
      slice_of_le (show r.position ≤ r.position + length by omega) hroom, guard_of hlength]
    rw [hrest]
    rfl

theorem runs_decodeCString : Runs (Inside bytes) decodeCString Reader.decodeCString := by
  refine runs_of_keeps (fun r hr => ?_) keeps_decodeCString
  have hslice : slice r.bytes r.position r.bytes.length = some r.rest := by
    rw [slice_of_le hr.valid (Nat.le_refl _), List.take_length]
    rfl
  have hrest : r.rest.length ≤ bytes.length := by
    rw [Reader.rest, List.length_drop, hr.1]
    omega
  have hs : (CString.upToNul r.rest).bytes.length ≤ r.rest.length := (List.takeWhile_sublist _).length_le
  have hp := hr.2
  rw [decodeCString, decodeCString_apply, hslice]
  by_cases h : (CString.upToNul r.rest).bytes.length = r.rest.length
  · simp only [Option.bind_eq_bind, Option.bind_some, if_pos h,
      add_of_lt (show r.rest.length + 1 < 2 ^ 64 by omega), underflow_eq hr]
  · simp only [Option.bind_eq_bind, Option.bind_some, if_neg h,
      add_of_lt (show (CString.upToNul r.rest).bytes.length + 1 < 2 ^ 64 by omega),
      add_of_lt (show r.position + ((CString.upToNul r.rest).bytes.length + 1) < 2 ^ 64 by omega)]
    rfl

theorem runs_decodeText : Runs (Inside bytes) decodeText Reader.decodeText := by
  refine runs_of_keeps (fun r hr => ?_) keeps_decodeText
  rw [decodeText, decodeText_apply, (runs_decodeCString hbytes r hr).1]
  simp only [Option.bind_eq_bind, Option.bind_some]
  rcases Reader.decodeCString r with ⟨_ | s, r', log⟩
  · rfl
  · dsimp only
    cases ofUtf8? s.bytes <;> rfl

theorem runs_decodeBoundedText (limit : Nat) :
    Runs (Inside bytes) (decodeBoundedText limit) (Reader.decodeBoundedText limit) := by
  refine runs_of_keeps (fun r hr => ?_) (keeps_decodeBoundedText limit)
  have ht := keeps_decodeText r hr
  rw [decodeBoundedText, decodeBoundedText_apply, (runs_decodeText hbytes r hr).1]
  simp only [Option.bind_eq_bind, Option.bind_some]
  rcases hd : Reader.decodeText r with ⟨_ | text, r', log⟩
  · rfl
  · rw [hd] at ht
    dsimp only at ht ⊢
    by_cases h : text.utf8ByteSize ≤ limit
    · simp only [h, dite_true]
      rfl
    · have hseek : seek r.position r' = ⟨.ok (), r'.moveTo r.position, []⟩ := by
        show (if r'.bytes.length < r.position then Action.fail (.invalidPosition r.position r'.bytes.length)
          else Action.update (moveTo r.position) : Action Error Reader Unit) r' = _
        have hle : ¬ r'.bytes.length < r.position := by rw [ht.1]; exact Nat.not_lt.mpr hr.2
        rw [if_neg hle]
        rfl
      simp only [h, dite_false, hseek]
      rfl

end Reader.Checked

end Marshal
