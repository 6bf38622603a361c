import Marshal.Proofs.Callbacks
import Marshal.Proofs.Refusals
import Marshal.Session.Handles

/-!
# Calls through handles are calls on buffers

`HandleCall.expected` says what a call through a handle should do without the
handle's own code: refuse a NULL handle, refuse a NULL pointer that the call
needs, and else run one operation of the buffer. An element coder that calls
back through the handle runs on the buffer itself there. The calls of any
session are these.
-/

namespace Marshal

open Marshal.Action Session

variable {α β : Type} {N : Nat}

theorem Status.ofError_ne_ok (e : Error) : Status.ofError e ≠ .ok := by cases e <;> nofun

namespace Pointer

def content : Pointer (List α) → List α
  | .null => []
  | .to xs => xs

def map (f : α → α) : Pointer α → Pointer α
  | .null => .null
  | .to x => .to (f x)

end Pointer

namespace Buffer

theorem decodeBytes_zero (b : Buffer N) : decodeBytes 0 b = ⟨.ok [], b, []⟩ := by
  rw [decodeBytes, read_apply, Reader.decodeBytes_apply, if_neg (Nat.not_lt_zero _)]
  simp [Reader.moveTo]

theorem decodeCString_of_ok {b : Buffer N} {s : CString} (h : (decodeCString b).result = .ok s) :
    b.reader.position = b.cursor ∧ b.cursor + s.width ≤ b.used ∧
      (b.storage.toList.drop b.cursor).take s.width = s.image ∧
      (decodeCString b).state = { b with cursor := b.cursor + s.width } := by
  obtain ⟨rest, hr⟩ : ∃ rest, b.reader.rest = s.image ++ rest := by
    rw [decodeCString, read_apply] at h
    by_cases hm : 0 ∈ b.reader.rest
    · obtain ⟨s', rest, hr⟩ := CString.exists_of_mem hm
      rw [Reader.decodeCString_of_append s' hr] at h
      cases h
      exact ⟨rest, hr⟩
    · rw [Reader.decodeCString_of_not_mem hm] at h
      cases h
  have hfit : b.cursor + s.width ≤ b.used := by
    have hunread := b.unread_reader_le
    rw [← Reader.length_rest, hr, List.length_append, CString.length_image, CString.width] at hunread
    rw [CString.width]
    omega
  have hposition : b.reader.position = b.cursor := Nat.min_eq_left (by omega)
  refine ⟨hposition, hfit, ?_, ?_⟩
  · obtain ⟨more, hmore⟩ := exists_drop_storage (r := b.reader) rfl 0
    rw [Nat.add_zero, hposition, List.drop_zero, hr, List.append_assoc] at hmore
    rw [hmore, List.take_left' s.length_image]
  · have hd := Reader.decodeCString_of_append s hr
    have hread := (read_of_ok (congrArg Outcome.result hd) (congrArg Outcome.state hd)).2
    rw [decodeCString, hread, hposition]
    exact if_pos (by rw [CString.width]; exact Nat.lt_add_of_pos_right (Nat.succ_pos _))

end Buffer

namespace Session

/-! ## Element coders on the buffer -/

namespace FieldScript

def fieldOnBuffer (start : Nat) (field : Field) : Action Unit (Buffer handleCapacity × Scratch) Unit := do
  let position := start + field.offset
  let region ← .view (·.2.region)
  let there := region.drop position
  let t := field.type
  if field.decodes then
    let x ← ((Buffer.decodeScalar t).mapError fun _ => ()).onFst
    Action.update fun (b, m) => (b, { m with region := region.take position ++ (t.toBytes x ++ there.drop t.width) })
  else
    ((Buffer.encodeScalar t (t.ofBytes (there.take t.width))).mapError fun _ => ()).onFst

def fieldsOnBuffer (start : Nat) : List Field → Action Unit (Buffer handleCapacity × Scratch) Unit
  | [] => pure ()
  | field :: fields => do
    fieldOnBuffer start field
    fieldsOnBuffer start fields

def openingOnBuffer : Opening → Action Unit (Buffer handleCapacity × Scratch) Unit
  | .nothing => pure ()
  | .reset => Action.update fun (b, m) => (b.reset, m)
  | .sealed => Action.update fun (b, m) => (b.sealed, m)

def onBuffer (script : FieldScript) (start : Nat) : Action Unit (Buffer handleCapacity × Scratch) Unit := do
  let calls ← .view (·.2.calls)
  Action.update fun (b, m) => (b, { m with calls := calls + 1 })
  if script.failAt = some calls then
    Action.fail ()
  else
    openingOnBuffer script.opening
    fieldsOnBuffer start script.fields

def Live (p : Handle × Scratch) (q : Buffer handleCapacity × Scratch) : Prop := p = (some q.1, q.2)

theorem check_of_run {call : Handle → Reply α} {action : Action Error (Buffer handleCapacity) β} {out : α}
    {write : β → α} (hcall : ∀ b, call (some b) = Handle.run action out write b) (b : Buffer handleCapacity)
    (m : Scratch) :
    check call (some b, m) = match action b with
      | ⟨.ok x, b, log⟩ => ⟨.ok (write x), (some b, m), log⟩
      | ⟨.error _, b, log⟩ => ⟨.error (), (some b, m), log⟩ := by
  unfold check
  dsimp only
  rw [hcall]
  unfold Handle.run
  rcases action b with ⟨e | x, b', log⟩
  · simp [Status.ofError_ne_ok]
  · simp

theorem live_encode {call : Handle → Reply Unit} {action : Action Error (Buffer handleCapacity) Unit}
    (hcall : ∀ b, call (some b) = Handle.execute action b) :
    Sim Live (check call) (action.mapError fun _ => ()).onFst := by
  rintro _ ⟨b, m⟩ rfl
  rw [check_of_run hcall]
  unfold Action.onFst Action.mapError
  dsimp only
  rcases action b with ⟨e | x, b', log⟩ <;> exact ⟨rfl, rfl, rfl⟩

theorem live_field (start : Nat) (field : Field) : Sim Live (codeField start field) (fieldOnBuffer start field) := by
  refine (Sim.view fun _ _ h => by rw [h]).bind fun region => ?_
  dsimp only
  split
  · rintro _ ⟨b, m⟩ rfl
    rw [bind_apply, bind_apply, check_of_run fun _ => rfl]
    unfold Action.onFst Action.mapError
    dsimp only
    rcases Buffer.decodeScalar field.type b with ⟨e | x, b', log⟩ <;> exact ⟨rfl, rfl, rfl⟩
  · exact live_encode fun _ => rfl

theorem live_fields (start : Nat) (fields : List Field) :
    Sim Live (codeFields start fields) (fieldsOnBuffer start fields) := by
  induction fields with
  | nil => exact Sim.pure _
  | cons field fields ih => exact (live_field start field).bind fun _ => ih

theorem live_opening (opening : Opening) : Sim Live (runOpening opening) (openingOnBuffer opening) := by
  cases opening with
  | nothing => exact Sim.pure _
  | _ =>
    rintro _ ⟨b, m⟩ rfl
    exact ⟨rfl, rfl, rfl⟩

theorem live_callback (script : FieldScript) (start : Nat) : Sim Live (script.callback start) (script.onBuffer start) := by
  refine (Sim.view fun _ _ h => by rw [h]).bind fun calls => ?_
  refine (Sim.update ?_).bind fun _ => ?_
  · rintro _ ⟨b, m⟩ rfl
    rfl
  split
  · exact Sim.fail _
  · exact (live_opening script.opening).bind fun _ => live_fields start script.fields

end FieldScript

def stringOnBuffer (s : Pointer CString) : Action Unit (Buffer handleCapacity × Scratch) Unit :=
  match s with
  | .null => Action.fail ()
  | .to s => ((Buffer.encodeCString s).mapError fun _ => ()).onFst

theorem live_string (strings : List (Pointer CString)) (index : Nat) :
    Sim FieldScript.Live (encodeStrings strings (index * 8)) (stringOnBuffer (strings[index]?.getD .null)) := by
  unfold encodeStrings
  rw [Nat.mul_div_cancel _ (by decide)]
  dsimp only
  rcases strings[index]?.getD .null with _ | s
  · rintro _ ⟨b, m⟩ rfl
    exact ⟨rfl, rfl, rfl⟩
  · exact FieldScript.live_encode fun _ => rfl

/-! ## What a call should do -/

namespace HandleStep

/-- Memory changes only if the operation succeeds. -/
def ofOutcome (lent : HandleExtra) (o : Outcome Error (Buffer handleCapacity) HandleExtra) : HandleStep :=
  match o with
  | ⟨.ok extra, b, log⟩ => ⟨.status .ok, extra, some b, log⟩
  | ⟨.error e, b, log⟩ => ⟨.status (.ofError e), lent, some b, log⟩

def ofCoding (extra : Scratch × Pointer (Option Nat) → HandleExtra) (failed : Pointer (Option Nat))
    (o : Outcome (ElementFailure Unit) (Buffer handleCapacity × Scratch) Nat) : HandleStep :=
  match o with
  | ⟨.ok _, (b, memory), log⟩ => ⟨.status .ok, extra (memory, failed), some b, log⟩
  | ⟨.error failure, (b, memory), log⟩ =>
    ⟨.status .elementFailed, extra (memory, failed.write (some failure.index)), some b, log⟩

end HandleStep

namespace HandleCall

/-- A pointer to no bytes or no elements is not needed. -/
def lacksPointer : HandleCall → Bool
  | load .null (_ + 1) | encodeBytes .null (_ + 1) | decodeBytes .null (_ + 1) => true
  | encodeCString .null | encodeCString (.to .null) | decodeCString .null _ => true
  | encode _ .null | decode _ .null => true
  | codeEach _ _ _ .null _ | codeEach .null (_ + 1) _ _ _ => true
  | _ => false

def lent : HandleCall → HandleExtra
  | decodeBytes out _ | decode _ out => .out out
  | decodeCString view consumed => .string view consumed
  | codeEach elements _ _ _ failed => .array failed (.ofElements elements)
  | codeStrings _ => .strings (.to none)
  | _ => .none

/-- What a call does to the buffer, with the memory as it leaves it. -/
def operation : HandleCall → Action Error (Buffer handleCapacity) HandleExtra
  | reset => do
    Action.update Buffer.reset
    return .none
  | sealed => do
    Action.update Buffer.sealed
    return .none
  | load bytes length => do
    Buffer.load (bytes.content.take length)
    return .none
  | encodeBytes bytes length => do
    Buffer.encodeBytes (bytes.content.take length)
    return .none
  | decodeBytes out length => do
    let bytes ← Buffer.decodeBytes length
    return .out (out.map fun old => bytes ++ old.drop length)
  | encodeCString (.to (.to s)) => do
    Buffer.encodeCString s
    return .none
  | decodeCString view consumed => do
    let start ← .view Buffer.cursor
    let s ← Buffer.decodeCString
    return .string (view.write (some ⟨start, s⟩)) (consumed.write (some (s.bytes.length + 1)))
  | encode t value => do
    Buffer.encodeScalar t (t.ofBytes (value.content.take t.width))
    return .none
  | decode t out => do
    let x ← Buffer.decodeScalar t
    return .out (out.map fun old => t.toBytes x ++ old.drop t.width)
  | c => return c.lent

def onBuffer (c : HandleCall) (b : Buffer handleCapacity) : HandleStep :=
  if c.lacksPointer then
    ⟨.status .nullPointer, c.lent, some b, []⟩
  else
    match c with
    | create => ⟨.created, .none, some (.empty handleCapacity), []⟩
    | destroy => ⟨.destroyed, .none, none, []⟩
    | data => ⟨.data (some b.written), .none, some b, []⟩
    | codeEach elements count size (.to script) failed =>
      if count ≠ 0 ∧ (size = 0 ∨ UInt64.size ≤ count * size) then
        ⟨.status .invalidParameter, c.lent, some b, []⟩
      else
        .ofCoding (fun (memory, failed) => .array failed memory) failed
          (Marshal.codeEach (fun index => script.onBuffer (index * size)) (List.range count) (b, .ofElements elements))
    | codeStrings strings =>
      if strings.length ≠ 0 ∧ UInt64.size ≤ strings.length * 8 then
        ⟨.status .invalidParameter, c.lent, some b, []⟩
      else
        .ofCoding (fun (_, failed) => .strings failed) (.to none)
          (Marshal.codeEach (fun index => stringOnBuffer (strings[index]?.getD .null)) (List.range strings.length)
            (b, ⟨[], 0⟩))
    | c => .ofOutcome c.lent (c.operation b)

def onNull : HandleCall → HandleStep
  | create => ⟨.created, .none, some (.empty handleCapacity), []⟩
  | destroy => ⟨.destroyed, .none, none, []⟩
  | data => ⟨.data none, .none, none, []⟩
  | c => ⟨.status .nullPointer, c.lent, none, []⟩

def expected (c : HandleCall) : Handle → HandleStep
  | none => c.onNull
  | some b => c.onBuffer b

end HandleCall

/-! ## What a call does -/

theorem HandleStep.ofReply_run (action : Action Error (Buffer handleCapacity) β) (out : α) (write : β → α)
    (extra : α → HandleExtra) (b : Buffer handleCapacity) :
    ofReply extra (Handle.run action out write b) =
      ofOutcome (extra out) ((do let x ← action; return extra (write x) : Action _ _ _) b) := by
  rw [bind_apply]
  unfold Handle.run
  rcases action b with ⟨e | x, b', log⟩
  · rfl
  · simp [ofReply, ofOutcome, pure_apply]

theorem HandleStep.ofReply_execute (action : Action Error (Buffer handleCapacity) Unit) (b : Buffer handleCapacity) :
    ofReply (fun _ => .none) (Handle.execute action b) =
      ofOutcome .none ((do action; return .none : Action _ _ _) b) := ofReply_run action () id (fun _ => .none) b

theorem HandleStep.ofReply_codeEach (extra : Scratch × Pointer (Option Nat) → HandleExtra) (elements : Pointer Unit)
    (count : Nat) {size : Nat} {code : Handle.ElementCallback Scratch}
    {coder : Nat → Action Unit (Buffer handleCapacity × Scratch) Unit}
    (hsim : ∀ index, Sim FieldScript.Live (code (index * size)) (coder index)) (hne : count ≠ 0 → elements ≠ .null)
    (memory : Scratch) (failed : Pointer (Option Nat)) (b : Buffer handleCapacity) :
    ofReply extra (Handle.codeEach elements count size (.to code) memory failed (some b)) =
      if count ≠ 0 ∧ (size = 0 ∨ UInt64.size ≤ count * size) then
        ⟨.status .invalidParameter, extra (memory, failed), some b, []⟩
      else
        ofCoding extra failed (codeEach coder (List.range count) (b, memory)) := by
  by_cases hbad : count ≠ 0 ∧ (size = 0 ∨ UInt64.size ≤ count * size)
  · unfold Handle.codeEach Handle.onLive
    dsimp only
    rw [if_neg hbad.1, if_neg (hne hbad.1), if_pos hbad.2, if_pos hbad]
    rfl
  rw [if_neg hbad, Handle.codeEach_of_checked fun hz => ⟨hne hz, by omega⟩, Handle.offsets, codeEach_map]
  obtain ⟨r, p, ⟨b', m⟩, log, hp, hq, rfl⟩ :=
    (Sim.codeEach hsim (List.range count) (some b, memory) (b, memory) rfl).exists_eq
  rw [hp, hq]
  cases r <;> rfl

namespace HandleCall

/-- The string starts where the reader of the buffer does, for it cannot start past the message. -/
theorem operation_decodeCString (view : Pointer (Option StringView)) (consumed : Pointer (Option Nat))
    (b : Buffer handleCapacity) :
    (decodeCString view consumed).operation b =
      (do let s ← Buffer.decodeCString
          return .string (view.write (some ⟨b.reader.position, s⟩)) (consumed.write (some s.width)) :
        Action Error _ HandleExtra) b := by
  rw [operation, bind_apply, bind_apply]
  dsimp only [Action.view]
  rw [bind_apply]
  cases hd : Buffer.decodeCString b with
  | mk r b' log =>
    cases r with
    | error e => rfl
    | ok s =>
      rw [(Buffer.decodeCString_of_ok (congrArg Outcome.result hd)).1]
      rfl

theorem step_null (c : HandleCall) : c.step none = c.onNull := by cases c <;> rfl

section
variable (b : Buffer handleCapacity)

theorem step_load (bytes : Pointer (List UInt8)) (length : Nat) :
    (load bytes length).step (some b) = (load bytes length).onBuffer b := by
  rcases length with _ | length
  · have h := HandleStep.ofReply_execute (Buffer.load []) b
    rcases bytes with _ | bytes <;> exact h
  · rcases bytes with _ | bytes
    · rfl
    · exact HandleStep.ofReply_execute (Buffer.load (bytes.take (length + 1))) b

theorem step_encodeBytes (bytes : Pointer (List UInt8)) (length : Nat) :
    (encodeBytes bytes length).step (some b) = (encodeBytes bytes length).onBuffer b := by
  rcases length with _ | length
  · -- the call does nothing, and encoding no bytes does nothing either
    have hnone : Buffer.encodeBytes [] b = ⟨.ok (), b, []⟩ := Buffer.encodeBytes_of_le (Nat.zero_le _)
    have ho : (encodeBytes bytes 0).operation b = ⟨.ok .none, b, []⟩ := by
      rw [operation, List.take_zero, bind_apply, hnone]
      rfl
    have h := congrArg (HandleStep.ofOutcome .none) ho
    rcases bytes with _ | bytes <;> exact h.symm
  · rcases bytes with _ | bytes
    · rfl
    · exact HandleStep.ofReply_execute (Buffer.encodeBytes (bytes.take (length + 1))) b

theorem step_decodeBytes (out : Pointer (List UInt8)) (length : Nat) :
    (decodeBytes out length).step (some b) = (decodeBytes out length).onBuffer b := by
  rcases length with _ | length
  · have ho : (decodeBytes out 0).operation b = ⟨.ok (.out out), b, []⟩ := by
      rw [operation, bind_apply, Buffer.decodeBytes_zero]
      rcases out with _ | old <;> rfl
    have h := congrArg (HandleStep.ofOutcome (.out out)) ho
    rcases out with _ | old <;> exact h.symm
  · rcases out with _ | old
    · rfl
    · exact HandleStep.ofReply_run (Buffer.decodeBytes (length + 1)) _ _ .out b

theorem step_decodeCString (view : Pointer (Option StringView)) (consumed : Pointer (Option Nat)) :
    (decodeCString view consumed).step (some b) = (decodeCString view consumed).onBuffer b := by
  rcases view with _ | old
  · rfl
  · have h := HandleStep.ofReply_run Buffer.decodeCString (.to old, consumed)
      (fun s => (.to (some ⟨b.reader.position, s⟩), consumed.write (some s.width))) (fun p => .string p.1 p.2) b
    exact h.trans (congrArg (HandleStep.ofOutcome _) (operation_decodeCString (.to old) consumed b).symm)

theorem step_codeEach (elements : Pointer (List UInt8)) (count size : Nat) (coder : Pointer FieldScript)
    (failed : Pointer (Option Nat)) :
    (codeEach elements count size coder failed).step (some b) =
      (codeEach elements count size coder failed).onBuffer b := by
  rcases coder with _ | script
  · rcases elements with _ | region <;> rcases count with _ | count <;> rfl
  have h (there : Pointer Unit) (hne : count ≠ 0 → there ≠ .null) := HandleStep.ofReply_codeEach
    (fun p => .array p.2 p.1) there count (fun index => script.live_callback (index * size)) hne
    (.ofElements elements) failed b
  rcases elements with _ | region
  · rcases count with _ | count
    · exact h .null (absurd rfl)
    · rfl
  · exact h (.to ()) fun _ => nofun

theorem step_codeStrings (strings : List (Pointer CString)) :
    (codeStrings strings).step (some b) = (codeStrings strings).onBuffer b := by
  have h := HandleStep.ofReply_codeEach (fun p => .strings p.2) (.to ()) strings.length (live_string strings)
    (fun _ => nofun) ⟨[], 0⟩ (.to none) b
  simp only [OfNat.ofNat_ne_zero, false_or] at h
  exact h

theorem step_buffer (c : HandleCall) : c.step (some b) = c.onBuffer b := by
  cases c with
  | create => rfl
  | destroy => rfl
  | data => rfl
  | reset => exact HandleStep.ofReply_execute (.update Buffer.reset) b
  | sealed => exact HandleStep.ofReply_execute (.update Buffer.sealed) b
  | load bytes length => exact step_load b bytes length
  | encodeBytes bytes length => exact step_encodeBytes b bytes length
  | decodeBytes out length => exact step_decodeBytes b out length
  | encodeCString s =>
    rcases s with _ | _ | s
    · rfl
    · rfl
    · exact HandleStep.ofReply_execute (Buffer.encodeCString s) b
  | decodeCString view consumed => exact step_decodeCString b view consumed
  | encode t value =>
    rcases value with _ | bytes
    · rfl
    · exact HandleStep.ofReply_execute (Buffer.encodeScalar t (t.ofBytes (bytes.take t.width))) b
  | decode t out =>
    rcases out with _ | old
    · rfl
    · exact HandleStep.ofReply_run (Buffer.decodeScalar t) _ _ .out b
  | codeEach elements count size coder failed => exact step_codeEach b elements count size coder failed
  | codeStrings strings => exact step_codeStrings b strings

end

theorem step_eq_expected (c : HandleCall) (h : Handle) : c.step h = c.expected h := by
  cases h with
  | none => exact c.step_null
  | some b => exact step_buffer b c

end HandleCall

/-! ## Sessions -/

def HandleStep.report (s : HandleStep) : HandleReport :=
  match s.handle with
  | none => ⟨s.answer, s.extra, 0, 0, 0, s.log⟩
  | some b => ⟨s.answer, s.extra, handleCapacity, b.cursor, b.used, s.log⟩

def expectedRun (handles : List Handle) : List (Nat × HandleCall) → List HandleReport × List Handle
  | [] => ([], handles)
  | (index, c) :: rest =>
    let s := c.expected (handles[index]?.getD none)
    let (reports, handles) := expectedRun (handles.set index s.handle) rest
    (s.report :: reports, handles)

theorem stepHandle_eq (handles : List Handle) (index : Nat) (c : HandleCall) :
    stepHandle handles index c =
      let s := c.expected (handles[index]?.getD none)
      (s.report, handles.set index s.handle) := by
  unfold stepHandle
  rw [c.step_eq_expected]
  rcases c.expected (handles[index]?.getD none) with ⟨answer, extra, _ | b, log⟩ <;> rfl

theorem runHandles_eq (handles : List Handle) (calls : List (Nat × HandleCall)) :
    runHandles handles calls = expectedRun handles calls := by
  induction calls generalizing handles with
  | nil => rfl
  | cons call rest ih =>
    simp only [runHandles, expectedRun, stepHandle_eq, ih]

/-! ## What the operations return -/

def Shortage (e : Error) : Prop := (∃ r a, e = .overflow r a) ∨ ∃ r a, e = .underflow r a

def RunsShort {σ : Type} (a : Action Error σ α) (s : σ) : Prop :=
  ∃ refusal, RefusedWith refusal a s ∧ ∀ e ∈ refusal, Shortage e

namespace RunsShort

variable {σ : Type} {a : Action Error σ α} {s : σ}

theorem of_shortage {error : Nat → Nat → Error} {requested available : Nat} (herror : ∀ r a, Shortage (error r a))
    (h : RefusedWith (shortage error requested available) a s) : RunsShort a s := by
  refine ⟨_, h, fun e he => ?_⟩
  unfold shortage at he
  split at he
  · cases he
    exact herror _ _
  · cases he

theorem map (h : RunsShort a s) (f : α → β) : RunsShort (do let x ← a; return f x) s := by
  obtain ⟨refusal, hr, hs⟩ := h
  exact ⟨refusal, hr.map f, hs⟩

theorem of_error (h : RunsShort a s) {e : Error} (he : (a s).result = .error e) : (a s).state = s ∧ Shortage e := by
  obtain ⟨refusal, hr, hs⟩ := h
  cases refusal with
  | some e' =>
    obtain ⟨hr, hst⟩ := hr
    rw [hr] at he
    cases he
    exact ⟨hst, hs _ rfl⟩
  | none =>
    obtain ⟨x, hx⟩ := hr
    rw [hx] at he
    cases he

end RunsShort

theorem shortage_overflow (r a : Nat) : Shortage (.overflow r a) := .inl ⟨r, a, rfl⟩

theorem shortage_underflow (r a : Nat) : Shortage (.underflow r a) := .inr ⟨r, a, rfl⟩

theorem runsShort_decodeCString (b : Buffer N) : RunsShort Buffer.decodeCString b := by
  refine ⟨_, Buffer.refused_read (Reader.refused_decodeCString b.reader), fun e he => ?_⟩
  split at he
  · cases he
  · cases he
    exact shortage_underflow _ _

theorem HandleCall.operation_runsShort (c : HandleCall) (b : Buffer handleCapacity) : RunsShort c.operation b := by
  have hnone {a : Action Error (Buffer handleCapacity) HandleExtra} {x} (h : (a b).result = .ok x) : RunsShort a b :=
    ⟨none, ⟨x, h⟩, nofun⟩
  have hencode (bytes : List UInt8) : RunsShort (Buffer.encodeBytes bytes) b :=
    .of_shortage shortage_overflow (Buffer.refused_encodeBytes bytes b)
  cases c with
  | load bytes length => exact .map (.of_shortage shortage_overflow (Buffer.refused_load _ b)) _
  | encodeBytes bytes length => exact (hencode _).map _
  | decodeBytes out length =>
    exact .map (.of_shortage shortage_underflow (Buffer.refused_read (Reader.refused_decodeBytes length _))) _
  | encodeCString s =>
    rcases s with _ | _ | s
    · exact hnone rfl
    · exact hnone rfl
    · exact (hencode s.image).map _
  | decodeCString view consumed =>
    obtain ⟨refusal, hr, hs⟩ := (runsShort_decodeCString b).map
      fun s => HandleExtra.string (view.write (some ⟨b.cursor, s⟩)) (consumed.write (some s.width))
    refine ⟨refusal, ?_, hs⟩
    cases refusal <;> exact hr
  | encode t value => exact (hencode _).map _
  | decode t out =>
    exact .map (.of_shortage shortage_underflow (Buffer.refused_read (Reader.refused_decodeScalar t _))) _
  | _ => exact hnone rfl

namespace HandleCall

variable {b : Buffer handleCapacity}

theorem step_encode_of_toBytes {t : ScalarType} {bytes image : List UInt8} {length : Nat}
    (h : t.toBytes (t.ofBytes (bytes.take t.width)) = image.take length) :
    (encode t (.to bytes)).step (some b) = (encodeBytes (.to image) length).step (some b) := by
  rw [step_buffer, step_buffer]
  show HandleStep.ofOutcome .none ((Buffer.encodeBytes (t.toBytes (t.ofBytes (bytes.take t.width))) >>= _ :
    Action _ _ HandleExtra) b) = _
  rw [h]
  rfl

theorem step_encode_bool (byte : UInt8) (rest : List UInt8) :
    (encode .bool (.to (byte :: rest))).step (some b) =
      (encodeBytes (.to [if byte = 0 then 0 else 1]) 1).step (some b) :=
  step_encode_of_toBytes (ScalarType.toBytes_ofBytes .bool (show [byte].length = 1 from rfl))

theorem step_encode_of_ne_bool {t : ScalarType} (ht : t ≠ .bool) {bytes : List UInt8} (h : t.width ≤ bytes.length) :
    (encode t (.to bytes)).step (some b) = (encodeBytes (.to bytes) t.width).step (some b) := by
  apply step_encode_of_toBytes
  rw [ScalarType.toBytes_ofBytes t (List.length_take_of_le h), ScalarType.settle_of_ne_bool ht]

theorem step_decodeCString_of_ok {old : Option StringView} {consumed : Pointer (Option Nat)}
    (h : ((decodeCString (.to old) consumed).step (some b)).answer = .status .ok) :
    ∃ s : CString, (Buffer.decodeCString b).result = .ok s ∧
      ((decodeCString (.to old) consumed).step (some b)).extra =
        .string (.to (some ⟨b.cursor, s⟩)) (consumed.write (some s.width)) ∧
      ((decodeCString (.to old) consumed).step (some b)).handle = some { b with cursor := b.cursor + s.width } := by
  have hstep : (decodeCString (.to old) consumed).step (some b) =
      HandleStep.ofOutcome (.string (.to old) consumed) ((decodeCString (.to old) consumed).operation b) := step_buffer b _
  rw [hstep, operation_decodeCString, bind_apply] at h
  rw [hstep, operation_decodeCString, bind_apply]
  rcases hd : Buffer.decodeCString b with ⟨e | s, b', log⟩
  · rw [hd] at h
    exact absurd (HandleAnswer.status.inj h) (Status.ofError_ne_ok e)
  · obtain ⟨hposition, -, -, hstate⟩ := Buffer.decodeCString_of_ok (congrArg Outcome.result hd)
    rw [hd] at hstate
    refine ⟨s, rfl, ?_, congrArg some hstate⟩
    rw [hposition]
    rfl

end HandleCall

end Session

/-- **Handles refine buffers.** Every call is refused on a NULL handle or a NULL pointer that it
needs, with nothing changed, and else is one operation of the buffer; memory is written if this
succeeds. A decoded string stands at the old cursor. -/
theorem handles_refine_buffers :
    (∀ (handles : List Handle) (calls : List (Nat × HandleCall)), runHandles handles calls = expectedRun handles calls) ∧
    (∀ (c : HandleCall) (b : Buffer handleCapacity) (e : Error), (c.operation b).result = .error e →
      (c.operation b).state = b ∧ ∃ r a, (e = .overflow r a ∧ Status.ofError e = .overflow) ∨
        (e = .underflow r a ∧ Status.ofError e = .underflow)) ∧
    (∀ (bytes : Pointer (List UInt8)) (b : Buffer handleCapacity),
      (HandleCall.load bytes 0).step (some b) = ⟨.status .ok, .none, some ⟨b.storage, 0, 0⟩, []⟩ ∧
      (HandleCall.encodeBytes bytes 0).step (some b) = ⟨.status .ok, .none, some b, []⟩ ∧
      (HandleCall.decodeBytes bytes 0).step (some b) = ⟨.status .ok, .out bytes, some b, []⟩) ∧
    (∀ (byte : UInt8) (rest : List UInt8) (b : Buffer handleCapacity),
      (HandleCall.encode .bool (.to (byte :: rest))).step (some b) =
        (HandleCall.encodeBytes (.to [if byte = 0 then 0 else 1]) 1).step (some b)) ∧
    (∀ (t : ScalarType) (bytes : List UInt8) (b : Buffer handleCapacity), t ≠ .bool → t.width ≤ bytes.length →
      (HandleCall.encode t (.to bytes)).step (some b) = (HandleCall.encodeBytes (.to bytes) t.width).step (some b)) ∧
    (∀ x : Bool, ScalarType.bool.toBytes x = [if x then 1 else 0]) ∧
    ∀ (old : Option StringView) (consumed : Pointer (Option Nat)) (b : Buffer handleCapacity),
      let after := (HandleCall.decodeCString (.to old) consumed).step (some b)
      after.answer = .status .ok → ∃ s : CString,
        after.extra = .string (.to (some ⟨b.cursor, s⟩)) (consumed.write (some (s.bytes.length + 1))) ∧
        0 ∉ s.bytes ∧ (b.storage.toList.drop b.cursor).take (s.bytes.length + 1) = s.bytes ++ [0] ∧
        b.cursor + (s.bytes.length + 1) ≤ b.used ∧
        after.handle = some { b with cursor := b.cursor + (s.bytes.length + 1) } := by
  refine ⟨runHandles_eq, fun c b e he => ?_, fun bytes b => ?_, fun byte rest b => HandleCall.step_encode_bool byte rest,
    fun t bytes b ht => HandleCall.step_encode_of_ne_bool ht, fun x => ?_, fun old consumed b => ?_⟩
  · obtain ⟨hstate, hshort⟩ := (c.operation_runsShort b).of_error he
    refine ⟨hstate, ?_⟩
    rcases hshort with ⟨r, a, rfl⟩ | ⟨r, a, rfl⟩
    · exact ⟨r, a, .inl ⟨rfl, rfl⟩⟩
    · exact ⟨r, a, .inr ⟨rfl, rfl⟩⟩
  · cases bytes <;> exact ⟨rfl, rfl, rfl⟩
  · cases x <;> rfl
  · intro after h
    obtain ⟨s, hs, hextra, hhandle⟩ := HandleCall.step_decodeCString_of_ok h
    obtain ⟨-, hfit, hbytes, -⟩ := Buffer.decodeCString_of_ok hs
    exact ⟨s, hextra, s.nul_free, hbytes, hfit, hhandle⟩

/-- Zeros from the cursor on are the empty string, and past the message they are none. -/
theorem handles_refine_buffers_of_zeros :
    let b : Buffer handleCapacity := ⟨.replicate 256 0, 3, 4⟩
    let decode : HandleCall := .decodeCString (.to none) (.to none)
    let calls : List (Nat × HandleCall) := [(0, decode), (1, decode), (1, decode), (1, .encode .bool (.to [5]))]
    let after := decode.step (some b)
    runHandles [none, some b] calls = expectedRun [none, some b] calls ∧
      (∃ s : CString, after.extra = .string (.to (some ⟨3, s⟩)) (.to (some (s.bytes.length + 1))) ∧
        after.handle = some { b with cursor := 3 + (s.bytes.length + 1) }) ∧
      (decode.operation b.reset).state = b.reset ∧
      (HandleCall.encode .bool (.to [5])).step (some b) = (HandleCall.encodeBytes (.to [1]) 1).step (some b) ∧
      (HandleCall.encode .u16 (.to [1, 2, 3])).step (some b) = (HandleCall.encodeBytes (.to [1, 2, 3]) 2).step (some b) := by
  intro b decode calls after
  obtain ⟨hruns, herror, -, hbool, hscalar, -, hstring⟩ := handles_refine_buffers
  obtain ⟨s, hextra, -, -, -, hhandle⟩ := hstring none (.to none) b rfl
  exact ⟨hruns _ _, ⟨s, hextra, hhandle⟩, (herror decode b.reset (.underflow 1 0) rfl).1, hbool 5 [] b,
    hscalar .u16 _ b (by decide) (by decide)⟩

end Marshal
