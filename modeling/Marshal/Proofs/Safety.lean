import Marshal.Proofs.MachineSteps

/-!
# Every reachable state is in bounds, and no call ends the program

A state is reachable by sessions and by programs with coders and encoders of
their own, and with decoders that do no more than move their reader, in any
order and whatever failed on the way. The bounds hold in all of them, so
machine arithmetic is safe in all of them. They need not hold after a decoder
that leaves another reader behind: the cursor follows it past the capacity.
-/

namespace Marshal

open Marshal.Action Session

variable {ε κ α : Type} {N : Nat}

/-! ## Decoding moves the cursor forward, up to the used count -/

structure Buffer.Ahead (b c : Buffer N) : Prop where
  storage_eq : c.storage = b.storage
  used_eq : c.used = b.used
  le_cursor : b.cursor ≤ c.cursor
  cursor_le : c.cursor ≤ max b.cursor b.used

namespace Buffer

theorem Ahead.refl (b : Buffer N) : Ahead b b := ⟨rfl, rfl, Nat.le_refl _, Nat.le_max_left _ _⟩

theorem keeps_ahead_read {b : Buffer N} (hb : b.InBounds) {d : Action Error Reader α}
    (hd : ∀ bytes, Keeps (Reader.Inside bytes) d) : Keeps (Ahead b) (read d) := by
  intro c hc
  have hbc := hb.cursor_le
  have hbu := hb.used_le
  have hcu := hc.used_eq
  have hle := hc.cursor_le
  have hge := hc.le_cursor
  have hin : c.InBounds := ⟨by omega, by omega⟩
  have hend := (hd _ _ hin.reader_inside).2
  rw [length_message hin.used_le] at hend
  rw [read_apply]
  rcases hr : d c.reader with ⟨_ | x, r, log⟩
  · exact hc
  · rw [hr] at hend
    dsimp only at hend ⊢
    split
    · next hlt =>
      -- a reader starts at the cursor, or at the end of the message if the cursor is past it
      have hlt' : min c.cursor c.used < r.position := hlt
      exact ⟨hc.storage_eq, hc.used_eq, by dsimp only; omega, by dsimp only; omega⟩
    · exact hc

end Buffer

/-- Puts another reader in the place of its own, and reads that one to its end. -/
def Reader.decodeElsewhere (bytes : List UInt8) : Action Error Reader (List UInt8) := do
  Action.update fun _ => .ofBytes bytes
  decodeBytes bytes.length

theorem Buffer.read_elsewhere {b : Buffer N} {bytes : List UInt8} (h : b.reader.position < bytes.length) :
    read (Reader.decodeElsewhere bytes) b = ⟨.ok bytes, { b with cursor := bytes.length }, []⟩ := by
  have hall : bytes.length ≤ (Reader.ofBytes bytes).unread := Nat.le_refl _
  have hread : Reader.decodeBytes bytes.length (.ofBytes bytes) = ⟨.ok bytes, ⟨bytes, bytes.length⟩, []⟩ := by
    rw [Reader.decodeBytes_of_le hall]
    simp [Reader.rest, Reader.moveTo, Reader.ofBytes]
  have hdecode : Reader.decodeElsewhere bytes b.reader = ⟨.ok bytes, ⟨bytes, bytes.length⟩, []⟩ := by
    rw [Reader.decodeElsewhere, bind_apply]
    simp only [Action.update, hread, List.nil_append]
  rw [read_apply, hdecode]
  simp only [h, if_true]

theorem Buffer.not_inBounds_read_elsewhere {b : Buffer N} (hb : b.InBounds) {bytes : List UInt8}
    (h : N < bytes.length) : ¬ (read (Reader.decodeElsewhere bytes) b).state.InBounds := by
  have hposition : b.reader.position ≤ b.used := Nat.min_le_right _ _
  have hused := hb.used_le
  rw [read_elsewhere (by omega)]
  intro hend
  exact absurd hend.cursor_le (Nat.not_le.mpr h)

def Session.Call.Decodes : Call N → Prop
  | .fetch _ | .slots .. | .fillRegion .. => True
  | _ => False

theorem Session.Call.Decodes.ahead {c : Call N} (hc : c.Decodes) {b : Buffer N} (hb : b.InBounds) :
    b.Ahead (c.step b).state := by
  have hread {α : Type} {d : Action Error Reader α} (hd : ∀ bytes, Keeps (Reader.Inside bytes) d) :
      Sim (Both b.Ahead) (Buffer.read d) (Buffer.read d) := keeps_iff_sim.mp (Buffer.keeps_ahead_read hb hd)
  have hkeeps : Step.Keeps b.Ahead c.step := by
    rw [Step.keeps_iff_sim]
    cases c with
    | fetch q => exact q.step_sim fun d hd => hread hd
    | slots f count => exact .ofSlots f count (hread fun _ => f.keeps_decode)
    | fillRegion region count size =>
      exact Buffer.Congruence.fillPieces (R := fun _ : Unit => Both b.Ahead) (i := ())
        (hread fun _ => Reader.keeps_decodeBytes size) region count
    | _ => exact hc.elim
  exact hkeeps b (.refl b)

/-! ## Reachable states -/

inductive Buffer.Reachable : Buffer N → Prop
  | run {b : Buffer N} (count : Nat) (calls : List (Nat × BenchCall N)) :
      b ∈ ((Bench.fresh N count).run calls).2.buffers → Reachable b
  | program {κ ε α : Type} {b : Buffer N} {a : Action ε (κ × Buffer N) α} (memory : κ) :
      Reachable b → Buffer.Program (fun _ => True) a → Reachable (a (memory, b)).state.2

inductive Reader.Reachable : Reader → Prop
  | ofBytes (bytes : List UInt8) : Reachable (.ofBytes bytes)
  | ofBuffer {N : Nat} {b : Buffer N} : b.Reachable → Reachable b.reader
  | run {readers : List Reader} {r : Reader} (calls : List (Nat × ReadersCall)) :
      (∀ r ∈ readers, Reachable r) → r ∈ (runReaders readers calls).2 → Reachable r
  | program {κ ε α : Type} {r : Reader} {d : Action ε (κ × Reader) α} (memory : κ) :
      Reachable r → Reader.Program d → Reachable (d (memory, r)).state.2

theorem Buffer.Reachable.inBounds {b : Buffer N} (h : b.Reachable) : b.InBounds := by
  induction h with
  | run count calls hb => exact Bench.run_inBounds (Bench.fresh_inBounds N count) calls _ hb
  | program memory _ ha ih => exact Buffer.keeps_program (fun c _ => c.keeps_step) ha (memory, _) ih

theorem Reader.Reachable.valid {r : Reader} (h : r.Reachable) : r.Valid := by
  induction h with
  | ofBytes bytes => exact Nat.zero_le _
  | ofBuffer hb => exact hb.inBounds.reader_inside.valid
  | run calls _ hr ih => exact runReaders_valid ih calls _ hr
  | @program κ ε α r d memory _ hd ih =>
    have hsim := hd.sim (memory, r) (memory, r) ⟨rfl, rfl, (⟨rfl, ih⟩ : r.Inside r.bytes)⟩
    exact hsim.state.2.2.valid

/-- **Bounds and safety.** In every reachable state cursor and used count are within the capacity, a
decode moves the cursor forward and not past the used count, and no call ends the program. Readers
stay within their bytes likewise. -/
theorem reachable_in_bounds :
    (∀ (N : Nat) (b : Buffer N), b.Reachable →
      b.cursor ≤ N ∧ b.used ≤ N ∧
      (∀ c : Call N, c.Decodes → b.Ahead (c.step b).state) ∧
      (∀ {κ α : Type} (d : Action Error (κ × Reader) α), Reader.Program d → ∀ memory : κ,
        b.Ahead (Buffer.read (d.within memory) b).state) ∧
      (N < 2 ^ 63 → ∀ c : Call N, c.Sized → Checked.step c b = some (c.step b))) ∧
    (∀ r : Reader, r.Reachable →
      r.position ≤ r.bytes.length ∧
      (r.bytes.length < 2 ^ 63 → ∀ c : ReaderCall, c.Sized → Checked.readerStep c r = some (c.step r))) ∧
    (∀ {ε σ α : Type} (coder : α → Action ε σ Unit) (xs : List α), xs.length < 2 ^ 64 →
      ∀ s : σ, Checked.codeEach (fun x => .of (coder x)) xs s = some (codeEach coder xs s)) := by
  refine ⟨fun N b hb => ?_, fun r hr => ?_, fun {ε σ α} coder xs hl s => ?_⟩
  · have hin := hb.inBounds
    refine ⟨hin.cursor_le, hin.used_le, fun c hc => hc.ahead hin, fun d hd memory => ?_, fun hN c hc => ?_⟩
    · exact Buffer.keeps_ahead_read hin (fun _ => hd.keeps_within memory) b (.refl b)
    · exact Call.runs hN hc b hin
  · exact ⟨hr.valid, fun hbytes c hc => ReaderCall.runs hbytes hc r ⟨rfl, hr.valid⟩⟩
  · exact (Runs.codeEach (P := fun _ => True) (fun x _ => Runs.of fun _ _ => trivial) hl s trivial).1

/-- A cursor past the used count and at the capacity; two bytes read one by one. -/
theorem reachable_in_bounds_at_capacity :
    let b : Buffer 4 := ⟨#v[7, 8, 9, 0], 4, 3⟩
    let c : Buffer 4 := ⟨#v[7, 8, 9, 0], 0, 3⟩
    let slice : Action Error (Unit × Reader) _ := ask (ReaderCall.slice 1).step
    let slices := do
      let _ ← slice
      slice
    b.cursor ≤ 4 ∧ b.used ≤ 4 ∧ b.Ahead ((Call.fetch (.bytes [0])).step b).state ∧
      Checked.step (.encodeRegion [1, 2] 2 1) b = some ((Call.encodeRegion [1, 2] 2 1).step b) ∧
      b.reader.position ≤ b.reader.bytes.length ∧
      Checked.readerStep (.slice 5) b.reader = some ((ReaderCall.slice 5).step b.reader) ∧
      Checked.codeEach (fun x => .of (Buffer.encodeBytes [x])) [1, 2] b =
        some (codeEach (fun x => Buffer.encodeBytes [x]) [1, 2] b) ∧
      c.Ahead (Buffer.read (slices.within ()) c).state ∧ (Buffer.read (slices.within ()) c).state.cursor = 2 := by
  intro b c slice slices
  obtain ⟨hbuffers, hreaders, hcode⟩ := reachable_in_bounds
  have hb : b.Reachable := .run 1 [(0, .station (.call (.encodeBytes [7, 8, 9]))), (0, .station (.call .sealed)),
    (0, .station (.call (.seek 4)))] (by decide)
  obtain ⟨hcursor, hused, hdecode, -, hstep⟩ := hbuffers 4 b hb
  obtain ⟨hposition, hreader⟩ := hreaders b.reader (.ofBuffer hb)
  have hc : c.Reachable := .run 1 [(0, .station (.call (.encodeBytes [7, 8, 9]))), (0, .station (.call .sealed))]
    (by decide)
  have hslices : Reader.Program slices := .bind (.call _) fun _ => .call _
  obtain ⟨-, -, -, hprogram, -⟩ := hbuffers 4 c hc
  exact ⟨hcursor, hused, hdecode _ trivial, hstep (by decide) _ (show _ < _ by decide), hposition,
    hreader (by decide) _ trivial, hcode _ _ (by decide) b, hprogram slices hslices (), rfl⟩

end Marshal
