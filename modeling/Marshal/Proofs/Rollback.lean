import Marshal.Proofs.ByteStack
import Marshal.Proofs.Recycling

/-!
# Encoding all or nothing

An encode that takes the cursor back if it fails leaves the bytes beyond the
cursor overwritten. If the message ends at the cursor or before it, these are
old bytes, and nothing that is called later can tell that there was an attempt.
-/

namespace Marshal

open Marshal.Action Session

variable {N : Nat} {κ ε α : Type}

namespace Buffer

/-- Nothing below the cursor is overwritten, so what was written and is used there is the same. -/
theorem sameBelow_rewind_append {b : Buffer N} (hb : b.InBounds) (hused : b.used ≤ b.cursor) (bytes : List UInt8) :
    SameBelow 0 ((b.append bytes).rewind b.checkpoint) b := by
  rw [rewind_checkpoint hb.cursor_le]
  refine ⟨rfl, rfl, ⟨hb.cursor_le, hb.used_le⟩, fun i hi => ?_⟩
  dsimp only [append] at hi ⊢
  rw [getElem?_overwrite, if_neg (by omega)]

end Buffer

/-- **A whole encode is all or nothing.** It does what the plain encode does, or fails as that does
with cursor, used count and written bytes as before. If the message does not go on beyond the
cursor, later calls that keep old bytes out of sight cannot notice the failure. -/
theorem encodeWhole_all_or_nothing (b : Buffer N) (hb : b.InBounds) (x : Item) :
    ((Buffer.encode x b).result = .ok () → Buffer.encodeWhole x b = Buffer.encode x b) ∧
    (∀ e, (Buffer.encode x b).result = .error e →
      let failed := (Buffer.encodeWhole x b).state
      (Buffer.encodeWhole x b).result = .error e ∧
        failed.cursor = b.cursor ∧ failed.used = b.used ∧ failed.written = b.written ∧
        Buffer.restore b.checkpoint (Buffer.encode x b).state = ⟨.ok (), failed, []⟩ ∧
        (b.used ≤ b.cursor → failed.message = b.message ∧
          (∀ calls : List (Call N), (∀ c ∈ calls, c.Blind) →
            trace Call.step (fun c => (c.cursor, c.used, c.written, c.message)) calls failed =
              trace Call.step (fun c => (c.cursor, c.used, c.written, c.message)) calls b) ∧
          ∀ {κ ε α : Type} (a : Action ε (κ × Buffer N) α), Buffer.Program Call.Blind a → ∀ memory : κ,
            (a (memory, failed)).Alike (Beside κ Buffer.Visible) (a (memory, b)))) := by
  refine ⟨Buffer.atomically_of_ok, fun e he => ?_⟩
  obtain ⟨bytes, hroom, hstate⟩ := x.format.exists_encode_state x.value b
  have hwhole : Buffer.encodeWhole x b = _ := Buffer.atomically_of_error he
  have hfailed : (Buffer.encodeWhole x b).state = (b.append bytes).rewind b.checkpoint := by
    rw [hwhole, ← hstate]
    rfl
  dsimp only
  refine ⟨congrArg Outcome.result hwhole, ?_, ?_, ?_, ?_, fun hused => ?_⟩
  · rw [hfailed, Buffer.rewind_checkpoint hb.cursor_le]
  · rw [hfailed]
    rfl
  · rw [hfailed, Buffer.written_rewind_append hb.cursor_le hroom]
  · rw [Buffer.restore_checkpoint hb.cursor_le, hwhole]
  · have hsame : Buffer.SameBelow 0 (Buffer.encodeWhole x b).state b := by
      rw [hfailed]
      exact Buffer.sameBelow_rewind_append hb hused bytes
    refine ⟨hsame.message_eq, fun calls hc => ?_, fun {κ ε α} a ha memory => hsame.program_alike ha memory⟩
    refine trace_eq (fun c hm => (Call.Blind.sim (hc c hm) 0).refines) (fun s t h => ?_) hsame
    rw [h.cursor_eq, h.used_eq, h.written_eq, h.message_eq]

/-- The number of the record has room and its text has none; later calls do not notice. -/
theorem encodeWhole_all_or_nothing_of_record :
    let b := (Buffer.empty 4).append [9]
    let fitting : Item := ⟨.scalar .u16, (258 : UInt16)⟩
    let wide : Item := ⟨.record [.scalar .u16, .leaf .text], ((258 : UInt16), "hi", ())⟩
    let later : List (Call 4) := [.encodeBytes [7], .sealed, .fetch (.item (.scalar .u16))]
    let failed := (Buffer.encodeWhole wide b).state
    let popping : Action Unit (Unit × Buffer 4) _ := ask (Call.popBytes [0]).step
    Buffer.encodeWhole fitting b = Buffer.encode fitting b ∧
      (Buffer.encodeWhole wide b).result = .error (.overflow 3 1) ∧ failed.cursor = 1 ∧ failed.written = [9] ∧
      failed.storage ≠ b.storage ∧
      trace Call.step (fun c => (c.cursor, c.used, c.written, c.message)) later failed =
        trace Call.step (fun c => (c.cursor, c.used, c.written, c.message)) later b ∧
      (popping ((), failed)).Alike (Beside Unit Buffer.Visible) (popping ((), b)) := by
  intro b fitting wide later failed popping
  have hb : b.InBounds := ⟨by decide, by decide⟩
  obtain ⟨-, hwide⟩ := encodeWhole_all_or_nothing b hb wide
  obtain ⟨hresult, hcursor, -, hwritten, -, hunnoticed⟩ := hwide (.overflow 3 1) (by decide)
  obtain ⟨-, hcalls, hprograms⟩ := hunnoticed (by decide)
  refine ⟨(encodeWhole_all_or_nothing b hb fitting).1 (by decide), hresult, hcursor, hwritten, by decide,
    hcalls later ?_, hprograms popping (.call _ trivial) ()⟩
  simp [later, Call.Blind, Call.Plain]

/-- A message that goes on beyond the cursor is overwritten. -/
example :
    let b : Buffer 4 := ⟨#v[1, 2, 3, 4], 1, 4⟩
    let wide : Item := ⟨.record [.scalar .u16, .scalar .u32], (7, 8, ())⟩
    (Buffer.encodeWhole wide b).state.message = [1, 7, 0, 4] ∧ b.message = [1, 2, 3, 4] := by decide

end Marshal
