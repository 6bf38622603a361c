import Marshal.Proofs.Machine
import Marshal.Proofs.PartialWrites
import Marshal.Proofs.StringReads

/-!
# A text is written as its bytes and a NUL

The encoder of texts checks the room for the bytes and the terminator itself
and writes them one after the other, and yet it returns and leaves what the
encoder of bytes does, given both at once. Only the character NUL has a NUL
among its bytes, so a text that holds one is refused before any room is asked
for.
-/

namespace Marshal

open Marshal.Action

variable {N : Nat}

/-! ## NUL as a character and as a byte -/

theorem zero_mem_encodeScalarValue {n : Nat} (h : IsScalarValue n) : 0 ∈ encodeScalarValue n ↔ n = 0 := by
  have hn : n ≤ 0x10FFFF := by
    rcases h with h | h
    · omega
    · exact h.2
  unfold encodeScalarValue
  split_ifs <;> simp [← UInt8.toNat_inj] <;> omega

theorem zero_mem_utf8_iff {text : String} : 0 ∈ utf8 text ↔ '\x00' ∈ text.toList := by
  rw [utf8_eq_flatMap, List.flatMap_map, List.mem_flatMap]
  constructor
  · intro h
    obtain ⟨c, hc, hzero⟩ := h
    have hnul := (zero_mem_encodeScalarValue (isScalarValue_toNat c)).mp hzero
    rwa [show '\x00' = c from Char.toNat_inj.mp hnul.symm]
  · intro h
    exact ⟨_, h, (zero_mem_encodeScalarValue (isScalarValue_toNat _)).mpr rfl⟩

/-! ## How a text is written -/

namespace Buffer

variable {text : String}

theorem encodeText_agree_encodeBytes (h : 0 ∉ utf8 text) :
    Agree (encodeText text : Action Error (Buffer N) Unit) (encodeBytes (utf8 text ++ [0])) := by
  have hforms := encodeText_agree (N := N) text
  rwa [if_pos h] at hforms

theorem encodeText_wrote (hn : 0 ∉ utf8 text) {b : Buffer N} (h : text.utf8ByteSize + 1 ≤ b.remaining) :
    (encodeText text b).result = .ok () ∧ b.Wrote (encodeText text b).state (utf8 text ++ [0]) := by
  have hlength : (utf8 text ++ [0]).length ≤ b.remaining := by simpa using h
  rw [encodeText_of_le hn h]
  exact ⟨rfl, wrote_append hlength⟩

theorem Checked.encodeText_of_nul (h : 0 ∈ utf8 text) (b : Buffer N) :
    Checked.encodeText text b = some ⟨.error .interiorNul, b, []⟩ :=
  if_pos h

end Buffer

/-- **A text is written as its bytes and a NUL.** Without a NUL inside, it does what the string of
its bytes does, and what its bytes and a terminator do: both are written or, for lack of room,
neither. With one it is refused in every state. -/
theorem texts_written_as_bytes (text : String) :
    ('\x00' ∉ text.toList → ∃ s : CString, s.bytes = utf8 text ∧ ∀ N : Nat,
      Agree (Buffer.encodeText text : Action Error (Buffer N) Unit) (Buffer.encodeCString s) ∧
      Agree (Buffer.encodeText text : Action Error (Buffer N) Unit) (Buffer.encodeBytes (utf8 text ++ [0])) ∧
      (∀ b : Buffer N,
        let written := Buffer.encodeText text b
        let needed := text.utf8ByteSize + 1
        (needed ≤ b.remaining → written.result = .ok () ∧ b.Wrote written.state (utf8 text ++ [0])) ∧
        (b.remaining < needed → written.result = .error (.overflow needed b.remaining) ∧ written.state = b)) ∧
      (N < 2 ^ 63 → text.utf8ByteSize < 2 ^ 63 → ∀ b : Buffer N, b.InBounds →
        Buffer.Checked.encodeText text b = some (Buffer.encodeText text b) ∧
          Buffer.Checked.encodeBytes (utf8 text ++ [0]) b = some (Buffer.encodeBytes (utf8 text ++ [0]) b))) ∧
    ('\x00' ∈ text.toList → ∀ (N : Nat) (b : Buffer N),
      Buffer.encodeText text b = ⟨.error .interiorNul, b, []⟩ ∧
        Buffer.Checked.encodeText text b = some ⟨.error .interiorNul, b, []⟩) := by
  constructor
  · intro h
    have hn : 0 ∉ utf8 text := mt zero_mem_utf8_iff.mp h
    refine ⟨⟨utf8 text, hn⟩, rfl, fun N => ?_⟩
    have hbytes := Buffer.encodeText_agree_encodeBytes (N := N) hn
    refine ⟨hbytes, hbytes, fun b => ⟨Buffer.encodeText_wrote hn, fun hlt => ?_⟩, fun hN ht b hb => ?_⟩
    · rw [Buffer.encodeText_of_refused hn hlt]
      exact ⟨rfl, rfl⟩
    · exact ⟨(Buffer.Checked.runs_encodeText hN ht b hb).1, (Buffer.Checked.runs_encodeBytes hN _ b hb).1⟩
  · intro h N b
    have hn : 0 ∈ utf8 text := zero_mem_utf8_iff.mpr h
    exact ⟨Buffer.encodeText_of_nul (not_not_intro hn) b, Buffer.Checked.encodeText_of_nul hn b⟩

/-- The text has room and its terminator has not; a NUL is reported without any room. -/
theorem texts_written_as_bytes_at_end :
    let text := "hé"
    let b : Buffer 4 := Buffer.empty 4
    let short := b.append [7]
    (Buffer.encodeText text short).result = .error (.overflow 4 3) ∧ (Buffer.encodeText text short).state = short ∧
    (Buffer.encodeBytes [0x68, 0xC3, 0xA9, 0] short).result = .error (.overflow 4 3) ∧
    (Buffer.encodeText text b).result = .ok () ∧ b.Wrote (Buffer.encodeText text b).state [0x68, 0xC3, 0xA9, 0] ∧
    Buffer.Checked.encodeText text b = some (Buffer.encodeText text b) ∧
    (Buffer.encodeText "a\x00b" (b.append [1, 2, 3, 4])).result = .error .interiorNul := by
  intro text b short
  have hnul : '\x00' ∉ text.toList := by decide
  obtain ⟨s, -, hall⟩ := (texts_written_as_bytes text).1 hnul
  obtain ⟨-, hbytes, hends, hmachine⟩ := hall 4
  have himage : utf8 text ++ [0] = [0x68, 0xC3, 0xA9, 0] := by decide
  rw [himage] at hbytes
  obtain ⟨hrefused, hstays⟩ := (hends short).2 (by decide)
  obtain ⟨hok, hwrote⟩ := (hends b).1 (by decide)
  rw [himage] at hwrote
  have hmachine := (hmachine (by decide) (by decide) b ⟨by decide, by decide⟩).1
  have hinterior := ((texts_written_as_bytes "a\x00b").2 (by decide) 4 (b.append [1, 2, 3, 4])).1
  exact ⟨hrefused, hstays, (hbytes short).1.symm.trans hrefused, hok, hwrote, hmachine, by rw [hinterior]⟩

end Marshal
