import Marshal.Proofs.BufferCalls
import Marshal.Proofs.Congruence

/-!
# Bytes left over from earlier use

`SameBelow k b c`: the buffers `b` and `c` differ at most in bytes that lie
beyond the cursor, beyond the used count and beyond `k`. All calls but four
keep this, so they cannot tell such buffers apart. The one that needs `k` is
`atomically`: the encoder may reset the buffer and then fail, and the bytes
below the old cursor are back.
-/

namespace Marshal

open Marshal.Action Session

variable {N : Nat} {ε α : Type}

theorem getElem?_overwrite_congr {s t : Vector α N} {start i : Nat} (xs : List α)
    (h : i < start ∨ start + xs.length ≤ i → s[i]? = t[i]?) :
    (overwrite s start xs)[i]? = (overwrite t start xs)[i]? := by
  rw [getElem?_overwrite, getElem?_overwrite]
  split
  · rfl
  · next hi =>
    by_cases hN : i < N
    · exact h (by omega)
    · rw [Vector.getElem?_eq_none (by omega), Vector.getElem?_eq_none (by omega)]

theorem take_toList_congr {s t : Vector α N} {n : Nat} (h : ∀ i < n, s[i]? = t[i]?) :
    s.toList.take n = t.toList.take n := by
  apply List.ext_getElem?
  intro i
  rw [List.getElem?_take, List.getElem?_take]
  split
  · next hi => rw [Vector.getElem?_toList, Vector.getElem?_toList, h i hi]
  · rfl

namespace Buffer

structure SameBelow (k : Nat) (b c : Buffer N) : Prop where
  cursor_eq : b.cursor = c.cursor
  used_eq : b.used = c.used
  bounds : b.InBounds
  byte_eq : ∀ i, i < k ∨ i < b.cursor ∨ i < b.used → b.storage[i]? = c.storage[i]?

theorem InBounds.sameBelow {b : Buffer N} (h : b.InBounds) (k : Nat) : SameBelow k b b :=
  ⟨rfl, rfl, h, fun _ _ => rfl⟩

/-- After a reset nothing of the old bytes is in sight. -/
theorem sameBelow_reset_empty (b : Buffer N) : SameBelow 0 b.reset (.empty N) where
  cursor_eq := rfl
  used_eq := rfl
  bounds := ⟨Nat.zero_le N, Nat.zero_le N⟩
  byte_eq i h := by rcases h with h | h | h <;> exact absurd h (Nat.not_lt_zero i)

namespace SameBelow

variable {k : Nat} {b c : Buffer N} (h : SameBelow k b c)

include h

theorem written_eq : b.written = c.written := by
  rw [written, written, ← h.cursor_eq]
  exact take_toList_congr fun i hi => h.byte_eq i (.inr (.inl hi))

theorem message_eq : b.message = c.message := by
  rw [message, message, ← h.used_eq]
  exact take_toList_congr fun i hi => h.byte_eq i (.inr (.inr hi))

theorem remaining_eq : b.remaining = c.remaining := by rw [remaining, remaining, h.cursor_eq]

theorem reader_eq : b.reader = c.reader := by
  rw [reader, reader, h.message_eq, h.cursor_eq, h.used_eq]

theorem moveCursor {cursor : Nat} (hN : cursor ≤ N) (hk : cursor ≤ k ∨ cursor ≤ b.cursor ∨ cursor ≤ b.used) :
    SameBelow k { b with cursor := cursor } { c with cursor := cursor } where
  cursor_eq := rfl
  used_eq := h.used_eq
  bounds := ⟨hN, h.bounds.used_le⟩
  byte_eq i hi := by
    apply h.byte_eq
    dsimp only at hi
    omega

theorem append {bytes : List UInt8} (hroom : bytes.length ≤ b.remaining) :
    SameBelow k (b.append bytes) (c.append bytes) where
  cursor_eq := congrArg (· + bytes.length) h.cursor_eq
  used_eq := h.used_eq
  bounds := by
    have hc := h.bounds.cursor_le
    rw [remaining] at hroom
    exact ⟨by rw [cursor_append]; omega, h.bounds.used_le⟩
  byte_eq i hi := by
    rw [Buffer.append, Buffer.append, ← h.cursor_eq]
    apply getElem?_overwrite_congr
    intro ho
    apply h.byte_eq
    rw [cursor_append, used_append] at hi
    omega

end SameBelow

/-! ## The calls -/

theorem sim_load (k : Nat) (bytes : List UInt8) : Sim (SameBelow (N := N) k) (load bytes) (load bytes) := by
  intro b c h
  unfold load
  split
  · exact ⟨rfl, rfl, h⟩
  · next hN =>
    refine ⟨rfl, rfl, rfl, rfl, ⟨Nat.zero_le N, by dsimp only; omega⟩, fun i hi => ?_⟩
    apply getElem?_overwrite_congr
    intro ho
    apply h.byte_eq
    dsimp only at hi
    omega

theorem sim_encodeBytes (k : Nat) (bytes : List UInt8) :
    Sim (SameBelow (N := N) k) (encodeBytes bytes) (encodeBytes bytes) := by
  intro b c h
  unfold encodeBytes
  rw [← h.remaining_eq, ← h.cursor_eq]
  split
  · exact ⟨rfl, rfl, h⟩
  · exact ⟨rfl, rfl, h.append (by omega)⟩

theorem sim_encodeText (k : Nat) (text : String) :
    Sim (SameBelow (N := N) k) (encodeText text) (encodeText text) := by
  intro b c h
  unfold encodeText
  rw [← h.remaining_eq, ← h.cursor_eq]
  dsimp only
  split
  · exact ⟨rfl, rfl, h⟩
  · split
    · exact ⟨rfl, rfl, h⟩
    · refine ⟨rfl, rfl, ?_⟩
      rw [append_append, append_append]
      exact h.append (by rw [List.length_append, List.length_singleton]; omega)

theorem sim_popBytes (k length : Nat) : Sim (SameBelow (N := N) k) (popBytes length) (popBytes length) := by
  intro b c h
  have hc := h.bounds.cursor_le
  unfold popBytes
  rw [← h.cursor_eq, ← h.written_eq]
  split
  · exact ⟨rfl, rfl, h⟩
  · exact ⟨rfl, rfl, h.moveCursor (by omega) (by omega)⟩

theorem InBounds.reader_inside {b : Buffer N} (h : b.InBounds) : b.reader.Inside b.message := by
  refine ⟨rfl, ?_⟩
  rw [length_message h.used_le]
  exact Nat.min_le_right _ _

theorem sim_read (k : Nat) {d : Action Error Reader α} (hd : ∀ bytes, Keeps (Reader.Inside bytes) d) :
    Sim (SameBelow (N := N) k) (read d) (read d) := by
  intro b c h
  have hi := (hd _ _ h.bounds.reader_inside).2
  have hu := h.bounds.used_le
  rw [length_message hu] at hi
  rw [read_apply, read_apply, ← h.reader_eq]
  rcases hr : d b.reader with ⟨_ | x, r, log⟩
  · exact ⟨rfl, rfl, h⟩
  · rw [hr] at hi
    refine ⟨rfl, rfl, ?_⟩
    dsimp only at hi ⊢
    split
    · exact h.moveCursor (by omega) (by omega)
    · exact h

theorem sim_atomically {a : Action ε (Buffer N) α} (ha : ∀ k, Sim (SameBelow k) a a) (k : Nat) :
    Sim (SameBelow k) (atomically a) (atomically a) := by
  intro b c h
  -- the encoder may move below the old cursor, so what was there has to stay the same
  have hstart : SameBelow (max k b.cursor) b c := by
    refine ⟨h.cursor_eq, h.used_eq, h.bounds, fun i hi => h.byte_eq i ?_⟩
    omega
  obtain ⟨r, b', c', log, hb, hc, hs⟩ := (ha _ b c hstart).exists_eq
  have hlow : SameBelow k b' c' := ⟨hs.cursor_eq, hs.used_eq, hs.bounds, fun i hi => hs.byte_eq i (by omega)⟩
  unfold atomically
  rw [hb, hc]
  cases r with
  | ok x => exact ⟨rfl, rfl, hlow⟩
  | error e =>
    refine ⟨rfl, rfl, ?_⟩
    dsimp only [rewind, checkpoint]
    rw [← h.cursor_eq]
    refine ⟨rfl, hs.used_eq, ⟨Nat.min_le_right _ _, hs.bounds.used_le⟩, fun i hi => hs.byte_eq i ?_⟩
    dsimp only at hi
    omega

theorem sameBelow_congruence : Congruence (SameBelow (N := N)) where
  cursor_eq := SameBelow.cursor_eq
  used_eq := SameBelow.used_eq
  written_eq := SameBelow.written_eq
  message_eq := SameBelow.message_eq
  reset h := by
    refine ⟨rfl, rfl, ⟨Nat.zero_le N, Nat.zero_le N⟩, fun i hi => h.byte_eq i ?_⟩
    dsimp only [reset] at hi
    omega
  sealed h := by
    refine ⟨rfl, h.cursor_eq, ⟨Nat.zero_le N, h.bounds.cursor_le⟩, fun i hi => h.byte_eq i ?_⟩
    dsimp only [sealed] at hi
    omega
  load := sim_load
  encodeBytes := sim_encodeBytes
  encodeText := sim_encodeText
  popBytes := sim_popBytes
  read := fun k => sim_read k
  atomically := sim_atomically

end Buffer

/-! ## Receiving -/

/-- Fillings that look at no byte of the storage, and write every byte that they report. What they
write beyond that, or before they fail, is up to them. -/
def Honest (fill : Vector UInt8 N → Except ε Nat × Vector UInt8 N) : Prop :=
  ∃ (result : Except ε Nat) (writes : Fin N → Option UInt8),
    (∀ storage, fill storage = (result, Vector.ofFn fun i => (writes i).getD (storage.get i))) ∧
    ∀ reported, result = .ok reported → ∀ i : Fin N, i < reported → (writes i).isSome

theorem getElem?_fill (writes : Fin N → Option UInt8) (storage : Vector UInt8 N) (i : Nat) :
    (Vector.ofFn fun i => (writes i).getD (storage.get i))[i]? =
      if h : i < N then some ((writes ⟨i, h⟩).getD storage[i]) else none := by
  by_cases h : i < N
  · rw [dif_pos h, Vector.getElem?_eq_getElem h, Vector.getElem_ofFn]
    rfl
  · rw [dif_neg h, Vector.getElem?_eq_none (by omega)]

theorem getElem?_fill_congr (writes : Fin N → Option UInt8) {s t : Vector UInt8 N} {i : Nat}
    (h : (∀ hi : i < N, (writes ⟨i, hi⟩).isSome) ∨ s[i]? = t[i]?) :
    (Vector.ofFn fun i => (writes i).getD (s.get i))[i]? =
      (Vector.ofFn fun i => (writes i).getD (t.get i))[i]? := by
  rw [getElem?_fill, getElem?_fill]
  split
  · next hi =>
    rcases h with h | h
    · obtain ⟨x, hx⟩ := Option.isSome_iff_exists.mp (h hi)
      rw [hx]
      rfl
    · rw [Vector.getElem?_eq_getElem hi, Vector.getElem?_eq_getElem hi] at h
      rw [Option.some.inj h]
  · rfl

theorem Buffer.sim_receive (k : Nat) {fill : Vector UInt8 N → Except ε Nat × Vector UInt8 N} (hf : Honest fill) :
    Sim (SameBelow k) (receive fill) (receive fill) := by
  intro b c h
  obtain ⟨result, writes, hfill, hwritten⟩ := hf
  unfold receive
  dsimp only
  rw [hfill b.storage, hfill c.storage]
  cases result with
  | error e =>
    refine ⟨rfl, rfl, h.cursor_eq, h.used_eq, ⟨h.bounds.cursor_le, h.bounds.used_le⟩, fun i hi => ?_⟩
    exact getElem?_fill_congr writes (.inr (h.byte_eq i hi))
  | ok reported =>
    refine ⟨rfl, rfl, rfl, rfl, ⟨Nat.zero_le N, Nat.min_le_right _ _⟩, fun i hi => ?_⟩
    apply getElem?_fill_congr writes
    by_cases hr : i < reported
    · exact .inl fun hN => hwritten reported rfl ⟨i, hN⟩ hr
    · dsimp only at hi
      exact .inr (h.byte_eq i (by omega))

/-- The calls that neither move over old bytes nor show them, and receiving from an honest filling. -/
def Session.Call.Blind : Call N → Prop
  | .receive fill => Honest fill
  | c => c.Plain

theorem Session.Call.Blind.sim {c : Call N} (hc : c.Blind) (k : Nat) :
    Step.Sim (Buffer.SameBelow k) c.step c.step := by
  cases c with
  | receive fill => exact .ofOutcome _ _ (Buffer.sim_receive k hc)
  | _ => exact Buffer.sameBelow_congruence.step_sim k hc

end Marshal
