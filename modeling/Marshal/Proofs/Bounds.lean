import Marshal.Proofs.StaleBytes

/-!
# Cursor and used count stay within the capacity

The bounds are the case of `SameBelow` where both buffers are one, so all
plain calls keep them for the reasons given there. The other four move the
cursor or set the used count by a number of the caller's, which is checked or
cut to the capacity first.
-/

namespace Marshal

open Marshal.Action Session

variable {N : Nat} {ε κ α : Type}

namespace Buffer

theorem inBounds_empty (N : Nat) : (empty N).InBounds := ⟨Nat.zero_le N, Nat.zero_le N⟩

theorem keeps_of_sim {a : Action ε (Buffer N) α} (h : Sim (SameBelow 0) a a) : Keeps InBounds a :=
  fun b hb => (h b b (hb.sameBelow 0)).state.bounds

theorem keeps_seek (position : Nat) : Keeps (InBounds (N := N)) (seek position) := by
  intro b hb
  unfold seek
  split
  · exact hb
  · next h => exact ⟨Nat.le_of_not_lt h, hb.used_le⟩

theorem keeps_receive (fill : Vector UInt8 N → Except ε Nat × Vector UInt8 N) :
    Keeps InBounds (receive fill) := by
  intro b hb
  unfold receive
  dsimp only
  rcases fill b.storage with ⟨_ | reported, storage⟩
  · exact ⟨hb.cursor_le, hb.used_le⟩
  · exact ⟨Nat.zero_le N, Nat.min_le_right _ _⟩

theorem keeps_atomically {a : Action ε (Buffer N) α} (ha : Keeps InBounds a) :
    Keeps InBounds (atomically a) := by
  intro b hb
  have h := ha b hb
  unfold atomically
  dsimp only
  rcases hr : a b with ⟨_ | x, b', log⟩
  · rw [hr] at h
    exact ⟨Nat.min_le_right _ _, h.used_le⟩
  · rw [hr] at h
    exact h

theorem bounds_congruence : Congruence (fun _ : Unit => Both (InBounds (N := N))) where
  cursor_eq h := by rw [h.1]
  used_eq h := by rw [h.1]
  written_eq h := by rw [h.1]
  message_eq h := by rw [h.1]
  reset h := ⟨by rw [h.1], Nat.zero_le N, Nat.zero_le N⟩
  sealed h := ⟨by rw [h.1], Nat.zero_le N, h.2.cursor_le⟩
  load _ bytes := keeps_iff_sim.mp (keeps_of_sim (sim_load 0 bytes))
  encodeBytes _ bytes := keeps_iff_sim.mp (keeps_of_sim (sim_encodeBytes 0 bytes))
  encodeText _ text := keeps_iff_sim.mp (keeps_of_sim (sim_encodeText 0 text))
  popBytes _ length := keeps_iff_sim.mp (keeps_of_sim (sim_popBytes 0 length))
  read _ {_ _} hd := keeps_iff_sim.mp (keeps_of_sim (sim_read 0 hd))
  atomically h _ := keeps_iff_sim.mp (keeps_atomically (keeps_iff_sim.mpr (h ())))

theorem keeps_program {a : Action ε (κ × Buffer N) α} {allowed : Call N → Prop}
    (hcall : ∀ c, allowed c → Step.Keeps InBounds c.step) (h : Program allowed a) :
    Keeps (fun s => s.2.InBounds) a :=
  h.keeps (fun hd => keeps_of_sim (sim_read 0 hd)) keeps_atomically hcall

end Buffer

namespace Session

theorem Call.keeps_step (c : Call N) : Step.Keeps Buffer.InBounds c.step := by
  cases c with
  | seek position => exact Buffer.keeps_seek position
  | restore saved => exact Buffer.keeps_seek saved.position
  | receive fill => exact Buffer.keeps_receive fill
  | storage => exact fun _ hb => hb
  | _ => exact Step.keeps_iff_sim.mpr (Buffer.bounds_congruence.step_sim () trivial)

theorem StationCall.keeps_step (c : StationCall N) (station : Station N) (h : station.buffer.InBounds) :
    (c.step station).station.buffer.InBounds := by
  obtain ⟨b, saved⟩ := station
  cases c with
  | call c => exact c.keeps_step b h
  | checkpoint => exact h
  | save position => exact h
  | restoreSaved index =>
    cases hs : saved[index]? with
    | some old =>
      simp only [step, hs]
      exact (Call.restore old).keeps_step b h
    | none =>
      simp only [step, hs]
      exact h
  | readers steps => exact h

namespace Bench

theorem buffer_inBounds {bench : Bench N} (h : ∀ b ∈ bench.buffers, b.InBounds) (index : Nat) :
    (bench.buffer index).InBounds := by
  unfold buffer
  cases hb : bench.buffers[index]? with
  | none => exact Buffer.inBounds_empty N
  | some b => exact h b (List.mem_of_getElem? hb)

theorem put_inBounds {bench : Bench N} (h : ∀ b ∈ bench.buffers, b.InBounds) (index : Nat) {c : Buffer N}
    (hc : c.InBounds) : ∀ b ∈ (bench.put index c).buffers, b.InBounds := by
  intro b hb
  rcases List.mem_or_eq_of_mem_set hb with hb | rfl
  · exact h b hb
  · exact hc

theorem step_inBounds {bench : Bench N} (h : ∀ b ∈ bench.buffers, b.InBounds) (index : Nat) (c : BenchCall N) :
    ∀ b ∈ (bench.step index c).2.buffers, b.InBounds := by
  cases c with
  | station c => exact put_inBounds h index (c.keeps_step _ (buffer_inBounds h index))
  | cloneTo target => exact put_inBounds h target (buffer_inBounds h index)
  | sendTo target written =>
    exact put_inBounds h target ((Call.load _).keeps_step _ (buffer_inBounds h target))

theorem run_inBounds {bench : Bench N} (h : ∀ b ∈ bench.buffers, b.InBounds) (calls : List (Nat × BenchCall N)) :
    ∀ b ∈ (bench.run calls).2.buffers, b.InBounds := by
  induction calls generalizing bench with
  | nil => exact h
  | cons call rest ih => exact ih (step_inBounds h call.1 call.2)

theorem fresh_inBounds (N count : Nat) : ∀ b ∈ (fresh N count).buffers, b.InBounds := by
  intro b hb
  rw [List.eq_of_mem_replicate hb]
  exact Buffer.inBounds_empty N

end Bench

end Session

end Marshal
