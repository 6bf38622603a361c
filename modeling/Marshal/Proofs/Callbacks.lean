import Marshal.Handle
import Marshal.Proofs.Loops
import Marshal.Proofs.Simulation

/-!
# Arrays coded by a callback

A callback is any function of the handle, of the caller's memory and of the
offset of an element. Which offsets it is called with shows in the memory of
one that records them (`recording`) and else does the same.
-/

namespace Marshal

open Marshal.Action

variable {μ : Type}

namespace Handle

/-! ## The loop behind the checks -/

def ofLoop (failed : Pointer (Option Nat)) :
    Outcome (ElementFailure Unit) (Handle × μ) Nat → Reply (μ × Pointer (Option Nat))
  | ⟨.ok _, (h, memory), log⟩ => ⟨.ok, h, (memory, failed), log⟩
  | ⟨.error failure, (h, memory), log⟩ => ⟨.elementFailed, h, (memory, failed.write (some failure.index)), log⟩

def offsets (size count : Nat) : List Nat := (List.range count).map (· * size)

theorem length_offsets (size count : Nat) : (offsets size count).length = count := by
  rw [offsets, List.length_map, List.length_range]

theorem offsets_succ (size k : Nat) : offsets size (k + 1) = offsets size k ++ [k * size] := by
  rw [offsets, List.range_succ, List.map_append]
  rfl

theorem take_offsets {size count k : Nat} (hk : k ≤ count) : (offsets size count).take k = offsets size k := by
  rw [offsets, ← List.map_take, List.take_range, Nat.min_eq_left hk, offsets]

theorem exists_of_offsets_eq {size count offset : Nat} {before after : List Nat}
    (h : offsets size count = before ++ offset :: after) :
    ∃ k < count, before = offsets size k ∧ offset = k * size := by
  have hlt : before.length < count := by
    rw [← length_offsets size count, h, List.length_append, List.length_cons]
    omega
  have hbefore : (offsets size count).take before.length = before := by rw [h, List.take_left]
  have hoffset : (offsets size count)[before.length]? = some offset := by
    rw [h, List.getElem?_append_right (Nat.le_refl _), Nat.sub_self]
    rfl
  rw [offsets, List.getElem?_map, List.getElem?_range hlt] at hoffset
  exact ⟨before.length, hlt, hbefore.symm.trans (take_offsets hlt.le), (Option.some.inj hoffset).symm⟩

theorem offset_within {size count i : Nat} (hi : i < count) (hfits : count * size < UInt64.size) :
    (UInt64.ofNat i * UInt64.ofNat size).toNat = i * size ∧ i * size + size ≤ count * size := by
  have hend : i * size + size ≤ count * size := by
    rw [← Nat.succ_mul]
    exact Nat.mul_le_mul_right size hi
  refine ⟨?_, hend⟩
  rw [← UInt64.ofNat_mul, UInt64.toNat_ofNat_of_lt']
  exact Nat.lt_of_le_of_lt (by omega) hfits

theorem codeEach_of_checked {elements : Pointer Unit} {count size : Nat}
    (hchecked : count ≠ 0 → elements ≠ .null ∧ 0 < size ∧ count * size < UInt64.size) (code : ElementCallback μ)
    (memory : μ) (failed : Pointer (Option Nat)) (b : Buffer handleCapacity) :
    codeEach elements count size (.to code) memory failed (some b) =
      ofLoop failed (Marshal.codeEach code (offsets size count) (some b, memory)) := by
  unfold codeEach onLive
  dsimp only
  by_cases hcount : count = 0
  · subst hcount
    rfl
  obtain ⟨helements, hsize, hfits⟩ := hchecked hcount
  rw [if_neg hcount, if_neg helements, if_neg (by omega), codeRange_eq_codeFrom, ← List.range_eq_range', offsets,
    codeEach_map, Marshal.codeEach]
  rcases codeFrom (fun i => code (i * size)) 0 (List.range count) (some b, memory) with ⟨_ | _, ⟨_, _⟩, _⟩ <;> rfl

/-! ## Recording the calls -/

def recording (code : ElementCallback μ) : ElementCallback (List Nat × μ) := fun offset (h, seen, memory) =>
  let o := code offset (h, memory)
  ⟨o.result, (o.state.1, seen ++ [offset], o.state.2), o.log⟩

def Recorded (p : Handle × List Nat × μ) (q : Handle × μ) : Prop := p.1 = q.1 ∧ p.2.2 = q.2

theorem sim_recording (code : ElementCallback μ) (offset : Nat) :
    Sim Recorded (recording code offset) (code offset) := by
  rintro ⟨h, seen, memory⟩ ⟨_, _⟩ ⟨rfl, rfl⟩
  exact ⟨rfl, rfl, rfl, rfl⟩

theorem seen_recording (code : ElementCallback μ) (offset : Nat) (s : Handle × List Nat × μ) :
    (recording code offset s).state.2.1 = s.2.1 ++ [offset] := rfl

theorem seen_of_forM_recording {code : ElementCallback μ} {run : List Nat} {s : Handle × List Nat × μ}
    (h : (forM run (recording code) s).result = .ok ()) :
    (forM run (recording code) s).state.2.1 = s.2.1 ++ run := by
  induction run generalizing s with
  | nil => exact (List.append_nil _).symm
  | cons offset run ih =>
    rw [List.forM_cons] at h ⊢
    cases hfirst : (recording code offset s).result with
    | error e =>
      rw [(bind_of_error hfirst).1] at h
      cases h
    | ok u =>
      rw [(bind_of_ok hfirst).1] at h
      rw [(bind_of_ok hfirst).2, ih h, seen_recording, List.append_assoc, List.singleton_append]

theorem loop_cases (code : ElementCallback μ) (size count : Nat) (h : Handle) (memory : μ) :
    let start := (h, memory)
    let after (n : Nat) := forM (offsets size n) code start
    let loop := Marshal.codeEach code (offsets size count) start
    let recorded := Marshal.codeEach (recording code) (offsets size count) (h, [], memory)
    (after count).result = .ok () ∧ recorded.state.2.1 = offsets size count ∧
        loop.result = .ok count ∧ loop.state = (after count).state ∨
      ∃ k < count, (after k).result = .ok () ∧ (after count).result = .error () ∧
        (code (k * size) (after k).state).result = .error () ∧ recorded.state.2.1 = offsets size (k + 1) ∧
        loop.result = .error ⟨k, ()⟩ ∧ loop.state = (code (k * size) (after k).state).state := by
  intro start after loop recorded
  have hforM (run : List Nat) :=
    Refines.forM (fun offset => (sim_recording code offset).refines) run (h, [], memory) start ⟨rfl, rfl⟩
  rcases codeEach_cases code (offsets size count) start with
    ⟨hall, hr⟩ | ⟨before, offset, rest, e, hsplit, hbefore, hx, hr, hs⟩
  · have hstate : recorded.state = _ := codeEach_state _ _ _
    refine .inl ⟨hall, ?_, length_offsets size count ▸ hr, codeEach_state _ _ _⟩
    rw [hstate]
    exact seen_of_forM_recording ((hforM _).1.trans hall)
  · obtain ⟨k, hk, rfl, rfl⟩ := exists_of_offsets_eq hsplit
    obtain ⟨hresult, hstate⟩ := hforM (offsets size k)
    have hrecorded := hresult.trans hbefore
    have hfails := ((sim_recording code (k * size)).refines _ _ hstate).1.trans hx
    have hlast : recorded.state = _ := hsplit ▸ (codeEach_of_error hrecorded hfails rest).2
    have hafter : (forM (offsets size count) code start).result = .error () := by
      rw [hsplit]
      exact (forM_of_error hbefore hx rest).1
    refine .inr ⟨k, hk, hbefore, hafter, hx, ?_, length_offsets size k ▸ hr, hs⟩
    rw [hlast, seen_recording, seen_of_forM_recording hrecorded, offsets_succ]
    rfl

theorem isSome_of_codeEach {code : ElementCallback μ}
    (hcode : ∀ offset s, s.1.isSome → (code offset s).state.1.isSome) (run : List Nat) {s : Handle × μ}
    (h : s.1.isSome) : (Marshal.codeEach code run s).state.1.isSome := by
  have hkeeps (offset : Nat) : Keeps (fun s : Handle × μ => s.1.isSome) (code offset) := hcode offset
  exact keeps_iff_sim.mpr (Sim.codeEach (fun offset => keeps_iff_sim.mp (hkeeps offset)) run) s h

end Handle

open Handle

/-- **Callbacks run in order, and only if every check passes.** The callback runs once on each
offset in turn, up to the first on which it fails; no offset wraps. The index of a failed call is
written where it can be. -/
theorem callbacks_run_in_order (h : Handle) (elements : Pointer Unit) (count size : Nat)
    (coder : Pointer (ElementCallback μ)) (memory : μ) (failed : Pointer (Option Nat)) :
    let reply := Handle.codeEach elements count size coder memory failed h
    let refused (status : Status) : Reply (μ × Pointer (Option Nat)) := ⟨status, h, (memory, failed), []⟩
    (h = none ∨ coder = .null → reply = refused .nullPointer) ∧
    ∀ b code, h = some b → coder = .to code →
      (count = 0 → reply = refused .ok) ∧
      (count ≠ 0 → elements = .null → reply = refused .nullPointer) ∧
      (count ≠ 0 → elements ≠ .null → size = 0 ∨ UInt64.size ≤ count * size → reply = refused .invalidParameter) ∧
      (count ≠ 0 → elements ≠ .null → 0 < size → count * size < UInt64.size →
        let recorded := Handle.codeEach elements count size (.to (recording code)) ([], memory) failed h
        let after (n : Nat) := forM (offsets size n) code (h, memory)
        (∀ i < count, (UInt64.ofNat i * UInt64.ofNat size).toNat = i * size ∧ i * size + size ≤ count * size) ∧
        ((∀ offset s, s.1.isSome → (code offset s).state.1.isSome) → reply.handle.isSome) ∧
        (recorded.status = reply.status ∧ recorded.handle = reply.handle ∧ recorded.log = reply.log ∧
          recorded.out.1.2 = reply.out.1 ∧ recorded.out.2 = reply.out.2) ∧
        (reply.status = .ok ↔ (after count).result = .ok ()) ∧
        (reply.status = .ok ∧ recorded.out.1.1 = offsets size count ∧
            (reply.handle, reply.out.1) = (after count).state ∧ reply.out.2 = failed ∨
          ∃ k < count,
            let last := code (k * size) (after k).state
            (after k).result = .ok () ∧ last.result = .error () ∧ reply.status = .elementFailed ∧
              recorded.out.1.1 = offsets size (k + 1) ∧ (reply.handle, reply.out.1) = last.state ∧
              reply.out.2 = failed.write (some k))) := by
  intro reply refused
  refine ⟨?_, ?_⟩
  · rintro (rfl | rfl)
    · rfl
    · cases h <;> rfl
  rintro b code rfl rfl
  refine ⟨?_, fun hcount helements => ?_, fun hcount helements hbad => ?_, fun hcount helements hsize hfits => ?_⟩
  · rintro rfl
    rfl
  · exact (if_neg hcount).trans (if_pos helements)
  · exact (if_neg hcount).trans ((if_neg helements).trans (if_pos hbad))
  intro recorded after
  have hreply : reply = _ := codeEach_of_checked (fun _ => ⟨helements, hsize, hfits⟩) code memory failed b
  have hrecorded : recorded = _ := codeEach_of_checked (fun _ => ⟨helements, hsize, hfits⟩) (recording code) ([], memory) failed b
  have hcases := loop_cases code size count (some b) memory
  obtain ⟨r, ⟨h', seen, m⟩, ⟨_, _⟩, log, hp, hq, rfl, rfl⟩ :=
    (Sim.codeEach (sim_recording code) (offsets size count) (some b, [], memory) (some b, memory) ⟨rfl, rfl⟩).exists_eq
  rw [hp] at hrecorded
  rw [hq] at hreply
  dsimp only at hcases
  rw [hp, hq] at hcases
  refine ⟨fun i hi => offset_within hi hfits, fun hcode => ?_, ?_, ?_⟩
  · have hsome := isSome_of_codeEach hcode (offsets size count) (s := (some b, memory)) rfl
    rw [hq] at hsome
    rw [hreply]
    cases r <;> exact hsome
  · rw [hreply, hrecorded]
    cases r <;> exact ⟨rfl, rfl, rfl, rfl, rfl⟩
  rcases hcases with ⟨hall, hseen, hr, hs⟩ | ⟨k, hk, hbefore, hafter, hlast, hseen, hr, hs⟩
  · obtain rfl : r = .ok count := hr
    rw [hreply, hrecorded]
    exact ⟨⟨fun _ => hall, fun _ => rfl⟩, .inl ⟨rfl, hseen, hs, rfl⟩⟩
  · obtain rfl : r = .error ⟨k, ()⟩ := hr
    rw [hreply, hrecorded]
    refine ⟨⟨nofun, fun h => ?_⟩, .inr ⟨k, hk, hbefore, hlast, rfl, hseen, hs, rfl⟩⟩
    cases hafter.symm.trans h

/-- The third of four calls fails; sizes that add up to 2 ^ 64 are refused. -/
theorem callbacks_run_in_order_third :
    let code : ElementCallback Nat := fun offset =>
      if offset = 4 then Action.fail () else Action.update fun (h, sum) => (h, sum + offset)
    let reply := Handle.codeEach (.to ()) 4 2 (.to code) 0 (.to none) Handle.create
    let recorded := Handle.codeEach (.to ()) 4 2 (.to (recording code)) ([], 0) (.to none) Handle.create
    reply.status = .elementFailed ∧ reply.handle = Handle.create ∧ reply.out = (2, .to (some 2)) ∧
    recorded.out.1.1 = [0, 2, 4] ∧
    Handle.codeEach (.to ()) (2 ^ 63) 2 (.to code) 0 (.to none) Handle.create =
      ⟨.invalidParameter, Handle.create, (0, .to none), []⟩ := by
  intro code reply recorded
  have hfails : (forM (offsets 2 4) code (Handle.create, 0)).result = .error () := rfl
  obtain ⟨-, hrun⟩ := callbacks_run_in_order Handle.create (.to ()) 4 2 (.to code) 0 (.to none)
  obtain ⟨-, -, -, hchecked⟩ := hrun _ code rfl rfl
  obtain ⟨-, -, -, hok, hend⟩ := hchecked (by decide) nofun (by decide) (by decide)
  obtain ⟨-, hwide⟩ := callbacks_run_in_order Handle.create (.to ()) (2 ^ 63) 2 (.to code) 0 (.to none)
  obtain ⟨-, -, hrefused, -⟩ := hwide _ code rfl rfl
  rcases hend with ⟨hstatus, -⟩ | ⟨k, hk, -, hlast, hstatus, hseen, hstate, hfailed⟩
  · cases hfails.symm.trans (hok.mp hstatus)
  · -- the only offset on which the callback fails is that of the third element
    obtain rfl : k = 2 := by
      by_contra hne
      have hoffset : k * 2 ≠ 4 := by omega
      rw [show code (k * 2) = _ from if_neg hoffset] at hlast
      cases hlast
    obtain ⟨hhandle, hmemory⟩ := Prod.mk.inj hstate
    exact ⟨hstatus, hhandle, Prod.ext hmemory hfailed, hseen, hrefused (by decide) nofun (by decide)⟩

end Marshal
