import Marshal.Proofs.Callbacks
import Marshal.Proofs.HandleRefinement
import Marshal.Proofs.RawRegions

/-!
# Four ways to code an array of scalars

The values one by one, their bytes as pieces of a region, the list as one
value, and a call through a handle whose callback calls back for each value.
Each is the loop of the first one, over elements that stand elsewhere.
-/

namespace Marshal

open Marshal.Action Session

variable {N n : Nat} {t : ScalarType} {μ σ : Type}

/-! ## On buffers -/

theorem Buffer.encodeArray_scalar (xs : List t.Carrier) :
    (encodeArray (.scalar t) xs : Action _ (Buffer N) Nat) = encodePieces (xs.map t.toBytes) :=
  (codeEach_map encodeBytes t.toBytes xs).symm

theorem Format.encodeList_apply (f : Format) (xs : List f.Value) (b : Buffer N) :
    (f.encodeList xs b).result =
        ((Buffer.encodeArray f xs b).result.mapError ElementFailure.source).map (fun _ => ()) ∧
      (f.encodeList xs b).state = (Buffer.encodeArray f xs b).state := by
  have hlist : f.encodeList xs b =
      ((codeEach f.encode xs).mapError ElementFailure.source >>= fun _ => pure () : Action Error (Buffer N) Unit) b := rfl
  rw [hlist, Buffer.encodeArray, bind_apply, Action.mapError]
  rcases codeEach f.encode xs b with ⟨_ | _, b', log⟩ <;> exact ⟨rfl, rfl⟩

/-! ## Through a handle -/

/-- The callback that codes the scalar at its offset in memory, by a call through the handle. -/
def scalarCallback (t : ScalarType) (decodes : Bool) : Handle.ElementCallback Scratch := fun offset =>
  FieldScript.codeField offset ⟨t, 0, decodes⟩

structure Reply.Tells (reply : Reply (μ × Pointer (Option Nat))) (failed : Pointer (Option Nat))
    (result : Except (ElementFailure Error) Nat) : Prop where
  of_ok : ∀ count, result = .ok count → reply.status = .ok ∧ reply.out.2 = failed
  of_error : ∀ failure, result = .error failure →
    reply.status = .elementFailed ∧ reply.out.2 = failed.write (some failure.index)

theorem tells_ofLoop {R : Handle × μ → σ → Prop} {loop : Action (ElementFailure Unit) (Handle × μ) Nat}
    {a : Action (ElementFailure Error) σ Nat} (hsim : Sim R loop (a.mapError fun failure => ⟨failure.index, ()⟩))
    {p : Handle × μ} {s : σ} (hps : R p s) (failed : Pointer (Option Nat)) :
    let reply := Handle.ofLoop failed (loop p)
    reply.Tells failed (a s).result ∧ R (reply.handle, reply.out.1) (a s).state := by
  obtain ⟨r, ⟨h, m⟩, s', log, hp, ha, hR⟩ := (hsim p s hps).exists_eq
  unfold Action.mapError at ha
  rw [hp]
  rcases hs : a s with ⟨e | count, s'', log'⟩
  · rw [hs] at ha
    cases ha
    refine ⟨⟨nofun, fun failure hf => ?_⟩, hR⟩
    cases hf
    exact ⟨rfl, rfl⟩
  · rw [hs] at ha
    cases ha
    exact ⟨⟨fun _ _ => ⟨rfl, rfl⟩, nofun⟩, hR⟩

theorem codeEach_offsets (code : Handle.ElementCallback μ) (size n : Nat) :
    Marshal.codeEach code (Handle.offsets size n) = codeEach (fun i : Fin n => code (i * size)) (List.finRange n) := by
  rw [Handle.offsets, ← List.map_coe_finRange_eq_range, List.map_map, codeEach_map]
  rfl

def Encodes (memory : Scratch) (p : Handle × Scratch) (b : Buffer handleCapacity) : Prop := p = (some b, memory)

theorem sim_scalarCallback_encode (xs : List t.Carrier) (rest : List UInt8) (calls : Nat) (i : Fin xs.length) :
    Sim (Encodes ⟨xs.flatMap t.toBytes ++ rest, calls⟩) (scalarCallback t false (i * t.width))
      ((Buffer.encodeScalar t xs[i]).mapError fun _ => ()) := by
  rintro _ b rfl
  let region := xs.flatMap t.toBytes ++ rest
  let value := t.ofBytes ((region.drop (i * t.width)).take t.width)
  have hlive := FieldScript.live_field (i * t.width) ⟨t, 0, false⟩ _ (b, ⟨region, calls⟩) rfl
  have hfield : FieldScript.fieldOnBuffer (i * t.width) ⟨t, 0, false⟩ (b, ⟨region, calls⟩) =
      ((Buffer.encodeScalar t value).mapError fun _ => ()).onFst (b, ⟨region, calls⟩) := rfl
  have hvalue : value = xs[i] :=
    (congrArg t.ofBytes (Region.piece_flatMap t.length_toBytes i.isLt rest)).trans (t.ofBytes_toBytes xs[i])
  rw [hfield, hvalue] at hlive
  exact ⟨hlive.result_eq, hlive.log_eq, hlive.state⟩

def Fills (rest : List UInt8) (calls : Nat) (p : Handle × Scratch)
    (q : Filling (Buffer handleCapacity) t.Carrier n) : Prop :=
  p = (some q.source, ⟨q.slots.toList.flatMap t.toBytes ++ rest, calls⟩)

theorem flatMap_set_append (slots : Vector t.Carrier n) (i : Fin n) (x : t.Carrier) (rest : List UInt8) :
    let region := slots.toList.flatMap t.toBytes ++ rest
    (slots.set i x i.isLt).toList.flatMap t.toBytes ++ rest =
      region.take (i * t.width) ++ (t.toBytes x ++ (region.drop (i * t.width)).drop t.width) := by
  intro region
  have hi : (i : Nat) < slots.toList.length := by rw [slots.length_toList]; exact i.isLt
  have hend : i * t.width + t.width ≤ (slots.toList.flatMap t.toBytes).length := by
    rw [Region.length_flatMap_image t.length_toBytes, ← Nat.succ_mul]
    exact Nat.mul_le_mul_right _ hi
  rw [Vector.toList_set, Region.flatMap_set t.length_toBytes hi, List.drop_drop, List.take_append_of_le_length (by omega),
    List.drop_append_of_le_length hend]
  simp only [List.append_assoc]

theorem sim_scalarCallback_decode (rest : List UInt8) (calls : Nat) (i : Fin n) :
    Sim (Fills rest calls) (scalarCallback t true (i * t.width))
      ((fillSlot (Buffer.decode (.scalar t)) i).mapError fun _ => ()) := by
  rintro _ ⟨b, slots⟩ rfl
  let region := slots.toList.flatMap t.toBytes ++ rest
  have hlive := FieldScript.live_field (i * t.width) ⟨t, 0, true⟩ _ (b, ⟨region, calls⟩) rfl
  have hfill : fillSlot (Buffer.decode (.scalar t)) i ⟨b, slots⟩ = fillSlot (Buffer.decodeScalar t) i ⟨b, slots⟩ := rfl
  -- what was decoded goes over the image of the slot
  let store (x : t.Carrier) : Action Unit (Buffer handleCapacity × Scratch) Unit := Action.update fun p =>
    (p.1, { p.2 with region := region.take (i * t.width) ++ (t.toBytes x ++ (region.drop (i * t.width)).drop t.width) })
  have hfield : FieldScript.fieldOnBuffer (i * t.width) ⟨t, 0, true⟩ (b, ⟨region, calls⟩) =
      (((Buffer.decodeScalar t).mapError fun _ => ()).onFst >>= store) (b, ⟨region, calls⟩) := rfl
  have hstore (x : t.Carrier) (b : Buffer handleCapacity) : store x (b, ⟨region, calls⟩) =
      ⟨.ok (), (b, ⟨(slots.set i x).toList.flatMap t.toBytes ++ rest, calls⟩), []⟩ := by
    rw [flatMap_set_append slots i x rest]
    rfl
  rw [hfield, bind_apply] at hlive
  unfold Action.onFst Action.mapError at hlive
  unfold Action.mapError
  rw [hfill, fillSlot]
  dsimp only at hlive
  rcases hd : Buffer.decodeScalar t b with ⟨e | x, b', log⟩
  · rw [hd] at hlive
    exact ⟨hlive.result_eq, hlive.log_eq, hlive.state⟩
  · rw [hd] at hlive
    dsimp only at hlive
    rw [hstore, List.append_nil] at hlive
    exact ⟨hlive.result_eq, hlive.log_eq, hlive.state⟩

theorem handle_encodes (xs : List t.Carrier) (rest : List UInt8) (calls : Nat) (failed : Pointer (Option Nat))
    (b : Buffer handleCapacity) (hfits : xs.length * t.width < UInt64.size) :
    let memory : Scratch := ⟨xs.flatMap t.toBytes ++ rest, calls⟩
    let reply := Handle.codeEach (.to ()) xs.length t.width (.to (scalarCallback t false)) memory failed (some b)
    let typed := Buffer.encodeArray (.scalar t) xs b
    reply.Tells failed typed.result ∧ reply.handle = some typed.state ∧ reply.out.1 = memory := by
  intro memory reply typed
  have hpointer : Pointer.to () ≠ .null := nofun
  have hreply : reply = _ :=
    Handle.codeEach_of_checked (fun _ => ⟨hpointer, t.width_pos, hfits⟩) (scalarCallback t false) memory failed b
  have hvalues : codeEach (fun i : Fin xs.length => Buffer.encodeScalar t xs[i]) (List.finRange xs.length) =
      (Buffer.encodeArray (.scalar t) xs : Action _ (Buffer handleCapacity) Nat) := by
    conv_rhs => rw [← List.map_get_finRange xs]
    exact (codeEach_map (Buffer.encodeScalar t) xs.get _).symm
  have hsim := Sim.codeEach (sim_scalarCallback_encode xs rest calls) (List.finRange xs.length)
  rw [codeEach_mapError, hvalues, ← codeEach_offsets] at hsim
  obtain ⟨htells, hstate⟩ := tells_ofLoop hsim (p := (some b, memory)) (s := b) rfl failed
  rw [hreply]
  exact ⟨htells, Prod.mk.inj hstate⟩

theorem handle_decodes (slots : Vector t.Carrier n) (rest : List UInt8) (calls : Nat) (failed : Pointer (Option Nat))
    (b : Buffer handleCapacity) (hfits : n * t.width < UInt64.size) :
    let reply := Handle.codeEach (.to ()) n t.width (.to (scalarCallback t true))
      ⟨slots.toList.flatMap t.toBytes ++ rest, calls⟩ failed (some b)
    let typed := Buffer.decodeSlots (.scalar t) ⟨b, slots⟩
    reply.Tells failed typed.result ∧ reply.handle = some typed.state.source ∧
      reply.out.1 = ⟨typed.state.slots.toList.flatMap t.toBytes ++ rest, calls⟩ := by
  intro reply typed
  have hpointer : Pointer.to () ≠ .null := nofun
  have hreply : reply = _ :=
    Handle.codeEach_of_checked (fun _ => ⟨hpointer, t.width_pos, hfits⟩) (scalarCallback t true) _ failed b
  have hsim := Sim.codeEach (sim_scalarCallback_decode (n := n) (t := t) rest calls) (List.finRange n)
  rw [codeEach_mapError, ← codeEach_offsets] at hsim
  obtain ⟨htells, hstate⟩ := tells_ofLoop hsim (s := ⟨b, slots⟩) rfl failed
  rw [hreply]
  exact ⟨htells, Prod.mk.inj hstate⟩

/-! ## All ways -/

theorem Buffer.encodeArray_scalar_of_le {xs : List t.Carrier} {b : Buffer N} (h : xs.length * t.width ≤ b.remaining) :
    (encodeArray (.scalar t) xs b).result = .ok xs.length := by
  have hlength : (xs.map t.toBytes).flatten.length = xs.length * t.width :=
    List.flatMap_def ▸ Region.length_flatMap_image t.length_toBytes xs
  rw [encodeArray_scalar, (encodePieces_of_le (hlength.trans_le h)).1, List.length_map]

theorem Buffer.encodeArray_scalar_of_lt {xs : List t.Carrier} {b : Buffer N} (h : b.remaining < xs.length * t.width) :
    (encodeArray (.scalar t) xs b).result =
      .error ⟨b.remaining / t.width, .overflow t.width (b.remaining % t.width)⟩ := by
  rw [encodeArray_scalar]
  exact (encodePieces_of_lt (by simp) (by rwa [List.length_map])).1

/-- **Arrays of scalars are coded alike in four ways.** Values, raw pieces, one list and a callback
through a handle leave the same buffer, and stop at the quotient of the room by the width; only the
list does not tell where. A callback that decodes does what filling slots does. -/
theorem scalar_arrays_coded_alike (t : ScalarType) :
    (∀ (N : Nat) (b : Buffer N) (xs : List t.Carrier),
      let typed := Buffer.encodeArray (.scalar t) xs b
      let list := (Format.scalar t).encodeList xs b
      let k := b.remaining / t.width
      let e := Error.overflow t.width (b.remaining % t.width)
      ∃ pieces, (Region.elements (xs.flatMap t.toBytes) xs.length t.width b : Outcome Error _ _).result = .ok pieces ∧
        let raw := Buffer.encodePieces pieces b
        raw.state = typed.state ∧ list.state = typed.state ∧
        (xs.length * t.width ≤ b.remaining →
          typed.result = .ok xs.length ∧ raw.result = .ok xs.length ∧ list.result = .ok ()) ∧
        (b.remaining < xs.length * t.width →
          typed.result = .error ⟨k, e⟩ ∧ raw.result = .error ⟨k, e⟩ ∧ list.result = .error e)) ∧
    (∀ (b : Buffer handleCapacity) (xs : List t.Carrier) (rest : List UInt8) (calls : Nat)
      (failed : Pointer (Option Nat)), xs.length * t.width < UInt64.size →
      let memory : Scratch := ⟨xs.flatMap t.toBytes ++ rest, calls⟩
      let reply := Handle.codeEach (.to ()) xs.length t.width (.to (scalarCallback t false)) memory failed (some b)
      reply.handle = some (Buffer.encodeArray (.scalar t) xs b).state ∧ reply.out.1 = memory ∧
        (xs.length * t.width ≤ b.remaining → reply.status = .ok ∧ reply.out.2 = failed) ∧
        (b.remaining < xs.length * t.width →
          reply.status = .elementFailed ∧ reply.out.2 = failed.write (some (b.remaining / t.width)))) ∧
    ∀ (b : Buffer handleCapacity) (n : Nat) (slots : Vector t.Carrier n) (rest : List UInt8) (calls : Nat)
      (failed : Pointer (Option Nat)), n * t.width < UInt64.size →
      let reply := Handle.codeEach (.to ()) n t.width (.to (scalarCallback t true))
        ⟨slots.toList.flatMap t.toBytes ++ rest, calls⟩ failed (some b)
      let typed := Buffer.decodeSlots (.scalar t) ⟨b, slots⟩
      reply.Tells failed typed.result ∧ reply.handle = some typed.state.source ∧
        reply.out.1 = ⟨typed.state.slots.toList.flatMap t.toBytes ++ rest, calls⟩ := by
  refine ⟨fun N b xs => ?_, fun b xs rest calls failed hfits => ?_, fun b n slots rest calls failed hfits =>
    handle_decodes slots rest calls failed b hfits⟩
  · intro typed list k e
    have hfits : Region.Fits (xs.flatMap t.toBytes) xs.length t.width :=
      ⟨t.width_pos, (Region.length_flatMap_image t.length_toBytes xs).symm⟩
    have hpieces : Buffer.encodePieces (xs.map t.toBytes) b = typed := by rw [← Buffer.encodeArray_scalar]
    obtain ⟨hlist, hstate⟩ := (Format.scalar t).encodeList_apply xs b
    refine ⟨xs.map t.toBytes, ?_, ?_⟩
    · rw [Region.elements_of_fits hfits, Region.chunks_flatMap t.length_toBytes]
    rw [hpieces]
    refine ⟨rfl, hstate, fun h => ?_, fun h => ?_⟩
    · have htyped := Buffer.encodeArray_scalar_of_le h
      exact ⟨htyped, htyped, by rw [hlist, htyped]; rfl⟩
    · have htyped := Buffer.encodeArray_scalar_of_lt h
      exact ⟨htyped, htyped, by rw [hlist, htyped]; rfl⟩
  · obtain ⟨htells, hhandle, hmemory⟩ := handle_encodes xs rest calls failed b hfits
    refine ⟨hhandle, hmemory, fun h => ?_, fun h => ?_⟩
    · exact htells.of_ok _ (Buffer.encodeArray_scalar_of_le h)
    · exact htells.of_error _ (Buffer.encodeArray_scalar_of_lt h)

/-- Three numbers, with room for two and a half or as much to decode. -/
theorem scalar_arrays_coded_alike_three :
    let t := ScalarType.u32
    let xs : List t.Carrier := [1, 2, 3]
    let slots : Vector t.Carrier 3 := #v[1, 2, 3]
    let b : Buffer handleCapacity := ⟨.replicate 256 0, 246, 256⟩
    let encoded := Handle.codeEach (.to ()) xs.length t.width (.to (scalarCallback t false))
      ⟨xs.flatMap t.toBytes ++ [9], 0⟩ (.to none) (some b)
    let decoded := Handle.codeEach (.to ()) 3 t.width (.to (scalarCallback t true))
      ⟨slots.toList.flatMap t.toBytes ++ [9], 0⟩ (.to none) (some b)
    (Buffer.encodeArray (.scalar t) xs b).result = .error ⟨2, .overflow 4 2⟩ ∧
    ((Format.scalar t).encodeList xs b).result = .error (.overflow 4 2) ∧
    encoded.status = .elementFailed ∧ encoded.out.2 = .to (some 2) ∧
    encoded.handle = some (Buffer.encodeArray (.scalar t) xs b).state ∧
    decoded.handle = some (Buffer.decodeSlots (.scalar t) ⟨b, slots⟩).state.source := by
  intro t xs slots b encoded decoded
  have hindex : b.remaining / t.width = 2 := by decide
  have hleft : b.remaining % t.width = 2 := by decide
  obtain ⟨hbuffers, hencodes, hdecodes⟩ := scalar_arrays_coded_alike t
  obtain ⟨pieces, -, -, -, -, hstops⟩ := hbuffers handleCapacity b xs
  obtain ⟨htyped, -, hlist⟩ := hstops (by decide)
  obtain ⟨hhandle, -, -, hfailed⟩ := hencodes b xs [9] 0 (.to none) (by decide)
  obtain ⟨hstatus, hwritten⟩ := hfailed (by decide)
  obtain ⟨-, hsource, -⟩ := hdecodes b 3 slots [9] 0 (.to none) (by decide)
  rw [hindex] at htyped hwritten
  rw [hleft] at htyped hlist
  exact ⟨htyped, hlist, hstatus, hwritten, hhandle, hsource⟩

end Marshal
