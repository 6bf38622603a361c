import Marshal.Proofs.Frames
import Marshal.Proofs.HandleRefinement
import Marshal.Proofs.StaleHandles

/-!
# Views stay as they are while nothing is written

A decoded string or slice is not copied: it stands in the storage, behind the
leaves decoded before it. Programs that only read keep the storage byte for
byte, so what stands there still reads the same, also for a caller that keeps
the address alone. Without a reset or a seal, going back to the first cursor
brings the first state back.
-/

namespace Marshal

open Marshal.Action Session

variable {N : Nat} {ε κ μ α β : Type}

/-! ## Where a leaf stands -/

theorem Wire.exists_append {before ps : List Part} {taken : List UInt8} (h : Wire (before ++ ps) taken) :
    ∃ first others, taken = first ++ others ∧ Wire before first ∧ Wire ps others := by
  induction before generalizing taken with
  | nil => exact ⟨[], taken, rfl, .nil, h⟩
  | cons p before ih =>
    cases h with
    | @cons _ _ image rest hp hrest =>
      obtain ⟨first, others, rfl, hfirst, hothers⟩ := ih hrest
      exact ⟨image ++ first, others, by rw [List.append_assoc], .cons hp hfirst, hothers⟩

namespace Buffer

theorem slice_stands {b : Buffer N} {r : Reader} (hr : r.bytes = b.message) {length : Nat} {out : List UInt8}
    (h : (Reader.decodeBytes length r).result = .ok out) :
    (b.storage.toList.drop r.position).take length = out := by
  rw [Reader.decodeBytes_apply] at h
  split_ifs at h with hu
  · cases h
  obtain ⟨more, hmore⟩ := exists_drop_storage hr 0
  rw [Nat.add_zero, List.drop_zero] at hmore
  rw [hmore, List.take_append_of_le_length (by rw [Reader.length_rest]; omega)]
  exact Except.ok.inj h

theorem leaf_stands {b : Buffer N} {r : Reader} (hr : r.bytes = b.message) {f : Format} {x : f.Value}
    (h : (f.decode r).result = .ok x) {before after : List Part} {p : Part} (hparts : f.parts x = before ++ p :: after) :
    ∃ bytes rest, b.storage.toList.drop (r.position + widthSum before) = bytes ++ rest ∧ p.Wire bytes := by
  obtain ⟨taken, rest, hrest, hw⟩ := Format.wire_of_decode h
  rw [hparts] at hw
  obtain ⟨first, others, rfl, hfirst, hothers⟩ := hw.exists_append
  obtain ⟨more, hmore⟩ := exists_drop_storage hr first.length
  rw [hrest, List.append_assoc, List.drop_left, hfirst.length_eq] at hmore
  cases hothers with
  | @cons _ _ bytes later hp _ =>
    rw [List.append_assoc, List.append_assoc] at hmore
    exact ⟨bytes, _, hmore, hp⟩

end Buffer

/-! ## Programs that only read -/

namespace Buffer

theorem Program.storage_eq {a : Action ε (κ × Buffer N) α} (h : Program Call.Reads a) (memory : κ) (b : Buffer N) :
    (a (memory, b)).state.2.storage = b.storage := by
  refine h.keeps (P := fun c => c.storage = b.storage) (fun {_ d} _ c hc => ?_) (fun {_ _ a} ha c hc => ?_)
    (fun call hcall c hc => ?_) (memory, b) rfl
  · exact (sameContent_read d c).storage_eq.trans hc
  · exact (sameContent_atomically a c).storage_eq.trans (ha c hc)
  · exact (call.storage_of_reads hcall c).trans hc

theorem Program.sameContent {a : Action ε (κ × Buffer N) α} (h : Program (fun c => c.Reads ∧ ¬ c.SetsUsed) a)
    (memory : κ) (b : Buffer N) : b.SameContent (a (memory, b)).state.2 := by
  refine h.keeps (P := b.SameContent) (fun {_ d} _ => keeps_sameContent (sameContent_read d)) (fun {_ _ a} ha c hc => ?_)
    (fun call hcall c hc => hc.trans (call.content_of_reads hcall c)) (memory, b) (.refl b)
  exact (ha c hc).trans (sameContent_atomically a c)

end Buffer

/-! ## Behind handles -/

namespace Handle

def Holds (storage : Vector UInt8 handleCapacity) (h : Handle) : Prop := ∃ b, h = some b ∧ b.storage = storage

theorem run_holds {a : Action Error (Buffer handleCapacity) β} (ha : ∀ b, (a b).state.storage = b.storage) (out : α)
    (write : β → α) (b : Buffer handleCapacity) : (run a out write b).handle.Holds b.storage := by
  have hb := ha b
  unfold run
  rcases ho : a b with ⟨_ | x, c, log⟩
  · rw [ho] at hb
    exact ⟨c, rfl, hb⟩
  · rw [ho] at hb
    exact ⟨c, rfl, hb⟩

theorem read_holds (d : Action Error Reader β) (out : α) (write : β → α) (b : Buffer handleCapacity) :
    (run (Buffer.read d) out write b).handle.Holds b.storage :=
  run_holds (fun c => (Buffer.sameContent_read d c).storage_eq) out write b

variable {storage : Vector UInt8 handleCapacity} {h : Handle} (hh : h.Holds storage)

include hh

theorem reset_holds : (reset h).handle.Holds storage := by
  obtain ⟨b, rfl, rfl⟩ := hh
  exact ⟨b.reset, rfl, rfl⟩

theorem sealed_holds : (sealed h).handle.Holds storage := by
  obtain ⟨b, rfl, rfl⟩ := hh
  exact ⟨b.sealed, rfl, rfl⟩

theorem decodeBytes_holds (out : Pointer (List UInt8)) (length : Nat) :
    (decodeBytes out length h).handle.Holds storage := by
  obtain ⟨b, rfl, rfl⟩ := hh
  rcases out with _ | old <;> rcases length with _ | length
  · exact ⟨b, rfl, rfl⟩
  · exact ⟨b, rfl, rfl⟩
  · exact ⟨b, rfl, rfl⟩
  · exact read_holds _ _ _ b

theorem decodeCString_holds (view : Pointer (Option StringView)) (consumed : Pointer (Option Nat)) :
    (decodeCString view consumed h).handle.Holds storage := by
  obtain ⟨b, rfl, rfl⟩ := hh
  rcases view with _ | old
  · exact ⟨b, rfl, rfl⟩
  · exact read_holds _ _ _ b

theorem decode_holds (t : ScalarType) (out : Pointer (List UInt8)) : (decode t out h).handle.Holds storage := by
  obtain ⟨b, rfl, rfl⟩ := hh
  rcases out with _ | old
  · exact ⟨b, rfl, rfl⟩
  · exact read_holds _ _ _ b

theorem codeEach_holds (elements : Pointer Unit) (count size : Nat) {coder : Pointer (ElementCallback μ)}
    (hcoder : ∀ code, coder = .to code → ∀ start, Keeps (fun p => p.1.Holds storage) (code start)) (memory : μ)
    (failed : Pointer (Option Nat)) : (codeEach elements count size coder memory failed h).handle.Holds storage := by
  obtain ⟨b, rfl, rfl⟩ := hh
  rcases coder with _ | code
  · exact ⟨b, rfl, rfl⟩
  unfold codeEach onLive
  dsimp only
  split_ifs
  · exact ⟨b, rfl, rfl⟩
  · exact ⟨b, rfl, rfl⟩
  · exact ⟨b, rfl, rfl⟩
  have hloop := keeps_iff_sim.mpr (Sim.codeRange (fun index => keeps_iff_sim.mp (hcoder code rfl (index * size))) 0 count)
    (some b, memory) ⟨b, rfl, rfl⟩
  rcases hr : codeRange (fun index => code (index * size)) 0 count (some b, memory) with ⟨_ | n, ⟨g, m⟩, log⟩
  · rw [hr] at hloop
    exact hloop
  · rw [hr] at hloop
    exact hloop

end Handle

namespace Session

open Handle

namespace FieldScript

variable {storage : Vector UInt8 handleCapacity}

theorem check_holds {call : Handle → Reply α} (hcall : ∀ h, Holds storage h → (call h).handle.Holds storage) :
    Sim (Both fun p => Holds storage p.1) (check call) (check call) :=
  keeps_iff_sim.mp fun p hp => hcall p.1 hp

theorem codeFields_holds (start : Nat) {fields : List Field} (h : ∀ field ∈ fields, field.decodes = true) :
    Sim (Both fun p => Holds storage p.1) (codeFields start fields) (codeFields start fields) := by
  induction fields with
  | nil => exact Sim.pure _
  | cons field fields ih =>
    obtain ⟨hfield, hfields⟩ := List.forall_mem_cons.mp h
    refine Sim.bind ?_ fun _ => ih hfields
    refine (Sim.view fun _ _ h => by rw [h.1]).bind fun region => ?_
    dsimp only
    rw [if_pos hfield]
    refine (check_holds fun _ hh => decode_holds hh _ _).bind fun out => ?_
    rcases out with _ | bytes
    · exact Sim.pure _
    · exact keeps_iff_sim.mp fun p hp => hp

theorem callback_holds {script : FieldScript} (h : ∀ field ∈ script.fields, field.decodes = true) (start : Nat) :
    Keeps (fun p => Holds storage p.1) (script.callback start) := by
  refine keeps_iff_sim.mpr ((Sim.view fun _ _ h => by rw [h.1]).bind fun calls => ?_)
  refine Sim.bind (keeps_iff_sim.mp fun p hp => hp) fun _ => ?_
  split
  · exact Sim.fail _
  · refine Sim.bind ?_ fun _ => codeFields_holds start h
    cases script.opening with
    | nothing => exact Sim.pure _
    | reset => exact check_holds fun _ => reset_holds
    | sealed => exact check_holds fun _ => sealed_holds

end FieldScript

def HandleCall.Reads : HandleCall → Prop
  | reset | sealed | data | decodeBytes .. | decodeCString .. | decode .. => True
  | codeEach _ _ _ coder _ => ∀ script, coder = .to script → ∀ field ∈ script.fields, field.decodes = true
  | _ => False

theorem HandleCall.step_holds {c : HandleCall} (hc : c.Reads) {storage : Vector UInt8 handleCapacity} {h : Handle}
    (hh : h.Holds storage) : (c.step h).handle.Holds storage := by
  cases c with
  | reset => exact reset_holds hh
  | sealed => exact sealed_holds hh
  | data => exact hh
  | decodeBytes out length => exact decodeBytes_holds hh out length
  | decodeCString view consumed => exact decodeCString_holds hh view consumed
  | decode t out => exact decode_holds hh t out
  | codeEach elements count size coder failed =>
    refine codeEach_holds hh _ count size (fun code hcode start => ?_) _ failed
    rcases coder with _ | script
    · cases hcode
    · cases hcode
      exact FieldScript.callback_holds (hc script rfl) start
  | _ => exact hc.elim

end Session

/-- Programs that touch a handle by calls that read, and coders made in the same way. -/
inductive Handle.ReadingProgram (μ : Type) : ∀ {ε α : Type}, Action ε (Handle × μ) α → Prop
  | pure {ε α : Type} (x : α) : ReadingProgram μ (pure x : Action ε (Handle × μ) α)
  | fail {ε α : Type} (e : ε) : ReadingProgram μ (Action.fail e : Action ε (Handle × μ) α)
  | memory {ε α : Type} (a : Action ε μ α) : ReadingProgram μ a.onSnd
  | call {ε : Type} (c : HandleCall) : c.Reads → ReadingProgram μ (c.ask : Action ε (Handle × μ) HandleReport)
  | codeArray {ε : Type} (elements : Pointer Unit) (count size : Nat) {coder : ElementCallback μ}
      (failed : Pointer (Option Nat)) : (∀ start, ReadingProgram μ (coder start)) →
      ReadingProgram μ (codeArray elements count size coder failed : Action ε (Handle × μ) (Status × Pointer (Option Nat)))
  | bind {ε α β : Type} {a : Action ε (Handle × μ) α} {f : α → Action ε (Handle × μ) β} :
      ReadingProgram μ a → (∀ x, ReadingProgram μ (f x)) → ReadingProgram μ (a >>= f)

theorem Handle.ReadingProgram.holds {a : Action ε (Handle × μ) α} (h : ReadingProgram μ a)
    {storage : Vector UInt8 handleCapacity} : Keeps (fun p => p.1.Holds storage) a := by
  induction h with
  | pure x => exact keeps_iff_sim.mpr (Sim.pure x)
  | fail e => exact keeps_iff_sim.mpr (Sim.fail e)
  | memory a => exact fun p hp => hp
  | call c hc => exact fun p hp => c.step_holds hc hp
  | codeArray elements count size failed _ ih =>
    refine fun p hp => codeEach_holds hp elements count size (fun code hcode => ?_) p.2 failed
    cases hcode
    exact ih
  | bind _ _ iha ihf => exact keeps_iff_sim.mpr ((keeps_iff_sim.mp iha).bind fun x => keeps_iff_sim.mp (ihf x))

/-- **Only what is said to write writes, and views stay as they are.** The used count changes in a
reset, a seal, a load or a receive; bytes change where an encode or a load writes. Programs of all
other calls keep what decoded slices and leaves stand on. -/
theorem writes_framed_and_views_stable :
    (∀ (N : Nat) (c : Call N) (b : Buffer N),
      ((c.step b).state.used ≠ b.used → c.SetsUsed ∧ ∃ a, (c.step b).result = .ok a) ∧
      (c.Reads → (c.step b).state.storage = b.storage) ∧
      (c.Encodes → (c.step b).state.storage = overwrite b.storage b.cursor (c.wrote b) ∧
        Buffer.SameOutside b.cursor (c.wrote b).length b (c.step b).state)) ∧
    (∀ (N : Nat) (bytes : List UInt8) (b : Buffer N),
      Buffer.SameOutside 0 bytes.length b ((Call.load bytes).step b).state) ∧
    (∀ (N : Nat) (c : StationCall N) (station : Station N), (∀ call, c ≠ .call call) →
      station.buffer.SameContent (c.step station).station.buffer) ∧
    (∀ (N : Nat) {α : Type} (d : Action Error Reader α) (b : Buffer N), b.SameContent (Buffer.read d b).state) ∧
    (∀ (N : Nat) {κ ε α : Type} (a : Action ε (κ × Buffer N) α), Buffer.Program Call.Reads a →
      ∀ (memory : κ) (b : Buffer N), let after := (a (memory, b)).state.2
        after.storage = b.storage ∧ ∀ r : Reader, r.bytes = b.message →
          (∀ length out, (Reader.decodeBytes length r).result = .ok out →
            (after.storage.toList.drop r.position).take length = out) ∧
          ∀ (f : Format) (x : f.Value), (f.decode r).result = .ok x →
            ∀ before p others, f.parts x = before ++ p :: others →
              let offset := r.position + widthSum before
              p.Wire ((after.storage.toList.drop offset).take p.width) ∧
                (p.leaf.decode ⟨after.storage.toList, offset⟩).result = .ok p.value) ∧
    (∀ (N : Nat) {κ ε α : Type} (a : Action ε (κ × Buffer N) α),
      Buffer.Program (fun c => c.Reads ∧ ¬ c.SetsUsed) a → ∀ (memory : κ) (b : Buffer N), b.cursor ≤ N →
        let back := Buffer.restore b.checkpoint (a (memory, b)).state.2
        back = ⟨.ok (), b, []⟩ ∧ a (memory, back.state) = a (memory, b)) ∧
    (∀ {μ ε α : Type} (a : Action ε (Handle × μ) α), Handle.ReadingProgram μ a →
      ∀ (memory : μ) (old : Option StringView) (consumed : Pointer (Option Nat)) (b : Buffer handleCapacity),
        let decoded := (HandleCall.decodeCString (.to old) consumed).step (some b)
        decoded.answer = .status .ok → ∃ (view : StringView) (after : Buffer handleCapacity),
          decoded.extra = .string (.to (some view)) (consumed.write (some view.text.width)) ∧
          (a (decoded.handle, memory)).state.1 = some after ∧ after.storage = b.storage ∧
          (Reader.decodeCString ⟨after.storage.toList, view.offset⟩).result = .ok view.text) := by
  refine ⟨fun N c b => ⟨Call.used_changed, fun h => Call.storage_of_reads h b, fun h => ?_⟩,
    fun N bytes b => Buffer.sameOutside_load bytes b, fun N c station h => StationCall.sameContent_step h station,
    fun N α d b => Buffer.sameContent_read d b, fun N κ ε α a ha memory b => ⟨ha.storage_eq memory b, fun r hr => ?_⟩,
    fun N κ ε α a ha memory b hb => ?_, fun {μ ε α} a ha memory old consumed b => ?_⟩
  · have hstorage := Call.storage_of_encodes h b
    exact ⟨hstorage, Buffer.sameOutside_of_overwrite hstorage⟩
  · rw [ha.storage_eq memory b]
    refine ⟨fun length out h => Buffer.slice_stands hr h, fun f x h before p others hparts => ?_⟩
    obtain ⟨bytes, rest, hbytes, hp⟩ := Buffer.leaf_stands hr h hparts
    dsimp only
    rw [hbytes, ← hp.length_eq, List.take_left]
    exact ⟨hp, congrArg Outcome.result (Leaf.decode_of_wire hp (r := ⟨_, _⟩) hbytes)⟩
  · have hback : Buffer.restore b.checkpoint (a (memory, b)).state.2 = ⟨.ok (), b, []⟩ := by
      obtain ⟨hstorage, hused⟩ := ha.sameContent memory b
      have hrestore := Buffer.restore_checkpoint hb (a (memory, b)).state.2
      rw [Buffer.rewind_checkpoint hb, hstorage, hused] at hrestore
      exact hrestore
    exact ⟨hback, by rw [hback]⟩
  · intro decoded hok
    obtain ⟨s, hs, hextra, hhandle⟩ := HandleCall.step_decodeCString_of_ok hok
    have hlive : decoded.handle.Holds b.storage := ⟨_, hhandle, rfl⟩
    obtain ⟨after, hafter, hstorage⟩ := ha.holds (decoded.handle, memory) hlive
    obtain ⟨-, -, hbytes, -⟩ := Buffer.decodeCString_of_ok hs
    refine ⟨⟨b.cursor, s⟩, after, hextra, hafter, hstorage, ?_⟩
    have hstands : (⟨after.storage.toList, b.cursor⟩ : Reader).rest =
        s.image ++ (b.storage.toList.drop b.cursor).drop s.width := by
      rw [← hbytes, List.take_append_drop, hstorage]
      rfl
    exact congrArg Outcome.result (Reader.decodeCString_of_append s hstands)

/-- Views stay through a decode and a seal; an encode that fails overwrites a number. -/
theorem writes_framed_and_views_stable_of_text :
    let b : Buffer 8 := ⟨#v[9, 7, 0, 104, 105, 0, 1, 2], 1, 6⟩
    let f := Format.record [.scalar .u16, .leaf .text]
    let wide : Item := ⟨.record [.scalar .u32, .scalar .u64], (1, 2, ())⟩
    let word : Part := ⟨.text, "hi"⟩
    let reading : Action Unit (Unit × Buffer 8) _ := ask (Call.fetch (.item f)).step >>= fun _ => ask Call.sealed.step
    let popping : Action Unit (Unit × Buffer 8) _ := ask (Call.popBytes [0]).step
    let sealing : Action Unit (Handle × Unit) _ := HandleCall.ask .sealed
    let after := (reading ((), b)).state.2
    let live : Buffer handleCapacity := ⟨.replicate 256 0, 3, 4⟩
    let decoded := (HandleCall.decodeCString (.to none) .null).step (some live)
    ((Call.sealed : Call 8).SetsUsed ∧ ∃ a, (Call.sealed.step b).result = .ok a) ∧
      ((Call.fetch (.item f)).step b).state.storage = b.storage ∧
      Buffer.SameOutside 1 4 b ((Call.encodeWhole wide).step b).state ∧
      Buffer.SameOutside 0 2 b ((Call.load [5, 6]).step b).state ∧
      b.SameContent (StationCall.checkpoint.step ⟨b, []⟩).station.buffer ∧
      (after.storage.toList.drop 1).take 2 = [7, 0] ∧
      word.Wire ((after.storage.toList.drop 3).take 3) ∧
      (Reader.decodeText ⟨after.storage.toList, 3⟩).result = .ok "hi" ∧
      Buffer.restore b.checkpoint (popping ((), b)).state.2 = ⟨.ok (), b, []⟩ ∧
      ∃ (view : StringView) (later : Buffer handleCapacity), decoded.extra = .string (.to (some view)) .null ∧
        (sealing (decoded.handle, ())).state.1 = some later ∧
        (Reader.decodeCString ⟨later.storage.toList, view.offset⟩).result = .ok view.text := by
  intro b f wide word reading popping sealing after live decoded
  obtain ⟨hcalls, hload, hstation, -, hviews, hback, hhandles⟩ := writes_framed_and_views_stable
  have hwrote : ((Call.encodeWhole wide).wrote b).length = 4 := by decide
  obtain ⟨-, -, hwide⟩ := hcalls 8 (.encodeWhole wide) b
  obtain ⟨-, hoverwritten⟩ := hwide trivial
  rw [hwrote] at hoverwritten
  have hreading : Buffer.Program Call.Reads reading := .bind (.call _ ⟨id, id⟩) fun _ => .call _ ⟨id, id⟩
  obtain ⟨-, hstands⟩ := hviews 8 reading hreading () b
  obtain ⟨hslice, hleaf⟩ := hstands b.reader rfl
  let number : Part := ⟨.scalar .u16, (7 : UInt16)⟩
  obtain ⟨hword, hread⟩ := hleaf f ((7 : UInt16), "hi", ()) (by cbv) [number] word [] rfl
  have hcheckpoint : ∀ call : Call 8, StationCall.checkpoint ≠ .call call := by
    intro call h
    cases h
  obtain ⟨view, later, hextra, hlater, -, hstring⟩ := hhandles sealing (.call _ trivial) () none .null live rfl
  exact ⟨(hcalls 8 .sealed b).1 (by decide), (hcalls 8 (.fetch (.item f)) b).2.1 ⟨id, id⟩, hoverwritten,
    hload 8 [5, 6] b, hstation 8 .checkpoint ⟨b, []⟩ hcheckpoint, hslice 2 [7, 0] rfl, hword, hread,
    (hback 8 popping (.call _ ⟨⟨id, id⟩, id⟩) () b (by decide)).1, view, later, hextra, hlater, hstring⟩

end Marshal
