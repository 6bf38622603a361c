import Marshal.Proofs.ByteStack
import Marshal.Proofs.WireForm

/-!
# Taking back what was written

Popping returns the last written bytes, whatever wrote them, and leaves the
bytes below. So scalars come back in reverse, and a scalar that is popped and
encoded again leaves the buffer as it was, unless it is a boolean.
-/

namespace Marshal

open Marshal.Action Session

variable {N : Nat}

namespace Buffer

theorem popBytes_of_lt {length : Nat} {b : Buffer N} (h : b.cursor < length) :
    popBytes length b = ⟨.error (.underflow length b.cursor), b, []⟩ := by
  rw [popBytes, if_pos h]

theorem popBytes_used (length used : Nat) (b : Buffer N) : popBytes length { b with used := used } =
    ⟨(popBytes length b).result, { (popBytes length b).state with used := used }, (popBytes length b).log⟩ := by
  unfold popBytes
  by_cases hlt : b.cursor < length
  · simp only [if_pos hlt]
  · simp only [if_neg hlt]
    rfl

theorem popBytes_of_written {b : Buffer N} {before taken : List UInt8} (hb : b.cursor ≤ N)
    (h : b.written = before ++ taken) :
    popBytes taken.length b = ⟨.ok taken, { b with cursor := before.length }, []⟩ := by
  have hcursor : b.cursor = before.length + taken.length := by
    rw [← length_written hb, h, List.length_append]
  have hlow : b.cursor - taken.length = before.length := by omega
  rw [popBytes, if_neg (by omega), hlow, h, List.drop_left]

theorem popScalar_of_written (t : ScalarType) {b : Buffer N} {before taken : List UInt8}
    (hb : b.cursor ≤ N) (h : b.written = before ++ taken) (hw : taken.length = t.width) :
    popScalar t b = ⟨.ok (t.ofBytes taken), { b with cursor := before.length }, []⟩ := by
  rw [popScalar, bind_apply, ← hw, popBytes_of_written hb h]
  rfl

theorem append_of_written {b : Buffer N} {before taken : List UInt8} (hb : b.cursor ≤ N)
    (h : b.written = before ++ taken) : ({ b with cursor := before.length } : Buffer N).append taken = b := by
  have hcursor : before.length + taken.length = b.cursor := by
    rw [← length_written hb, h, List.length_append]
  have hlay : ∀ i < taken.length, b.storage[before.length + i]? = taken[i]? := by
    intro i hi
    have htake : b.written[before.length + i]? = b.storage.toList[before.length + i]? :=
      List.getElem?_take_of_lt (by omega)
    rw [← Vector.getElem?_toList, ← htake, h, List.getElem?_append_right (Nat.le_add_right _ _),
      Nat.add_sub_cancel_left]
  simp only [append, overwrite_eq_self hlay, hcursor]

/-- Not for a boolean: a byte that reads as true need not be the byte that true is written as. -/
theorem encodeScalar_of_popScalar {t : ScalarType} (ht : t ≠ .bool) {b : Buffer N} (hb : b.cursor ≤ N)
    {x : t.Carrier} (h : (popScalar t b).result = .ok x) :
    encodeScalar t x (popScalar t b).state = ⟨.ok (), b, []⟩ := by
  by_cases hlt : b.cursor < t.width
  · rw [popScalar, bind_apply, popBytes_of_lt hlt] at h
    cases h
  · let before := b.written.take (b.cursor - t.width)
    let taken := b.written.drop (b.cursor - t.width)
    have hwritten : b.written = before ++ taken := (List.take_append_drop _ _).symm
    have hwidth : taken.length = t.width := by
      rw [List.length_drop, length_written hb]
      omega
    have hpop := popScalar_of_written t hb hwritten hwidth
    rw [hpop] at h
    cases h
    have hheight : before.length + taken.length = b.cursor := by
      rw [← List.length_append, ← hwritten, length_written hb]
    have hroom : taken.length ≤ ({ b with cursor := before.length } : Buffer N).remaining :=
      (le_remaining_iff (by dsimp only; omega)).mpr (by rwa [hheight])
    rw [hpop, encodeScalar, t.toBytes_ofBytes hwidth, ScalarType.settle_of_ne_bool ht, encodeBytes_of_le hroom,
      append_of_written hb hwritten]

end Buffer

/-! ## Scalars in reverse -/

structure Scalar where
  type : ScalarType
  value : type.Carrier

namespace Scalar

def part (x : Scalar) : Part := ⟨.scalar x.type, x.value⟩

def encode (x : Scalar) : Action Error (Buffer N) Unit := Buffer.encodeScalar x.type x.value

def pop (t : ScalarType) : Action Error (Buffer N) Scalar := Scalar.mk t <$> Buffer.popScalar t

theorem pop_of_written (x : Scalar) {b : Buffer N} {before : List UInt8} (hb : b.cursor ≤ N)
    (h : b.written = before ++ x.part.image) :
    pop x.type b = ⟨.ok x, { b with cursor := before.length }, []⟩ := by
  have hx : x.type.ofBytes x.part.image = x.value := x.type.ofBytes_toBytes x.value
  rw [pop, map_apply, Buffer.popScalar_of_written x.type hb h (ScalarType.length_toBytes _ _), hx]
  rfl

theorem pops_of_written {xs : List Scalar} {b : Buffer N} {before : List UInt8} (hb : b.cursor ≤ N)
    (h : b.written = before ++ (xs.map part).flatMap Part.image) :
    (xs.reverse.map Scalar.type).mapM pop b = ⟨.ok xs.reverse, { b with cursor := before.length }, []⟩ := by
  induction xs using List.reverseRecOn generalizing b with
  | nil =>
    have hcursor : b.cursor = before.length := by
      rw [← Buffer.length_written hb, h]
      simp
    rw [← hcursor]
    rfl
  | append_singleton xs x ih =>
    -- the last one lies on top and is popped first
    have hx : b.written = (before ++ (xs.map part).flatMap Part.image) ++ x.part.image := by
      rw [h]
      simp
    have hle : (before ++ (xs.map part).flatMap Part.image).length ≤ b.cursor := by
      rw [← Buffer.length_written hb, hx]
      exact (List.prefix_append _ _).length_le
    have hbelow := b.written_moveCursor hle
    rw [hx, List.take_left] at hbelow
    have hrest := ih (Nat.le_trans hle hb) hbelow
    rw [List.reverse_append, List.reverse_singleton, List.singleton_append, List.map_cons, List.mapM_cons,
      bind_apply, x.pop_of_written hb hx]
    simp only [bind_apply, hrest, pure_apply, List.append_nil]

theorem forM_encode (xs : List Scalar) :
    (forM xs encode : Action Error (Buffer N) PUnit) = forM (xs.map part) Part.encode := by
  rw [List.forM_map]
  rfl

theorem pops_of_encodes {xs : List Scalar} {b : Buffer N} (hb : b.cursor ≤ N)
    (h : (forM xs encode b).result = .ok ()) :
    (xs.reverse.map Scalar.type).mapM pop (forM xs encode b).state =
      ⟨.ok xs.reverse, { (forM xs encode b).state with cursor := b.cursor }, []⟩ := by
  rw [forM_encode] at h ⊢
  obtain ⟨hn, hroom⟩ := forM_encode_eq_ok_iff.mp h
  have hfit : b.cursor + ((xs.map part).flatMap Part.image).length ≤ N := by
    rwa [length_flatMap_partImage, ← Buffer.le_remaining_iff hb]
  rw [forM_encode_of_le hn hroom, pops_of_written hfit (b.written_append _ hfit), Buffer.length_written hb]

end Scalar

/-! ## Buffers and stacks -/

namespace Session.WriteCall

theorem onBuffer_popBytes_of_lt {out : List UInt8} {b : Buffer N} (h : b.cursor < out.length) :
    (popBytes out).onBuffer b = ⟨.error (.error (.underflow out.length b.cursor)), .out out, b, []⟩ := by
  show Step.ofCopy out (Buffer.popBytes out.length) b = _
  rw [Step.ofCopy, Buffer.popBytes_of_lt h]
  rfl

theorem onBuffer_popBytes_eq_error_iff {out : List UInt8} {b : Buffer N} {e : Fault} :
    ((popBytes out).onBuffer b).result = .error e ↔
      b.cursor < out.length ∧ e = .error (.underflow out.length b.cursor) := by
  by_cases hlt : b.cursor < out.length
  · rw [onBuffer_popBytes_of_lt hlt]
    exact ⟨fun h => ⟨hlt, (Except.error.inj h).symm⟩, fun ⟨_, h⟩ => h ▸ rfl⟩
  · show (Step.ofCopy out (Buffer.popBytes out.length) b).result = _ ↔ _
    rw [Step.ofCopy, Buffer.popBytes, if_neg hlt]
    exact ⟨nofun, fun h => absurd h.1 hlt⟩

end Session.WriteCall

namespace Buffer

theorem written_of_stops {x : Item} {b : Buffer N} (hb : b.cursor ≤ N) {before after : List Part} {p : Part}
    (hparts : x.format.parts x.value = before ++ p :: after) (h : Stops b.remaining before p) :
    (encode x b).state.written = b.written ++ before.flatMap Part.image ∧
      (encodeWhole x b).state.written = b.written := by
  obtain ⟨hr, hs⟩ := Format.encode_of_stops hparts h
  have hroom : (before.flatMap Part.image).length ≤ b.remaining := by
    rw [length_flatMap_partImage]
    exact h.fits
  have hwhole : encodeWhole x b = _ := atomically_of_error hr
  rw [hwhole, encode, hs]
  exact ⟨b.written_append _ ((le_remaining_iff hb).mp hroom), written_rewind_append hb hroom⟩

end Buffer

/-- **Writing to a buffer is pushing onto a stack of bytes.** Every run of encodes and pops answers
as on the stack of the written bytes, failures included. So encoded scalars come back in reverse,
and a popped scalar can be put back unless it is a boolean. -/
theorem buffer_writes_as_stack (b : Buffer N) (hb : b.cursor ≤ N) :
    (∀ calls : List WriteCall,
      trace WriteCall.onBuffer Buffer.written calls b = trace WriteCall.onStack ByteStack.bytes calls b.stack) ∧
    (∀ (x : Item) before p after, x.format.parts x.value = before ++ p :: after → Stops b.remaining before p →
      (Buffer.encode x b).state.written = b.written ++ before.flatMap Part.image ∧
      (Buffer.encodeWhole x b).state.written = b.written) ∧
    (∀ out : List UInt8,
      (∀ e, ((WriteCall.popBytes out).onBuffer b).result = .error e ↔
        b.written.length < out.length ∧ e = .error (.underflow out.length b.written.length)) ∧
      (b.written.length < out.length →
        ((WriteCall.popBytes out).onBuffer b).extra = .out out ∧
          ((WriteCall.popBytes out).onBuffer b).state = b) ∧
      ∀ used, Buffer.popBytes out.length { b with used := used } =
        ⟨(Buffer.popBytes out.length b).result, { (Buffer.popBytes out.length b).state with used := used },
          (Buffer.popBytes out.length b).log⟩) ∧
    (∀ xs : List Scalar, (forM xs Scalar.encode b).result = .ok () →
      (xs.reverse.map Scalar.type).mapM Scalar.pop (forM xs Scalar.encode b).state =
        ⟨.ok xs.reverse, { (forM xs Scalar.encode b).state with cursor := b.cursor }, []⟩) ∧
    ∀ (t : ScalarType) (x : t.Carrier), t ≠ .bool → (Buffer.popScalar t b).result = .ok x →
      Buffer.encodeScalar t x (Buffer.popScalar t b).state = ⟨.ok (), b, []⟩ := by
  refine ⟨fun calls => ?_, fun x before p after => Buffer.written_of_stops hb, fun out => ⟨fun e => ?_, fun h => ?_,
    fun used => Buffer.popBytes_used _ used b⟩, fun xs => Scalar.pops_of_encodes hb,
    fun t x ht => Buffer.encodeScalar_of_popScalar ht hb⟩
  · exact trace_eq (fun c _ => WriteCall.refines c) (fun _ _ h => h.written_eq) (Buffer.holds_stack hb)
  · rw [Buffer.length_written hb]
    exact WriteCall.onBuffer_popBytes_eq_error_iff
  · rw [Buffer.length_written hb] at h
    rw [WriteCall.onBuffer_popBytes_of_lt h]
    exact ⟨rfl, rfl⟩

/-- A record that is written in part, a pop across it, and numbers that come back. -/
theorem buffer_writes_as_stack_of_mixed :
    let b : Buffer 6 := ⟨#v[1, 2, 0, 0, 0, 0], 2, 5⟩
    let x := Item.record [⟨.scalar .u16, (772 : UInt16)⟩, ⟨.leaf .text, "abc"⟩]
    let nan : Scalar := ⟨.f32, ⟨0x7fa00001⟩⟩
    (trace WriteCall.onBuffer Buffer.written [.item x, .whole x, .popBytes [0, 0, 0], .popBytes [0, 0]] b).map
        (fun seen => seen.2.2) = [[1, 2, 4, 3], [1, 2, 4, 3], [1], [1]] ∧
      (Buffer.encodeWhole x b).state.written = b.written ∧
      ((WriteCall.popBytes [0, 0, 0]).onBuffer b).result = .error (.error (.underflow 3 2)) ∧
      ((WriteCall.popBytes [0, 0, 0]).onBuffer b).state = b ∧
      ([.f32].mapM Scalar.pop (forM [nan] Scalar.encode b).state).result = .ok [nan] ∧
      (Buffer.popScalar .u16 b).result = .ok 513 ∧
      Buffer.encodeScalar .u16 513 (Buffer.popScalar .u16 b).state = ⟨.ok (), b, []⟩ := by
  intro b x nan
  obtain ⟨hrun, hstops, hpop, hscalars, hagain⟩ := buffer_writes_as_stack b (by decide)
  obtain ⟨-, hwhole⟩ := hstops x [⟨.scalar .u16, (772 : UInt16)⟩] ⟨.text, "abc"⟩ [] rfl
    ⟨by decide, by decide, .inr (by decide)⟩
  obtain ⟨hfails, hkept, -⟩ := hpop [0, 0, 0]
  refine ⟨?_, hwhole, (hfails _).mpr ⟨by decide, rfl⟩, (hkept (by decide)).2,
    congrArg Outcome.result (hscalars [nan] rfl), rfl, hagain .u16 513 (by decide) rfl⟩
  rw [hrun]
  decide

end Marshal
