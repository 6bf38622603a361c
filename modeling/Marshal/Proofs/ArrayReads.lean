import Marshal.Buffer.Arrays
import Marshal.Proofs.BufferReads
import Marshal.Proofs.PartialArrays

/-!
# Three ways to decode an array

The slots of an array can be filled on a buffer or on a reader of its message,
and the array can be decoded as one value. All three take the same elements
(`InRow`) and stop with the same failure. They differ in where they stand then:
a buffer behind the elements that were taken, a reader at the leaf that failed,
and a buffer that decodes one value where it was.
-/

namespace Marshal

open Marshal.Action

variable {N n : Nat} {ε σ β : Type}

/-! ## Elements in a row -/

/-- The values `xs` are decoded one after another, the first at `s`, and the last leads to `s'`. -/
inductive InRow (decode : Action ε σ β) : σ → List β → σ → Prop
  | nil (s : σ) : InRow decode s [] s
  | cons {s s' : σ} {x : β} {xs : List β} :
    (decode s).result = .ok x → InRow decode (decode s).state xs s' → InRow decode s (x :: xs) s'

theorem InRow.of_eq {decode : Action ε σ β} {s t s' : σ} {x : β} {xs : List β} {log : List Record}
    (h : decode s = ⟨.ok x, t, log⟩) (hrow : InRow decode t xs s') : InRow decode s (x :: xs) s' :=
  .cons (congrArg Outcome.result h) (by rwa [h])

theorem decodeSome_succ_of_ok {decode : Action ε σ β} {s : σ} {x : β} (h : (decode s).result = .ok x) (n : Nat) :
    (decodeSome decode (n + 1) s).1 = x :: (decodeSome decode n (decode s).state).1 ∧
      (decodeSome decode (n + 1) s).2.result = (decodeSome decode n (decode s).state).2.result ∧
      (decodeSome decode (n + 1) s).2.state = (decodeSome decode n (decode s).state).2.state := by
  rw [decodeSome]
  rcases hd : decode s with ⟨_ | y, s', log⟩
  · rw [hd] at h; cases h
  · rw [hd] at h
    cases h
    exact ⟨rfl, rfl, rfl⟩

theorem decodeSome_succ_of_error {decode : Action ε σ β} {s : σ} {e : ε} (h : (decode s).result = .error e) (n : Nat) :
    decodeSome decode (n + 1) s = ([], ⟨.error e, (decode s).state, (decode s).log⟩) := by
  rw [decodeSome]
  rcases hd : decode s with ⟨e' | y, s', log⟩
  · rw [hd] at h
    cases h
    rfl
  · rw [hd] at h; cases h

theorem exists_inRow (decode : Action ε σ β) (n : Nat) (s : σ) :
    ∃ xs s', InRow decode s xs s' ∧ (xs.length = n ∨ xs.length < n ∧ ∃ e, (decode s').result = .error e) := by
  induction n generalizing s with
  | zero => exact ⟨[], s, .nil s, .inl rfl⟩
  | succ n ih =>
    cases hx : (decode s).result with
    | error e => exact ⟨[], s, .nil s, .inr ⟨Nat.succ_pos n, e, hx⟩⟩
    | ok x =>
      obtain ⟨xs, s', hrow, hend⟩ := ih (decode s).state
      refine ⟨x :: xs, s', .cons hx hrow, ?_⟩
      rw [List.length_cons]
      exact hend.imp (congrArg Nat.succ) (And.imp_left Nat.succ_lt_succ)

namespace InRow

variable {decode : Action ε σ β} {s s' : σ} {xs : List β}

theorem decodeSome (h : InRow decode s xs s') :
    (decodeSome decode xs.length s).1 = xs ∧ (decodeSome decode xs.length s).2.result = .ok () ∧
      (decodeSome decode xs.length s).2.state = s' := by
  induction h with
  | nil s => exact ⟨rfl, rfl, rfl⟩
  | @cons s s' x xs hx _ ih =>
    obtain ⟨hfirst, hresult, hstate⟩ := decodeSome_succ_of_ok hx xs.length
    obtain ⟨hxs, hr, hs⟩ := ih
    rw [List.length_cons, hfirst, hresult, hstate]
    exact ⟨congrArg (x :: ·) hxs, hr, hs⟩

theorem decodeSome_of_error (h : InRow decode s xs s') {e : ε} (he : (decode s').result = .error e) {n : Nat}
    (hn : xs.length < n) :
    (Marshal.decodeSome decode n s).1 = xs ∧ (Marshal.decodeSome decode n s).2.result = .error e ∧
      (Marshal.decodeSome decode n s).2.state = (decode s').state := by
  induction h generalizing n with
  | nil s =>
    obtain ⟨n, rfl⟩ := Nat.exists_eq_add_of_lt hn
    rw [decodeSome_succ_of_error he]
    exact ⟨rfl, rfl, rfl⟩
  | @cons s s' x xs hx _ ih =>
    obtain ⟨n, rfl⟩ := Nat.exists_eq_add_one_of_ne_zero (Nat.ne_zero_of_lt hn)
    obtain ⟨hfirst, hresult, hstate⟩ := decodeSome_succ_of_ok hx n
    obtain ⟨hxs, hr, hs⟩ := ih he (Nat.lt_of_succ_lt_succ hn)
    rw [hfirst, hresult, hstate]
    exact ⟨congrArg (x :: ·) hxs, hr, hs⟩

/-! ### Filling slots -/

theorem fillSlots {v : Vector β n} (h : InRow decode s v.toList s') (slots : Vector β n) :
    (fillSlots decode ⟨s, slots⟩).result = .ok n ∧ (fillSlots decode ⟨s, slots⟩).state = ⟨s', v⟩ := by
  obtain ⟨hxs, hr, hs⟩ := h.decodeSome
  rw [Vector.length_toList] at hxs hr hs
  have hfull : overwrite slots 0 v.toList = v := Vector.toList_inj.mp (toList_overwrite_full slots _ v.length_toList)
  rw [fillSlots_eq]
  dsimp only
  rw [hxs, hr, hs, hfull]
  exact ⟨rfl, rfl⟩

theorem fillSlots_of_error (h : InRow decode s xs s') {e : ε} (he : (decode s').result = .error e)
    (hn : xs.length < n) (slots : Vector β n) :
    (Marshal.fillSlots decode ⟨s, slots⟩).result = .error ⟨xs.length, e⟩ ∧
      (Marshal.fillSlots decode ⟨s, slots⟩).state = ⟨(decode s').state, overwrite slots 0 xs⟩ := by
  obtain ⟨hxs, hr, hs⟩ := h.decodeSome_of_error he hn
  rw [fillSlots_eq]
  dsimp only
  rw [hxs, hr, hs]
  exact ⟨rfl, rfl⟩

theorem decodeArray_of_error (h : InRow decode s xs s') {e : ε} (he : (decode s').result = .error e)
    (hn : xs.length < n) (blank : β) : (decodeArray decode blank n s).result = .error e := by
  obtain ⟨hr, -⟩ := h.fillSlots_of_error he hn (Vector.replicate n blank)
  unfold decodeArray
  rcases hf : Marshal.fillSlots decode ⟨s, Vector.replicate n blank⟩ with ⟨_ | _, ⟨t, v⟩, log⟩
  · rw [hf] at hr
    cases hr
    rfl
  · rw [hf] at hr; cases hr

end InRow

/-! ## Elements on a buffer, on its reader and as leaves -/

theorem InRow.onBuffer {d : Action Error Reader β} (hd : Reader.Onward d) {r r' : Reader} {xs : List β}
    (h : InRow d r xs r') {b : Buffer N} (hb : b.reader = r) :
    ∃ k, r' = r.moveTo (r.position + k) ∧ InRow (Buffer.read d) b xs { b with cursor := b.cursor + k } ∧
      ({ b with cursor := b.cursor + k } : Buffer N).reader = r' := by
  induction h generalizing b with
  | nil r => exact ⟨0, rfl, .nil b, hb⟩
  | @cons r r' x xs hx _ ih =>
    subst hb
    obtain ⟨j, hj, hs, hread⟩ := Buffer.read_of_onward hd hx
    obtain ⟨k, hk, hrow, hreader⟩ := ih (b := { b with cursor := b.cursor + j }) (by rw [hs, Buffer.reader_moveCursor hj])
    refine ⟨j + k, ?_, ?_, ?_⟩
    · rw [hk, hs, ← Nat.add_assoc]
      rfl
    · rw [← Nat.add_assoc]
      exact .of_eq hread hrow
    · rw [← Nat.add_assoc]
      exact hreader

theorem Takes.append {r r' r'' : Reader} {ps qs : List Part} (h : Takes r ps r') (h' : Takes r' qs r'') :
    Takes r (ps ++ qs) r'' := by
  induction h with
  | nil r => exact h'
  | cons hp _ ih => exact .cons hp (ih h')

theorem InRow.takes {f : Format} {r r' : Reader} {xs : List f.Value} (h : InRow f.decode r xs r') :
    Takes r (xs.flatMap f.parts) r' := by
  induction h with
  | nil r => exact .nil r
  | cons hx _ ih => exact (Format.decode_eq_ok_iff.mp ⟨hx, rfl⟩).append ih

theorem Format.widthSum_flatMap_parts (f : Format) (xs : List f.Value) :
    widthSum (xs.flatMap f.parts) = (xs.map f.width).sum := by
  rw [← Marshal.length_flatMap_image, List.flatMap_assoc]
  exact f.length_flatMap_image xs

theorem Format.inRow_reader {f : Format} {b : Buffer N} {xs : List f.Value} {r' : Reader}
    (h : InRow f.decode b.reader xs r') :
    let width := (xs.map f.width).sum
    r' = b.reader.moveTo (b.reader.position + width) ∧
      InRow (Buffer.decode f) b xs { b with cursor := b.cursor + width } ∧
      ({ b with cursor := b.cursor + width } : Buffer N).reader = r' := by
  intro width
  obtain ⟨k, hk, hrow, hreader⟩ := h.onBuffer f.onward_decode rfl
  have hend := h.takes.eq_moveTo
  rw [widthSum_flatMap_parts] at hend
  have hwidth : k = width := Nat.add_left_cancel (congrArg Reader.position (hk.symm.trans hend))
  rw [hwidth] at hrow hreader
  exact ⟨hend, hrow, hreader⟩

theorem Buffer.decode_of_takes {f : Format} {b : Buffer N} {x : f.Value} {r' : Reader}
    (h : Takes b.reader (f.parts x) r') :
    (Buffer.decode f b).result = .ok x ∧ (Buffer.decode f b).state = { b with cursor := b.cursor + f.width x } := by
  obtain ⟨hx, hs⟩ := Format.decode_eq_ok_iff.mpr h
  obtain ⟨k, -, hk, hread⟩ := read_of_onward f.onward_decode hx
  have hwidth : k = f.width x :=
    Nat.add_left_cancel (congrArg Reader.position (hk.symm.trans (hs.trans h.eq_moveTo)))
  rw [decode, hread, hwidth]
  exact ⟨rfl, rfl⟩

/-- **Arrays are decoded alike in three ways.** Slots filled on a buffer, slots filled on its reader
and the array decoded as one value end alike: in the values, the bytes taken, and the element and
reason of a failure. -/
theorem arrays_decoded_alike (f : Format) (n : Nat) (b : Buffer N) (slots : Vector f.Value n) :
    let onBuffer := Buffer.decodeSlots f ⟨b, slots⟩
    let onReader := Reader.decodeSlots f ⟨b.reader, slots⟩
    let asValue := Buffer.decode (.array f n) b
    let behind (xs : List f.Value) : Buffer N := { b with cursor := b.cursor + (xs.map f.width).sum }
    let readerBehind (xs : List f.Value) := b.reader.moveTo (b.reader.position + (xs.map f.width).sum)
    (∃ xs : Vector f.Value n, Takes b.reader (xs.toList.flatMap f.parts) (readerBehind xs.toList) ∧
      onBuffer.result = .ok n ∧ onBuffer.state = ⟨behind xs.toList, xs⟩ ∧
      onReader.result = .ok n ∧ onReader.state = ⟨readerBehind xs.toList, xs⟩ ∧
      asValue.result = .ok xs ∧ asValue.state = behind xs.toList) ∨
    ∃ (xs : List f.Value) (e : Error), xs.length < n ∧ Takes b.reader (xs.flatMap f.parts) (readerBehind xs) ∧
      onBuffer.result = .error ⟨xs.length, e⟩ ∧ onReader.result = .error ⟨xs.length, e⟩ ∧ asValue.result = .error e ∧
      onBuffer.state.slots.toList = xs ++ slots.toList.drop xs.length ∧
      onReader.state.slots = onBuffer.state.slots ∧
      onBuffer.state.source = behind xs ∧ asValue.state = b ∧
      ∃ before l others, f.leaves = before.map Part.leaf ++ l :: others ∧
        Takes (readerBehind xs) before onReader.state.source ∧ (l.decode onReader.state.source).result = .error e := by
  intro onBuffer onReader asValue behind readerBehind
  obtain ⟨xs, r', hrow, hend⟩ := exists_inRow f.decode n b.reader
  obtain ⟨rfl, hbuffer, hreader⟩ := Format.inRow_reader hrow
  have htakes : Takes b.reader (xs.flatMap f.parts) (readerBehind xs) := hrow.takes
  rcases hend with hn | ⟨hn, e, he⟩
  · obtain ⟨v, rfl⟩ : ∃ v : Vector f.Value n, v.toList = xs := ⟨⟨xs.toArray, hn⟩, rfl⟩
    obtain ⟨hbr, hbs⟩ := hbuffer.fillSlots slots
    obtain ⟨hrr, hrs⟩ := hrow.fillSlots slots
    obtain ⟨hvr, hvs⟩ := Buffer.decode_of_takes (f := .array f n) htakes
    have hwidth : (Format.array f n).width v = (v.toList.map f.width).sum := f.widthSum_flatMap_parts v.toList
    rw [hwidth] at hvs
    exact .inl ⟨v, htakes, hbr, hbs, hrr, hrs, hvr, hvs⟩
  · obtain ⟨before, l, others, hleaves, hbefore, hl⟩ := (Format.decode_eq_error_iff (f := f)).mp ⟨he, rfl⟩
    have hfails : (f.decode (behind xs).reader).result = .error e := by rwa [show (behind xs).reader = _ from hreader]
    have hread := Buffer.read_of_error hfails
    obtain ⟨hbr, hbs⟩ := hbuffer.fillSlots_of_error (congrArg Outcome.result hread) hn slots
    obtain ⟨hrr, hrs⟩ := hrow.fillSlots_of_error he hn slots
    have harray : ((Format.array f n).decode b.reader).result = .error e := hrow.decodeArray_of_error he hn f.blank
    have hvalue := Buffer.read_of_error harray
    have hslots : (overwrite slots 0 xs).toList = xs ++ slots.toList.drop xs.length := by
      rw [toList_overwrite _ _ _ (by omega), List.take_zero, List.nil_append, Nat.zero_add]
    have hsource : (Buffer.decode f (behind xs)).state = behind xs := congrArg Outcome.state hread
    have hstood : onReader.state.source = (f.decode (readerBehind xs)).state := congrArg Filling.source hrs
    refine .inr ⟨xs, e, hn, htakes, hbr, hrr, congrArg Outcome.result hvalue, ?_, ?_, ?_, congrArg Outcome.state hvalue,
      before, l, others, hleaves, ?_, ?_⟩
    · rw [← hslots]
      exact congrArg (fun s => s.slots.toList) hbs
    · exact (congrArg Filling.slots hrs).trans (congrArg Filling.slots hbs).symm
    · exact (congrArg Filling.source hbs).trans hsource
    · rw [hstood]
      exact hbefore
    · rw [hstood]
      exact hl

end Marshal
