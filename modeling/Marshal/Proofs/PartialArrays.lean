import Marshal.Buffer.Arrays
import Marshal.Proofs.Loops
import Marshal.Proofs.PartialWrites

/-!
# Where the encode of an array stops

The loop stops at the first element that fails and undoes nothing, and neither
does the element. So what stays written are the elements before it and, of the
element itself, the leaves before the one that is refused. These are none
exactly if the element fails at its first leaf.
-/

namespace Marshal

open Marshal.Action

variable {N : Nat}

/-! ## Elements of a format -/

namespace Format

theorem length_flatMap_image (f : Format) (xs : List f.Value) : (xs.flatMap f.image).length = (xs.map f.width).sum := by
  simp [List.length_flatMap]

theorem forM_encode_agree (f : Format) (xs : List f.Value) :
    Agree (forM xs (f.encode : f.Value → Action Error (Buffer N) Unit)) (forM (xs.flatMap f.parts) Part.encode) := by
  rw [forM_flatMap]
  exact Agree.forM f.encode_agree

theorem forM_encode_of_ok {f : Format} {xs : List f.Value} {b : Buffer N} (h : (forM xs f.encode b).result = .ok ()) :
    (xs.flatMap f.image).length ≤ b.remaining ∧ (forM xs f.encode b).state = b.append (xs.flatMap f.image) := by
  obtain ⟨hr, hs⟩ := f.forM_encode_agree xs b
  rw [hr, forM_encode_eq_ok_iff] at h
  have himages : (xs.flatMap f.parts).flatMap Part.image = xs.flatMap f.image := List.flatMap_assoc
  rw [← himages, hs, length_flatMap_partImage, forM_encode_of_le h.1 h.2]
  exact ⟨h.2, rfl⟩

end Format

theorem Buffer.encodeArray_of_error {f : Format} {xs : List f.Value} {b : Buffer N} {k : Nat} {e : Error}
    (h : (encodeArray f xs b).result = .error ⟨k, e⟩) :
    ∃ x before p after, xs[k]? = some x ∧ f.parts x = before ++ p :: after ∧
      ((xs.take k).flatMap f.image).length ≤ b.remaining ∧
      Stops (b.remaining - ((xs.take k).flatMap f.image).length) before p ∧
      e = p.refusal (b.remaining - ((xs.take k).flatMap f.image).length - widthSum before) ∧
      (encodeArray f xs b).state = b.append ((xs.take k).flatMap f.image ++ before.flatMap Part.image) := by
  obtain ⟨done, x, rest, rfl, hk, hdone, hx⟩ := exists_of_codeFrom_error h
  have hlength : k = done.length := hk.trans (Nat.zero_add _)
  obtain ⟨hroom, hstate⟩ := Format.forM_encode_of_ok hdone
  obtain ⟨-, hfinal⟩ := forM_of_error hdone hx rest
  rw [hstate] at hx hfinal
  have hnot : ¬ (f.NulFree x ∧ f.width x ≤ (b.append (done.flatMap f.image)).remaining) := by
    rw [← Format.encode_eq_ok_iff, hx]
    nofun
  obtain ⟨before, p, after, hparts, hstops⟩ := exists_stops hnot
  obtain ⟨hresult, hleft⟩ := Format.encode_of_stops hparts hstops
  rw [hresult] at hx
  rw [remaining_append] at hstops hx
  rw [hlength, List.take_left]
  refine ⟨x, before, p, after, by simp, hparts, hroom, hstops, (Except.error.inj hx).symm, ?_⟩
  rw [encodeArray, codeEach_state, hfinal, hleft, append_append]

/-- **An array stops within the element that fails.** The elements before it are written, and of it
the leaves before the first that is refused. So cursor and bytes reflect exactly the elements before
it if and only if it is refused at its first leaf. -/
theorem array_stops_within_element (f : Format) (xs : List f.Value) (b : Buffer N) (hb : b.InBounds) (k : Nat)
    (e : Error) (h : (Buffer.encodeArray f xs b).result = .error ⟨k, e⟩) :
    let after := (Buffer.encodeArray f xs b).state
    let coded := (xs.take k).flatMap f.image
    ∃ x before p others, xs[k]? = some x ∧ f.parts x = before ++ p :: others ∧
      Stops (b.remaining - coded.length) before p ∧
      e = p.refusal (b.remaining - coded.length - widthSum before) ∧
      after.cursor = b.cursor + ((xs.take k).map f.width).sum + widthSum before ∧
      after.written = b.written ++ coded ++ before.flatMap Part.image ∧
      (after.cursor = b.cursor + ((xs.take k).map f.width).sum ∧ after.written = b.written ++ coded ↔ before = []) ∧
      (f.leaves.length ≤ 1 → before = []) := by
  intro after coded
  obtain ⟨x, before, p, others, hx, hparts, hroom, hstops, he, hstate⟩ := Buffer.encodeArray_of_error h
  have hafter : after = b.append (coded ++ before.flatMap Part.image) := hstate
  have hcursor : after.cursor = b.cursor + ((xs.take k).map f.width).sum + widthSum before := by
    rw [hafter, Buffer.cursor_append, List.length_append, f.length_flatMap_image, length_flatMap_partImage, Nat.add_assoc]
  have hwritten : after.written = b.written ++ coded ++ before.flatMap Part.image := by
    have hcoded : coded.length ≤ b.remaining := hroom
    have hfits : widthSum before ≤ b.remaining - coded.length := hstops.fits
    rw [hafter, Buffer.written_append, List.append_assoc]
    rw [← Buffer.le_remaining_iff hb.cursor_le, List.length_append, length_flatMap_partImage]
    omega
  refine ⟨x, before, p, others, hx, hparts, hstops, he, hcursor, hwritten, ⟨fun hkept => ?_, fun hnone => ?_⟩, fun hone => ?_⟩
  · rw [hcursor] at hkept
    cases before with
    | nil => rfl
    | cons q before =>
      have hq : 0 < q.width := q.leaf.width_pos q.value
      obtain ⟨hzero, -⟩ := hkept
      rw [widthSum_cons] at hzero
      omega
  · rw [hcursor, hwritten, hnone]
    simp
  · have hlength := f.length_parts x
    rw [hparts, List.length_append, List.length_cons] at hlength
    exact List.length_eq_zero_iff.mp (by omega)

/-- The second row fails at its second number, and its first one stays. -/
theorem array_stops_within_element_of_rows :
    let f := Format.array (.scalar .u16) 2
    let xs : List f.Value := [#v[1, 2], #v[3, 4]]
    let b := Buffer.empty 6
    let after := (Buffer.encodeArray f xs b).state
    b.InBounds ∧ (Buffer.encodeArray f xs b).result = .error ⟨1, .overflow 2 0⟩ ∧
      ∃ x before p others, xs[1]? = some x ∧ f.parts x = before ++ p :: others ∧ Stops 2 before p ∧
        after.cursor = 4 + widthSum before ∧ after.written = [1, 0, 2, 0] ++ before.flatMap Part.image ∧
        (after.cursor = 4 ∧ after.written = [1, 0, 2, 0] ↔ before = []) := by
  intro f xs b after
  have hb : b.InBounds := ⟨by decide, by decide⟩
  have hfails : (Buffer.encodeArray f xs b).result = .error ⟨1, .overflow 2 0⟩ := by decide
  obtain ⟨x, before, p, others, hx, hparts, hstops, -, hcursor, hwritten, hkept, -⟩ :=
    array_stops_within_element f xs b hb 1 (.overflow 2 0) hfails
  exact ⟨hb, hfails, x, before, p, others, hx, hparts, hstops, hcursor, hwritten, hkept⟩

/-- Not every array that fails keeps exactly the elements before the one that it names. -/
theorem not_array_keeps_whole_elements :
    ¬ ∀ (N : Nat) (f : Format) (xs : List f.Value) (b : Buffer N), b.InBounds → ∀ (k : Nat) (e : Error),
      (Buffer.encodeArray f xs b).result = .error ⟨k, e⟩ →
        (Buffer.encodeArray f xs b).state.cursor = b.cursor + ((xs.take k).map f.width).sum ∧
          (Buffer.encodeArray f xs b).state.written = b.written ++ (xs.take k).flatMap f.image := by
  intro h
  let f := Format.array (.scalar .u16) 2
  let xs : List f.Value := [#v[1, 2], #v[3, 4]]
  obtain ⟨hcursor, -⟩ := h 6 f xs (.empty 6) ⟨by decide, by decide⟩ 1 (.overflow 2 0) (by decide)
  exact absurd hcursor (by decide)

end Marshal
