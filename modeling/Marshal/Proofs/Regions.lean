import Mathlib
import Marshal.Region

/-!
# Pieces of a region

The pieces that a region is cut into: their number, their sizes and what they
are in a row, and when a region can be cut at all.
-/

namespace Marshal.Region

variable {σ α : Type} {count size : Nat} {region : List UInt8}

@[simp] theorem length_chunks (size count : Nat) (region : List UInt8) : (chunks size count region).length = count := by
  induction count generalizing region with
  | zero => rfl
  | succ count ih => rw [chunks, List.length_cons, ih]

theorem flatten_chunks (size count : Nat) (region : List UInt8) :
    (chunks size count region).flatten = region.take (count * size) := by
  induction count generalizing region with
  | zero => rw [Nat.zero_mul]; rfl
  | succ count ih => rw [chunks, List.flatten_cons, ih, Nat.succ_mul, Nat.add_comm, List.take_add]

theorem length_of_mem_chunks {piece : List UInt8} (h : count * size ≤ region.length)
    (hp : piece ∈ chunks size count region) : piece.length = size := by
  induction count generalizing region with
  | zero => cases hp
  | succ count ih =>
    rw [Nat.succ_mul] at h
    rcases List.mem_cons.mp hp with rfl | hp
    · rw [List.length_take]
      omega
    · exact ih (by rw [List.length_drop]; omega) hp

theorem length_flatten {pieces : List (List UInt8)} (h : ∀ piece ∈ pieces, piece.length = size) :
    pieces.flatten.length = pieces.length * size := by
  rw [List.length_flatten, List.map_congr_left h, List.map_const', List.sum_replicate, smul_eq_mul]

theorem take_chunks {k : Nat} (h : k ≤ count) : (chunks size count region).take k = chunks size k region := by
  induction k generalizing count region with
  | zero => rfl
  | succ k ih =>
    obtain ⟨count, rfl⟩ := Nat.exists_eq_add_one_of_ne_zero (Nat.ne_zero_of_lt h)
    rw [chunks, List.take_succ_cons, ih (Nat.le_of_succ_le_succ h), chunks]

/-! ## Images in a row -/

section
variable {image : α → List UInt8} (himage : ∀ x, (image x).length = size)

include himage

theorem chunks_flatMap (xs : List α) :
    chunks size xs.length (xs.flatMap image) = xs.map image := by
  induction xs with
  | nil => rfl
  | cons x xs ih =>
    rw [List.length_cons, chunks, List.flatMap_cons, List.take_left' (himage x), List.drop_left' (himage x), ih,
      List.map_cons]

theorem length_flatMap_image (xs : List α) : (xs.flatMap image).length = xs.length * size := by
  induction xs with
  | nil => exact (Nat.zero_mul size).symm
  | cons x xs ih =>
    rw [List.flatMap_cons, List.length_append, ih, himage, List.length_cons, Nat.succ_mul, Nat.add_comm]

theorem flatMap_split {k : Nat} {xs : List α} (hk : k ≤ xs.length) :
    (xs.flatMap image).take (k * size) = (xs.take k).flatMap image ∧
      (xs.flatMap image).drop (k * size) = (xs.drop k).flatMap image := by
  have hlength : ((xs.take k).flatMap image).length = k * size := by
    rw [length_flatMap_image himage, List.length_take_of_le hk]
  have hsplit : xs.flatMap image = (xs.take k).flatMap image ++ (xs.drop k).flatMap image := by
    rw [← List.flatMap_append, List.take_append_drop]
  rw [hsplit, List.take_left' hlength, List.drop_left' hlength]
  exact ⟨rfl, rfl⟩

theorem flatMap_set {i : Nat} {xs : List α} (hi : i < xs.length) (x : α) :
    (xs.set i x).flatMap image =
      (xs.flatMap image).take (i * size) ++ image x ++ (xs.flatMap image).drop (i * size + size) := by
  obtain ⟨hfront, -⟩ := flatMap_split himage hi.le
  obtain ⟨-, hback⟩ := flatMap_split himage (Nat.succ_le_of_lt hi)
  rw [← Nat.succ_mul, hfront, hback, List.set_eq_take_append_cons_drop, if_pos hi, List.flatMap_append,
    List.flatMap_cons, List.append_assoc]

theorem piece_flatMap {i : Nat} {xs : List α} (hi : i < xs.length) (rest : List UInt8) :
    ((xs.flatMap image ++ rest).drop (i * size)).take size = image xs[i] := by
  obtain ⟨-, hback⟩ := flatMap_split himage hi.le
  have hle : i * size ≤ (xs.flatMap image).length := by
    rw [length_flatMap_image himage]
    exact Nat.mul_le_mul_right size hi.le
  rw [List.drop_append_of_le_length hle, hback, List.drop_eq_getElem_cons hi, List.flatMap_cons, List.append_assoc,
    List.take_left' (himage _)]

end

/-! ## When a region can be cut -/

/-- The elements take up the region and no more, and each has a byte. -/
def Fits (region : List UInt8) (count size : Nat) : Prop := 0 < size ∧ count * size = region.length

theorem not_fits_iff : ¬ Fits region count size ↔ size = 0 ∨ count * size ≠ region.length := by
  unfold Fits
  omega

theorem Fits.count_le (h : Fits region count size) : count ≤ region.length := by
  rw [← h.2]
  exact Nat.le_mul_of_pos_right count h.1

theorem Fits.flatten_chunks (h : Fits region count size) : (chunks size count region).flatten = region := by
  rw [Region.flatten_chunks, h.2, List.take_length]

theorem Fits.flatten_drop_chunks (h : Fits region count size) {k : Nat} (hk : k ≤ count) :
    ((chunks size count region).drop k).flatten = region.drop (k * size) := by
  have hfront : ((chunks size count region).take k).flatten = region.take (k * size) := by
    rw [take_chunks hk, Region.flatten_chunks]
  have hall := h.flatten_chunks
  rw [← List.take_append_drop k (chunks size count region), List.flatten_append, hfront] at hall
  exact List.append_cancel_left (hall.trans (List.take_append_drop (k * size) region).symm)

theorem elements_of_fits (h : Fits region count size) (s : σ) :
    (elements region count size : Action Error σ _) s = ⟨.ok (chunks size count region), s, []⟩ := by
  rw [elements, if_neg fun hn => not_fits_iff.mpr hn h]
  rfl

theorem elements_of_misfit (h : ¬ Fits region count size) (s : σ) :
    (elements region count size : Action Error σ _) s =
      ⟨.error .invalidParameter, s, [.misfit region.length count size]⟩ := by
  rw [elements, if_pos (not_fits_iff.mp h)]
  rfl

theorem mapElements_of_fits (h : Fits region count size) (f : Nat → List UInt8 → List UInt8) (s : σ) :
    (mapElements f region count size : Action Error σ _) s =
      ⟨.ok ((chunks size count region).mapIdx f).flatten, s, []⟩ := by
  rw [mapElements, Action.bind_apply, elements_of_fits h]
  rfl

theorem mapElements_of_misfit (h : ¬ Fits region count size) (f : Nat → List UInt8 → List UInt8) (s : σ) :
    (mapElements f region count size : Action Error σ _) s =
      ⟨.error .invalidParameter, s, [.misfit region.length count size]⟩ := by
  rw [mapElements, Action.bind_apply, elements_of_misfit h]

end Marshal.Region
