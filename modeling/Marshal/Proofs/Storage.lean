import Mathlib
import Marshal.Buffer

/-!
# Writing to storage

`overwrite` byte by byte and as a list, and `append`, the step under every
encode: it adds to the written bytes, uses up room, and two appends in a row
are one.
-/

namespace Marshal

variable {α : Type} {N : Nat}

theorem getElem?_overwrite (storage : Vector α N) (start i : Nat) (xs : List α) :
    (overwrite storage start xs)[i]? =
      if start ≤ i ∧ i < start + xs.length ∧ i < N then xs[i - start]? else storage[i]? := by
  induction xs generalizing storage start with
  | nil =>
    have : ¬ (start ≤ i ∧ i < start + ([] : List α).length ∧ i < N) := by rw [List.length_nil]; omega
    rw [if_neg this]
    rfl
  | cons x xs ih =>
    rw [overwrite, ih, Vector.getElem?_setIfInBounds, List.length_cons]
    by_cases h : start = i
    · subst h
      have : ¬ (start + 1 ≤ start ∧ start < start + 1 + xs.length ∧ start < N) := by omega
      rw [if_neg this, if_pos rfl]
      by_cases hN : start < N <;> simp [hN]
    · by_cases hi : start + 1 ≤ i ∧ i < start + 1 + xs.length ∧ i < N
      · have hi' : start ≤ i ∧ i < start + (xs.length + 1) ∧ i < N := by omega
        have hs : i - start = i - (start + 1) + 1 := by omega
        rw [if_pos hi, if_pos hi', hs, List.getElem?_cons_succ]
      · have hi' : ¬ (start ≤ i ∧ i < start + (xs.length + 1) ∧ i < N) := by omega
        rw [if_neg hi, if_neg hi', if_neg h]

theorem overwrite_append (storage : Vector α N) (start : Nat) (xs ys : List α) :
    overwrite storage start (xs ++ ys) = overwrite (overwrite storage start xs) (start + xs.length) ys := by
  induction xs generalizing storage start with
  | nil => rfl
  | cons x xs ih =>
    rw [List.cons_append, overwrite, ih, overwrite, List.length_cons]
    congr 1
    omega

theorem toList_overwrite (storage : Vector α N) (start : Nat) (xs : List α) (h : start + xs.length ≤ N) :
    (overwrite storage start xs).toList =
      storage.toList.take start ++ xs ++ storage.toList.drop (start + xs.length) := by
  apply List.ext_getElem?
  intro i
  rw [Vector.getElem?_toList, getElem?_overwrite]
  rcases Nat.lt_or_ge i start with h1 | h1
  · have : ¬ (start ≤ i ∧ i < start + xs.length ∧ i < N) := by omega
    rw [if_neg this, List.append_assoc, List.getElem?_append_left (by simp; omega),
      List.getElem?_take_of_lt h1, Vector.getElem?_toList]
  · rw [List.append_assoc, List.getElem?_append_right (by simp; omega)]
    have ht : (storage.toList.take start).length = start := by simp; omega
    rw [ht]
    rcases Nat.lt_or_ge i (start + xs.length) with h2 | h2
    · rw [if_pos (by omega), List.getElem?_append_left (by omega)]
    · rw [if_neg (by omega), List.getElem?_append_right (by omega), List.getElem?_drop,
        Vector.getElem?_toList]
      congr 1
      omega

theorem overwrite_eq_self {storage : Vector α N} {start : Nat} {xs : List α}
    (h : ∀ i < xs.length, storage[start + i]? = xs[i]?) : overwrite storage start xs = storage := by
  apply Vector.toList_inj.mp
  apply List.ext_getElem?
  intro i
  rw [Vector.getElem?_toList, Vector.getElem?_toList, getElem?_overwrite]
  by_cases hi : start ≤ i ∧ i < start + xs.length ∧ i < N
  · have hs : start + (i - start) = i := by omega
    rw [if_pos hi, ← h (i - start) (by omega), hs]
  · rw [if_neg hi]

namespace Buffer

/-- Every state that a run of calls can reach: cursor and used count within the capacity. -/
structure InBounds (b : Buffer N) : Prop where
  cursor_le : b.cursor ≤ N
  used_le : b.used ≤ N

@[simp] theorem cursor_append (b : Buffer N) (bytes : List UInt8) :
    (b.append bytes).cursor = b.cursor + bytes.length := rfl

@[simp] theorem used_append (b : Buffer N) (bytes : List UInt8) : (b.append bytes).used = b.used := rfl

theorem append_nil (b : Buffer N) : b.append [] = b := rfl

theorem append_append (b : Buffer N) (xs ys : List UInt8) : (b.append xs).append ys = b.append (xs ++ ys) := by
  simp only [append, overwrite_append, List.length_append, Nat.add_assoc]

theorem remaining_append (b : Buffer N) (bytes : List UInt8) :
    (b.append bytes).remaining = b.remaining - bytes.length := by
  simp only [remaining, cursor_append]
  omega

theorem le_remaining_iff {b : Buffer N} {length : Nat} (h : b.cursor ≤ N) :
    length ≤ b.remaining ↔ b.cursor + length ≤ N := by
  rw [remaining]
  omega

theorem length_written {b : Buffer N} (h : b.cursor ≤ N) : b.written.length = b.cursor := by
  simp [written, h]

theorem length_message {b : Buffer N} (h : b.used ≤ N) : b.message.length = b.used := by
  simp [message, h]

theorem written_append (b : Buffer N) (bytes : List UInt8) (h : b.cursor + bytes.length ≤ N) :
    (b.append bytes).written = b.written ++ bytes := by
  have hl : (b.storage.toList.take b.cursor ++ bytes).length = b.cursor + bytes.length := by
    simp; omega
  rw [written, append, toList_overwrite _ _ _ h, ← hl, List.take_left]
  rfl

end Buffer

end Marshal
