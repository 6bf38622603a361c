import Marshal.Proofs.Agreement
import Marshal.Proofs.Storage

/-!
# What a decoding loop leaves in its slots

`decodeSome` decodes element after element and keeps those before the first
failure. `fillSlots` puts just these into the first slots (`fillSlots_eq`), and
`decodeArray` returns them if none failed.
-/

namespace Marshal

open Marshal.Action

variable {ε σ β : Type} {n : Nat}

/-- Decodes up to `n` elements: those before the first failure, and how the loop ends. -/
def decodeSome (decode : Action ε σ β) : Nat → σ → List β × Outcome ε σ Unit
  | 0, s => ([], ⟨.ok (), s, []⟩)
  | n + 1, s =>
    match decode s with
    | ⟨.ok x, s, log⟩ =>
      let (xs, o) := decodeSome decode n s
      (x :: xs, ⟨o.result, o.state, log ++ o.log⟩)
    | ⟨.error e, s, log⟩ => ([], ⟨.error e, s, log⟩)

theorem length_decodeSome (decode : Action ε σ β) (n : Nat) (s : σ)
    (h : (decodeSome decode n s).2.result = .ok ()) : (decodeSome decode n s).1.length = n := by
  induction n generalizing s with
  | zero => rfl
  | succ n ih =>
    unfold decodeSome at h ⊢
    rcases hd : decode s with ⟨_ | x, s', log⟩
    · rw [hd] at h; cases h
    · rw [hd] at h
      exact congrArg Nat.succ (ih s' h)

def failureLog {α : Type} (index : Nat) : Except ε α → List Record
  | .ok _ => []
  | .error _ => [.elementFailed index]

theorem drop_finRange {k : Nat} (hk : k < n) :
    (List.finRange n).drop k = ⟨k, hk⟩ :: (List.finRange n).drop (k + 1) := by
  rw [List.drop_eq_getElem_cons (by simpa using hk)]
  simp

theorem codeFrom_fillSlot (decode : Action ε σ β) (m k : Nat) (hk : k + m = n) (s : σ) (slots : Vector β n) :
    codeFrom (fillSlot decode) k ((List.finRange n).drop k) ⟨s, slots⟩ =
      let d := decodeSome decode m s
      ⟨(d.2.result.mapError (ElementFailure.mk (k + d.1.length))).map fun _ => n,
        ⟨d.2.state, overwrite slots k d.1⟩, d.2.log ++ failureLog (k + d.1.length) d.2.result⟩ := by
  induction m generalizing k s slots with
  | zero =>
    have : k = n := by omega
    subst this
    rw [List.drop_of_length_le (by simp)]
    rfl
  | succ m ih =>
    have hlt : k < n := by omega
    rw [drop_finRange hlt, codeFrom, bind_apply]
    rcases hd : decode s with ⟨e | x, s', log⟩
    · simp only [codeElement, fillSlot, hd, decodeSome]
      rfl
    · have hset : slots.set k x = slots.setIfInBounds k x := by
        simp [Vector.set, Vector.setIfInBounds, Array.setIfInBounds, hlt]
      have hadd : ∀ j, k + 1 + j = k + (j + 1) := by omega
      simp only [codeElement, fillSlot, hd, decodeSome, ih (k + 1) (by omega), hset, overwrite,
        List.length_cons, List.append_assoc, hadd]

theorem fillSlots_eq (decode : Action ε σ β) (s : σ) (slots : Vector β n) :
    fillSlots decode ⟨s, slots⟩ =
      let d := decodeSome decode n s
      ⟨(d.2.result.mapError (ElementFailure.mk d.1.length)).map fun _ => n,
        ⟨d.2.state, overwrite slots 0 d.1⟩, d.2.log ++ failureLog d.1.length d.2.result⟩ := by
  have := codeFrom_fillSlot decode n 0 (Nat.zero_add n) s slots
  simpa only [fillSlots, codeEach, Nat.zero_add, List.drop_zero] using this

theorem toList_overwrite_full (slots : Vector β n) (xs : List β) (h : xs.length = n) :
    (overwrite slots 0 xs).toList = xs := by
  rw [toList_overwrite _ _ _ (by omega), List.drop_of_length_le (by simp [h])]
  simp

theorem mapM_decode_apply (decode : Action ε σ β) (n : Nat) (s : σ) :
    (List.replicate n ()).mapM (fun _ => decode) s =
      let d := decodeSome decode n s
      ⟨d.2.result.map fun _ => d.1, d.2.state, d.2.log⟩ := by
  induction n generalizing s with
  | zero => rfl
  | succ n ih =>
    rw [List.replicate_succ, List.mapM_cons, bind_apply]
    unfold decodeSome
    rcases decode s with ⟨_ | x, s', log⟩
    · rfl
    · simp only [bind_apply, ih]
      rcases decodeSome decode n s' with ⟨xs, _ | _, s'', log'⟩
      · rfl
      · simp [pure_apply, Except.map]

theorem decodeArray_agree (decode : Action ε σ β) (blank : β) (n : Nat) :
    Agree (Vector.toList <$> decodeArray decode blank n) ((List.replicate n ()).mapM fun _ => decode) := by
  intro s
  rw [map_eq_pure_bind, bind_apply, mapM_decode_apply]
  unfold decodeArray
  rw [fillSlots_eq]
  rcases hd : decodeSome decode n s with ⟨xs, _ | _, s', log⟩
  · exact ⟨rfl, rfl⟩
  · have hl : xs.length = n := by
      have := length_decodeSome decode n s (by rw [hd])
      rwa [hd] at this
    exact ⟨congrArg Except.ok (toList_overwrite_full _ xs hl), rfl⟩

end Marshal
