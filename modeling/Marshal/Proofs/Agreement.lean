import Mathlib
import Marshal.Elements

/-!
# Actions that agree but for their log

`Agree a b`: from every state, `a` and `b` return the same and leave the same
state. An array loop agrees with running its coder over the elements: only the
log tells that an element failed.
-/

namespace Marshal

variable {ε σ α β : Type}

namespace Action

def Agree (a b : Action ε σ α) : Prop := ∀ s, (a s).result = (b s).result ∧ (a s).state = (b s).state

namespace Agree

variable {a b c : Action ε σ α}

theorem refl (a : Action ε σ α) : Agree a a := fun _ => ⟨rfl, rfl⟩

theorem symm (h : Agree a b) : Agree b a := fun s => ⟨(h s).1.symm, (h s).2.symm⟩

theorem trans (h : Agree a b) (h' : Agree b c) : Agree a c := fun s =>
  ⟨(h s).1.trans (h' s).1, (h s).2.trans (h' s).2⟩

theorem bind {f g : α → Action ε σ β} (h : Agree a b) (hf : ∀ x, Agree (f x) (g x)) :
    Agree (a >>= f) (b >>= g) := by
  intro s
  have hs := h s
  rw [bind_apply, bind_apply]
  rcases ha : a s with ⟨r, s', l⟩
  rcases hb : b s with ⟨r', t', l'⟩
  rw [ha, hb] at hs
  obtain ⟨rfl, rfl⟩ := hs
  cases r with
  | error e => exact ⟨rfl, rfl⟩
  | ok x => exact hf x s'

theorem map (f : α → β) (h : Agree a b) : Agree (f <$> a) (f <$> b) := by
  rw [map_eq_pure_bind, map_eq_pure_bind]
  exact h.bind fun x => refl _

theorem forM {xs : List α} {f g : α → Action ε σ PUnit} (h : ∀ x, Agree (f x) (g x)) :
    Agree (forM xs f) (forM xs g) := by
  induction xs with
  | nil => exact refl _
  | cons x xs ih =>
    rw [List.forM_cons, List.forM_cons]
    exact (h x).bind fun _ => ih

theorem mapM {xs : List α} {f g : α → Action ε σ β} (h : ∀ x, Agree (f x) (g x)) :
    Agree (xs.mapM f) (xs.mapM g) := by
  induction xs with
  | nil => exact refl _
  | cons x xs ih =>
    rw [List.mapM_cons, List.mapM_cons]
    exact (h x).bind fun _ => ih.bind fun _ => refl _

end Agree

theorem bind_of_ok {a : Action ε σ α} {f : α → Action ε σ β} {s : σ} {x : α} (h : (a s).result = .ok x) :
    ((a >>= f) s).result = (f x (a s).state).result ∧ ((a >>= f) s).state = (f x (a s).state).state := by
  rw [bind_apply]
  rcases ha : a s with ⟨_ | y, s', log⟩
  · rw [ha] at h; cases h
  · rw [ha] at h
    cases h
    exact ⟨rfl, rfl⟩

theorem bind_of_error {a : Action ε σ α} {f : α → Action ε σ β} {s : σ} {e : ε} (h : (a s).result = .error e) :
    ((a >>= f) s).result = .error e ∧ ((a >>= f) s).state = (a s).state := by
  rw [bind_apply]
  rcases ha : a s with ⟨e' | _, s', log⟩
  · rw [ha] at h
    cases h
    exact ⟨rfl, rfl⟩
  · rw [ha] at h; cases h

theorem map_apply (f : α → β) (a : Action ε σ α) (s : σ) :
    (f <$> a) s = ⟨(a s).result.map f, (a s).state, (a s).log⟩ := by
  rw [map_eq_pure_bind, bind_apply]
  rcases a s with ⟨_ | x, s', log⟩
  · rfl
  · simp only [pure_apply, List.append_nil]
    rfl

theorem mapError_bind {δ : Type} (g : ε → δ) (a : Action ε σ α) (f : α → Action ε σ β) :
    (a >>= f).mapError g = a.mapError g >>= fun x => (f x).mapError g := by
  funext s
  simp only [bind_apply, Action.mapError]
  rcases a s with ⟨_ | x, s', l⟩
  · rfl
  · simp only []
    rcases f x s' with ⟨_ | y, s'', l'⟩ <;> rfl

theorem forM_flatMap (xs : List α) (g : α → List β) (f : β → Action ε σ PUnit) :
    forM (xs.flatMap g) f = forM xs fun x => forM (g x) f := by
  induction xs with
  | nil => rfl
  | cons x xs ih => rw [List.flatMap_cons, List.forM_append, List.forM_cons, ih]

end Action

open Marshal.Action

/-! ## Loops over elements -/

theorem codeElement_source_agree (index : Nat) (coder : Action ε σ Unit) :
    Agree ((codeElement index coder).mapError ElementFailure.source) coder := by
  intro s
  unfold Action.mapError codeElement
  rcases coder s with ⟨_ | _, _, _⟩ <;> exact ⟨rfl, rfl⟩

theorem codeFrom_source_agree (coder : α → Action ε σ Unit) (index : Nat) (xs : List α) :
    Agree ((codeFrom coder index xs).mapError ElementFailure.source >>= fun _ => pure ()) (forM xs coder) := by
  induction xs generalizing index with
  | nil => exact Agree.refl _
  | cons x xs ih =>
    rw [codeFrom, mapError_bind, Action.bind_bind, List.forM_cons]
    exact (codeElement_source_agree index (coder x)).bind fun _ => ih (index + 1)

theorem codeEach_state (coder : α → Action ε σ Unit) (xs : List α) (s : σ) :
    (codeEach coder xs s).state = (forM xs coder s).state := by
  rw [← (codeFrom_source_agree coder 0 xs s).2, bind_apply, Action.mapError, codeEach]
  rcases codeFrom coder 0 xs s with ⟨_ | n, s', log⟩ <;> rfl

end Marshal
