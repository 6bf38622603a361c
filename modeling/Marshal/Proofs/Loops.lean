import Marshal.Proofs.Agreement

/-!
# Loops over elements

A loop that succeeds has coded every element, and one that fails has coded
those before the element it names, which has failed. A loop may know its
elements by their index, and its coder may report less of a failure: it is
the same loop.
-/

namespace Marshal

open Marshal.Action

variable {ε δ σ α β : Type}

theorem codeElement_result (index : Nat) (coder : Action ε σ Unit) (s : σ) :
    (codeElement index coder s).result = (coder s).result.mapError (ElementFailure.mk index) ∧
      (codeElement index coder s).state = (coder s).state := by
  unfold codeElement
  rcases coder s with ⟨_ | _, t, log⟩ <;> exact ⟨rfl, rfl⟩

/-! ## How a loop ends -/

theorem exists_of_codeFrom_error {coder : α → Action ε σ Unit} {index : Nat} {xs : List α} {s : σ}
    {failure : ElementFailure ε} (h : (codeFrom coder index xs s).result = .error failure) :
    ∃ done x rest, xs = done ++ x :: rest ∧ failure.index = index + done.length ∧
      (forM done coder s).result = .ok () ∧ (coder x (forM done coder s).state).result = .error failure.source := by
  induction xs generalizing index s with
  | nil => cases h
  | cons x xs ih =>
    obtain ⟨hr, hs⟩ := codeElement_result index (coder x) s
    cases hx : (coder x s).result with
    | error e =>
      rw [hx] at hr
      rw [codeFrom, (bind_of_error hr).1] at h
      cases h
      exact ⟨[], x, xs, rfl, rfl, rfl, hx⟩
    | ok u =>
      rw [hx] at hr
      -- the rest is coded from the next index on, where this element has left the state
      rw [codeFrom, (bind_of_ok hr).1, hs] at h
      obtain ⟨done, y, rest, rfl, hindex, hdone, hy⟩ := ih h
      obtain ⟨hfirst, hafter⟩ := bind_of_ok (f := fun _ => forM done coder) hx
      refine ⟨x :: done, y, rest, rfl, ?_, ?_, ?_⟩
      · rw [hindex, List.length_cons]
        omega
      · rw [List.forM_cons, hfirst, hdone]
      · rw [List.forM_cons, hafter, hy]

theorem forM_of_error {coder : α → Action ε σ PUnit} {done : List α} {x : α} {s : σ} {e : ε}
    (hdone : (forM done coder s).result = .ok ()) (hx : (coder x (forM done coder s).state).result = .error e)
    (rest : List α) :
    (forM (done ++ x :: rest) coder s).result = .error e ∧
      (forM (done ++ x :: rest) coder s).state = (coder x (forM done coder s).state).state := by
  rw [List.forM_append, (bind_of_ok hdone).1, (bind_of_ok hdone).2, List.forM_cons]
  exact bind_of_error hx

theorem codeFrom_append {coder : α → Action ε σ Unit} {done : List α} {s : σ}
    (h : (forM done coder s).result = .ok ()) (index : Nat) (rest : List α) :
    (codeFrom coder index (done ++ rest) s).result =
        (codeFrom coder (index + done.length) rest (forM done coder s).state).result ∧
      (codeFrom coder index (done ++ rest) s).state =
        (codeFrom coder (index + done.length) rest (forM done coder s).state).state := by
  induction done generalizing index s with
  | nil => exact ⟨rfl, rfl⟩
  | cons x done ih =>
    obtain ⟨hr, hs⟩ := codeElement_result index (coder x) s
    rw [List.forM_cons] at h ⊢
    cases hx : (coder x s).result with
    | error e =>
      rw [(bind_of_error hx).1] at h
      cases h
    | ok u =>
      rw [(bind_of_ok hx).1] at h
      rw [hx] at hr
      have hindex : index + (x :: done).length = index + 1 + done.length := by
        rw [List.length_cons]
        omega
      rw [List.cons_append, codeFrom, (bind_of_ok hr).1, (bind_of_ok hr).2, (bind_of_ok hx).2, hs, hindex]
      exact ih h (index + 1)

theorem codeEach_of_ok {coder : α → Action ε σ Unit} {xs : List α} {s : σ} (h : (forM xs coder s).result = .ok ()) :
    (codeEach coder xs s).result = .ok xs.length := by
  have hall := (codeFrom_append h 0 []).1
  rwa [List.append_nil, Nat.zero_add] at hall

theorem codeEach_of_error {coder : α → Action ε σ Unit} {done : List α} {x : α} {s : σ} {e : ε}
    (hdone : (forM done coder s).result = .ok ()) (hx : (coder x (forM done coder s).state).result = .error e)
    (rest : List α) :
    (codeEach coder (done ++ x :: rest) s).result = .error ⟨done.length, e⟩ ∧
      (codeEach coder (done ++ x :: rest) s).state = (coder x (forM done coder s).state).state := by
  obtain ⟨hr, hs⟩ := codeElement_result done.length (coder x) (forM done coder s).state
  rw [hx] at hr
  obtain ⟨hresult, hstate⟩ := codeFrom_append hdone 0 (x :: rest)
  rw [Nat.zero_add, codeFrom] at hresult hstate
  rw [codeEach, hresult, hstate, (bind_of_error hr).1, (bind_of_error hr).2, hs]
  exact ⟨rfl, rfl⟩

theorem codeEach_cases (coder : α → Action ε σ Unit) (xs : List α) (s : σ) :
    (forM xs coder s).result = .ok () ∧ (codeEach coder xs s).result = .ok xs.length ∨
      ∃ done x rest e, xs = done ++ x :: rest ∧ (forM done coder s).result = .ok () ∧
        (coder x (forM done coder s).state).result = .error e ∧
        (codeEach coder xs s).result = .error ⟨done.length, e⟩ ∧
        (codeEach coder xs s).state = (coder x (forM done coder s).state).state := by
  cases hr : (codeEach coder xs s).result with
  | ok n =>
    have hall : (forM xs coder s).result = .ok () := by
      rw [← (codeFrom_source_agree coder 0 xs s).1, bind_apply, Action.mapError]
      rw [codeEach] at hr
      rcases hc : codeFrom coder 0 xs s with ⟨_ | _, t, log⟩
      · rw [hc] at hr; cases hr
      · rfl
    exact .inl ⟨hall, hr.symm.trans (codeEach_of_ok hall)⟩
  | error failure =>
    obtain ⟨done, x, rest, rfl, -, hdone, hx⟩ := exists_of_codeFrom_error hr
    obtain ⟨hresult, hstate⟩ := codeEach_of_error hdone hx rest
    exact .inr ⟨done, x, rest, failure.source, rfl, hdone, hx, hr.symm.trans hresult, hstate⟩

/-! ## The same loop in another form -/

theorem codeFrom_map (coder : β → Action ε σ Unit) (g : α → β) (index : Nat) (xs : List α) :
    codeFrom coder index (xs.map g) = codeFrom (fun x => coder (g x)) index xs := by
  induction xs generalizing index with
  | nil => rfl
  | cons x xs ih => rw [List.map_cons, codeFrom, codeFrom, ih]

theorem codeEach_map (coder : β → Action ε σ Unit) (g : α → β) (xs : List α) :
    codeEach coder (xs.map g) = codeEach (fun x => coder (g x)) xs := codeFrom_map coder g 0 xs

theorem codeFrom_mapError (f : ε → δ) (coder : α → Action ε σ Unit) (index : Nat) (xs : List α) :
    codeFrom (fun x => (coder x).mapError f) index xs =
      (codeFrom coder index xs).mapError fun failure => ⟨failure.index, f failure.source⟩ := by
  induction xs generalizing index with
  | nil => rfl
  | cons x xs ih =>
    have hfirst : codeElement index ((coder x).mapError f) =
        (codeElement index (coder x)).mapError fun failure => ⟨failure.index, f failure.source⟩ := by
      funext s
      unfold codeElement Action.mapError
      dsimp only
      rcases coder x s with ⟨_ | _, t, log⟩ <;> rfl
    simp only [codeFrom, mapError_bind, hfirst, ih]

theorem codeEach_mapError (f : ε → δ) (coder : α → Action ε σ Unit) (xs : List α) :
    codeEach (fun x => (coder x).mapError f) xs =
      (codeEach coder xs).mapError fun failure => ⟨failure.index, f failure.source⟩ := codeFrom_mapError f coder 0 xs

end Marshal
