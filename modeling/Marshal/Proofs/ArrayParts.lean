import Marshal.Buffer
import Marshal.Coder
import Marshal.Proofs.Loops

/-!
# Arrays coded part by part

A loop over two lists in a row is the loop over the first and, where this
succeeds, the loop over the second from there, with the count and the index of
a failure moved on. So rows are coded one after another as one list. Which
elements a coder is called on shows in one that keeps them (`recording`), and
an element that the coder may change is a slot that is coded `inPlace`.
-/

namespace Marshal

open Marshal.Action

variable {ε δ κ σ α β : Type} {n : Nat}

/-! ## One list after another -/

namespace Action

theorem mapError_apply (f : ε → δ) (a : Action ε σ α) (s : σ) :
    a.mapError f s = ⟨(a s).result.mapError f, (a s).state, (a s).log⟩ := by
  unfold Action.mapError
  rcases a s with ⟨_ | x, t, log⟩ <;> rfl

theorem mapError_pure (f : ε → δ) (x : α) : (pure x : Action ε σ α).mapError f = pure x := rfl

theorem mapError_mapError {γ : Type} (f : ε → δ) (g : δ → γ) (a : Action ε σ α) :
    (a.mapError f).mapError g = a.mapError fun e => g (f e) := by
  funext s
  simp only [mapError_apply]
  cases (a s).result <;> rfl

theorem Agree.mapError {a b : Action ε σ α} (h : Agree a b) (f : ε → δ) : Agree (a.mapError f) (b.mapError f) := by
  intro s
  rw [mapError_apply, mapError_apply, (h s).1, (h s).2]
  exact ⟨rfl, rfl⟩

end Action

def ElementFailure.behind (offset : Nat) (failure : ElementFailure ε) : ElementFailure ε :=
  ⟨offset + failure.index, failure.source⟩

theorem codeFrom_append_eq (code : α → Action ε σ Unit) (index : Nat) (xs ys : List α) :
    codeFrom code index (xs ++ ys) = codeFrom code index xs >>= fun next => codeFrom code next ys := by
  induction xs generalizing index with
  | nil => rfl
  | cons x xs ih => simp only [List.cons_append, codeFrom, ih, bind_assoc]

theorem codeElement_behind (offset index : Nat) (code : Action ε σ Unit) :
    Agree (codeElement (offset + index) code) ((codeElement index code).mapError (.behind offset)) := by
  intro s
  obtain ⟨hr, hs⟩ := codeElement_result (offset + index) code s
  obtain ⟨hr', hs'⟩ := codeElement_result index code s
  rw [mapError_apply, hr, hs, hr', hs']
  cases (code s).result <;> exact ⟨rfl, rfl⟩

theorem codeFrom_behind (code : α → Action ε σ Unit) (offset index : Nat) (xs : List α) :
    Agree (codeFrom code (offset + index) xs) (do
      let next ← (codeFrom code index xs).mapError (.behind offset)
      return offset + next) := by
  induction xs generalizing index with
  | nil => exact Agree.refl _
  | cons x xs ih =>
    rw [codeFrom, codeFrom, mapError_bind, bind_assoc]
    exact (codeElement_behind offset index (code x)).bind fun _ => ih (index + 1)

theorem length_of_codeEach_ok {code : α → Action ε σ Unit} {xs : List α} {s : σ} {count : Nat}
    (h : (codeEach code xs s).result = .ok count) : count = xs.length := by
  rcases codeEach_cases code xs s with ⟨-, hr⟩ | ⟨_, _, _, _, -, -, -, hr, -⟩
  · exact Except.ok.inj (h.symm.trans hr)
  · cases h.symm.trans hr

theorem codeEach_counts (code : α → Action ε σ Unit) (xs : List α) :
    Agree (codeEach code xs) (do let _ ← codeEach code xs; return xs.length) := by
  intro s
  cases hr : (codeEach code xs s).result with
  | error failure =>
    rw [(bind_of_error hr).1, (bind_of_error hr).2]
    exact ⟨rfl, rfl⟩
  | ok count =>
    rw [(bind_of_ok hr).1, (bind_of_ok hr).2, length_of_codeEach_ok hr]
    exact ⟨rfl, rfl⟩

theorem codeEach_append (code : α → Action ε σ Unit) (xs ys : List α) :
    Agree (codeEach code (xs ++ ys)) (do
      let count ← codeEach code xs
      let more ← (codeEach code ys).mapError (.behind xs.length)
      return count + more) := by
  intro s
  rw [codeEach, codeFrom_append_eq, ← codeEach]
  cases hr : (codeEach code xs s).result with
  | error failure =>
    rw [(bind_of_error hr).1, (bind_of_error hr).2, (bind_of_error hr).1, (bind_of_error hr).2]
    exact ⟨rfl, rfl⟩
  | ok count =>
    obtain rfl := length_of_codeEach_ok hr
    rw [(bind_of_ok hr).1, (bind_of_ok hr).2, (bind_of_ok hr).1, (bind_of_ok hr).2]
    exact codeFrom_behind code xs.length 0 ys _

theorem codeEach_append_of_error {code : α → Action ε σ Unit} {xs : List α} {s : σ} {failure : ElementFailure ε}
    (h : (codeEach code xs s).result = .error failure) (others : List α) :
    codeEach code (xs ++ others) s = codeEach code xs s := by
  rw [codeEach, codeFrom_append_eq, ← codeEach, bind_apply]
  rcases hc : codeEach code xs s with ⟨e | count, t, log⟩
  · rfl
  · rw [hc] at h; cases h

/-! ## Rows -/

def codeRow (code : α → Action ε σ Unit) (row : List α) : Action (ElementFailure ε) σ Unit := do
  let _ ← codeEach code row

/-- A failure in one of the rows, by the index of its element among the elements of all rows. -/
def ElementFailure.amongRows (rows : List (List α)) (failure : ElementFailure (ElementFailure ε)) : ElementFailure ε :=
  ⟨((rows.take failure.index).map List.length).sum + failure.source.index, failure.source.source⟩

theorem codeRow_append (code : α → Action ε σ Unit) (xs ys : List α) :
    Agree (codeRow code (xs ++ ys)) (codeRow code xs >>= fun _ => (codeRow code ys).mapError (.behind xs.length)) := by
  have h := (codeEach_append code xs ys).bind fun _ => Agree.refl (pure () : Action (ElementFailure ε) σ Unit)
  simpa only [codeRow, mapError_bind, mapError_pure, bind_assoc, pure_bind] using h

theorem codeRow_singleton (code : α → Action ε σ Unit) (x : α) : codeRow code [x] = codeElement 0 (code x) := by
  simp only [codeRow, codeEach, codeFrom, bind_assoc, pure_bind]
  exact bind_pure_unit

theorem codeRow_first (code : α → Action ε σ Unit) (row : List α) (rows : List (List α)) :
    Agree (codeRow code row) ((codeRow (codeRow code) [row]).mapError (.amongRows (row :: rows))) := by
  intro s
  obtain ⟨hr, hs⟩ := codeElement_result 0 (codeRow code row) s
  rw [codeRow_singleton, mapError_apply, hr, hs]
  cases (codeRow code row s).result <;> simp [Except.mapError, ElementFailure.amongRows]

theorem amongRows_behind (row : List α) (rows : List (List α)) (failure : ElementFailure (ElementFailure ε)) :
    (failure.behind 1).amongRows (row :: rows) = (failure.amongRows rows).behind row.length := by
  have hrow : 1 + failure.index = failure.index + 1 := Nat.add_comm _ _
  simp [ElementFailure.amongRows, ElementFailure.behind, hrow, Nat.add_assoc]

theorem codeRow_flatten (code : α → Action ε σ Unit) (rows : List (List α)) :
    Agree (codeRow code rows.flatten) ((codeRow (codeRow code) rows).mapError (.amongRows rows)) := by
  induction rows with
  | nil => exact Agree.refl _
  | cons row rows ih =>
    have hrest := ih.mapError (ElementFailure.behind row.length)
    have hrows := (codeRow_append (codeRow code) [row] rows).mapError (ElementFailure.amongRows (row :: rows))
    rw [mapError_mapError] at hrest
    simp only [mapError_bind, mapError_mapError, List.length_singleton, amongRows_behind] at hrows
    exact (codeRow_append code row rows.flatten).trans
      (((codeRow_first code row rows).bind fun _ => hrest).trans hrows.symm)

theorem codeEach_flatten (code : α → Action ε σ Unit) (rows : List (List α)) :
    Agree (codeEach code rows.flatten) (do
      let _ ← (codeEach (codeRow code) rows).mapError (.amongRows rows)
      return (rows.map List.length).sum) := by
  have h := (codeRow_flatten code rows).bind fun _ => Agree.refl (pure rows.flatten.length)
  simp only [codeRow, mapError_bind, mapError_pure, bind_assoc, pure_bind] at h
  rw [← List.length_flatten]
  exact (codeEach_counts code rows.flatten).trans h

/-! ## Calls of the coder -/

namespace Coder

/-- The same coder, which keeps the elements that it is called on. -/
def recording (code : α → Action ε σ Unit) (x : α) : Action ε (List α × σ) Unit := fun (seen, s) =>
  let o := code x s
  ⟨o.result, (seen ++ [x], o.state), o.log⟩

theorem forM_recording {code : α → Action ε σ Unit} {xs : List α} {s : σ} (h : (forM xs code s).result = .ok ())
    (seen : List α) :
    (forM xs (recording code) (seen, s)).result = .ok () ∧
      (forM xs (recording code) (seen, s)).state = (seen ++ xs, (forM xs code s).state) := by
  induction xs generalizing seen s with
  | nil => exact ⟨rfl, by rw [List.append_nil]; rfl⟩
  | cons x xs ih =>
    rw [List.forM_cons] at h ⊢
    rw [List.forM_cons]
    cases hx : (code x s).result with
    | error e =>
      rw [(bind_of_error hx).1] at h
      cases h
    | ok u =>
      have hrecorded : (recording code x (seen, s)).result = .ok u := hx
      rw [(bind_of_ok hx).1] at h
      rw [(bind_of_ok hrecorded).1, (bind_of_ok hrecorded).2, (bind_of_ok hx).2, List.append_cons]
      exact ih h (seen ++ [x])

theorem codeEach_recording_of_ok {code : α → Action ε σ Unit} {xs : List α} {s : σ}
    (h : (forM xs code s).result = .ok ()) (seen : List α) :
    (codeEach (recording code) xs (seen, s)).result = .ok xs.length ∧
      (codeEach (recording code) xs (seen, s)).state = (seen ++ xs, (forM xs code s).state) := by
  obtain ⟨hr, hs⟩ := forM_recording h seen
  exact ⟨codeEach_of_ok hr, (codeEach_state _ _ _).trans hs⟩

theorem codeEach_recording_of_error {code : α → Action ε σ Unit} {done : List α} {x : α} {s : σ} {e : ε}
    (hdone : (forM done code s).result = .ok ()) (hx : (code x (forM done code s).state).result = .error e)
    (rest seen : List α) :
    (codeEach (recording code) (done ++ x :: rest) (seen, s)).result = .error ⟨done.length, e⟩ ∧
      (codeEach (recording code) (done ++ x :: rest) (seen, s)).state =
        (seen ++ done ++ [x], (code x (forM done code s).state).state) := by
  obtain ⟨hr, hs⟩ := forM_recording hdone seen
  have hfails : (recording code x (forM done (recording code) (seen, s)).state).result = .error e := by
    rw [hs]
    exact hx
  have hend := codeEach_of_error hr hfails rest
  rw [hs] at hend
  exact hend

end Coder

/-! ## Elements that the coder may change -/

/-- The coder may change the slot whether it fails or not. -/
def inPlace (code : Action ε (β × σ) Unit) (i : Fin n) : Action ε (Vector β n × σ) Unit := fun (slots, s) =>
  let o := code (slots.get i, s)
  ⟨o.result, (slots.set i o.state.1 i.isLt, o.state.2), o.log⟩

theorem get_inPlace_of_ne (code : Action ε (β × σ) Unit) {i j : Fin n} (h : i ≠ j) (p : Vector β n × σ) :
    (inPlace code i p).state.1.get j = p.1.get j :=
  Vector.getElem_set_ne i.isLt j.isLt (Fin.val_ne_of_ne h)

theorem get_forM_inPlace (code : Action ε (β × σ) Unit) {run : List (Fin n)} {j : Fin n} (h : j ∉ run)
    (p : Vector β n × σ) : (forM run (inPlace code) p).state.1.get j = p.1.get j := by
  induction run generalizing p with
  | nil => rfl
  | cons i run ih =>
    rw [List.mem_cons, not_or] at h
    obtain ⟨hi, hrun⟩ := h
    rw [List.forM_cons]
    cases hr : (inPlace code i p).result with
    | error e =>
      rw [(bind_of_error hr).2]
      exact get_inPlace_of_ne code (Ne.symm hi) p
    | ok u =>
      rw [(bind_of_ok hr).2, ih hrun]
      exact get_inPlace_of_ne code (Ne.symm hi) p

theorem lt_of_mem_take_finRange {i : Fin n} {k : Nat} (h : i ∈ (List.finRange n).take k) : i < k := by
  obtain ⟨j, hj, rfl⟩ := List.mem_take_iff_getElem.mp h
  rw [List.getElem_finRange]
  exact (Nat.lt_min.mp hj).1

/-! ## How a loop ends -/

theorem codeEach_take_append {code : α → Action ε σ Unit} {xs : List α} {s : σ} {k : Nat} {e : ε}
    (h : (codeEach code xs s).result = .error ⟨k, e⟩) (others : List α) :
    codeEach code (xs.take (k + 1) ++ others) s = codeEach code xs s := by
  rcases codeEach_cases code xs s with ⟨-, hr⟩ | ⟨done, x, rest, e', rfl, hdone, hx, hr, -⟩
  · cases h.symm.trans hr
  · cases h.symm.trans hr
    have hfails := (codeEach_of_error hdone hx []).1
    have hsplit : done ++ x :: rest = (done ++ [x]) ++ rest := List.append_cons done x rest
    rw [List.take_length_add_append, hsplit, codeEach_append_of_error hfails rest]
    exact codeEach_append_of_error hfails others

theorem get_codeEach_inPlace {code : Action ε (β × σ) Unit} {p : Vector β n × σ} {k : Nat} {e : ε}
    (h : (codeEach (inPlace code) (List.finRange n) p).result = .error ⟨k, e⟩) {j : Fin n} (hj : k < j) :
    (codeEach (inPlace code) (List.finRange n) p).state.1.get j = p.1.get j := by
  have hcalled : j ∉ (List.finRange n).take (k + 1) := fun hm => by
    have := lt_of_mem_take_finRange hm
    omega
  rw [← codeEach_take_append h [], List.append_nil, codeEach_state]
  exact get_forM_inPlace code hcalled p

/-- **Arrays are coded part by part.** The loop over two lists in a row is the loop over the first
and, where that succeeds, the loop over the second; rows in a row likewise. The coder is called on
each element in turn, up to the first failure. -/
theorem arrays_coded_part_by_part {α ε κ σ : Type} (code : α → Action ε (κ × σ) Unit) :
    (∀ xs ys : List α, Agree (codeEach code (xs ++ ys)) (do
      let count ← codeEach code xs
      let more ← (codeEach code ys).mapError (.behind xs.length)
      return count + more)) ∧
    (∀ rows : List (List α), Agree (codeEach code rows.flatten) (do
      let _ ← (codeEach (codeRow code) rows).mapError (.amongRows rows)
      return (rows.map List.length).sum)) ∧
    (∀ (xs : List α) (s : κ × σ),
      let loop := codeEach code xs s
      let recorded := codeEach (Coder.recording code) xs ([], s)
      let after (k : Nat) := forM (xs.take k) code s
      recorded.result = loop.result ∧ recorded.state.2 = loop.state ∧
        (loop.result = .ok xs.length ∧ (after xs.length).result = .ok () ∧
            loop.state = (after xs.length).state ∧ recorded.state.1 = xs ∨
          ∃ k x e, xs[k]? = some x ∧
            let last := code x (after k).state
            (after k).result = .ok () ∧ last.result = .error e ∧ loop.result = .error ⟨k, e⟩ ∧
              loop.state = last.state ∧ recorded.state.1 = xs.take (k + 1) ∧
              ∀ others, codeEach code (xs.take (k + 1) ++ others) s = loop)) ∧
    ∀ {β : Type} {n : Nat} (change : Action ε (β × κ × σ) Unit) (slots : Vector β n) (s : κ × σ),
      let loop := codeEach (inPlace change) (List.finRange n) (slots, s)
      ∀ k e, loop.result = .error ⟨k, e⟩ → ∀ j : Fin n, k < j → loop.state.1.get j = slots.get j := by
  refine ⟨codeEach_append code, codeEach_flatten code, fun xs s => ?_,
    fun change slots s k e h j hj => get_codeEach_inPlace h hj⟩
  intro loop recorded after
  rcases codeEach_cases code xs s with ⟨hall, hr⟩ | ⟨done, x, rest, e, rfl, hdone, hx, hr, hs⟩
  · obtain ⟨hcounted, hseen⟩ := Coder.codeEach_recording_of_ok hall []
    have hstate : loop.state = (forM xs code s).state := codeEach_state code xs s
    have hafter : after xs.length = forM xs code s := congrArg (forM · code s) xs.take_length
    rw [hafter, show recorded.state = _ from hseen, hstate]
    exact ⟨hcounted.trans hr.symm, rfl, .inl ⟨hr, hall, rfl, rfl⟩⟩
  · obtain ⟨hfailed, hseen⟩ := Coder.codeEach_recording_of_error hdone hx rest []
    have hafter : after done.length = forM done code s := congrArg (forM · code s) List.take_left
    have htake : (done ++ x :: rest).take (done.length + 1) = done ++ [x] := List.take_length_add_append 1
    rw [show recorded.state = _ from hseen, show loop.state = _ from hs]
    refine ⟨hfailed.trans hr.symm, rfl, .inr ⟨done.length, x, e, by simp, ?_⟩⟩
    rw [hafter]
    exact ⟨hdone, hx, hr, rfl, htake.symm, codeEach_take_append hr⟩

/-- A number in the second of two rows is refused, and the second of three slots. -/
theorem arrays_coded_part_by_part_refused :
    let code : UInt8 → Action CoderError (Nat × Buffer 8) Unit := Coder.refusing (· == 3) (Buffer.encodeScalar .u8)
    let rows : List (List UInt8) := [[1, 2], [3, 4]]
    let s := (0, Buffer.empty 8)
    let loop := codeEach code rows.flatten s
    let change : Action CoderError (Nat × Nat × Buffer 8) Unit := fun (x, calls, b) =>
      ⟨if calls = 1 then .error .exhausted else .ok (), (2 * x, calls + 1, b), []⟩
    let changed := codeEach (inPlace change) (List.finRange 3) (#v[5, 6, 7], s)
    loop.result = .error ⟨2, .refused⟩ ∧ loop.state = (3, (Buffer.empty 8).append [1, 2]) ∧
      (codeEach (codeRow code) rows s).result = .error ⟨1, 0, .refused⟩ ∧
      (codeEach (Coder.recording code) rows.flatten ([], s)).state.1 = [1, 2, 3] ∧
      changed.result = .error ⟨1, .exhausted⟩ ∧ changed.state.1.get 2 = 7 := by
  intro code rows s loop change changed
  obtain ⟨-, hrows, hcalls, hslots⟩ := arrays_coded_part_by_part code
  obtain ⟨hresult, hstate⟩ := hrows rows s
  have hfails : changed.result = .error ⟨1, .exhausted⟩ := rfl
  have hlater := hslots change #v[5, 6, 7] s 1 .exhausted hfails 2 (by decide)
  refine ⟨hresult.trans (by decide), hstate.trans (by decide), by decide, ?_, hfails, hlater⟩
  obtain ⟨-, -, ⟨hall, -⟩ | ⟨k, x, e, -, -, -, hfailed, -, hseen, -⟩⟩ := hcalls rows.flatten s
  · cases hall.symm.trans hresult
  · cases hfailed.symm.trans hresult
    exact hseen

end Marshal
