import Marshal.Proofs.Flattening

/-!
# The trail of a failure through arrays

A failure that leaves an array adds the index of its element to the log, and
one that leaves a record adds nothing. `traced place a` is `a` with the indices
`place` added to the log of its failure. So a format is coded leaf by leaf,
each leaf traced to its place: the indices of the elements that it lies in,
innermost first.
-/

namespace Marshal

open Marshal.Action

variable {N : Nat} {ε σ α β : Type}

namespace Action

/-! ## Traced actions -/

def traced (place : List Nat) (a : Action ε σ α) : Action ε σ α := fun s =>
  match a s with
  | ⟨.ok x, s, log⟩ => ⟨.ok x, s, log⟩
  | ⟨.error e, s, log⟩ => ⟨.error e, s, log ++ place.map .elementFailed⟩

theorem traced_of_ok {a : Action ε σ α} {s : σ} {x : α} (h : (a s).result = .ok x) (place : List Nat) :
    traced place a s = a s := by
  unfold traced
  rcases ha : a s with ⟨_ | y, t, log⟩
  · rw [ha] at h; cases h
  · rfl

theorem traced_of_error {a : Action ε σ α} {s : σ} {e : ε} (h : (a s).result = .error e) (place : List Nat) :
    traced place a s = ⟨.error e, (a s).state, (a s).log ++ place.map .elementFailed⟩ := by
  unfold traced
  rcases ha : a s with ⟨e' | y, t, log⟩
  · rw [ha] at h
    cases h
    rfl
  · rw [ha] at h; cases h

theorem traced_nil (a : Action ε σ α) : traced [] a = a := by
  funext s
  unfold traced
  rcases a s with ⟨_ | x, t, log⟩
  · simp
  · rfl

theorem traced_traced (outer inner : List Nat) (a : Action ε σ α) :
    traced outer (traced inner a) = traced (inner ++ outer) a := by
  funext s
  unfold traced
  rcases a s with ⟨_ | x, t, log⟩
  · simp
  · rfl

theorem traced_bind (place : List Nat) (a : Action ε σ α) (f : α → Action ε σ β) :
    traced place (a >>= f) = traced place a >>= fun x => traced place (f x) := by
  funext s
  simp only [traced, bind_apply]
  rcases a s with ⟨_ | x, t, log⟩
  · rfl
  · dsimp only
    rcases f x t with ⟨_ | y, t', log'⟩
    · simp
    · rfl

theorem traced_forM (place : List Nat) (xs : List α) (f : α → Action ε σ PUnit) :
    traced place (forM xs f) = forM xs fun x => traced place (f x) := by
  induction xs with
  | nil => rfl
  | cons x xs ih => rw [List.forM_cons, traced_bind, ih, List.forM_cons]

def void (a : Action ε σ α) : Action ε σ Unit := (fun _ => ()) <$> a

theorem void_apply (a : Action ε σ α) (s : σ) : a.void s = ⟨(a s).result.map fun _ => (), (a s).state, (a s).log⟩ :=
  map_apply _ a s

theorem void_bind (a : Action ε σ α) (f : α → Action ε σ β) : (a >>= f).void = a >>= fun x => (f x).void := by
  simp only [void, map_eq_pure_bind, bind_assoc]

theorem bind_const (a : Action ε σ α) (b : Action ε σ β) : (a >>= fun _ => b) = a.void >>= fun _ => b := by
  simp only [void, map_eq_pure_bind, bind_assoc, pure_bind]

/-! ## Elements with their places -/

/-- Codes elements one after another, each traced to its place. -/
def forPlaced (coder : α → Action ε σ PUnit) (xs : List α) (places : List (List Nat)) : Action ε σ PUnit :=
  forM (xs.zip places) fun q => traced q.2 (coder q.1)

theorem forPlaced_append (coder : α → Action ε σ PUnit) {xs : List α} {places : List (List Nat)}
    (h : xs.length = places.length) (ys : List α) (places' : List (List Nat)) :
    forPlaced coder (xs ++ ys) (places ++ places') =
      forPlaced coder xs places >>= fun _ => forPlaced coder ys places' := by
  rw [forPlaced, List.zip_append h, List.forM_append]
  rfl

theorem forPlaced_flatMap (coder : β → Action ε σ PUnit) {f : α → List β} {places : α → List (List Nat)}
    (h : ∀ x, (f x).length = (places x).length) (xs : List α) :
    forPlaced coder (xs.flatMap f) (xs.flatMap places) = forM xs fun x => forPlaced coder (f x) (places x) := by
  induction xs with
  | nil => rfl
  | cons x xs ih => rw [List.flatMap_cons, List.flatMap_cons, forPlaced_append coder (h x), ih, List.forM_cons]

theorem traced_forPlaced (coder : α → Action ε σ PUnit) (xs : List α) (places : List (List Nat)) (outer : List Nat) :
    traced outer (forPlaced coder xs places) = forPlaced coder xs (places.map (· ++ outer)) := by
  simp only [forPlaced, traced_forM, traced_traced, List.zip_map_right, List.forM_map, Prod.map, id]

theorem forPlaced_of_ok {coder : α → Action ε σ PUnit} {xs : List α} {places : List (List Nat)} {s : σ}
    (hlen : xs.length = places.length) (h : (forM xs coder s).result = .ok ()) :
    forPlaced coder xs places s = forM xs coder s := by
  induction xs generalizing places s with
  | nil => rfl
  | cons x xs ih =>
    obtain ⟨place, places, rfl⟩ := List.exists_cons_of_length_eq_add_one hlen.symm
    have hplaces : xs.length = places.length := Nat.succ.inj hlen
    rw [List.forM_cons] at h ⊢
    cases hx : (coder x s).result with
    | error e =>
      rw [(bind_of_error hx).1] at h
      cases h
    | ok u =>
      rw [(bind_of_ok hx).1] at h
      have hfirst := traced_of_ok hx place
      have hsplit : forPlaced coder (x :: xs) (place :: places) =
          traced place (coder x) >>= fun _ => forPlaced coder xs places := List.forM_cons
      rw [hsplit, bind_apply, bind_apply, hfirst]
      rcases hc : coder x s with ⟨_ | _, t, log⟩
      · rfl
      · rw [hc] at h
        simp only [ih hplaces h]

theorem forPlaced_of_error {coder : α → Action ε σ PUnit} {done : List α} {x : α} {s t : σ} {e : ε}
    {before : List (List Nat)} (hlen : done.length = before.length) (hdone : forM done coder s = ⟨.ok (), t, []⟩)
    (hx : (coder x t).result = .error e) (rest : List α) (place : List Nat) (after : List (List Nat)) :
    forPlaced coder (done ++ x :: rest) (before ++ place :: after) s =
      ⟨.error e, (coder x t).state, (coder x t).log ++ place.map .elementFailed⟩ := by
  have hsplit : forPlaced coder (x :: rest) (place :: after) =
      traced place (coder x) >>= fun _ => forPlaced coder rest after := List.forM_cons
  have hfirst : forPlaced coder done before s = ⟨.ok (), t, []⟩ :=
    (forPlaced_of_ok hlen (congrArg Outcome.result hdone)).trans hdone
  rw [forPlaced_append coder hlen, hsplit, bind_apply, hfirst]
  simp only [bind_apply, traced_of_error hx place, List.nil_append]

end Action

/-! ## Loops -/

theorem codeElement_source (index : Nat) (coder : Action ε σ Unit) :
    (codeElement index coder).mapError ElementFailure.source = traced [index] coder := by
  funext s
  unfold Action.mapError codeElement traced
  rcases coder s with ⟨_ | _, t, log⟩ <;> rfl

theorem codeFrom_source (coder : α → Action ε σ Unit) (index : Nat) (xs : List α) :
    ((codeFrom coder index xs).mapError ElementFailure.source >>= fun _ => pure ()) =
      forM (xs.zipIdx index) fun q => traced [q.2] (coder q.1) := by
  induction xs generalizing index with
  | nil => rfl
  | cons x xs ih => rw [codeFrom, mapError_bind, bind_assoc, codeElement_source, List.zipIdx_cons, List.forM_cons, ih]

theorem forM_traced_decode (decode : Action ε σ β) (n k : Nat) (s : σ) :
    forM (List.range' k n) (fun i => traced [i] decode.void) s =
      let d := decodeSome decode n s
      ⟨d.2.result, d.2.state, d.2.log ++ failureLog (k + d.1.length) d.2.result⟩ := by
  induction n generalizing k s with
  | zero => rfl
  | succ n ih =>
    have hvoid := void_apply decode s
    rw [List.range'_succ, List.forM_cons, bind_apply]
    unfold decodeSome
    rcases hd : decode s with ⟨e | x, t, log⟩
    · rw [hd] at hvoid
      have hresult : (decode.void s).result = .error e := congrArg Outcome.result hvoid
      rw [traced_of_error hresult, hvoid]
      rfl
    · rw [hd] at hvoid
      have hindex : k + ((decodeSome decode n t).1.length + 1) = k + 1 + (decodeSome decode n t).1.length := by omega
      have hresult : (decode.void s).result = .ok () := congrArg Outcome.result hvoid
      rw [traced_of_ok hresult, hvoid]
      simp only [ih, List.length_cons, List.append_assoc, hindex]
      rfl

theorem decodeArray_void (decode : Action ε σ β) (blank : β) (n : Nat) :
    (decodeArray decode blank n).void = forM (List.range n) fun i => traced [i] decode.void := by
  funext s
  rw [List.range_eq_range', forM_traced_decode, void_apply]
  unfold decodeArray
  rw [fillSlots_eq]
  rcases decodeSome decode n s with ⟨xs, _ | _, t, log⟩
  · simp only [Except.mapError, Except.map, Nat.zero_add]
  · simp only [Except.mapError, Except.map, Nat.zero_add]

/-! ## Formats -/

def Leaf.skip (l : Leaf) : Action Error Reader Unit := l.decode.void

namespace Format

/-- For each leaf of a format the indices of the elements that it lies in, innermost first. -/
def places : Format → List (List Nat)
  | leaf _ => [[]]
  | array f n => (List.range n).flatMap fun i => f.places.map (· ++ [i])
  | nothing => []
  | pair f g => f.places ++ g.places

/-- Two rows of two, and a text that lies in no array. -/
example : (record [array (array (scalar .u16) 2) 2, leaf .text]).places = [[0, 0], [1, 0], [0, 1], [1, 1], []] := by
  decide

theorem leaves_array (f : Format) (n : Nat) : (array f n).leaves = (List.range n).flatMap fun _ => f.leaves := by
  rw [leaves, List.flatMap_def, List.map_const', List.length_range]

theorem length_places (f : Format) : f.places.length = f.leaves.length := by
  induction f with
  | leaf l => rfl
  | array f n ih =>
    rw [leaves_array, places, List.length_flatMap, List.length_flatMap]
    simp only [List.length_map, ih]
  | nothing => rfl
  | pair f g ihf ihg => rw [places, leaves, List.length_append, List.length_append, ihf, ihg]

/-- Encoding a value is encoding its leaves, each traced to its place. -/
theorem encode_eq_forPlaced : ∀ (f : Format) (x : f.Value),
    (f.encode x : Action Error (Buffer N) Unit) = forPlaced Part.encode (f.parts x) f.places
  | leaf l, x => by
    show l.encode x = traced [] (l.encode x) >>= fun _ => pure ()
    rw [traced_nil, bind_pure_unit]
  | nothing, _ => rfl
  | pair f g, (x, y) => by
    have hlen : (f.parts x).length = f.places.length := by rw [length_parts, length_places]
    rw [parts, places, forPlaced_append _ hlen, encode, encode_eq_forPlaced f x, encode_eq_forPlaced g y]
  | array f n, xs => by
    have hrows : (array f n).parts xs = xs.toList.zipIdx.flatMap fun q => f.parts q.1 := by
      rw [parts, ← List.flatMap_map Prod.fst f.parts, List.zipIdx_map_fst]
    have hplaces : (array f n).places = xs.toList.zipIdx.flatMap fun q => f.places.map (· ++ [q.2]) := by
      rw [places, ← List.flatMap_map Prod.snd fun i => f.places.map (· ++ [i]), List.zipIdx_map_snd,
        Vector.length_toList, List.range_eq_range']
    have hlen : ∀ q : f.Value × Nat, (f.parts q.1).length = (f.places.map (· ++ [q.2])).length := by
      intro q
      rw [List.length_map, length_parts, length_places]
    rw [hrows, hplaces, forPlaced_flatMap _ hlen]
    simp only [← traced_forPlaced, ← encode_eq_forPlaced f]
    exact codeFrom_source f.encode 0 xs.toList

/-- Decoding a format is decoding its leaves likewise, but for the value. -/
theorem decode_eq_forPlaced : ∀ f : Format, f.decode.void = forPlaced Leaf.skip f.leaves f.places
  | leaf l => by
    show l.skip = traced [] l.skip >>= fun _ => pure ()
    rw [traced_nil, bind_pure_unit]
  | nothing => rfl
  | pair f g => by
    have h : (pair f g).decode.void = f.decode.void >>= fun _ => g.decode.void := by
      simp only [decode, void_bind, ← bind_const]
      rfl
    rw [h, decode_eq_forPlaced f, decode_eq_forPlaced g, leaves, places, forPlaced_append _ f.length_places.symm]
  | array f n => by
    rw [leaves_array, places, forPlaced_flatMap _ (by simp [length_places])]
    simp only [← traced_forPlaced, ← decode_eq_forPlaced f]
    exact decodeArray_void f.decode f.blank n

end Format

end Marshal
