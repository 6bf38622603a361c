import Marshal.Proofs.Writing

/-!
# What a failed encode leaves behind

An encode writes leaf after leaf and stops at the first that holds a NUL or
finds too little room (`Stops`): the leaves before it stay written, and the
rest of the buffer is as it was. Of a leaf only its `form` counts, so values
whose leaves have the same forms are encoded alike, in success and in failure.
-/

namespace Marshal

open Marshal.Action

variable {N : Nat}

/-! ## Forms of leaves -/

namespace Part

instance (p : Part) : Decidable p.NulFree := inferInstanceAs (Decidable (p.leaf.NulFree p.value))

def form (p : Part) : Option (List UInt8) := if p.NulFree then some p.image else none

end Part

namespace Buffer

def encodeForm : Option (List UInt8) → Action Error (Buffer N) Unit
  | some image => encodeBytes image
  | none => Action.fail .interiorNul

theorem encodeText_agree (text : String) :
    Agree (encodeText text : Action Error (Buffer N) Unit)
      (encodeForm (if 0 ∉ utf8 text then some (utf8 text ++ [0]) else none)) := by
  intro b
  unfold encodeText
  by_cases hn : 0 ∈ utf8 text
  · simp only [hn, not_true_eq_false, if_true, if_false, encodeForm]
    exact ⟨rfl, rfl⟩
  · simp only [hn, not_false_eq_true, if_true, if_false, encodeForm, encodeBytes, List.length_append,
      List.length_singleton, append_append]
    split <;> exact ⟨rfl, rfl⟩

end Buffer

theorem Part.encode_agree (p : Part) : Agree (p.encode : Action Error (Buffer N) Unit) (Buffer.encodeForm p.form) := by
  obtain ⟨l, x⟩ := p
  cases l with
  | scalar t => exact Agree.refl _
  | cstring => exact Agree.refl _
  | messageId => exact Agree.refl _
  | text => exact Buffer.encodeText_agree x
  | boundedText limit => exact Buffer.encodeText_agree x.text

theorem Format.encode_agree_forms (f : Format) (x : f.Value) :
    Agree (f.encode x : Action Error (Buffer N) Unit) (forM ((f.parts x).map Part.form) Buffer.encodeForm) := by
  have h : ∀ ps : List Part, Agree (forM ps (Part.encode : Part → Action Error (Buffer N) Unit))
      (forM (ps.map Part.form) Buffer.encodeForm) := by
    intro ps
    induction ps with
    | nil => exact Agree.refl _
    | cons p ps ih =>
      rw [List.forM_cons, List.map_cons, List.forM_cons]
      exact p.encode_agree.bind fun _ => ih
  exact (f.encode_agree x).trans (h _)

/-! ## The first leaf that is refused -/

namespace Part

def refusal (p : Part) (room : Nat) : Error := if p.NulFree then .overflow p.width room else .interiorNul

/-- A NUL is reported even where there is no room. -/
theorem encode_of_refused {p : Part} {b : Buffer N} (h : ¬ p.NulFree ∨ b.remaining < p.width) :
    (p.encode b).result = .error (p.refusal b.remaining) ∧ (p.encode b).state = b := by
  obtain ⟨hr, hs⟩ := p.encode_agree b
  rw [hr, hs]
  unfold form refusal
  by_cases hn : p.NulFree
  · have hroom : b.remaining < p.width := h.resolve_left (not_not_intro hn)
    simp only [hn, if_true, Buffer.encodeForm, Buffer.encodeBytes, length_image, hroom, and_self]
  · simp only [hn, if_false, Buffer.encodeForm]
    exact ⟨rfl, rfl⟩

end Part

theorem length_flatMap_partImage (ps : List Part) : (ps.flatMap Part.image).length = widthSum ps :=
  length_flatMap_image ps

/-- Where `room` bytes are left, the leaves `before` are written and `p` is the first to be refused. -/
structure Stops (room : Nat) (before : List Part) (p : Part) : Prop where
  nul_free : ∀ q ∈ before, q.NulFree
  fits : widthSum before ≤ room
  refused : ¬ p.NulFree ∨ room < widthSum before + p.width

theorem exists_stops {room : Nat} {ps : List Part} (h : ¬ ((∀ p ∈ ps, p.NulFree) ∧ widthSum ps ≤ room)) :
    ∃ before p after, ps = before ++ p :: after ∧ Stops room before p := by
  induction ps generalizing room with
  | nil => exact absurd ⟨by simp, Nat.zero_le room⟩ h
  | cons p ps ih =>
    by_cases hp : p.NulFree ∧ p.width ≤ room
    · obtain ⟨hn, hw⟩ := hp
      have hps : ¬ ((∀ q ∈ ps, q.NulFree) ∧ widthSum ps ≤ room - p.width) := by
        rintro ⟨hall, hsum⟩
        refine h ⟨List.forall_mem_cons.mpr ⟨hn, hall⟩, ?_⟩
        rw [widthSum_cons]
        omega
      obtain ⟨before, q, after, rfl, hs⟩ := ih hps
      refine ⟨p :: before, q, after, rfl, List.forall_mem_cons.mpr ⟨hn, hs.nul_free⟩, ?_, ?_⟩
      · have := hs.fits
        rw [widthSum_cons]
        omega
      · rw [widthSum_cons]
        exact hs.refused.imp_right fun hlt => by omega
    · refine ⟨[], p, ps, rfl, by simp, Nat.zero_le room, ?_⟩
      rw [widthSum_nil, Nat.zero_add, ← Nat.not_le]
      exact not_and_or.mp hp

theorem forM_encode_of_stops {before after : List Part} {p : Part} {b : Buffer N} (h : Stops b.remaining before p) :
    (forM (before ++ p :: after) Part.encode b).result = .error (p.refusal (b.remaining - widthSum before)) ∧
      (forM (before ++ p :: after) Part.encode b).state = b.append (before.flatMap Part.image) := by
  have hroom : (b.append (before.flatMap Part.image)).remaining = b.remaining - widthSum before := by
    rw [Buffer.remaining_append, length_flatMap_partImage]
  have hp : ¬ p.NulFree ∨ (b.append (before.flatMap Part.image)).remaining < p.width := by
    have := h.fits
    rw [hroom]
    exact h.refused.imp_right fun hlt => by omega
  obtain ⟨hr, hs⟩ := Part.encode_of_refused hp
  have hfirst : forM before Part.encode b = ⟨.ok (), b.append (before.flatMap Part.image), []⟩ :=
    forM_encode_of_le h.nul_free h.fits
  have hrest := bind_of_error (f := fun _ => forM after Part.encode) hr
  rw [List.forM_append, List.forM_cons]
  obtain ⟨hr', hs'⟩ := bind_of_ok (f := fun _ => p.encode >>= fun _ => forM after Part.encode)
    (congrArg Outcome.result hfirst)
  rw [hr', hs', hfirst, hrest.1, hrest.2, hs, hroom]
  exact ⟨rfl, rfl⟩

theorem forM_encode_eq_ok_iff {ps : List Part} {b : Buffer N} :
    (forM ps Part.encode b).result = .ok () ↔ (∀ p ∈ ps, p.NulFree) ∧ widthSum ps ≤ b.remaining := by
  constructor
  · intro hr
    by_contra hn
    obtain ⟨before, p, after, rfl, hs⟩ := exists_stops hn
    rw [(forM_encode_of_stops hs).1] at hr
    cases hr
  · intro h
    rw [forM_encode_of_le h.1 h.2]

namespace Format

theorem encode_of_stops {f : Format} {x : f.Value} {b : Buffer N} {before after : List Part} {p : Part}
    (hparts : f.parts x = before ++ p :: after) (h : Stops b.remaining before p) :
    (f.encode x b).result = .error (p.refusal (b.remaining - widthSum before)) ∧
      (f.encode x b).state = b.append (before.flatMap Part.image) := by
  obtain ⟨hr, hs⟩ := f.encode_agree x b
  rw [hr, hs, hparts]
  exact forM_encode_of_stops h

theorem encode_eq_ok_iff {f : Format} {x : f.Value} {b : Buffer N} :
    (f.encode x b).result = .ok () ↔ f.NulFree x ∧ f.width x ≤ b.remaining := by
  rw [(f.encode_agree x b).1, forM_encode_eq_ok_iff]
  rfl

theorem exists_encode_state (f : Format) (x : f.Value) (b : Buffer N) :
    ∃ bytes, bytes.length ≤ b.remaining ∧ (f.encode x b).state = b.append bytes := by
  by_cases h : f.NulFree x ∧ f.width x ≤ b.remaining
  · exact ⟨f.image x, by rw [length_image]; exact h.2, (encode_of_le h.1 h.2).2⟩
  · obtain ⟨before, p, after, hparts, hs⟩ := exists_stops h
    exact ⟨before.flatMap Part.image, by rw [length_flatMap_partImage]; exact hs.fits, (encode_of_stops hparts hs).2⟩

end Format

/-! ## What stays written -/

/-- The buffer `c` is `b` with `bytes` written at its cursor, and is the same elsewhere. -/
structure Buffer.Wrote (b c : Buffer N) (bytes : List UInt8) : Prop where
  cursor_eq : c.cursor = b.cursor + bytes.length
  used_eq : c.used = b.used
  written : ∀ i < bytes.length, c.storage[b.cursor + i]? = bytes[i]?
  untouched : ∀ i, i < b.cursor ∨ b.cursor + bytes.length ≤ i → c.storage[i]? = b.storage[i]?

theorem Buffer.wrote_append {b : Buffer N} {bytes : List UInt8} (h : bytes.length ≤ b.remaining) :
    b.Wrote (b.append bytes) bytes where
  cursor_eq := rfl
  used_eq := rfl
  written i hi := by
    have hN : b.cursor + i < N := by
      rw [remaining] at h
      omega
    rw [append, getElem?_overwrite, if_pos (by omega), Nat.add_sub_cancel_left]
  untouched i hi := by
    rw [append, getElem?_overwrite, if_neg (by omega)]

/-! ## Values with the same leaves -/

theorem Format.encode_congr {f g : Format} {x : f.Value} {y : g.Value}
    (h : (f.parts x).map Part.form = (g.parts y).map Part.form) :
    Agree (f.encode x : Action Error (Buffer N) Unit) (g.encode y) := by
  have hy := (g.encode_agree_forms (N := N) y).symm
  rw [← h] at hy
  exact (f.encode_agree_forms x).trans hy

theorem Format.parts_flatten (f : Format) {m n : Nat} (xs : Vector (Vector f.Value m) n) :
    (array (array f m) n).parts xs = (array f (n * m)).parts xs.flatten := by
  have hrows : xs.flatten.toList = xs.toList.flatMap Vector.toList := by
    obtain ⟨⟨rows⟩, rfl⟩ := xs
    simp only [Vector.flatten, List.flatMap, Vector.toList_mk, Array.toList_flatten, List.map_toArray, List.map_map]
    rfl
  simp only [parts, hrows, List.flatMap_assoc]

def Item.record : List Item → Item
  | [] => ⟨.nothing, ()⟩
  | x :: xs => ⟨.pair x.format (record xs).format, (x.value, (record xs).value)⟩

theorem Item.format_record (fields : List Item) : (record fields).format = .record (fields.map Item.format) := by
  induction fields with
  | nil => rfl
  | cons x fields ih => simp only [record, List.map_cons, Format.record, ih]

theorem Item.encode_record (fields : List Item) :
    Agree (Buffer.encode (record fields) : Action Error (Buffer N) Unit) (forM fields Buffer.encode) := by
  induction fields with
  | nil => exact Agree.refl _
  | cons x fields ih =>
    rw [List.forM_cons]
    exact (Agree.refl (Buffer.encode x)).bind fun _ => ih

theorem Format.form_boundedText {limit : Nat} (s : BoundedText limit) :
    ((leaf (.boundedText limit)).parts s).map Part.form = ((leaf .text).parts s.text).map Part.form := rfl

/-- **Compound values are encoded leaf by leaf.** An encode stops at the first leaf that holds a NUL
or has no room, with the leaves before it written and nothing else. So values with the same leaves
cannot be told apart by encoding them. -/
theorem encode_leaf_by_leaf :
    (∀ (N : Nat) (f : Format) (x : f.Value) (b : Buffer N),
      ((f.encode x b).result = .ok () ↔ f.NulFree x ∧ f.width x ≤ b.remaining) ∧
      ((f.encode x b).result = .ok () → b.Wrote (f.encode x b).state (f.image x)) ∧
      ((f.encode x b).result ≠ .ok () →
        ∃ before p after, f.parts x = before ++ p :: after ∧ Stops b.remaining before p) ∧
      ∀ before p after, f.parts x = before ++ p :: after → Stops b.remaining before p →
        (f.encode x b).result = .error (p.refusal (b.remaining - widthSum before)) ∧
        (f.encode x b).state.cursor = b.cursor + widthSum before ∧
        b.Wrote (f.encode x b).state (before.flatMap Part.image)) ∧
    (∀ (N : Nat) (f g : Format) (x : f.Value) (y : g.Value),
      (f.parts x).map Part.form = (g.parts y).map Part.form →
        Agree (f.encode x : Action Error (Buffer N) Unit) (g.encode y)) ∧
    (∀ (N : Nat) (f : Format) (m n : Nat) (rows : Vector (Vector f.Value m) n),
      Agree ((Format.array (.array f m) n).encode rows : Action Error (Buffer N) Unit)
        ((Format.array f (n * m)).encode rows.flatten)) ∧
    (∀ (N : Nat) (fields : List Item), (Item.record fields).format = .record (fields.map Item.format) ∧
      Agree (Buffer.encode (Item.record fields) : Action Error (Buffer N) Unit) (forM fields Buffer.encode)) ∧
    (∀ (N limit : Nat) (s : BoundedText limit),
      Agree ((Format.leaf (.boundedText limit)).encode s : Action Error (Buffer N) Unit)
        ((Format.leaf .text).encode s.text)) := by
  refine ⟨fun N f x b => ?_, fun N f g x y => Format.encode_congr, fun N f m n rows => ?_, fun N fields => ?_,
    fun N limit s => Format.encode_congr (Format.form_boundedText s)⟩
  · refine ⟨Format.encode_eq_ok_iff, fun hr => ?_, fun hr => ?_, fun before p after hparts hs => ?_⟩
    · obtain ⟨hn, hw⟩ := Format.encode_eq_ok_iff.mp hr
      rw [(Format.encode_of_le hn hw).2]
      exact Buffer.wrote_append (by rwa [Format.length_image])
    · rw [ne_eq, Format.encode_eq_ok_iff] at hr
      exact exists_stops hr
    · obtain ⟨hr, hst⟩ := Format.encode_of_stops hparts hs
      have hw : b.Wrote (b.append (before.flatMap Part.image)) (before.flatMap Part.image) :=
        Buffer.wrote_append (by rw [length_flatMap_partImage]; exact hs.fits)
      rw [hst]
      exact ⟨hr, by rw [Buffer.cursor_append, length_flatMap_partImage], hw⟩
  · exact Format.encode_congr (by rw [Format.parts_flatten])
  · exact ⟨Item.format_record fields, Item.encode_record fields⟩

/-- Room for three of four numbers; then room for all, and a NUL. -/
theorem encode_leaf_by_leaf_of_grid :
    let f := Format.record [.array (.array (.scalar .u16) 2) 2, .leaf .text]
    let x : f.Value := (#v[#v[1, 2], #v[3, 4]], "a\x00", ())
    let b := (Buffer.empty 8).append [9]
    let c := Buffer.empty 9
    (f.encode x b).result = .error (.overflow 2 1) ∧ b.Wrote (f.encode x b).state [1, 0, 2, 0, 3, 0] ∧
      (f.encode x c).result = .error .interiorNul ∧ (f.encode x c).state.cursor = 8 ∧
      (f.encode x c).state = (Buffer.encode (.record [⟨_, x.1⟩, ⟨.leaf .text, x.2.1⟩]) c).state := by
  intro f x b c
  obtain ⟨hstops, hsame, -⟩ := encode_leaf_by_leaf
  let number (n : UInt16) : Part := ⟨.scalar .u16, n⟩
  obtain ⟨-, -, -, hb⟩ := hstops 8 f x b
  obtain ⟨hresult, -, hwrote⟩ := hb [number 1, number 2, number 3] (number 4) [⟨.text, "a\x00"⟩] rfl
    ⟨by decide, by decide, .inr (by decide)⟩
  have himages : [number 1, number 2, number 3].flatMap Part.image = [1, 0, 2, 0, 3, 0] := by decide
  rw [himages] at hwrote
  obtain ⟨-, -, -, hc⟩ := hstops 9 f x c
  obtain ⟨hnul, hcursor, -⟩ := hc [number 1, number 2, number 3, number 4] ⟨.text, "a\x00"⟩ [] rfl
    ⟨by decide, by decide, .inl (by decide)⟩
  have hrecord := hsame 9 f (Item.record [⟨_, x.1⟩, ⟨.leaf .text, x.2.1⟩]).format x
    (Item.record [⟨_, x.1⟩, ⟨.leaf .text, x.2.1⟩]).value rfl
  exact ⟨hresult, hwrote, hnul, hcursor, (hrecord c).2⟩

end Marshal
