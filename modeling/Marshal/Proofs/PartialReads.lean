import Marshal.Proofs.WireForm

/-!
# What a failed decode leaves behind

A format is decoded leaf by leaf. `Takes r ps r'`: the leaves `ps` are decoded
one after another, the first at `r`, and the last ends at `r'`. A format is
decoded if its leaves can be taken, and else the decode stops where the first
of them fails, with the failure of this leaf.
-/

namespace Marshal

open Marshal.Action

inductive Takes : Reader → List Part → Reader → Prop
  | nil (r : Reader) : Takes r [] r
  | cons {r r' : Reader} {p : Part} {ps : List Part} :
    (p.leaf.decode r).result = .ok p.value → Takes (p.leaf.decode r).state ps r' → Takes r (p :: ps) r'

/-! ## Leaves -/

namespace Leaf

theorem state_of_decodeBytes_error {α : Type} {n : Nat} {f : List UInt8 → α} {r : Reader} {e : Error}
    (h : ((do let bytes ← Reader.decodeBytes n; return f bytes) r).result = .error e) :
    ((do let bytes ← Reader.decodeBytes n; return f bytes) r).state = r := by
  rw [bind_apply, Reader.decodeBytes_apply] at h ⊢
  by_cases hu : r.unread < n
  · rw [if_pos hu]
    rfl
  · rw [if_neg hu] at h
    cases h

theorem state_of_decodeText_error {r : Reader} {e : Error} (h : (Reader.decodeText r).result = .error e) :
    (Reader.decodeText r).state = r := by
  by_cases hm : 0 ∈ r.rest
  · obtain ⟨s, rest, hs⟩ := CString.exists_of_mem hm
    rw [Reader.decodeText_of_append s hs] at h ⊢
    cases hu : ofUtf8? s.bytes with
    | none => rfl
    | some text => rw [hu] at h; cases h
  · rw [Reader.decodeText_of_not_mem hm]
    rfl

theorem state_of_error {l : Leaf} {r : Reader} {e : Error} (h : (l.decode r).result = .error e) :
    (l.decode r).state = r := by
  cases l with
  | scalar t => exact state_of_decodeBytes_error h
  | messageId =>
    have hd : (Leaf.messageId).decode = (do
        let bytes ← Reader.decodeBytes ScalarType.u32.width
        return MessageId.mk (ScalarType.ofBytes .u32 bytes)) := by
      simp only [decode, Reader.decodeMessageId, Reader.decodeScalar, bind_assoc, pure_bind]
    rw [hd] at h ⊢
    exact state_of_decodeBytes_error h
  | cstring =>
    show (Reader.decodeCString r).state = r
    by_cases hm : 0 ∈ r.rest
    · obtain ⟨s, rest, hs⟩ := CString.exists_of_mem hm
      have hd : (Reader.decodeCString r).result = .error e := h
      rw [Reader.decodeCString_of_append s hs] at hd
      cases hd
    · rw [Reader.decodeCString_of_not_mem hm]
      rfl
  | text => exact state_of_decodeText_error h
  | boundedText limit =>
    have hd : (Reader.decodeBoundedText limit r).result = .error e := h
    show (Reader.decodeBoundedText limit r).state = r
    rw [Reader.decodeBoundedText_apply] at hd ⊢
    rcases ht : Reader.decodeText r with ⟨e' | text, r', log⟩
    · have hs := state_of_decodeText_error (congrArg Outcome.result ht)
      rw [ht] at hs
      exact hs
    · rw [ht] at hd
      obtain ⟨taken, rest, hr, hw⟩ := wire_of_decode (l := .text) (congrArg Outcome.result ht)
      have hr' : r' = r.moveTo (r.position + taken.length) :=
        congrArg Outcome.state (ht.symm.trans (decode_of_wire hw hr))
      by_cases hl : text.utf8ByteSize ≤ limit
      · simp only [hl, dite_true] at hd
        cases hd
      · simp only [hl, dite_false, hr']
        rfl

def Short : Leaf → Reader → Prop
  | scalar t, r => r.unread < t.width
  | messageId, r => r.unread < 4
  | _, r => 0 ∉ r.rest

theorem decode_eq_underflow {l : Leaf} {r : Reader} (h : l.Short r) :
    ∃ k, r.unread < k ∧ l.decode r = Reader.underflow k r := by
  cases l with
  | scalar t => exact ⟨t.width, h, Reader.decodeScalar_of_lt t h⟩
  | messageId => exact ⟨4, h, Reader.decodeMessageId_of_lt h⟩
  | cstring => exact ⟨r.unread + 1, Nat.lt_succ_self _, Reader.decodeCString_of_not_mem h⟩
  | text => exact ⟨r.unread + 1, Nat.lt_succ_self _, Reader.decodeText_of_not_mem h⟩
  | boundedText limit => exact ⟨r.unread + 1, Nat.lt_succ_self _, Reader.decodeBoundedText_of_not_mem limit h⟩

theorem decode_of_short {l : Leaf} {r : Reader} (h : l.Short r) :
    ∃ k, r.unread < k ∧ (l.decode r).result = .error (.underflow k r.unread) := by
  obtain ⟨k, hk, hd⟩ := decode_eq_underflow h
  exact ⟨k, hk, congrArg Outcome.result hd⟩

end Leaf

theorem Takes.eq_moveTo {r r' : Reader} {ps : List Part} (h : Takes r ps r') :
    r' = r.moveTo (r.position + widthSum ps) := by
  induction h with
  | nil r => rfl
  | @cons r r' p ps hp _ ih =>
    rw [ih, congrArg Outcome.state (Leaf.decode_of_ok hp), widthSum_cons, ← Nat.add_assoc]
    rfl

/-! ## Lists of leaves -/

namespace Leaf

theorem decodePart_apply (l : Leaf) (r : Reader) :
    l.decodePart r = ⟨(l.decode r).result.map (Part.mk l), (l.decode r).state, (l.decode r).log⟩ := map_apply _ _ _

theorem mapM_decodePart_cons {l : Leaf} {r : Reader} {x : l.Value} (h : (l.decode r).result = .ok x) (ls : List Leaf) :
    ((l :: ls).mapM decodePart r).result = (ls.mapM decodePart (l.decode r).state).result.map (⟨l, x⟩ :: ·) ∧
      ((l :: ls).mapM decodePart r).state = (ls.mapM decodePart (l.decode r).state).state := by
  have hp : (l.decodePart r).result = .ok ⟨l, x⟩ := by rw [decodePart_apply, h]; rfl
  have hs : (l.decodePart r).state = (l.decode r).state := by rw [decodePart_apply]
  rw [List.mapM_cons]
  obtain ⟨hr, ht⟩ := bind_of_ok (f := fun p => do let ps ← ls.mapM decodePart; pure (p :: ps)) hp
  rw [hr, ht, hs, ← map_eq_pure_bind, map_apply]
  exact ⟨rfl, rfl⟩

theorem mapM_decodePart_of_error {l : Leaf} {r : Reader} {e : Error} (h : (l.decode r).result = .error e)
    (ls : List Leaf) : ((l :: ls).mapM decodePart r).result = .error e ∧ ((l :: ls).mapM decodePart r).state = r := by
  have hp : (l.decodePart r).result = .error e := by rw [decodePart_apply, h]; rfl
  rw [List.mapM_cons]
  obtain ⟨hr, hs⟩ := bind_of_error (f := fun p => do let ps ← ls.mapM decodePart; pure (p :: ps)) hp
  rw [hr, hs, decodePart_apply]
  exact ⟨rfl, state_of_error h⟩

end Leaf

theorem decodeParts_eq_ok_iff {ls : List Leaf} {r r' : Reader} {ps : List Part} :
    (ls.mapM Leaf.decodePart r).result = .ok ps ∧ (ls.mapM Leaf.decodePart r).state = r' ↔
      ps.map Part.leaf = ls ∧ Takes r ps r' := by
  induction ls generalizing r ps with
  | nil =>
    constructor
    · rintro ⟨h, rfl⟩
      cases h
      exact ⟨rfl, .nil r⟩
    · rintro ⟨h, ht⟩
      rw [List.map_eq_nil_iff] at h
      subst h
      cases ht
      exact ⟨rfl, rfl⟩
  | cons l ls ih =>
    cases hd : (l.decode r).result with
    | error e =>
      constructor
      · rintro ⟨h, -⟩
        rw [(Leaf.mapM_decodePart_of_error hd ls).1] at h
        cases h
      · rintro ⟨h, ht⟩
        cases ht with
        | nil => cases h
        | cons hp _ =>
          cases h
          rw [hp] at hd
          cases hd
    | ok x =>
      obtain ⟨hres, hst⟩ := Leaf.mapM_decodePart_cons hd ls
      rw [hres, hst]
      constructor
      · rintro ⟨h, rfl⟩
        rcases hls : (ls.mapM Leaf.decodePart (l.decode r).state).result with e | qs
        · rw [hls] at h; cases h
        · rw [hls] at h
          cases h
          obtain ⟨hl, ht⟩ := ih.mp ⟨hls, rfl⟩
          exact ⟨by rw [List.map_cons, hl], .cons hd ht⟩
      · rintro ⟨h, ht⟩
        cases ht with
        | nil => cases h
        | @cons _ _ p qs hp ht =>
          cases h
          rw [hp] at hd
          cases hd
          obtain ⟨hr, hs⟩ := ih.mpr ⟨rfl, ht⟩
          exact ⟨by rw [hr]; rfl, hs⟩

theorem decodeParts_eq_error_iff {ls : List Leaf} {r r' : Reader} {e : Error} :
    (ls.mapM Leaf.decodePart r).result = .error e ∧ (ls.mapM Leaf.decodePart r).state = r' ↔
      ∃ ps l after, ls = ps.map Part.leaf ++ l :: after ∧ Takes r ps r' ∧ (l.decode r').result = .error e := by
  induction ls generalizing r with
  | nil =>
    constructor
    · rintro ⟨h, -⟩
      cases h
    · rintro ⟨ps, l, after, h, -⟩
      simp at h
  | cons l ls ih =>
    cases hd : (l.decode r).result with
    | error e' =>
      obtain ⟨hres, hst⟩ := Leaf.mapM_decodePart_of_error hd ls
      rw [hres, hst]
      constructor
      · rintro ⟨h, rfl⟩
        cases h
        exact ⟨[], l, ls, rfl, .nil r, hd⟩
      · rintro ⟨ps, l', after, hls, ht, he⟩
        cases ht with
        | nil =>
          cases hls
          rw [hd] at he
          cases he
          exact ⟨rfl, rfl⟩
        | cons hp _ =>
          cases hls
          rw [hp] at hd
          cases hd
    | ok x =>
      obtain ⟨hres, hst⟩ := Leaf.mapM_decodePart_cons hd ls
      rw [hres, hst]
      constructor
      · rintro ⟨h, rfl⟩
        rcases hls : (ls.mapM Leaf.decodePart (l.decode r).state).result with e' | qs
        · rw [hls] at h
          cases h
          obtain ⟨ps, l', after, rfl, ht, he⟩ := ih.mp ⟨hls, rfl⟩
          exact ⟨⟨l, x⟩ :: ps, l', after, rfl, .cons hd ht, he⟩
        · rw [hls] at h; cases h
      · rintro ⟨ps, l', after, hls, ht, he⟩
        cases ht with
        | nil =>
          cases hls
          rw [hd] at he
          cases he
        | @cons _ _ p qs hp ht =>
          cases hls
          obtain ⟨hr, hs⟩ := ih.mpr ⟨qs, l', after, rfl, ht, he⟩
          rw [hp] at hd
          cases hd
          exact ⟨by rw [hr]; rfl, hs⟩

/-! ## Formats -/

namespace Format

theorem decode_parts_result (f : Format) (r : Reader) :
    (f.leaves.mapM Leaf.decodePart r).result = (f.decode r).result.map f.parts ∧
      (f.leaves.mapM Leaf.decodePart r).state = (f.decode r).state := by
  obtain ⟨hr, hs⟩ := f.decode_agree r
  rw [← hr, ← hs, map_apply]
  exact ⟨rfl, rfl⟩

theorem decode_of_takes {f : Format} {r r' : Reader} {ps : List Part} (hl : ps.map Part.leaf = f.leaves)
    (h : Takes r ps r') : ∃ x : f.Value, f.parts x = ps ∧ (f.decode r).result = .ok x ∧ (f.decode r).state = r' := by
  obtain ⟨hr, hs⟩ := decodeParts_eq_ok_iff.mpr ⟨hl, h⟩
  rw [(f.decode_parts_result r).1] at hr
  rw [(f.decode_parts_result r).2] at hs
  rcases hd : (f.decode r).result with e | x
  · rw [hd] at hr; cases hr
  · rw [hd] at hr
    exact ⟨x, Except.ok.inj hr, rfl, hs⟩

theorem decode_eq_ok_iff {f : Format} {r r' : Reader} {x : f.Value} :
    (f.decode r).result = .ok x ∧ (f.decode r).state = r' ↔ Takes r (f.parts x) r' := by
  constructor
  · rintro ⟨hr, rfl⟩
    obtain ⟨hr', hs'⟩ := f.decode_parts_result r
    rw [hr] at hr'
    exact (decodeParts_eq_ok_iff.mp ⟨hr', hs'⟩).2
  · intro h
    obtain ⟨y, hy, hr, hs⟩ := decode_of_takes (map_leaf_parts f x) h
    rw [← f.parts_injective y x hy]
    exact ⟨hr, hs⟩

theorem decode_eq_error_iff {f : Format} {r r' : Reader} {e : Error} :
    (f.decode r).result = .error e ∧ (f.decode r).state = r' ↔
      ∃ ps l after, f.leaves = ps.map Part.leaf ++ l :: after ∧ Takes r ps r' ∧ (l.decode r').result = .error e := by
  rw [← decodeParts_eq_error_iff, (f.decode_parts_result r).1, (f.decode_parts_result r).2]
  rcases (f.decode r).result with e' | x
  · simp [Except.map]
  · simp [Except.map]

end Format

/-- **Compound values are decoded leaf by leaf.** A decode takes the leaves of the format one after
another, or ends where the first that fails starts, with the failure of this leaf. -/
theorem decode_leaf_by_leaf (f : Format) (r : Reader) :
    ((∃ x : f.Value, (f.decode r).result = .ok x) ↔ ∃ ps r', ps.map Part.leaf = f.leaves ∧ Takes r ps r') ∧
    (∀ (x : f.Value) (r' : Reader),
      (f.decode r).result = .ok x ∧ (f.decode r).state = r' ↔ Takes r (f.parts x) r') ∧
    (∀ (e : Error) (r' : Reader), (f.decode r).result = .error e ∧ (f.decode r).state = r' ↔
      ∃ ps l after, f.leaves = ps.map Part.leaf ++ l :: after ∧ Takes r ps r' ∧ (l.decode r').result = .error e) ∧
    (∀ (ps : List Part) (r' : Reader), Takes r ps r' → r' = r.moveTo (r.position + widthSum ps)) := by
  refine ⟨⟨?_, ?_⟩, fun x r' => Format.decode_eq_ok_iff, fun e r' => Format.decode_eq_error_iff,
    fun ps r' => Takes.eq_moveTo⟩
  · rintro ⟨x, hx⟩
    exact ⟨f.parts x, _, f.map_leaf_parts x, Format.decode_eq_ok_iff.mp ⟨hx, rfl⟩⟩
  · rintro ⟨ps, r', hl, ht⟩
    obtain ⟨x, -, hx, -⟩ := Format.decode_of_takes hl ht
    exact ⟨x, hx⟩

/-- The two numbers are taken, and the text after them is no UTF-8. -/
theorem decode_leaf_by_leaf_of_bad_text :
    let f := Format.record [.array (.scalar .u16) 2, .leaf .text, .scalar .bool]
    let r : Reader := ⟨[9, 1, 2, 7, 0, 255, 0, 1], 1⟩
    (f.decode r).result = .error .invalidUtf8 ∧ (f.decode r).state = r.moveTo 5 := by
  intro f r
  obtain ⟨-, -, hfails, htaken⟩ := decode_leaf_by_leaf f r
  let number (n : UInt16) : Part := ⟨.scalar .u16, n⟩
  have ht : Takes r [number 513, number 7] (r.moveTo 5) := .cons rfl (.cons rfl (.nil _))
  have hend : r.moveTo 5 = r.moveTo (r.position + widthSum [number 513, number 7]) := htaken _ _ ht
  rw [hend] at ht ⊢
  exact (hfails _ _).mpr ⟨_, .text, [.scalar .bool], rfl, ht, by cbv⟩

end Marshal
