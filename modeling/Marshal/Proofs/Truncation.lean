import Marshal.Proofs.BufferReads

/-!
# Messages that are cut short

What a decode returns depends on the bytes that it takes, and on nothing before
or after them. If these bytes are cut short, the leaves that are whole are
still taken, and the first that is not whole finds too little: fewer bytes than
its width, or no terminator. No cut is taken for another value or another error.
-/

namespace Marshal

open Marshal.Action

variable {N : Nat}

/-! ## One leaf -/

theorem CString.not_mem_take_image {s : CString} {c : Nat} (h : c < s.width) : 0 ∉ s.image.take c := by
  intro hm
  have hle : c ≤ s.bytes.length := Nat.lt_succ_iff.mp h
  rw [image, List.take_append_of_le_length hle] at hm
  exact s.nul_free (List.mem_of_mem_take hm)

/-- The terminator is the last byte of a string, so a cut leaves none. -/
theorem Part.Wire.short {p : Part} {taken : List UInt8} {r : Reader} {c : Nat} (h : p.Wire taken)
    (hc : c < taken.length) (hr : r.rest = taken.take c) : p.leaf.Short r := by
  have hu : r.unread = c := by
    rw [← Reader.length_rest, hr, List.length_take]
    omega
  have hw : c < p.width := h.length_eq ▸ hc
  obtain ⟨l, x⟩ := p
  obtain ⟨hn, hs⟩ := h
  cases l with
  | scalar t => exact hu.trans_lt hw
  | messageId => exact hu.trans_lt hw
  | cstring =>
    show 0 ∉ r.rest
    rw [hr, show taken = x.image from hs]
    exact CString.not_mem_take_image hw
  | text =>
    show 0 ∉ r.rest
    rw [hr, show taken = (textString x hn).image from hs]
    exact CString.not_mem_take_image hw
  | boundedText limit =>
    show 0 ∉ r.rest
    rw [hr, show taken = (textString x.text hn).image from hs]
    exact CString.not_mem_take_image hw

/-! ## Lists of leaves -/

theorem Wire.takes {ps : List Part} {taken rest : List UInt8} {r : Reader} (h : Wire ps taken)
    (hr : r.rest = taken ++ rest) : Takes r ps (r.moveTo (r.position + taken.length)) := by
  have hd := decodeParts_of_wire h hr
  exact (decodeParts_eq_ok_iff.mp ⟨congrArg Outcome.result hd, congrArg Outcome.state hd⟩).2

theorem Wire.exists_cut {ps : List Part} {taken : List UInt8} (h : Wire ps taken) {c : Nat} (hc : c < taken.length) :
    ∃ before p after whole bytes, ps = before ++ p :: after ∧ Wire before whole ∧ p.Wire bytes ∧
      whole.length ≤ c ∧ c - whole.length < bytes.length ∧ taken.take c = whole ++ bytes.take (c - whole.length) := by
  induction h generalizing c with
  | nil => exact absurd hc (Nat.not_lt_zero c)
  | @cons p ps first others hp _ ih =>
    rcases Nat.lt_or_ge c first.length with hlt | hge
    · refine ⟨[], p, ps, [], first, rfl, .nil, hp, Nat.zero_le c, hlt, ?_⟩
      exact List.take_append_of_le_length (Nat.le_of_lt hlt)
    · rw [List.length_append] at hc
      obtain ⟨before, q, after, whole, bytes, rfl, hwhole, hq, hle, hlt, htake⟩ := ih (c := c - first.length) (by omega)
      have hsub : c - (first ++ whole).length = c - first.length - whole.length := by
        rw [List.length_append]
        omega
      refine ⟨p :: before, q, after, first ++ whole, bytes, rfl, .cons hp hwhole, hq, ?_, by rwa [hsub], ?_⟩
      · rw [List.length_append]
        omega
      · rw [hsub, List.append_assoc, ← htake, List.take_append, List.take_of_length_le hge]

/-! ## Formats -/

structure CutsThrough (c : Nat) (before : List Part) (p : Part) : Prop where
  le : widthSum before ≤ c
  lt : c < widthSum before + p.width

theorem Format.decode_of_cut {f : Format} {x : f.Value} {taken : List UInt8} (h : Wire (f.parts x) taken) {c : Nat}
    (hc : c < taken.length) {r : Reader} (hr : r.rest = taken.take c) :
    ∃ before p after n, f.parts x = before ++ p :: after ∧ CutsThrough c before p ∧ c - widthSum before < n ∧
      (f.decode r).result = .error (.underflow n (c - widthSum before)) ∧
      (f.decode r).state = r.moveTo (r.position + widthSum before) := by
  obtain ⟨before, p, after, whole, bytes, hparts, hwhole, hp, hle, hlt, htake⟩ := h.exists_cut hc
  rw [htake] at hr
  have hw : whole.length = widthSum before := hwhole.length_eq
  have hrest := r.rest_moveTo_add hr
  have hunread : (r.moveTo (r.position + whole.length)).unread = c - whole.length := by
    rw [← Reader.length_rest, hrest, List.length_take]
    omega
  obtain ⟨n, hn, hfails⟩ := Leaf.decode_of_short (hp.short hlt hrest)
  have hleaves : f.leaves = before.map Part.leaf ++ p.leaf :: after.map Part.leaf := by
    rw [← f.map_leaf_parts x, hparts, List.map_append, List.map_cons]
  obtain ⟨hres, hst⟩ := decode_eq_error_iff.mpr ⟨before, p.leaf, _, hleaves, hwhole.takes hr, hfails⟩
  rw [hunread] at hres hn
  rw [hw] at hres hn hst hle hlt
  refine ⟨before, p, after, n, hparts, ⟨hle, ?_⟩, hn, hres, hst⟩
  rw [← hp.length_eq]
  omega

/-- **Decoding is local, and every cut is noticed.** A decode takes the same bytes to the same value
wherever they stand. Where they are cut it underflows; a buffer stays as it was, and a reader goes
to the first leaf that is not whole. -/
theorem decode_local_and_cut_noticed (f : Format) (r : Reader) (x : f.Value) (k : Nat)
    (hx : (f.decode r).result = .ok x) (hk : (f.decode r).state.position = r.position + k) :
    (∀ s : Reader, r.rest.take k <+: s.rest →
      (f.decode s).result = .ok x ∧ (f.decode s).state = s.moveTo (s.position + k)) ∧
    (∀ (N : Nat) (b : Buffer N), r.rest.take k <+: b.reader.rest →
      (Buffer.decode f b).result = .ok x ∧ (Buffer.decode f b).state = { b with cursor := b.cursor + k }) ∧
    (∀ c < k, ∀ s : Reader, s.rest = r.rest.take c →
      ∃ before p after n, f.parts x = before ++ p :: after ∧ CutsThrough c before p ∧ c - widthSum before < n ∧
        (f.decode s).result = .error (.underflow n (c - widthSum before)) ∧
        (f.decode s).state = s.moveTo (s.position + widthSum before)) ∧
    (∀ c < k, ∀ (N : Nat) (b : Buffer N), b.reader.rest = r.rest.take c →
      ∃ n available, available < n ∧ (Buffer.decode f b).result = .error (.underflow n available) ∧
        (Buffer.decode f b).state = b) := by
  obtain ⟨taken, rest, hr, hw⟩ := Format.wire_of_decode hx
  have hlen : taken.length = k := by
    rw [(Format.decode_of_wire hw hr).2] at hk
    exact Nat.add_left_cancel hk
  have htaken : r.rest.take k = taken := by rw [hr, ← hlen, List.take_left]
  have hcut : ∀ c < k, r.rest.take c = taken.take c := by
    intro c hc
    rw [hr, List.take_append_of_le_length (by omega)]
  have hlocal : ∀ s : Reader, r.rest.take k <+: s.rest →
      (f.decode s).result = .ok x ∧ (f.decode s).state = s.moveTo (s.position + k) := by
    rintro s ⟨after, hs⟩
    rw [htaken] at hs
    rw [← hlen]
    exact Format.decode_of_wire hw hs.symm
  refine ⟨hlocal, fun N b hb => ?_, fun c hc s hs => ?_, fun c hc N b hb => ?_⟩
  · obtain ⟨hres, hst⟩ := hlocal b.reader hb
    obtain ⟨j, -, hj, hread⟩ := Buffer.read_of_onward f.onward_decode hres
    have hjk : j = k := Nat.add_left_cancel (congrArg Reader.position (hj.symm.trans hst))
    rw [Buffer.decode, hread, hjk]
    exact ⟨rfl, rfl⟩
  · rw [hcut c hc] at hs
    exact Format.decode_of_cut hw (by omega) hs
  · rw [hcut c hc] at hb
    obtain ⟨before, p, after, n, -, -, hn, hres, -⟩ := Format.decode_of_cut hw (by omega) hb
    rw [Buffer.decode, Buffer.read_of_error hres]
    exact ⟨n, _, hn, rfl, rfl⟩

/-- The cut is in the last letter of a text, which takes two bytes. -/
theorem decode_local_and_cut_noticed_in_letter :
    let f := Format.record [.scalar .u16, .leaf .text, .scalar .bool]
    let r : Reader := ⟨[9, 1, 2, 102, 105, 97, 110, 99, 195, 169, 0, 5], 1⟩
    let s : Reader := ⟨[1, 2, 102, 105, 97, 110, 99, 195, 169, 0, 5, 7], 0⟩
    let cut : Reader := ⟨r.bytes.take 9, 1⟩
    let b : Buffer 10 := ⟨#v[1, 2, 102, 105, 97, 110, 99, 195, 0, 0], 0, 8⟩
    let x : f.Value := (513, "fiancé", true, ())
    (f.decode r).result = .ok x ∧ (f.decode s).result = .ok x ∧ (f.decode s).state = s.moveTo 11 ∧
      (∃ before p after n, f.parts x = before ++ p :: after ∧ CutsThrough 8 before p ∧ 8 - widthSum before < n ∧
        (f.decode cut).result = .error (.underflow n (8 - widthSum before)) ∧
        (f.decode cut).state = cut.moveTo (1 + widthSum before)) ∧
      (∃ n available, available < n ∧ (Buffer.decode f b).result = .error (.underflow n available) ∧
        (Buffer.decode f b).state = b) := by
  intro f r s cut b x
  have hx : (f.decode r).result = .ok x := by cbv
  obtain ⟨hlocal, -, hcut, hbuffer⟩ := decode_local_and_cut_noticed f r x 11 hx (by cbv)
  obtain ⟨hs, hstate⟩ := hlocal s ⟨[7], rfl⟩
  exact ⟨hx, hs, hstate, hcut 8 (by decide) cut rfl, hbuffer 8 (by decide) 10 b (by decide)⟩

end Marshal
