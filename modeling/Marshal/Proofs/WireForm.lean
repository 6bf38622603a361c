import Marshal.Proofs.Flattening
import Marshal.Proofs.Numbers
import Marshal.Proofs.Reading

/-!
# The bytes that a decode accepts

`Wire ps taken`: the bytes `taken` are the images of the leaves `ps` in a row,
but for booleans, of which any non-zero byte means true. A format decodes
exactly the bytes in wire form (`decode_of_wire`, `wire_of_decode`), whatever
follows them, and stops right after them.
-/

namespace Marshal

open Marshal.Action

/-- Rewrites what was taken for a boolean as its one image. -/
def Leaf.settle : Leaf → List UInt8 → List UInt8
  | .scalar .bool, bytes => bytes.map fun b => if b = 0 then 0 else 1
  | _, bytes => bytes

structure Part.Wire (p : Part) (taken : List UInt8) : Prop where
  nul_free : p.NulFree
  settle_eq : p.leaf.settle taken = p.image

inductive Wire : List Part → List UInt8 → Prop
  | nil : Wire [] []
  | cons {p : Part} {ps : List Part} {taken rest : List UInt8} :
    p.Wire taken → Wire ps rest → Wire (p :: ps) (taken ++ rest)

/-! ## Scalars -/

namespace ScalarType

theorem toBits_ofBits {t : ScalarType} (ht : t ≠ bool) {n : Nat} (hn : n < 256 ^ t.width) :
    t.toBits (t.ofBits n) = n := by
  cases t with
  | bool => exact absurd rfl ht
  | u8 | i8 => exact Nat.mod_eq_of_lt hn
  | u16 | i16 => exact Nat.mod_eq_of_lt hn
  | u32 | i32 | f32 => exact Nat.mod_eq_of_lt hn
  | u64 | i64 | f64 => exact Nat.mod_eq_of_lt hn

theorem settle_of_ne_bool {t : ScalarType} (ht : t ≠ bool) (bytes : List UInt8) :
    (Leaf.scalar t).settle bytes = bytes := by
  cases t with
  | bool => exact absurd rfl ht
  | _ => rfl

theorem toBytes_ofBytes (t : ScalarType) {bytes : List UInt8} (h : bytes.length = t.width) :
    t.toBytes (t.ofBytes bytes) = (Leaf.scalar t).settle bytes := by
  by_cases ht : t = bool
  · subst ht
    obtain ⟨b, rfl⟩ := List.length_eq_one_iff.mp h
    by_cases hb : b = 0
    · subst hb; rfl
    · have hn : (b.toNat != 0) = true := bne_iff_ne.mpr fun h0 => hb (UInt8.toNat_inj.mp h0)
      have hx : ofBytes bool [b] = true := by simpa [ofBytes, ofBits, ofLittleEndian] using hn
      rw [hx, Leaf.settle, List.map_singleton, if_neg hb]
      rfl
  · have hn : ofLittleEndian bytes < 256 ^ t.width := h ▸ ofLittleEndian_lt bytes
    rw [toBytes, ofBytes, toBits_ofBits ht hn, ← h, littleEndian_ofLittleEndian, settle_of_ne_bool ht]

theorem ofBytes_eq_of_settle {t : ScalarType} {x : t.Carrier} {bytes : List UInt8} (h : bytes.length = t.width)
    (hs : (Leaf.scalar t).settle bytes = t.toBytes x) : t.ofBytes bytes = x := by
  rw [← t.ofBytes_toBytes (t.ofBytes bytes), t.toBytes_ofBytes h, hs, ofBytes_toBytes]

end ScalarType

@[simp] theorem Leaf.length_settle (l : Leaf) (bytes : List UInt8) : (l.settle bytes).length = bytes.length := by
  unfold settle
  split
  · exact List.length_map _
  · rfl

theorem Part.Wire.length_eq {p : Part} {taken : List UInt8} (h : p.Wire taken) : taken.length = p.width := by
  rw [← p.leaf.length_settle, h.settle_eq, length_image]

theorem Wire.length_eq {ps : List Part} {taken : List UInt8} (h : Wire ps taken) : taken.length = widthSum ps := by
  induction h with
  | nil => rfl
  | cons hp _ ih => rw [List.length_append, hp.length_eq, ih, widthSum_cons]

/-! ## Leaves -/

def textString (text : String) (h : 0 ∉ utf8 text) : CString := ⟨utf8 text, h⟩

namespace Leaf

theorem decodeText_of_image {text : String} (hn : 0 ∉ utf8 text) {r : Reader} {rest : List UInt8}
    (h : r.rest = (utf8 text ++ [0]) ++ rest) :
    Reader.decodeText r = ⟨.ok text, r.moveTo (r.position + (text.utf8ByteSize + 1)), []⟩ := by
  have hu : ofUtf8? (textString text hn).bytes = some text := ofUtf8?_eq_some_iff.mpr rfl
  rw [Reader.decodeText_of_append (textString text hn) h, hu]
  rfl

theorem decode_of_wire {p : Part} {taken rest : List UInt8} {r : Reader} (h : p.Wire taken)
    (hr : r.rest = taken ++ rest) : p.leaf.decode r = ⟨.ok p.value, r.moveTo (r.position + taken.length), []⟩ := by
  have hl := h.length_eq
  obtain ⟨l, x⟩ := p
  obtain ⟨hn, hs⟩ := h
  cases l with
  | scalar t =>
    have hx : t.ofBytes taken = x := ScalarType.ofBytes_eq_of_settle hl hs
    rw [← hx, hl]
    exact Reader.decodeScalar_of_append t hr hl
  | messageId =>
    have hx : ScalarType.ofBytes .u32 taken = x.value := ScalarType.ofBytes_eq_of_settle hl hs
    show Reader.decodeMessageId r = _
    rw [Reader.decodeMessageId_of_append hr hl, hx, hl]
    rfl
  | cstring =>
    rw [show taken = x.image from hs] at hr
    rw [hl]
    exact Reader.decodeCString_of_append x hr
  | text =>
    rw [show taken = utf8 x ++ [0] from hs] at hr
    rw [hl]
    exact decodeText_of_image hn hr
  | boundedText limit =>
    rw [show taken = utf8 x.text ++ [0] from hs] at hr
    show Reader.decodeBoundedText limit r = _
    rw [hl, Reader.decodeBoundedText_apply, decodeText_of_image hn hr]
    simp only [x.size_le, dite_true]
    rfl

theorem wire_of_decodeBytes {α : Type} {n : Nat} {f : List UInt8 → α} {r : Reader} {x : α}
    (h : ((do let bytes ← Reader.decodeBytes n; return f bytes) r).result = .ok x) :
    ∃ taken rest, r.rest = taken ++ rest ∧ taken.length = n ∧ f taken = x := by
  rw [bind_apply, Reader.decodeBytes_apply] at h
  by_cases hu : r.unread < n
  · rw [if_pos hu] at h; cases h
  · rw [if_neg hu] at h
    refine ⟨r.rest.take n, r.rest.drop n, (List.take_append_drop ..).symm, ?_, Except.ok.inj h⟩
    rw [List.length_take, Reader.length_rest]
    omega

theorem wire_of_decodeText {r : Reader} {text : String} (h : (Reader.decodeText r).result = .ok text) :
    ∃ rest, r.rest = (utf8 text ++ [0]) ++ rest ∧ 0 ∉ utf8 text := by
  by_cases hm : 0 ∈ r.rest
  · obtain ⟨s, rest, hs⟩ := CString.exists_of_mem hm
    rw [Reader.decodeText_of_append s hs] at h
    cases hu : ofUtf8? s.bytes with
    | none => rw [hu] at h; cases h
    | some t =>
      rw [hu] at h
      cases h
      have ht : utf8 text = s.bytes := ofUtf8?_eq_some_iff.mp hu
      rw [ht]
      exact ⟨rest, hs, s.nul_free⟩
  · rw [Reader.decodeText_of_not_mem hm] at h
    cases h

theorem wire_of_decode {l : Leaf} {r : Reader} {x : l.Value} (h : (l.decode r).result = .ok x) :
    ∃ taken rest, r.rest = taken ++ rest ∧ (Part.mk l x).Wire taken := by
  cases l with
  | scalar t =>
    obtain ⟨taken, rest, hr, hl, hx⟩ := wire_of_decodeBytes h
    exact ⟨taken, rest, hr, trivial, by rw [← t.toBytes_ofBytes hl, hx]; rfl⟩
  | messageId =>
    have h' : ((do
        let bytes ← Reader.decodeBytes ScalarType.u32.width
        return MessageId.mk (ScalarType.ofBytes .u32 bytes)) r).result = .ok x := by
      simpa only [decode, Reader.decodeMessageId, Reader.decodeScalar, bind_assoc, pure_bind] using h
    obtain ⟨taken, rest, hr, hl, hx⟩ := wire_of_decodeBytes h'
    have hs := ScalarType.toBytes_ofBytes .u32 hl
    exact ⟨taken, rest, hr, trivial, by rw [← hx]; exact hs.symm⟩
  | cstring =>
    by_cases hm : 0 ∈ r.rest
    · obtain ⟨s, rest, hs⟩ := CString.exists_of_mem hm
      have hd : (Reader.decodeCString r).result = .ok x := h
      rw [Reader.decodeCString_of_append s hs] at hd
      cases hd
      exact ⟨x.image, rest, hs, trivial, rfl⟩
    · have hd : (Reader.decodeCString r).result = .ok x := h
      rw [Reader.decodeCString_of_not_mem hm] at hd
      cases hd
  | text =>
    obtain ⟨rest, hr, hn⟩ := wire_of_decodeText h
    exact ⟨_, rest, hr, hn, rfl⟩
  | boundedText limit =>
    have hd : (Reader.decodeBoundedText limit r).result = .ok x := h
    rw [Reader.decodeBoundedText_apply] at hd
    rcases ht : Reader.decodeText r with ⟨_ | text, r', log⟩
    · rw [ht] at hd; cases hd
    · rw [ht] at hd
      by_cases hl : text.utf8ByteSize ≤ limit
      · simp only [hl, dite_true] at hd
        cases hd
        obtain ⟨rest, hr, hn⟩ := wire_of_decodeText (congrArg Outcome.result ht)
        exact ⟨_, rest, hr, hn, rfl⟩
      · simp only [hl, dite_false] at hd
        cases hd

theorem decode_of_ok {l : Leaf} {r : Reader} {x : l.Value} (h : (l.decode r).result = .ok x) :
    l.decode r = ⟨.ok x, r.moveTo (r.position + l.width x), []⟩ := by
  obtain ⟨taken, rest, hr, hw⟩ := wire_of_decode h
  rw [decode_of_wire hw hr, hw.length_eq]
  rfl

end Leaf

/-! ## Lists of leaves -/

theorem decodeParts_of_wire {ps : List Part} {taken rest : List UInt8} {r : Reader} (h : Wire ps taken)
    (hr : r.rest = taken ++ rest) :
    (ps.map Part.leaf).mapM Leaf.decodePart r = ⟨.ok ps, r.moveTo (r.position + taken.length), []⟩ := by
  induction h generalizing r with
  | nil => rfl
  | @cons p ps first others hp _ ih =>
    rw [List.append_assoc] at hr
    have hi := ih (r := r.moveTo (r.position + first.length)) (r.rest_moveTo_add hr)
    have hd : p.leaf.decodePart r = ⟨.ok p, r.moveTo (r.position + first.length), []⟩ := by
      rw [Leaf.decodePart, map_eq_pure_bind, bind_apply, Leaf.decode_of_wire hp hr]
      rfl
    rw [List.map_cons, List.mapM_cons, bind_apply, hd]
    simp only [bind_apply, hi, pure_apply, List.append_nil, List.length_append, ← Nat.add_assoc]
    rfl

theorem wire_of_decodeParts {ls : List Leaf} {r : Reader} {ps : List Part}
    (h : (ls.mapM Leaf.decodePart r).result = .ok ps) :
    ∃ taken rest, r.rest = taken ++ rest ∧ Wire ps taken ∧ ps.map Part.leaf = ls := by
  induction ls generalizing r ps with
  | nil => cases h; exact ⟨[], r.rest, rfl, .nil, rfl⟩
  | cons l ls ih =>
    rw [List.mapM_cons, bind_apply, Leaf.decodePart, map_eq_pure_bind, bind_apply] at h
    rcases hd : l.decode r with ⟨_ | x, r', log⟩
    · rw [hd] at h; cases h
    · obtain ⟨first, rest, hr, hw⟩ := Leaf.wire_of_decode (congrArg Outcome.result hd)
      have hr' : r' = r.moveTo (r.position + first.length) := by
        have := Leaf.decode_of_wire hw hr
        rw [hd] at this
        exact congrArg Outcome.state this
      rw [hd] at h
      simp only [pure_apply, bind_apply] at h
      rcases hds : ls.mapM Leaf.decodePart r' with ⟨_ | qs, r'', log'⟩
      · rw [hds] at h; cases h
      · rw [hds] at h
        cases h
        obtain ⟨others, rest', hrest, hws, hls⟩ := ih (congrArg Outcome.result hds)
        have : rest = others ++ rest' := by
          rw [← hrest, hr', r.rest_moveTo_add hr]
        refine ⟨first ++ others, rest', ?_, .cons hw hws, ?_⟩
        · rw [hr, this, List.append_assoc]
        · rw [List.map_cons, hls]

/-! ## Formats -/

namespace Format

theorem decode_of_wire {f : Format} {x : f.Value} {taken rest : List UInt8} {r : Reader}
    (h : Wire (f.parts x) taken) (hr : r.rest = taken ++ rest) :
    (f.decode r).result = .ok x ∧ (f.decode r).state = r.moveTo (r.position + taken.length) := by
  have hp := decodeParts_of_wire h hr
  rw [map_leaf_parts] at hp
  obtain ⟨hres, hst⟩ := decode_agree f r
  rw [hp, map_eq_pure_bind, bind_apply] at hres hst
  rcases hd : f.decode r with ⟨_ | y, r', log⟩
  · rw [hd] at hres; cases hres
  · rw [hd] at hres hst
    exact ⟨congrArg Except.ok (f.parts_injective y x (Except.ok.inj hres)), hst⟩

theorem wire_of_decode {f : Format} {r : Reader} {x : f.Value} (h : (f.decode r).result = .ok x) :
    ∃ taken rest, r.rest = taken ++ rest ∧ Wire (f.parts x) taken := by
  have hres : (f.leaves.mapM Leaf.decodePart r).result = .ok (f.parts x) := by
    rw [← (decode_agree f r).1, map_eq_pure_bind, bind_apply]
    rcases hd : f.decode r with ⟨_ | y, r', log⟩
    · rw [hd] at h; cases h
    · rw [hd] at h
      cases h
      rfl
  obtain ⟨taken, rest, hr, hw, _⟩ := wire_of_decodeParts hres
  exact ⟨taken, rest, hr, hw⟩

end Format

end Marshal
