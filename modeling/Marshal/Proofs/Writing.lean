import Marshal.Proofs.Flattening

/-!
# What encodes leave in a buffer

Every leaf is written by one `append` of its image if it may be written and
has room, and else is refused with the buffer as it was. A list of leaves that
fits is one `append` of all images.
-/

namespace Marshal

open Marshal.Action

variable {N : Nat}

namespace Buffer

theorem encodeBytes_of_le {bytes : List UInt8} {b : Buffer N} (h : bytes.length ≤ b.remaining) :
    encodeBytes bytes b = ⟨.ok (), b.append bytes, []⟩ := by
  rw [encodeBytes, if_neg (Nat.not_lt.mpr h)]

theorem encodeText_of_le {text : String} {b : Buffer N} (hn : 0 ∉ utf8 text)
    (h : text.utf8ByteSize + 1 ≤ b.remaining) :
    encodeText text b = ⟨.ok (), b.append (utf8 text ++ [0]), []⟩ := by
  have hr : ¬ b.remaining < (utf8 text).length + 1 := by
    rw [length_utf8]
    omega
  simp only [encodeText, if_neg hn, if_neg hr, append_append]

theorem encodeBytes_of_refused {bytes : List UInt8} {width : Nat} {b : Buffer N} (hw : bytes.length = width)
    (h : b.remaining < width) :
    encodeBytes bytes b = ⟨.error (.overflow width b.remaining), b, [.bytesOverflow b.cursor width b.remaining]⟩ := by
  subst hw
  rw [encodeBytes, if_pos h]

theorem encodeText_of_refused {text : String} {b : Buffer N} (hn : 0 ∉ utf8 text)
    (h : b.remaining < (utf8 text).length + 1) :
    encodeText text b = ⟨.error (.overflow (text.utf8ByteSize + 1) b.remaining), b,
      [.textOverflow b.cursor (text.utf8ByteSize + 1) b.remaining]⟩ := by
  unfold encodeText
  rw [if_neg hn, if_pos h]
  rfl

theorem encodeText_of_nul {text : String} (hn : ¬ 0 ∉ utf8 text) (b : Buffer N) :
    encodeText text b = ⟨.error .interiorNul, b, []⟩ := by
  simp only [encodeText, if_pos (not_not.mp hn)]

end Buffer

namespace Part

theorem encode_of_le {p : Part} {b : Buffer N} (hn : p.NulFree) (h : p.width ≤ b.remaining) :
    p.encode b = ⟨.ok (), b.append p.image, []⟩ := by
  obtain ⟨l, x⟩ := p
  have hi : (l.image x).length ≤ b.remaining := by
    rw [l.length_image]
    exact h
  cases l with
  | scalar t => exact Buffer.encodeBytes_of_le hi
  | cstring => exact Buffer.encodeBytes_of_le hi
  | messageId => exact Buffer.encodeBytes_of_le hi
  | text => exact Buffer.encodeText_of_le hn h
  | boundedText limit => exact Buffer.encodeText_of_le hn h

end Part

theorem forM_encode_of_le {ps : List Part} {b : Buffer N} (hn : ∀ p ∈ ps, p.NulFree)
    (h : widthSum ps ≤ b.remaining) :
    forM ps Part.encode b = ⟨.ok (), b.append (ps.flatMap Part.image), []⟩ := by
  induction ps generalizing b with
  | nil => rfl
  | cons p ps ih =>
    rw [widthSum_cons] at h
    have hps : widthSum ps ≤ (b.append p.image).remaining := by
      rw [Buffer.remaining_append, Part.length_image]
      omega
    rw [List.forM_cons, bind_apply, Part.encode_of_le (hn p (List.mem_cons_self ..)) (by omega)]
    simp only [ih (fun q hq => hn q (List.mem_cons_of_mem _ hq)) hps, Buffer.append_append,
      List.flatMap_cons, List.append_nil]

namespace Format

theorem widthSum_parts (f : Format) (x : f.Value) : widthSum (f.parts x) = f.width x := rfl

theorem encode_of_le {f : Format} {x : f.Value} {b : Buffer N} (hn : f.NulFree x) (h : f.width x ≤ b.remaining) :
    (f.encode x b).result = .ok () ∧ (f.encode x b).state = b.append (f.image x) := by
  obtain ⟨hr, hs⟩ := encode_agree f x b
  rw [hr, hs, forM_encode_of_le hn h]
  exact ⟨rfl, rfl⟩

theorem encode_written {f : Format} {x : f.Value} {b : Buffer N} (hn : f.NulFree x) (hb : b.InBounds)
    (h : f.width x ≤ b.remaining) :
    (f.encode x b).result = .ok () ∧ (f.encode x b).state.cursor = b.cursor + f.width x ∧
      (f.encode x b).state.used = b.used ∧ (f.encode x b).state.written = b.written ++ f.image x ∧
      (f.encode x b).state.InBounds := by
  obtain ⟨hres, hst⟩ := encode_of_le hn h
  have hfit : b.cursor + (f.image x).length ≤ N := by
    have := hb.cursor_le
    rw [Buffer.remaining] at h
    rw [Format.length_image]
    omega
  rw [hst, Buffer.cursor_append, b.written_append _ hfit, Format.length_image]
  exact ⟨hres, rfl, rfl, rfl, hfit, hb.used_le⟩

end Format

end Marshal
