import Marshal.Proofs.Slots
import Marshal.Format.Wire
import Marshal.Format.Leaves

/-!
# Compound values are their leaves

Encoding a value agrees with encoding its leaves one after another
(`encode_agree`), and decoding a format agrees with decoding its leaves one
after another (`decode_agree`). A value is known by its leaves
(`parts_injective`), so what holds for lists of leaves holds for all formats.
-/

namespace Marshal

open Marshal.Action

variable {N : Nat}

namespace Part

def encode (p : Part) : Action Error (Buffer N) Unit := p.leaf.encode p.value

def image (p : Part) : List UInt8 := p.leaf.image p.value

def width (p : Part) : Nat := p.leaf.width p.value

def NulFree (p : Part) : Prop := p.leaf.NulFree p.value

@[simp] theorem length_image (p : Part) : p.image.length = p.width := p.leaf.length_image p.value

end Part

@[simp] theorem widthSum_nil : widthSum [] = 0 := rfl

@[simp] theorem widthSum_cons (p : Part) (ps : List Part) : widthSum (p :: ps) = p.width + widthSum ps := rfl

theorem Leaf.width_pos (l : Leaf) (x : l.Value) : 0 < l.width x := by
  cases l with
  | scalar t => exact t.width_pos
  | messageId => exact Nat.succ_pos 3
  | text | cstring | boundedText => exact Nat.succ_pos _

def Leaf.decodePart (l : Leaf) : Action Error Reader Part := Part.mk l <$> l.decode

namespace Format

/-! ## Values and their leaves -/

theorem map_leaf_parts : ∀ (f : Format) (x : f.Value), (f.parts x).map Part.leaf = f.leaves
  | leaf _, _ => rfl
  | nothing, _ => rfl
  | pair f g, (x, y) => by
    rw [parts, leaves, List.map_append, map_leaf_parts f x, map_leaf_parts g y]
  | array f n, xs => by
    have h : ∀ l : List f.Value, (l.flatMap f.parts).map Part.leaf = (List.replicate l.length f.leaves).flatten := by
      intro l
      induction l with
      | nil => rfl
      | cons x l ih =>
        rw [List.flatMap_cons, List.map_append, map_leaf_parts f x, ih, List.length_cons,
          List.replicate_succ, List.flatten_cons]
    rw [parts, leaves, h, Vector.length_toList]

theorem length_parts (f : Format) (x : f.Value) : (f.parts x).length = f.leaves.length := by
  rw [← map_leaf_parts f x, List.length_map]

theorem flatMap_parts_injective {f : Format} (h : ∀ x y : f.Value, f.parts x = f.parts y → x = y) :
    ∀ xs ys : List f.Value, xs.length = ys.length → xs.flatMap f.parts = ys.flatMap f.parts → xs = ys
  | [], [], _, _ => rfl
  | x :: xs, y :: ys, hl, hp => by
    rw [List.flatMap_cons, List.flatMap_cons] at hp
    obtain ⟨hx, hxs⟩ := List.append_inj hp (by rw [length_parts, length_parts])
    rw [h x y hx, flatMap_parts_injective h xs ys (Nat.succ.inj hl) hxs]

theorem parts_injective : ∀ (f : Format) (x y : f.Value), f.parts x = f.parts y → x = y
  | leaf l, x, y, h => by
    simp only [parts, List.cons.injEq, Part.mk.injEq, heq_eq_eq, true_and, and_true] at h
    exact h
  | nothing, (), (), _ => rfl
  | pair f g, (x, y), (x', y'), h => by
    obtain ⟨h1, h2⟩ := List.append_inj h (by rw [length_parts, length_parts])
    rw [parts_injective f x x' h1, parts_injective g y y' h2]
  | array f n, xs, ys, h => by
    have := flatMap_parts_injective (parts_injective f) xs.toList ys.toList (by simp) h
    exact Vector.toList_inj.mp this

/-! ## Encoding and decoding -/

theorem encode_agree : ∀ (f : Format) (x : f.Value),
    Agree (f.encode x : Action Error (Buffer N) Unit) (forM (f.parts x) Part.encode)
  | leaf l, x => by
    rw [parts, List.forM_cons, List.forM_nil]
    show Agree _ (l.encode x >>= fun _ => pure ())
    rw [bind_pure_unit]
    exact Agree.refl _
  | nothing, _ => Agree.refl _
  | pair f g, (x, y) => by
    rw [parts, List.forM_append]
    exact (encode_agree f x).bind fun _ => encode_agree g y
  | array f n, xs => by
    rw [parts, forM_flatMap]
    exact (codeFrom_source_agree f.encode 0 xs.toList).trans (Agree.forM fun x => encode_agree f x)

theorem decode_replicate_agree {f : Format} (h : Agree (f.parts <$> f.decode) (f.leaves.mapM Leaf.decodePart)) :
    ∀ n : Nat, Agree ((List.flatMap f.parts) <$> (List.replicate n ()).mapM fun _ => f.decode)
      ((List.replicate n f.leaves).flatten.mapM Leaf.decodePart)
  | 0 => Agree.refl _
  | n + 1 => by
    rw [List.replicate_succ, List.replicate_succ, List.flatten_cons, List.mapM_append, List.mapM_cons]
    have hs := h.bind fun ps => (decode_replicate_agree h n).bind fun qs => Agree.refl (pure (ps ++ qs))
    simpa only [map_eq_pure_bind, bind_assoc, pure_bind, List.flatMap_cons] using hs

theorem decode_agree : ∀ f : Format, Agree (f.parts <$> f.decode) (f.leaves.mapM Leaf.decodePart)
  | leaf l => by
    simp only [decode, leaves, parts, List.mapM_cons, List.mapM_nil, Leaf.decodePart, map_eq_pure_bind,
      bind_assoc, pure_bind]
    exact Agree.refl _
  | nothing => Agree.refl _
  | pair f g => by
    have h := (decode_agree f).bind fun ps => (decode_agree g).bind fun qs => Agree.refl (pure (ps ++ qs))
    rw [decode, leaves, List.mapM_append]
    simpa only [map_eq_pure_bind, bind_assoc, pure_bind, parts] using h
  | array f n => by
    have h := (decodeArray_agree f.decode f.blank n).map (List.flatMap f.parts)
    have h' := h.trans (decode_replicate_agree (decode_agree f) n)
    simpa only [decode, leaves, parts, map_eq_pure_bind, bind_assoc, pure_bind] using h'

end Format

end Marshal
