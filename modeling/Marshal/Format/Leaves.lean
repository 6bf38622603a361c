import Marshal.Format

/-!
# The leaves of a value

A format and its values as flat lists: the leaves in the order in which they
stand on the wire, arrays row by row and records field by field. `image` is
what a value looks like there, and `width` how many bytes it takes.
-/

namespace Marshal

structure Part where
  leaf : Leaf
  value : leaf.Value

namespace Leaf

def width : (l : Leaf) → l.Value → Nat
  | scalar t, _ => t.width
  | text, x => x.utf8ByteSize + 1
  | cstring, x => x.width
  | messageId, _ => 4
  | boundedText _, x => x.text.utf8ByteSize + 1

def image : (l : Leaf) → l.Value → List UInt8
  | scalar t, x => t.toBytes x
  | text, x => utf8 x ++ [0]
  | cstring, x => x.image
  | messageId, x => littleEndian 4 x.value.toNat
  | boundedText _, x => utf8 x.text ++ [0]

/-- Whether the value can be told from its image: a text must hold no NUL. -/
def NulFree : (l : Leaf) → l.Value → Prop
  | text, x => 0 ∉ utf8 x
  | boundedText _, x => 0 ∉ utf8 x.text
  | _, _ => True

instance : (l : Leaf) → (x : l.Value) → Decidable (l.NulFree x)
  | text, x => inferInstanceAs (Decidable (0 ∉ utf8 x))
  | boundedText _, x => inferInstanceAs (Decidable (0 ∉ utf8 x.text))
  | scalar _, _ | cstring, _ | messageId, _ => inferInstanceAs (Decidable True)

@[simp] theorem length_image (l : Leaf) (x : l.Value) : (l.image x).length = l.width x := by
  cases l <;> simp [image, width, CString.image, CString.width]

end Leaf

def widthSum : List Part → Nat
  | [] => 0
  | p :: ps => p.leaf.width p.value + widthSum ps

theorem length_flatMap_image (ps : List Part) :
    (ps.flatMap fun p => p.leaf.image p.value).length = widthSum ps := by
  induction ps with
  | nil => rfl
  | cons p ps ih => rw [List.flatMap_cons, List.length_append, Leaf.length_image, ih, widthSum]

namespace Format

def leaves : Format → List Leaf
  | leaf l => [l]
  | array f n => (List.replicate n f.leaves).flatten
  | nothing => []
  | pair f g => f.leaves ++ g.leaves

def parts : (f : Format) → f.Value → List Part
  | leaf l, x => [⟨l, x⟩]
  | array f _, xs => xs.toList.flatMap f.parts
  | nothing, _ => []
  | pair f g, (x, y) => f.parts x ++ g.parts y

def image (f : Format) (x : f.Value) : List UInt8 := (f.parts x).flatMap fun p => p.leaf.image p.value

def width (f : Format) (x : f.Value) : Nat := widthSum (f.parts x)

def NulFree (f : Format) (x : f.Value) : Prop := ∀ p ∈ f.parts x, p.leaf.NulFree p.value

instance (f : Format) (x : f.Value) : Decidable (f.NulFree x) :=
  inferInstanceAs (Decidable (∀ p ∈ f.parts x, p.leaf.NulFree p.value))

@[simp] theorem length_image (f : Format) (x : f.Value) : (f.image x).length = f.width x :=
  length_flatMap_image _

end Format

end Marshal
