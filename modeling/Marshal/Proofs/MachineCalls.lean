import Marshal.Proofs.Machine
import Marshal.Format.Leaves

/-!
# All calls with machine arithmetic

Loops, formats, coders and the calls of a session over the primitives of
`Machine`. The loop counts the elements, so it is the one more place where a
sum could overflow. `Sized` says what fits in the address space: no slice has
2 ^ 63 bytes, and no array 2 ^ 64 elements.
-/

namespace Marshal

open Marshal.Action Session

variable {ε δ σ τ κ α β : Type} {N n : Nat}

/-! ## Putting actions together -/

namespace Runs

variable {P : σ → Prop} {c : Checked ε σ α} {a : Action ε σ α}

theorem pure (x : α) : Runs P (Checked.pure x : Checked ε σ α) (pure x) := fun _ hs => ⟨rfl, hs⟩

theorem of (ha : Keeps P a) : Runs P (.of a) a := runs_of_keeps (fun _ _ => rfl) ha

theorem bind {d : α → Checked ε σ β} {f : α → Action ε σ β} (h : Runs P c a) (hf : ∀ x, Runs P (d x) (f x)) :
    Runs P (c.bind d) (a >>= f) := by
  intro s hs
  obtain ⟨hc, ha⟩ := h s hs
  unfold Checked.bind
  rw [bind_apply, hc]
  rcases hr : a s with ⟨_ | x, s', log⟩
  · rw [hr] at ha
    exact ⟨rfl, ha⟩
  · rw [hr] at ha
    obtain ⟨hd, hf⟩ := hf x s' ha
    refine ⟨?_, hf⟩
    simp only [Option.bind_eq_bind, Option.bind_some, hd]
    rfl

theorem mapError (f : ε → δ) (h : Runs P c a) : Runs P (c.mapError f) (a.mapError f) := by
  intro s hs
  obtain ⟨hc, ha⟩ := h s hs
  unfold Checked.mapError Action.mapError
  rw [hc]
  rcases hr : a s with ⟨_ | x, s', log⟩ <;> rw [hr] at ha <;> exact ⟨rfl, ha⟩

theorem onSnd (h : Runs P c a) : Runs (fun s : κ × σ => P s.2) c.onSnd a.onSnd := by
  rintro ⟨k, s⟩ hs
  obtain ⟨hc, ha⟩ := h s hs
  refine ⟨?_, ha⟩
  unfold Checked.onSnd
  dsimp only
  rw [hc]
  rfl

end Runs

/-! ## Loops -/

namespace Checked

def codeElement (index : Nat) (c : Checked ε σ Unit) : Checked (ElementFailure ε) σ Unit := fun s => do
  match ← c s with
  | ⟨.ok (), s, log⟩ => return ⟨.ok (), s, log⟩
  | ⟨.error e, s, log⟩ => return ⟨.error ⟨index, e⟩, s, log ++ [.elementFailed index]⟩

def codeFrom (coder : α → Checked ε σ Unit) : Nat → List α → Checked (ElementFailure ε) σ Nat
  | index, [] => Checked.pure index
  | index, x :: xs => (codeElement index (coder x)).bind fun () => fun s => do
    let next ← add index 1
    codeFrom coder next xs s

def codeEach (coder : α → Checked ε σ Unit) (xs : List α) : Checked (ElementFailure ε) σ Nat :=
  codeFrom coder 0 xs

def fillSlot (c : Checked ε σ β) (i : Fin n) : Checked ε (Filling σ β n) Unit := fun ⟨source, slots⟩ => do
  match ← c source with
  | ⟨.ok x, source, log⟩ => return ⟨.ok (), ⟨source, slots.set i.val x i.isLt⟩, log⟩
  | ⟨.error e, source, log⟩ => return ⟨.error e, ⟨source, slots⟩, log⟩

def fillSlots (c : Checked ε σ β) : Checked (ElementFailure ε) (Filling σ β n) Nat :=
  codeEach (fillSlot c) (List.finRange n)

def decodeArray (c : Checked ε σ β) (blank : β) (n : Nat) : Checked ε σ (Vector β n) := fun s => do
  match ← fillSlots c ⟨s, Vector.replicate n blank⟩ with
  | ⟨.ok _, ⟨s, slots⟩, log⟩ => return ⟨.ok slots, s, log⟩
  | ⟨.error failure, ⟨s, _⟩, log⟩ => return ⟨.error failure.source, s, log⟩

def elements (region : List UInt8) (count size : Nat) : Action Error σ (List (List UInt8)) := do
  if size = 0 ∨ product count size ≠ some region.length then
    Action.note (.misfit region.length count size)
    Action.fail .invalidParameter
  else
    return Region.chunks size count region

theorem elements_eq {region : List UInt8} (h : region.length < 2 ^ 64) (count size : Nat) :
    (elements region count size : Action Error σ _) = Region.elements region count size := by
  have hp : product count size ≠ some region.length ↔ count * size ≠ region.length := by
    unfold product
    split
    · rw [ne_eq, Option.some.injEq]
    · exact ⟨fun _ => by omega, fun _ => by simp⟩
  unfold elements Region.elements
  simp only [hp]

end Checked

namespace Runs

variable {P : σ → Prop}

theorem codeElement {c : Checked ε σ Unit} {a : Action ε σ Unit} (h : Runs P c a) (index : Nat) :
    Runs P (Checked.codeElement index c) (Marshal.codeElement index a) := by
  intro s hs
  obtain ⟨hc, ha⟩ := h s hs
  unfold Checked.codeElement Marshal.codeElement
  rw [hc]
  rcases hr : a s with ⟨_ | _, s', log⟩ <;> rw [hr] at ha <;> exact ⟨rfl, ha⟩

theorem codeFrom {c : α → Checked ε σ Unit} {a : α → Action ε σ Unit} {xs : List α}
    (h : ∀ x ∈ xs, Runs P (c x) (a x)) {index : Nat} (hi : index + xs.length < 2 ^ 64) :
    Runs P (Checked.codeFrom c index xs) (Marshal.codeFrom a index xs) := by
  induction xs generalizing index with
  | nil => exact Runs.pure index
  | cons x xs ih =>
    rw [List.length_cons] at hi
    refine ((h x (List.mem_cons_self ..)).codeElement index).bind fun _ s hs => ?_
    rw [Checked.add_of_lt (show index + 1 < 2 ^ 64 by omega)]
    exact ih (fun y hy => h y (List.mem_cons_of_mem _ hy)) (by omega) s hs

theorem codeEach {c : α → Checked ε σ Unit} {a : α → Action ε σ Unit} {xs : List α}
    (h : ∀ x ∈ xs, Runs P (c x) (a x)) (hl : xs.length < 2 ^ 64) :
    Runs P (Checked.codeEach c xs) (Marshal.codeEach a xs) := codeFrom h (by omega)

theorem fillSlot {c : Checked ε σ β} {a : Action ε σ β} (h : Runs P c a) (i : Fin n) :
    Runs (fun s : Filling σ β n => P s.source) (Checked.fillSlot c i) (Marshal.fillSlot a i) := by
  rintro ⟨source, slots⟩ hs
  obtain ⟨hc, ha⟩ := h source hs
  simp only [Checked.fillSlot, Marshal.fillSlot, hc]
  rcases hr : a source with ⟨_ | x, source', log⟩ <;> rw [hr] at ha <;> exact ⟨rfl, ha⟩

theorem fillSlots {c : Checked ε σ β} {a : Action ε σ β} (h : Runs P c a) (hn : n < 2 ^ 64) :
    Runs (fun s : Filling σ β n => P s.source) (Checked.fillSlots c) (Marshal.fillSlots a) :=
  codeEach (fun i _ => h.fillSlot i) (by rwa [List.length_finRange])

theorem decodeArray {c : Checked ε σ β} {a : Action ε σ β} (h : Runs P c a) (blank : β) (hn : n < 2 ^ 64) :
    Runs P (Checked.decodeArray c blank n) (Marshal.decodeArray a blank n) := by
  intro s hs
  obtain ⟨hc, ha⟩ := h.fillSlots hn ⟨s, Vector.replicate n blank⟩ hs
  unfold Checked.decodeArray Marshal.decodeArray
  rw [hc]
  rcases hr : Marshal.fillSlots a ⟨s, Vector.replicate n blank⟩ with ⟨_ | x, ⟨s', slots⟩, log⟩ <;>
    rw [hr] at ha <;> exact ⟨rfl, ha⟩

end Runs

/-! ## Formats -/

/-- Array lengths are machine words. -/
def Format.Sized : Format → Prop
  | leaf _ | nothing => True
  | array f n => f.Sized ∧ n < 2 ^ 64
  | pair f g => f.Sized ∧ g.Sized

/-- No leaf takes more than 2 ^ 63 bytes, terminators included. -/
def Format.Short (f : Format) (x : f.Value) : Prop := ∀ p ∈ f.parts x, p.leaf.width p.value ≤ 2 ^ 63

namespace Checked

def encodeLeaf : (l : Leaf) → l.Value → Checked Error (Buffer N) Unit
  | .scalar t, x => Buffer.Checked.encodeBytes (t.toBytes x)
  | .text, x => Buffer.Checked.encodeText x
  | .cstring, x => Buffer.Checked.encodeBytes x.image
  | .messageId, x => Buffer.Checked.encodeBytes (ScalarType.toBytes .u32 x.value)
  | .boundedText _, x => Buffer.Checked.encodeText x.text

def encodeFormat : (f : Format) → f.Value → Checked Error (Buffer N) Unit
  | .leaf l, x => encodeLeaf l x
  | .array f _, xs =>
    ((codeEach (encodeFormat f) xs.toList).mapError ElementFailure.source).bind fun _ => Checked.pure ()
  | .nothing, _ => Checked.pure ()
  | .pair f g, (x, y) => (encodeFormat f x).bind fun _ => encodeFormat g y

def decodeScalar (t : ScalarType) : Checked Error Reader t.Carrier :=
  (Reader.Checked.decodeBytes t.width).bind fun bytes => Checked.pure (t.ofBytes bytes)

def decodeLeaf : (l : Leaf) → Checked Error Reader l.Value
  | .scalar t => decodeScalar t
  | .text => Reader.Checked.decodeText
  | .cstring => Reader.Checked.decodeCString
  | .messageId => (decodeScalar .u32).bind fun value => Checked.pure ⟨value⟩
  | .boundedText limit => Reader.Checked.decodeBoundedText limit

def decodeFormat : (f : Format) → Checked Error Reader f.Value
  | .leaf l => decodeLeaf l
  | .array f n => decodeArray (decodeFormat f) f.blank n
  | .nothing => Checked.pure ()
  | .pair f g => (decodeFormat f).bind fun x => (decodeFormat g).bind fun y => Checked.pure (x, y)

theorem runs_encodeLeaf (hN : N < 2 ^ 63) (l : Leaf) {x : l.Value} (hx : l.width x ≤ 2 ^ 63) :
    Runs (Buffer.InBounds (N := N)) (encodeLeaf l x) (l.encode x) := by
  cases l with
  | scalar t => exact Buffer.Checked.runs_encodeBytes hN _
  | text => exact Buffer.Checked.runs_encodeText hN hx
  | cstring => exact Buffer.Checked.runs_encodeBytes hN _
  | messageId => exact Buffer.Checked.runs_encodeBytes hN _
  | boundedText limit => exact Buffer.Checked.runs_encodeText hN hx

theorem runs_encodeFormat (hN : N < 2 ^ 63) {f : Format} (hf : f.Sized) {x : f.Value} (hx : f.Short x) :
    Runs (Buffer.InBounds (N := N)) (encodeFormat f x) (f.encode x) := by
  induction f with
  | leaf l => exact runs_encodeLeaf hN l (hx ⟨l, x⟩ (List.mem_singleton.mpr rfl))
  | array f n ih =>
    refine ((Runs.codeEach (fun y hy => ih hf.1 fun p hp => ?_) ?_).mapError _).bind fun _ => Runs.pure ()
    · exact hx p (List.mem_flatMap.mpr ⟨y, hy, hp⟩)
    · rw [Vector.length_toList]
      exact hf.2
  | nothing => exact Runs.pure ()
  | pair f g ihf ihg =>
    refine (ihf hf.1 fun p hp => ?_).bind fun _ => ihg hf.2 fun p hp => ?_
    · exact hx p (List.mem_append_left _ hp)
    · exact hx p (List.mem_append_right _ hp)

variable {bytes : List UInt8} (hbytes : bytes.length < 2 ^ 63)

include hbytes

theorem runs_decodeScalar (t : ScalarType) :
    Runs (Reader.Inside bytes) (decodeScalar t) (Reader.decodeScalar t) :=
  (Reader.Checked.runs_decodeBytes hbytes t.width).bind fun _ => Runs.pure _

theorem runs_decodeLeaf (l : Leaf) : Runs (Reader.Inside bytes) (decodeLeaf l) l.decode := by
  cases l with
  | scalar t => exact runs_decodeScalar hbytes t
  | text => exact Reader.Checked.runs_decodeText hbytes
  | cstring => exact Reader.Checked.runs_decodeCString hbytes
  | messageId => exact (runs_decodeScalar hbytes .u32).bind fun _ => Runs.pure _
  | boundedText limit => exact Reader.Checked.runs_decodeBoundedText hbytes limit

theorem runs_decodeFormat {f : Format} (hf : f.Sized) :
    Runs (Reader.Inside bytes) (decodeFormat f) f.decode := by
  induction f with
  | leaf l => exact runs_decodeLeaf hbytes l
  | array f n ih => exact (ih hf.1).decodeArray f.blank hf.2
  | nothing => exact Runs.pure ()
  | pair f g ihf ihg => exact (ihf hf.1).bind fun _ => (ihg hf.2).bind fun _ => Runs.pure _

end Checked

end Marshal
