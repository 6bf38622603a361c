import Marshal.Proofs.BufferCalls
import Marshal.Proofs.WireForm
import Marshal.Proofs.Writing

/-!
# Round trips

A value that is encoded can be decoded again, by every route from one buffer
to the other and whatever stands around it (`decode_encode`). What a reader
accepts is what the encoder writes, but for booleans, of which it accepts any
byte (`encode_decode`).
-/

namespace Marshal

open Marshal.Action

variable {N M : Nat}

/-! ## Images are in wire form -/

theorem Part.wire_image {p : Part} (h : p.NulFree) : p.Wire p.image := by
  refine ⟨h, ?_⟩
  obtain ⟨l, x⟩ := p
  cases l with
  | scalar t =>
    cases t with
    | bool => cases x <;> rfl
    | _ => rfl
  | _ => rfl

theorem wire_flatMap_image : ∀ {ps : List Part}, (∀ p ∈ ps, p.NulFree) → Wire ps (ps.flatMap Part.image)
  | [], _ => .nil
  | _ :: _, h =>
    .cons (Part.wire_image (h _ (List.mem_cons_self ..)))
      (wire_flatMap_image fun p hp => h p (List.mem_cons_of_mem _ hp))

theorem Format.wire_image {f : Format} {x : f.Value} (h : f.NulFree x) : Wire (f.parts x) (f.image x) :=
  wire_flatMap_image h

/-! ## Decoding what stands in a message -/

def Buffer.decodeAt (start : Nat) (f : Format) : Action Error (Buffer N) f.Value := do
  Buffer.seek start
  Buffer.decode f

def Buffer.peekAt (start : Nat) (f : Format) (b : Buffer N) : Outcome Error Reader f.Value :=
  f.decode ({ b with cursor := start } : Buffer N).reader

/-- The value is found at `start`, on the buffer and on a reader, and the cursor ends right after
it. -/
structure HoldsAt (b : Buffer N) (start : Nat) (f : Format) (x : f.Value) : Prop where
  decodeAt_result : (Buffer.decodeAt start f b).result = .ok x
  decodeAt_state : (Buffer.decodeAt start f b).state = { b with cursor := start + f.width x }
  peekAt_result : (Buffer.peekAt start f b).result = .ok x
  peekAt_state : (Buffer.peekAt start f b).state = ⟨b.message, start + f.width x⟩

theorem holdsAt_of_message {b : Buffer N} (hb : b.used ≤ N) {f : Format} {x : f.Value}
    {before taken after : List UInt8} (h : b.message = before ++ taken ++ after) (hw : Wire (f.parts x) taken) :
    HoldsAt b before.length f x := by
  let c : Buffer N := { b with cursor := before.length }
  have hused : before.length ≤ b.used := by
    have := congrArg List.length h
    rw [Buffer.length_message hb, List.length_append, List.length_append] at this
    omega
  have hc : c.reader = ⟨b.message, before.length⟩ := by
    show (⟨b.message, min before.length b.used⟩ : Reader) = _
    rw [Nat.min_eq_left hused]
  have hrest : c.reader.rest = taken ++ after := by
    rw [hc]
    show b.message.drop before.length = _
    rw [h, List.append_assoc, List.drop_left]
  obtain ⟨hx, hr⟩ := Format.decode_of_wire hw hrest
  have hend : c.reader.moveTo (c.reader.position + taken.length) = ⟨b.message, before.length + f.width x⟩ := by
    rw [hc, hw.length_eq, Format.widthSum_parts]
    rfl
  rw [hend] at hr
  have hat : Buffer.decodeAt before.length f b = Buffer.decode f c := by
    rw [Buffer.decodeAt, bind_apply, Buffer.seek_of_le (by omega)]
    rfl
  obtain ⟨hx', hs⟩ := Buffer.read_of_ok hx hr
  refine ⟨by rw [hat]; exact hx', ?_, hx, hr⟩
  rw [hat]
  refine hs.trans ?_
  -- nothing was taken if the width is zero, and then the cursor stays
  rw [hc]
  show (if before.length < before.length + f.width x then _ else c) = _
  by_cases hz : f.width x = 0
  · rw [if_neg (by omega), hz]
    rfl
  · rw [if_pos (by omega)]

theorem holdsAt_sealed {b : Buffer N} (hb : b.InBounds) {f : Format} {x : f.Value} (hx : f.NulFree x)
    {before after : List UInt8} (h : b.written = before ++ f.image x ++ after) :
    HoldsAt b.sealed before.length f x :=
  holdsAt_of_message (b := b.sealed) hb.cursor_le h (Format.wire_image hx)

/-- **Round trip.** A value that fits is encoded as its leaves in a row. Whatever is encoded around
it, it is decoded where it starts: on the sealed buffer, on a reader of it, and wherever the bytes
are loaded. -/
theorem decode_encode (f : Format) (x : f.Value) (b : Buffer N) (hx : f.NulFree x) (hb : b.InBounds)
    (hroom : f.width x ≤ b.remaining) :
    (f.encode x b).result = .ok () ∧
      (f.encode x b).state.cursor = b.cursor + f.width x ∧
      (f.encode x b).state.used = b.used ∧
      (f.encode x b).state.written = b.written ++ f.image x ∧
      (f.image x).length = f.width x ∧
      ∀ (c : Buffer N) (after : List UInt8), c.InBounds →
        c.written = (f.encode x b).state.written ++ after →
        HoldsAt c.sealed b.cursor f x ∧
        ∀ (M : Nat) (d : Buffer M), c.written.length ≤ M →
          (Buffer.load c.written d).result = .ok () ∧
          HoldsAt (Buffer.load c.written d).state b.cursor f x := by
  obtain ⟨hres, hcur, hused, hwritten, _⟩ := Format.encode_written hx hb hroom
  refine ⟨hres, hcur, hused, hwritten, f.length_image x, fun c after hc hw => ?_⟩
  rw [hwritten] at hw
  rw [← Buffer.length_written hb.cursor_le]
  refine ⟨holdsAt_sealed hc hx hw, fun M d hM => ?_⟩
  rw [Buffer.load_of_le hM]
  have hm := (Buffer.message_overwrite d.storage hM).trans hw
  exact ⟨rfl, holdsAt_of_message hM hm (Format.wire_image hx)⟩

def Format.greeting : Format := .record [.array (.scalar .u16) 2, .leaf .text, .scalar .bool]

def helloValue : Format.greeting.Value := (#v[513, 7], "hi", true, ())

theorem decode_encode_hello :
    let b := (Buffer.empty 16).append [5]
    let o := Format.greeting.encode helloValue b
    let c := o.state.append [9]
    o.result = .ok () ∧ o.state.cursor = 9 ∧ o.state.written = [5, 1, 2, 7, 0, 104, 105, 0, 1] ∧
      HoldsAt c.sealed 1 Format.greeting helloValue ∧
      HoldsAt (Buffer.load c.written (Buffer.empty 24)).state 1 Format.greeting helloValue := by
  intro b o c
  obtain ⟨hresult, hcursor, -, hwritten, -, hrest⟩ :=
    decode_encode Format.greeting helloValue b (by decide) ⟨by decide, by decide⟩ (by decide)
  obtain ⟨hsealed, hload⟩ := hrest c [9] ⟨by decide, by decide⟩ (by decide)
  exact ⟨hresult, hcursor, hwritten, hsealed, (hload 24 (Buffer.empty 24) (by decide)).2⟩

/-! ## Encoding what was decoded -/

/-- Rewrites the bytes of each boolean as its one image. -/
def settle : List Part → List UInt8 → List UInt8
  | [], _ => []
  | p :: ps, bytes => p.leaf.settle (bytes.take p.width) ++ settle ps (bytes.drop p.width)

theorem settle_of_wire {ps : List Part} {taken : List UInt8} (h : Wire ps taken) :
    settle ps taken = ps.flatMap Part.image := by
  induction h with
  | nil => rfl
  | cons hp _ ih =>
    rw [settle, ← hp.length_eq, List.take_left, List.drop_left, hp.settle_eq, ih, List.flatMap_cons]

theorem nul_free_of_wire {ps : List Part} {taken : List UInt8} (h : Wire ps taken) : ∀ p ∈ ps, p.NulFree := by
  induction h with
  | nil => intro p hp; cases hp
  | cons hq _ ih =>
    intro p hp
    rcases List.mem_cons.mp hp with rfl | hp
    · exact hq.nul_free
    · exact ih p hp

/-- **What is accepted is what is written.** A decoded value holds no NUL and is as wide as the
bytes taken. Wherever it fits it is written as these bytes, booleans in their one image, and read
back. -/
theorem encode_decode (f : Format) (x : f.Value) (bytes : List UInt8) (p q : Nat) (hp : p ≤ bytes.length)
    (hx : (f.decode ⟨bytes, p⟩).result = .ok x) (hq : (f.decode ⟨bytes, p⟩).state.position = q) :
    p ≤ q ∧ q ≤ bytes.length ∧ f.NulFree x ∧ f.width x = q - p ∧
      ∀ (N : Nat) (b : Buffer N), b.InBounds → q - p ≤ b.remaining →
        (f.encode x b).result = .ok () ∧
        (f.encode x b).state.cursor = b.cursor + (q - p) ∧
        (f.encode x b).state.used = b.used ∧
        (f.encode x b).state.written = b.written ++ settle (f.parts x) ((bytes.drop p).take (q - p)) ∧
        HoldsAt (f.encode x b).state.sealed b.cursor f x := by
  obtain ⟨taken, rest, hr, hw⟩ := Format.wire_of_decode hx
  have hq' : q = p + taken.length := by
    rw [← hq, (Format.decode_of_wire hw hr).2]
    rfl
  have hdrop : bytes.drop p = taken ++ rest := hr
  have hlen : p + taken.length ≤ bytes.length := by
    have := congrArg List.length hdrop
    rw [List.length_drop, List.length_append] at this
    omega
  have hwidth : taken.length = f.width x := hw.length_eq
  have hn : f.NulFree x := nul_free_of_wire hw
  have hsub : q - p = f.width x := by omega
  refine ⟨by omega, by omega, hn, by omega, fun N b hb hroom => ?_⟩
  rw [hsub] at hroom ⊢
  obtain ⟨hres, hcur, hused, hwritten, hbounds⟩ := Format.encode_written hn hb hroom
  refine ⟨hres, hcur, hused, ?_, ?_⟩
  · rw [hwritten, hdrop, ← hwidth, List.take_left, settle_of_wire hw]
    rfl
  · rw [← Buffer.length_written hb.cursor_le]
    exact holdsAt_sealed hbounds hn (hwritten.trans (List.append_nil _).symm)

/-- The flag was sent as 5 and is written as 1. -/
theorem encode_decode_hello :
    (Format.greeting.encode helloValue (Buffer.empty 8)).state.written = [1, 2, 7, 0, 104, 105, 0, 1] :=
  have h := encode_decode Format.greeting helloValue [9, 1, 2, 7, 0, 104, 105, 0, 5] 1 9 (by decide) rfl rfl
  (h.2.2.2.2 8 (Buffer.empty 8) ⟨by decide, by decide⟩ (by decide)).2.2.2.1

end Marshal
