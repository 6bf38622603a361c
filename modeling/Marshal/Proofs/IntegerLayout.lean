import Marshal.Proofs.ArrayReads
import Marshal.Proofs.PartialWrites
import Marshal.Proofs.StringReads

/-!
# The layout of integers and floats

An unsigned integer of `w` bytes is written as its `w` digits in base 256, the
lowest first, so that one of twice the width is its low half and then its high
half. A signed integer is written as its residue, and read back by the two's
complement of the residue; a float is written as its bit pattern.
-/

namespace Marshal

open Marshal.Action

variable {N : Nat}

/-! ## Digits -/

/-- The `w` lowest digits of a number in base 256, lowest first. -/
def digits (w n : Nat) : List UInt8 := (List.range w).map fun i => UInt8.ofNat (n / 256 ^ i % 256)

theorem littleEndian_eq_digits (w n : Nat) : littleEndian w n = digits w n := by
  induction w generalizing n with
  | zero => rfl
  | succ w ih =>
    rw [littleEndian, ih, digits, digits, List.range_succ_eq_map, List.map_cons, List.map_map]
    congr 1
    · simp [← UInt8.toNat_inj]
    · apply List.map_congr_left
      intro i _
      simp [Nat.pow_succ', Nat.div_div_eq_div_mul]

theorem littleEndian_add (v w n : Nat) : littleEndian (v + w) n = littleEndian v n ++ littleEndian w (n / 256 ^ v) := by
  induction v generalizing n with
  | zero => simp [littleEndian]
  | succ v ih =>
    rw [Nat.add_right_comm, littleEndian, ih, littleEndian, List.cons_append, Nat.div_div_eq_div_mul, Nat.pow_succ']

theorem littleEndian_mod (w n : Nat) : littleEndian w (n % 256 ^ w) = littleEndian w n := by
  have h := littleEndian_ofLittleEndian (littleEndian w n)
  rwa [length_littleEndian, ofLittleEndian_littleEndian] at h

theorem ofLittleEndian_append (xs ys : List UInt8) :
    ofLittleEndian (xs ++ ys) = ofLittleEndian xs + 256 ^ xs.length * ofLittleEndian ys := by
  induction xs with
  | nil => simp [ofLittleEndian]
  | cons x xs ih =>
    rw [List.cons_append, ofLittleEndian, ih, ofLittleEndian, List.length_cons]
    ring

/-! ## Integers by their width -/

inductive IntegerWidth
  | one | two | four | eight

namespace IntegerWidth

def bytes : IntegerWidth → Nat
  | one => 1
  | two => 2
  | four => 4
  | eight => 8

def unsigned : IntegerWidth → ScalarType
  | one => .u8
  | two => .u16
  | four => .u32
  | eight => .u64

def signed : IntegerWidth → ScalarType
  | one => .i8
  | two => .i16
  | four => .i32
  | eight => .i64

def ofNat : (w : IntegerWidth) → Nat → w.unsigned.Carrier
  | one, n => UInt8.ofNat n
  | two, n => UInt16.ofNat n
  | four, n => UInt32.ofNat n
  | eight, n => UInt64.ofNat n

def toNat : (w : IntegerWidth) → w.unsigned.Carrier → Nat
  | one, x => UInt8.toNat x
  | two, x => UInt16.toNat x
  | four, x => UInt32.toNat x
  | eight, x => UInt64.toNat x

def toInt : (w : IntegerWidth) → w.signed.Carrier → Int
  | one, x => Int8.toInt x
  | two, x => Int16.toInt x
  | four, x => Int32.toInt x
  | eight, x => Int64.toInt x

/-- The number that a residue stands for: the upper half of the residues is negative. -/
def twosComplement (w : IntegerWidth) (n : Nat) : Int :=
  if n < 2 ^ (8 * w.bytes - 1) then n else n - 2 ^ (8 * w.bytes)

variable (w : IntegerWidth)

@[simp] theorem width_unsigned : w.unsigned.width = w.bytes := by cases w <;> rfl

@[simp] theorem width_signed : w.signed.width = w.bytes := by cases w <;> rfl

theorem pow_bytes : 256 ^ w.bytes = 2 ^ (8 * w.bytes) := Nat.pow_mul 2 8 w.bytes |>.symm

@[simp] theorem toNat_ofNat (n : Nat) : w.toNat (w.ofNat n) = n % 2 ^ (8 * w.bytes) := by cases w <;> rfl

theorem toBits_unsigned (x : w.unsigned.Carrier) : w.unsigned.toBits x = w.toNat x := by cases w <;> rfl

theorem toNat_lt (x : w.unsigned.Carrier) : w.toNat x < 2 ^ (8 * w.bytes) := by
  have h := w.unsigned.toBits_lt x
  rwa [toBits_unsigned, width_unsigned, pow_bytes] at h

theorem toBits_signed_lt (x : w.signed.Carrier) : w.signed.toBits x < 2 ^ (8 * w.bytes) := by
  have h := w.signed.toBits_lt x
  rwa [width_signed, pow_bytes] at h

theorem bytes_pos : 0 < w.bytes := by cases w <;> decide

theorem twosComplement_toNat (x : BitVec (8 * w.bytes)) : w.twosComplement x.toNat = x.toInt := by
  have hpos := w.bytes_pos
  have hhalf : 2 ^ (8 * w.bytes) = 2 * 2 ^ (8 * w.bytes - 1) := by
    rw [← Nat.pow_succ']
    congr 1
    omega
  have hcast : ((2 ^ (8 * w.bytes) : Nat) : Int) = 2 ^ (8 * w.bytes) := by push_cast; rfl
  rw [twosComplement, BitVec.toInt_eq_toNat_cond, hcast]
  by_cases h : x.toNat < 2 ^ (8 * w.bytes - 1)
  · rw [if_pos h, if_pos (by omega)]
  · rw [if_neg h, if_neg (by omega)]

theorem toInt_eq_twosComplement (x : w.signed.Carrier) : w.toInt x = w.twosComplement (w.signed.toBits x) := by
  cases w with
  | one => exact (one.twosComplement_toNat (Int8.toBitVec x)).symm
  | two => exact (two.twosComplement_toNat (Int16.toBitVec x)).symm
  | four => exact (four.twosComplement_toNat (Int32.toBitVec x)).symm
  | eight => exact (eight.twosComplement_toNat (Int64.toBitVec x)).symm

theorem toNat_twosComplement_emod {n : Nat} (h : n < 2 ^ (8 * w.bytes)) :
    (w.twosComplement n % 2 ^ (8 * w.bytes)).toNat = n := by
  have hlt : (n : Int) < 2 ^ (8 * w.bytes) := by exact_mod_cast h
  have hmod : (n : Int) % 2 ^ (8 * w.bytes) = n := Int.emod_eq_of_lt (Int.natCast_nonneg n) hlt
  unfold twosComplement
  split
  · rw [hmod, Int.toNat_natCast]
  · rw [Int.sub_emod_right, hmod, Int.toNat_natCast]

/-! ### As bytes -/

theorem toBytes_unsigned (x : w.unsigned.Carrier) : w.unsigned.toBytes x = littleEndian w.bytes (w.toNat x) := by
  rw [ScalarType.toBytes, width_unsigned, toBits_unsigned]

theorem toBytes_ofNat (n : Nat) : w.unsigned.toBytes (w.ofNat n) = littleEndian w.bytes n := by
  rw [toBytes_unsigned, toNat_ofNat, ← pow_bytes, littleEndian_mod]

theorem toBytes_signed (x : w.signed.Carrier) :
    w.signed.toBytes x = w.unsigned.toBytes (w.ofNat (w.toInt x % 2 ^ (8 * w.bytes)).toNat) := by
  rw [toBytes_ofNat, toInt_eq_twosComplement, toNat_twosComplement_emod w (w.toBits_signed_lt x),
    ScalarType.toBytes, width_signed]

theorem toNat_ofBytes {taken : List UInt8} (h : taken.length = w.bytes) :
    w.toNat (w.unsigned.ofBytes taken) = ofLittleEndian taken := by
  have hn : ofLittleEndian taken < 2 ^ (8 * w.bytes) := by
    rw [← pow_bytes, ← h]
    exact ofLittleEndian_lt taken
  have hb : w.unsigned.ofBytes taken = w.ofNat (ofLittleEndian taken) := by cases w <;> rfl
  rw [hb, toNat_ofNat, Nat.mod_eq_of_lt hn]

theorem toInt_ofBytes (taken : List UInt8) :
    w.toInt (w.signed.ofBytes taken) = w.twosComplement (w.toNat (w.unsigned.ofBytes taken)) := by
  rw [toInt_eq_twosComplement]
  cases w <;> rfl

/-! ### Halves -/

variable {w} {v : IntegerWidth}

theorem toBytes_halves (hv : v.bytes = 2 * w.bytes) (x : v.unsigned.Carrier) :
    v.unsigned.toBytes x = w.unsigned.toBytes (w.ofNat (v.toNat x % 2 ^ (8 * w.bytes))) ++
      w.unsigned.toBytes (w.ofNat (v.toNat x / 2 ^ (8 * w.bytes))) := by
  rw [toBytes_unsigned, hv, Nat.two_mul, littleEndian_add, toBytes_ofNat, toBytes_ofNat, ← pow_bytes,
    littleEndian_mod]

theorem toNat_high (hv : v.bytes = 2 * w.bytes) (x : v.unsigned.Carrier) :
    w.toNat (w.ofNat (v.toNat x / 2 ^ (8 * w.bytes))) = v.toNat x / 2 ^ (8 * w.bytes) := by
  have hx := v.toNat_lt x
  rw [hv, Nat.mul_left_comm, Nat.two_mul, Nat.pow_add] at hx
  rw [toNat_ofNat, Nat.mod_eq_of_lt (Nat.div_lt_of_lt_mul hx)]

theorem toNat_ofBytes_append (hv : v.bytes = 2 * w.bytes) {low high : List UInt8} (hl : low.length = w.bytes)
    (hh : high.length = w.bytes) :
    v.toNat (v.unsigned.ofBytes (low ++ high)) =
      w.toNat (w.unsigned.ofBytes low) + 2 ^ (8 * w.bytes) * w.toNat (w.unsigned.ofBytes high) := by
  have hwhole : (low ++ high).length = v.bytes := by rw [List.length_append, hl, hh, hv, Nat.two_mul]
  rw [v.toNat_ofBytes hwhole, w.toNat_ofBytes hl, w.toNat_ofBytes hh, ofLittleEndian_append, hl, pow_bytes]

end IntegerWidth

/-! ## What is written -/

namespace Buffer

theorem encodeBytes_append_of_le {xs ys : List UInt8} {b : Buffer N} (h : xs.length + ys.length ≤ b.remaining) :
    (do encodeBytes xs; encodeBytes ys : Action Error (Buffer N) Unit) b = encodeBytes (xs ++ ys) b := by
  have hys : ys.length ≤ (b.append xs).remaining := by
    rw [remaining_append]
    omega
  rw [bind_apply, encodeBytes_of_le (Nat.le_of_add_right_le h)]
  simp only [encodeBytes_of_le hys, encodeBytes_of_le (List.length_append.trans_le h), append_append,
    List.append_nil]

theorem encodeScalar_of_le {t : ScalarType} (x : t.Carrier) {b : Buffer N} (h : t.width ≤ b.remaining) :
    encodeScalar t x b = ⟨.ok (), b.append (t.toBytes x), []⟩ :=
  encodeBytes_of_le ((t.length_toBytes x).trans_le h)

theorem encodeScalar_of_lt {t : ScalarType} (x : t.Carrier) {b : Buffer N} (h : b.remaining < t.width) :
    encodeScalar t x b =
      ⟨.error (.overflow t.width b.remaining), b, [.bytesOverflow b.cursor t.width b.remaining]⟩ :=
  encodeBytes_of_refused (t.length_toBytes x) h

end Buffer

/-! ## What is read -/

theorem Reader.decodeScalar_eq_map (t : ScalarType) :
    Reader.decodeScalar t = t.ofBytes <$> Reader.decodeBytes t.width := by
  rw [map_eq_pure_bind]
  rfl

theorem Reader.decodeScalar_of_le {t : ScalarType} {r : Reader} (h : t.width ≤ r.unread) :
    Reader.decodeScalar t r = ⟨.ok (t.ofBytes (r.rest.take t.width)), r.moveTo (r.position + t.width), []⟩ := by
  rw [Reader.decodeScalar_eq_map, map_apply, Reader.decodeBytes_of_le h]
  rfl

theorem Buffer.read_map {α β : Type} (f : α → β) (d : Action Error Reader α) :
    (read (f <$> d) : Action Error (Buffer N) β) = f <$> read d := by
  funext b
  rw [map_apply, read_apply, read_apply, map_apply]
  rcases d b.reader with ⟨_ | x, r, log⟩ <;> rfl

namespace IntegerWidth

theorem map_toInt_decodeScalar (w : IntegerWidth) :
    w.toInt <$> Reader.decodeScalar w.signed =
      (fun x => w.twosComplement (w.toNat x)) <$> Reader.decodeScalar w.unsigned := by
  rw [Reader.decodeScalar_eq_map, Reader.decodeScalar_eq_map, Functor.map_map, Functor.map_map, width_signed,
    width_unsigned]
  simp only [toInt_ofBytes]

variable {v w : IntegerWidth}

theorem inRow_halves (hv : v.bytes = 2 * w.bytes) {r : Reader} (h : v.bytes ≤ r.unread) :
    ∃ low high whole, v.toNat whole = w.toNat low + 2 ^ (8 * w.bytes) * w.toNat high ∧
      InRow (Reader.decodeScalar v.unsigned) r [whole] (r.moveTo (r.position + v.bytes)) ∧
      InRow (Reader.decodeScalar w.unsigned) r [low, high] (r.moveTo (r.position + v.bytes)) := by
  -- the high half is read where the low half ends
  have hrest : (r.moveTo (r.position + w.bytes)).rest = r.rest.drop w.bytes := List.drop_drop.symm
  have hunread : (r.moveTo (r.position + w.bytes)).unread = r.unread - w.bytes := by
    rw [← Reader.length_rest, hrest, List.length_drop, Reader.length_rest]
  have hlow : (r.rest.take w.bytes).length = w.bytes := by
    rw [List.length_take, Reader.length_rest]
    omega
  have hhigh : ((r.rest.drop w.bytes).take w.bytes).length = w.bytes := by
    rw [List.length_take, List.length_drop, Reader.length_rest]
    omega
  have hwhole := Reader.decodeScalar_of_le (t := v.unsigned) (by rwa [width_unsigned])
  have hfirst := Reader.decodeScalar_of_le (t := w.unsigned) (r := r) (by rw [width_unsigned]; omega)
  have hsecond := Reader.decodeScalar_of_le (t := w.unsigned) (r := r.moveTo (r.position + w.bytes))
    (by rw [width_unsigned]; omega)
  have hend : r.moveTo (r.position + v.bytes) =
      (r.moveTo (r.position + w.bytes)).moveTo (r.position + w.bytes + w.bytes) := by
    rw [hv, Nat.two_mul, ← Nat.add_assoc]
    rfl
  rw [width_unsigned] at hwhole hfirst hsecond
  rw [hrest] at hsecond
  refine ⟨_, _, _, toNat_ofBytes_append hv hlow hhigh, ?_, ?_⟩
  · rw [← List.take_add, ← Nat.two_mul, ← hv]
    exact .of_eq hwhole (.nil _)
  · rw [hend]
    exact .of_eq hfirst (.of_eq hsecond (.nil _))

theorem inRow_halves_onBuffer (hv : v.bytes = 2 * w.bytes) {b : Buffer N} (hb : b.used ≤ N)
    (h : v.bytes ≤ b.unread) :
    ∃ low high whole, v.toNat whole = w.toNat low + 2 ^ (8 * w.bytes) * w.toNat high ∧
      InRow (Buffer.decodeScalar v.unsigned) b [whole] { b with cursor := b.cursor + v.bytes } ∧
      InRow (Buffer.decodeScalar w.unsigned) b [low, high] { b with cursor := b.cursor + v.bytes } := by
  have hunread : v.bytes ≤ b.reader.unread := by rwa [Buffer.unread_reader hb]
  obtain ⟨low, high, whole, hvalue, hwhole, hhalves⟩ := inRow_halves hv hunread
  -- how far the cursor moves is told by the position of the reader
  obtain ⟨j, hj, hwhole, -⟩ := hwhole.onBuffer (Format.scalar v.unsigned).onward_decode rfl
  obtain ⟨k, hk, hhalves, -⟩ := hhalves.onBuffer (Format.scalar w.unsigned).onward_decode rfl
  have hj' : v.bytes = j := Nat.add_left_cancel (congrArg Reader.position hj)
  have hk' : v.bytes = k := Nat.add_left_cancel (congrArg Reader.position hk)
  subst hj'
  rw [← hk'] at hhalves
  exact ⟨low, high, whole, hvalue, hwhole, hhalves⟩

end IntegerWidth

open IntegerWidth in
/-- **Scalars are little-endian and in two's complement.** Unsigned numbers are written as their
digits in base 256, signed ones as their residues, floats as their bit patterns. A number of twice
the width is its low half before its high half, written or read. -/
theorem scalars_little_endian :
    (∀ (w : IntegerWidth) (n : Nat), w.toNat (w.ofNat n) = n % 2 ^ (8 * w.bytes)) ∧
    (∀ (N : Nat) (b : Buffer N) (x : UInt64) (w : IntegerWidth),
      let encoded := Buffer.encodeScalar w.unsigned (w.ofNat x.toNat) b
      (w.bytes ≤ b.remaining →
        encoded.result = .ok () ∧ b.Wrote encoded.state (digits w.bytes (x.toNat % 2 ^ (8 * w.bytes)))) ∧
      (b.remaining < w.bytes →
        encoded.result = .error (.overflow w.bytes b.remaining) ∧ encoded.state = b)) ∧
    (∀ (N : Nat) (w : IntegerWidth) (x : w.signed.Carrier),
      (Buffer.encodeScalar w.signed x : Action Error (Buffer N) Unit) =
        Buffer.encodeScalar w.unsigned (w.ofNat (w.toInt x % 2 ^ (8 * w.bytes)).toNat)) ∧
    (∀ (N : Nat) (x : Binary32) (y : Binary64),
      (Buffer.encodeScalar .f32 x : Action Error (Buffer N) Unit) = Buffer.encodeScalar .u32 x.bits ∧
      (Buffer.encodeScalar .f64 y : Action Error (Buffer N) Unit) = Buffer.encodeScalar .u64 y.bits) ∧
    (∀ (N : Nat) (b : Buffer N) (w v : IntegerWidth) (x : v.unsigned.Carrier),
      v.bytes = 2 * w.bytes → v.bytes ≤ b.remaining →
        let low := v.toNat x % 2 ^ (8 * w.bytes)
        let high := v.toNat x / 2 ^ (8 * w.bytes)
        w.toNat (w.ofNat low) = low ∧ w.toNat (w.ofNat high) = high ∧
          (Buffer.encodeScalar v.unsigned x b).result = .ok () ∧
          (do
            Buffer.encodeScalar w.unsigned (w.ofNat low)
            Buffer.encodeScalar w.unsigned (w.ofNat high)) b = Buffer.encodeScalar v.unsigned x b) ∧
    (∀ (w v : IntegerWidth), v.bytes = 2 * w.bytes →
      (∀ r : Reader, v.bytes ≤ r.unread →
        let r' := r.moveTo (r.position + v.bytes)
        ∃ low high whole, v.toNat whole = w.toNat low + 2 ^ (8 * w.bytes) * w.toNat high ∧
          InRow (Reader.decodeScalar v.unsigned) r [whole] r' ∧
          InRow (Reader.decodeScalar w.unsigned) r [low, high] r') ∧
      ∀ (N : Nat) (b : Buffer N), b.used ≤ N → v.bytes ≤ b.unread →
        let b' := { b with cursor := b.cursor + v.bytes }
        ∃ low high whole, v.toNat whole = w.toNat low + 2 ^ (8 * w.bytes) * w.toNat high ∧
          InRow (Buffer.decodeScalar v.unsigned) b [whole] b' ∧
          InRow (Buffer.decodeScalar w.unsigned) b [low, high] b') ∧
    ∀ w : IntegerWidth,
      w.toInt <$> Reader.decodeScalar w.signed =
        (fun x => w.twosComplement (w.toNat x)) <$> Reader.decodeScalar w.unsigned ∧
      ∀ N : Nat, (w.toInt <$> Buffer.decodeScalar w.signed : Action Error (Buffer N) Int) =
        (fun x => w.twosComplement (w.toNat x)) <$> Buffer.decodeScalar w.unsigned := by
  refine ⟨toNat_ofNat, fun N b x w => ⟨fun h => ?_, fun h => ?_⟩, fun N w x => ?_, fun N x y => ⟨rfl, rfl⟩,
    fun N b w v x hv h => ⟨?_, toNat_high hv x, ?_, ?_⟩,
    fun w v hv => ⟨fun r => inRow_halves hv, fun N b => inRow_halves_onBuffer hv⟩,
    fun w => ⟨w.map_toInt_decodeScalar, fun N => ?_⟩⟩
  · rw [← toNat_ofNat, ← littleEndian_eq_digits, ← toBytes_unsigned,
      Buffer.encodeScalar_of_le _ (by rwa [width_unsigned])]
    exact ⟨rfl, Buffer.wrote_append (by rwa [ScalarType.length_toBytes, width_unsigned])⟩
  · rw [Buffer.encodeScalar_of_lt _ (by rwa [width_unsigned]), width_unsigned]
    exact ⟨rfl, rfl⟩
  · rw [Buffer.encodeScalar, toBytes_signed]
    rfl
  · rw [toNat_ofNat, Nat.mod_mod]
  · rw [Buffer.encodeScalar_of_le _ (by rwa [width_unsigned])]
  · unfold Buffer.encodeScalar
    rw [toBytes_halves hv, Buffer.encodeBytes_append_of_le]
    rwa [ScalarType.length_toBytes, ScalarType.length_toBytes, width_unsigned, ← Nat.two_mul, ← hv]
  · unfold Buffer.decodeScalar
    rw [← Buffer.read_map, ← Buffer.read_map, map_toInt_decodeScalar]

/-- Four bytes of eight, written at once and in halves, and refused with three left. -/
theorem scalars_little_endian_four :
    let x : UInt64 := 0x0102030405060708
    let b := Buffer.empty 8
    let full := b.append [1, 2, 3, 4, 5]
    let message : Buffer 4 := ⟨#v[0, 0x34, 0x82, 0], 1, 4⟩
    let encoded := Buffer.encodeScalar .u32 (.ofNat x.toNat) b
    (encoded.result = .ok () ∧ b.Wrote encoded.state [8, 7, 6, 5]) ∧
    (Buffer.encodeScalar .u32 (.ofNat x.toNat) full).result = .error (.overflow 4 3) ∧
    (do
      Buffer.encodeScalar .u16 0x0708
      Buffer.encodeScalar .u16 0x0506) b = Buffer.encodeScalar .u32 0x05060708 b ∧
    (∃ (low high : UInt8) (whole : UInt16), whole.toNat = low.toNat + 2 ^ 8 * high.toNat ∧
      InRow (Reader.decodeScalar .u16) message.reader [whole] (message.reader.moveTo 3) ∧
      InRow (Reader.decodeScalar .u8) message.reader [low, high] (message.reader.moveTo 3)) ∧
    (∃ (low high : UInt8) (whole : UInt16), whole.toNat = low.toNat + 2 ^ 8 * high.toNat ∧
      InRow (Buffer.decodeScalar .u16) message [whole] { message with cursor := 3 } ∧
      InRow (Buffer.decodeScalar .u8) message [low, high] { message with cursor := 3 }) ∧
    ((Int16.toInt <$> Buffer.decodeScalar .i16 : Action Error (Buffer 4) Int) message).result = .ok (-0x7DCC) := by
  intro x b full message encoded
  obtain ⟨-, hwrites, -, -, hhalves, hreads, hsigned⟩ := scalars_little_endian
  have hdigits : digits 4 (x.toNat % 2 ^ 32) = [8, 7, 6, 5] := by decide
  have hwrote : _ ∧ b.Wrote encoded.state (digits 4 (x.toNat % 2 ^ 32)) := (hwrites 8 b x .four).1 (by decide)
  rw [hdigits] at hwrote
  have hrefused := ((hwrites 8 full x .four).2 (by decide)).1
  obtain ⟨-, -, -, hsame⟩ := hhalves 8 b .two .four (0x05060708 : UInt32) rfl (by decide)
  obtain ⟨hreader, hbuffer⟩ := hreads .one .two rfl
  have hnegative := congrArg (fun decode => (decode message).result) ((hsigned .two).2 4)
  exact ⟨hwrote, hrefused, hsame, hreader message.reader (by decide), hbuffer 4 message (by decide) (by decide),
    hnegative.trans (by decide)⟩

end Marshal
