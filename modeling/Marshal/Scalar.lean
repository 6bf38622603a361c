import Marshal.Bytes

/-!
# Fixed-width scalars

A scalar travels as the little-endian digits of its bit pattern: signed
integers by their two's complement residue, floating-point numbers by their
interchange format, a boolean as one byte. Only a boolean has more than one
accepted image: any byte but zero reads as true.
-/

namespace Marshal

/-- A binary floating-point number of 32 bits, known by its bit pattern alone. -/
structure Binary32 where
  bits : UInt32
deriving DecidableEq

structure Binary64 where
  bits : UInt64
deriving DecidableEq

inductive ScalarType
  | u8 | i8 | u16 | i16 | u32 | i32 | u64 | i64 | f32 | f64 | bool
deriving DecidableEq

namespace ScalarType

@[reducible] def Carrier : ScalarType → Type
  | u8 => UInt8
  | i8 => Int8
  | u16 => UInt16
  | i16 => Int16
  | u32 => UInt32
  | i32 => Int32
  | u64 => UInt64
  | i64 => Int64
  | f32 => Binary32
  | f64 => Binary64
  | bool => Bool

def width : ScalarType → Nat
  | u8 | i8 | bool => 1
  | u16 | i16 => 2
  | u32 | i32 | f32 => 4
  | u64 | i64 | f64 => 8

def widthOf (t : ScalarType) (count : Nat) : Nat := t.width * count

def toBits : (t : ScalarType) → t.Carrier → Nat
  | u8, x => x.toNat
  | i8, x => x.toUInt8.toNat
  | u16, x => x.toNat
  | i16, x => x.toUInt16.toNat
  | u32, x => x.toNat
  | i32, x => x.toUInt32.toNat
  | u64, x => x.toNat
  | i64, x => x.toUInt64.toNat
  | f32, x => x.bits.toNat
  | f64, x => x.bits.toNat
  | bool, x => x.toNat

def ofBits : (t : ScalarType) → Nat → t.Carrier
  | u8, n => UInt8.ofNat n
  | i8, n => (UInt8.ofNat n).toInt8
  | u16, n => UInt16.ofNat n
  | i16, n => (UInt16.ofNat n).toInt16
  | u32, n => UInt32.ofNat n
  | i32, n => (UInt32.ofNat n).toInt32
  | u64, n => UInt64.ofNat n
  | i64, n => (UInt64.ofNat n).toInt64
  | f32, n => ⟨UInt32.ofNat n⟩
  | f64, n => ⟨UInt64.ofNat n⟩
  | bool, n => n != 0

def toBytes (t : ScalarType) (x : t.Carrier) : List UInt8 := littleEndian t.width (t.toBits x)

def ofBytes (t : ScalarType) (bytes : List UInt8) : t.Carrier := t.ofBits (ofLittleEndian bytes)

instance instDecidableEqCarrier : (t : ScalarType) → DecidableEq t.Carrier
  | u8 => inferInstanceAs (DecidableEq UInt8)
  | i8 => inferInstanceAs (DecidableEq Int8)
  | u16 => inferInstanceAs (DecidableEq UInt16)
  | i16 => inferInstanceAs (DecidableEq Int16)
  | u32 => inferInstanceAs (DecidableEq UInt32)
  | i32 => inferInstanceAs (DecidableEq Int32)
  | u64 => inferInstanceAs (DecidableEq UInt64)
  | i64 => inferInstanceAs (DecidableEq Int64)
  | f32 => inferInstanceAs (DecidableEq Binary32)
  | f64 => inferInstanceAs (DecidableEq Binary64)
  | bool => inferInstanceAs (DecidableEq Bool)

theorem width_pos (t : ScalarType) : 0 < t.width := by cases t <;> decide

@[simp] theorem length_toBytes (t : ScalarType) (x : t.Carrier) : (t.toBytes x).length = t.width :=
  length_littleEndian _ _

theorem ofBits_toBits (t : ScalarType) (x : t.Carrier) : t.ofBits (t.toBits x) = x := by
  cases t with
  | bool => cases x <;> rfl
  | _ => simp [toBits, ofBits]

end ScalarType

end Marshal
