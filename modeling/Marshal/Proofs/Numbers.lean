import Mathlib
import Marshal.Scalar

/-!
# Numbers and scalars as bytes

Digits in base 256 determine a number, and `w` digits hold the numbers below
`256 ^ w`. Every scalar fits in its width, so its bytes determine it.
-/

namespace Marshal

theorem ofLittleEndian_littleEndian (w n : Nat) : ofLittleEndian (littleEndian w n) = n % 256 ^ w := by
  induction w generalizing n with
  | zero => simp [littleEndian, ofLittleEndian, Nat.mod_one]
  | succ w ih =>
    simp only [littleEndian, ofLittleEndian, ih, UInt8.toNat_ofNat']
    rw [Nat.pow_succ' (n := w), Nat.mod_mul]

theorem ofLittleEndian_lt (bs : List UInt8) : ofLittleEndian bs < 256 ^ bs.length := by
  induction bs with
  | nil => simp [ofLittleEndian]
  | cons b bs ih =>
    have := b.toNat_lt
    simp only [ofLittleEndian, List.length_cons, Nat.pow_succ']
    omega

namespace ScalarType

theorem toBits_lt (t : ScalarType) (x : t.Carrier) : t.toBits x < 256 ^ t.width := by
  cases t with
  | u8 => exact x.toNat_lt
  | i8 => exact x.toUInt8.toNat_lt
  | u16 => exact x.toNat_lt
  | i16 => exact x.toUInt16.toNat_lt
  | u32 => exact x.toNat_lt
  | i32 => exact x.toUInt32.toNat_lt
  | u64 => exact x.toNat_lt
  | i64 => exact x.toUInt64.toNat_lt
  | f32 => exact x.bits.toNat_lt
  | f64 => exact x.bits.toNat_lt
  | bool => cases x <;> decide

theorem ofBytes_toBytes (t : ScalarType) (x : t.Carrier) : t.ofBytes (t.toBytes x) = x := by
  rw [ofBytes, toBytes, ofLittleEndian_littleEndian, Nat.mod_eq_of_lt (t.toBits_lt x), ofBits_toBits]

end ScalarType

end Marshal
