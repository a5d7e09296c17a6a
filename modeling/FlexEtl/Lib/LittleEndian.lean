/-
FlexEtl.Lib.LittleEndian — fixed-width little-endian words over byte lists.

`bytes w n` is the `w`-byte little-endian image of `n` and `toNat` reads a
byte list back. Two's complement is a reading of the same bytes: `ofInt` and
`toInt` go through the residue and the balanced residue modulo `256 ^ w`.
-/
import Mathlib.Data.Nat.Basic
import Mathlib.Tactic.Ring

namespace LittleEndian

/-- The `w` low bytes of `n`, least significant first. -/
def bytes : Nat → Nat → List UInt8
  | 0, _ => []
  | w + 1, n => UInt8.ofNat n :: bytes w (n / 256)

/-- The number a little-endian byte list denotes. -/
def toNat : List UInt8 → Nat
  | [] => 0
  | b :: bs => b.toNat + 256 * toNat bs

@[simp] theorem length_bytes (w n : Nat) : (bytes w n).length = w := by
  induction w generalizing n with
  | zero => rfl
  | succ w ih => simp [bytes, ih]

theorem toNat_bytes (w n : Nat) : toNat (bytes w n) = n % 256 ^ w := by
  induction w generalizing n with
  | zero => simp [bytes, toNat, Nat.mod_one]
  | succ w ih =>
      have hb : (UInt8.ofNat n).toNat = n % 256 := by simp
      rw [bytes, toNat, ih, hb, Nat.pow_succ, Nat.mul_comm (256 ^ w) 256, Nat.mod_mul]

/-- A number that fits in `w` bytes is read back. -/
theorem toNat_bytes_of_lt {w n : Nat} (h : n < 256 ^ w) : toNat (bytes w n) = n := by
  rw [toNat_bytes, Nat.mod_eq_of_lt h]

theorem toNat_lt (bs : List UInt8) : toNat bs < 256 ^ bs.length := by
  induction bs with
  | nil => simp [toNat]
  | cons b bs ih =>
      have hb : b.toNat < 256 := b.toNat_lt
      simp only [toNat, List.length_cons, Nat.pow_succ]
      omega

/-- A byte list is the image of the number it denotes. -/
theorem bytes_toNat (bs : List UInt8) : bytes bs.length (toNat bs) = bs := by
  induction bs with
  | nil => rfl
  | cons b bs ih =>
      have hb : b.toNat < 256 := b.toNat_lt
      have hlow : UInt8.ofNat (b.toNat + 256 * toNat bs) = b := by
        rw [← UInt8.toNat_inj, UInt8.toNat_ofNat']
        omega
      have hhigh : (b.toNat + 256 * toNat bs) / 256 = toNat bs := by omega
      rw [List.length_cons, toNat, bytes, hlow, hhigh, ih]

/-! ## Two's complement -/

/-- The `w`-byte two's-complement image of an integer. -/
def ofInt (w : Nat) (i : Int) : List UInt8 := bytes w (i % (256 ^ w : Nat)).toNat

/-- The two's-complement reading of a byte list. -/
def toInt (bs : List UInt8) : Int := Int.bmod (toNat bs) (256 ^ bs.length)

@[simp] theorem length_ofInt (w : Nat) (i : Int) : (ofInt w i).length = w := length_bytes _ _

/-- Reading an image back gives the balanced residue. -/
theorem toInt_ofInt (w : Nat) (i : Int) : toInt (ofInt w i) = Int.bmod i (256 ^ w) := by
  have hpos : (0 : Int) < (256 ^ w : Nat) := by exact_mod_cast Nat.pow_pos (by decide)
  have hnn : 0 ≤ i % (256 ^ w : Nat) := Int.emod_nonneg i (by omega)
  have hlt : (i % (256 ^ w : Nat)).toNat < 256 ^ w := by
    have := Int.emod_lt_of_pos i hpos
    omega
  rw [toInt, length_ofInt, ofInt, toNat_bytes_of_lt hlt, Int.toNat_of_nonneg hnn]
  exact Int.emod_bmod i (256 ^ w)

/-- A byte list is the image of its two's-complement reading. -/
theorem ofInt_toInt (bs : List UInt8) : ofInt bs.length (toInt bs) = bs := by
  have hlt : (toNat bs : Int) < (256 ^ bs.length : Nat) := by exact_mod_cast toNat_lt bs
  rw [ofInt, toInt, Int.bmod_emod, Int.emod_eq_of_lt (by omega) hlt, Int.toNat_natCast,
    bytes_toNat]

end LittleEndian
