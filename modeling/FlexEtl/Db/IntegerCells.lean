/-
FlexEtl.Db.IntegerCells — integers on their way into a column.

An integer comes as a JSON number or as a string that holds its decimal form.
The unsigned getters of all four widths then return its residue (`Residues`),
on the first way because narrowing keeps the low bits, on the second because
`sscanf` does, as long as the number fits in the `long` that it is scanned
into. The signed getters and the columns make the integer of its residue
again (`appendCell_of_residues`), so the two ways agree everywhere but on the
upper half of `UInt64`, where the scan saturates (`keepsInteger_iff`).
-/
import FlexEtl.Db.ColumnTheorems
import FlexEtl.Lib.Numeral

namespace FlexEtl

/-! ## Integers and their two forms -/

/-- The integer types of at most 64 bits: the least number, and the first that is too large. -/
def integerRange : LeafType → Option (Int × Int)
  | .int8 => some (-2 ^ 7, 2 ^ 7)
  | .int16 => some (-2 ^ 15, 2 ^ 15)
  | .int32 => some (-2 ^ 31, 2 ^ 31)
  | .int64 => some (-2 ^ 63, 2 ^ 63)
  | .uint8 => some (0, 2 ^ 8)
  | .uint16 => some (0, 2 ^ 16)
  | .uint32 => some (0, 2 ^ 32)
  | .uint64 => some (0, 2 ^ 64)
  | _ => none

/-- `l` is an integer type that has `n`. -/
def InRange (l : LeafType) (n : Int) : Prop :=
  ∃ low high, integerRange l = some (low, high) ∧ low ≤ n ∧ n < high

/-- The value of a JSON number. -/
def numberForm (n : Int) : Value :=
  if 0 ≤ n then .uint (UInt64.ofInt n) else .int (Int64.ofInt n)

/-- The value of a string with the decimal form. -/
def stringForm (n : Int) : Value := .str (Numeral.decimalInt n)

/-- `sscanf` reads a decimal number as `strtol` does, and stores the low bits. -/
structure ScansNumbers (libc : Libc) : Prop where
  scan_ld : ∀ s, libc.scan_ld s = (Numeral.strtol s).map UInt64.ofInt
  scan_d : ∀ s, libc.scan_d s = (Numeral.strtol s).map UInt32.ofInt

/-- What the unsigned getters return is the residue of `n`. -/
structure Residues (libc : Libc) (v : Value) (n : Int) : Prop where
  uint8 : ((v.getUInt8 libc).toNat : Int) = n % 2 ^ 8
  uint16 : ((v.getUInt16 libc).toNat : Int) = n % 2 ^ 16
  uint32 : ((v.getUInt32 libc).toNat : Int) = n % 2 ^ 32
  uint64 : ((v.getUInt64 libc).toNat : Int) = n % 2 ^ 64

/-! ## Machine integers -/

theorem toNat_ofInt64 (n : Int) : ((UInt64.ofInt n).toNat : Int) = n % 2 ^ 64 := by
  rw [UInt64.ofInt, UInt64.toNat_ofNat']
  omega

theorem toNat_ofInt32 (n : Int) : ((UInt32.ofInt n).toNat : Int) = n % 2 ^ 32 := by
  rw [UInt32.ofInt, UInt32.toNat_ofNat']
  omega

/-- A number of 64 bits has the residues of its word. -/
theorem residues_of_word {libc : Libc} {v : Value} {u : UInt64} {n : Int}
    (hu : (u.toNat : Int) = n % 2 ^ 64) (h8 : v.getUInt8 libc = u.toUInt8)
    (h16 : v.getUInt16 libc = u.toUInt16) (h32 : v.getUInt32 libc = u.toUInt32)
    (h64 : v.getUInt64 libc = u) : Residues libc v n where
  uint8 := by
    rw [h8, UInt64.toNat_toUInt8]
    omega
  uint16 := by
    rw [h16, UInt64.toNat_toUInt16]
    omega
  uint32 := by
    rw [h32, UInt64.toNat_toUInt32]
    omega
  uint64 := by rw [h64, hu]

theorem residues_numberForm (libc : Libc) (n : Int) : Residues libc (numberForm n) n := by
  unfold numberForm
  split
  · exact residues_of_word (toNat_ofInt64 n) rfl rfl rfl rfl
  · have hword : ((Int64.ofInt n).toUInt64.toNat : Int) = n % 2 ^ 64 := by
      show ((BitVec.ofInt 64 n).toNat : Int) = _
      rw [BitVec.toNat_ofInt]
      omega
    exact residues_of_word hword rfl rfl rfl rfl

/-! ## The decimal form -/

theorem cstring_decimalInt (n : Int) : cstring (Numeral.decimalInt n) = Numeral.decimalInt n := by
  refine cstring_of_plain fun hmem => ?_
  rcases Numeral.mem_decimalInt hmem with hminus | ⟨hlow, -⟩
  · exact absurd hminus (by decide)
  · exact absurd hlow (by decide)

/-- There is no dot in it. -/
theorem count_dot_decimalInt (n : Int) : (Numeral.decimalInt n).count 46 = 0 := by
  refine List.count_eq_zero.mpr fun hmem => ?_
  rcases Numeral.mem_decimalInt hmem with hminus | ⟨hlow, -⟩
  · exact absurd hminus (by decide)
  · exact absurd hlow (by decide)

/-- The scans of the getters, and the number that they store. -/
theorem scans_stringForm {libc : Libc} (hlibc : ScansNumbers libc) (n : Int) :
    (stringForm n).getUInt64 libc = UInt64.ofInt (Numeral.saturate n) ∧
      (stringForm n).getUInt32 libc = UInt32.ofInt (Numeral.saturate n) ∧
      (stringForm n).getUInt16 libc = (UInt32.ofInt (Numeral.saturate n)).toUInt16 ∧
      (stringForm n).getUInt8 libc = (UInt32.ofInt (Numeral.saturate n)).toUInt8 := by
  simp [stringForm, Value.getUInt64, Value.getUInt32, Value.getUInt16, Value.getUInt8,
    cstring_decimalInt, count_dot_decimalInt, hlibc.scan_ld, hlibc.scan_d,
    Numeral.strtol_decimalInt]

theorem residues_stringForm {libc : Libc} (hlibc : ScansNumbers libc) {n : Int}
    (hlow : -2 ^ 63 ≤ n) (hhigh : n < 2 ^ 63) : Residues libc (stringForm n) n := by
  obtain ⟨h64, h32, h16, h8⟩ := scans_stringForm hlibc n
  rw [Numeral.saturate_of_mem hlow hhigh] at h64 h32 h16 h8
  have hword := toNat_ofInt32 n
  constructor
  · rw [h8, UInt32.toNat_toUInt8]
    omega
  · rw [h16, UInt32.toNat_toUInt16]
    omega
  · rw [h32, hword]
  · rw [h64, toNat_ofInt64]

/-! ## Cells -/

/-- A signed integer of `w + 1` bits is made of its residue again. -/
theorem toInt_of_residue {w : Nat} {x : BitVec (w + 1)} {n : Int}
    (hx : (x.toNat : Int) = n % 2 ^ (w + 1)) (hlow : -2 ^ w ≤ n) (hhigh : n < 2 ^ w) :
    x.toInt = n := by
  have hpow : (2 : Int) ^ (w + 1) = 2 * 2 ^ w := by rw [pow_succ']
  have hcast : ((2 ^ (w + 1) : Nat) : Int) = 2 ^ (w + 1) := by push_cast; rfl
  rw [BitVec.toInt_eq_toNat_bmod, hx, ← hcast, Int.emod_bmod]
  exact Int.bmod_eq_of_le (by rw [hcast]; omega) (by rw [hcast]; omega)

theorem getInts_of_residues {libc : Libc} {v : Value} {n : Int} (h : Residues libc v n) :
    (-2 ^ 7 ≤ n → n < 2 ^ 7 → (v.getInt8 libc).toInt = n) ∧
    (-2 ^ 15 ≤ n → n < 2 ^ 15 → (v.getInt16 libc).toInt = n) ∧
    (-2 ^ 31 ≤ n → n < 2 ^ 31 → (v.getInt32 libc).toInt = n) ∧
    (-2 ^ 63 ≤ n → n < 2 ^ 63 → (v.getInt64 libc).toInt = n) := by
  refine ⟨fun hlow hhigh => ?_, fun hlow hhigh => ?_, fun hlow hhigh => ?_,
    fun hlow hhigh => ?_⟩
  · show (v.getUInt8 libc).toBitVec.toInt = n
    exact toInt_of_residue h.uint8 hlow hhigh
  · show (v.getUInt16 libc).toBitVec.toInt = n
    exact toInt_of_residue h.uint16 hlow hhigh
  · show (v.getUInt32 libc).toBitVec.toInt = n
    exact toInt_of_residue h.uint32 hlow hhigh
  · show (v.getUInt64 libc).toBitVec.toInt = n
    exact toInt_of_residue h.uint64 hlow hhigh

/-- The column makes the integer of its residue. -/
theorem appendCell_of_residues {libc : Libc} {v : Value} {l : LeafType} {n : Int}
    (h : Residues libc v n) (hn : InRange l n) : appendCell libc l v = .ok (.int n) := by
  obtain ⟨low, high, hrange, hlow, hhigh⟩ := hn
  obtain ⟨h8, h16, h32, h64⟩ := getInts_of_residues h
  cases l with
  | int8 =>
      cases hrange
      rw [appendCell, h8 hlow hhigh]
  | int16 =>
      cases hrange
      rw [appendCell, h16 hlow hhigh]
  | int32 =>
      cases hrange
      rw [appendCell, h32 hlow hhigh]
  | int64 =>
      cases hrange
      rw [appendCell, h64 hlow hhigh]
  | uint8 =>
      cases hrange
      rw [appendCell, h.uint8, Int.emod_eq_of_lt hlow hhigh]
  | uint16 =>
      cases hrange
      rw [appendCell, h.uint16, Int.emod_eq_of_lt hlow hhigh]
  | uint32 =>
      cases hrange
      rw [appendCell, h.uint32, Int.emod_eq_of_lt hlow hhigh]
  | uint64 =>
      cases hrange
      rw [appendCell, h.uint64, Int.emod_eq_of_lt hlow hhigh]
  | _ => cases hrange

/-- In a column of this type, the value becomes the cell `n`, whatever is in the column. -/
def BecomesCell (libc : Libc) (l : LeafType) (v : Value) (n : Int) : Prop :=
  ∀ cells : List Cell, column2ClickColumn libc (.leaf l) (.array [v]) cells =
    .ok (List.append cells [.int n])

theorem becomesCell_iff {libc : Libc} {l : LeafType} {v : Value} {n : Int} :
    BecomesCell libc l v n ↔ appendCell libc l v = .ok (.int n) := by
  have hrun := column2ClickColumn_singleton libc l v
  constructor
  · intro h
    have hempty := (hrun []).symm.trans (h [])
    cases hcell : appendCell libc l v with
    | error fault =>
        rw [hcell] at hempty
        cases hempty
    | ok cell =>
        rw [hcell] at hempty
        cases hempty
        rfl
  · intro h cells
    rw [hrun, h]
    rfl

/-- `n` becomes the cell `n` in number form and in string form. -/
def KeepsInteger (libc : Libc) (l : LeafType) (n : Int) : Prop :=
  BecomesCell libc l (numberForm n) n ∧ BecomesCell libc l (stringForm n) n

theorem becomesCell_numberForm (libc : Libc) {l : LeafType} {n : Int} (hn : InRange l n) :
    BecomesCell libc l (numberForm n) n :=
  becomesCell_iff.mpr (appendCell_of_residues (residues_numberForm libc n) hn)

/-- The range of 64 bits is left only in a column of `UInt64`. -/
theorem lt_of_inRange {l : LeafType} {n : Int} (hn : InRange l n)
    (h : l ≠ .uint64 ∨ n < 2 ^ 63) : -2 ^ 63 ≤ n ∧ n < 2 ^ 63 := by
  obtain ⟨low, high, hrange, hlow, hhigh⟩ := hn
  cases l with
  | uint64 =>
      cases hrange
      exact ⟨by omega, h.resolve_left (fun hne => hne rfl)⟩
  | int8 => cases hrange; omega
  | int16 => cases hrange; omega
  | int32 => cases hrange; omega
  | int64 => cases hrange; omega
  | uint8 => cases hrange; omega
  | uint16 => cases hrange; omega
  | uint32 => cases hrange; omega
  | _ => cases hrange

/-- From `2 ^ 63` on, the scan stores the largest `long`. -/
theorem becomesCell_stringForm_large {libc : Libc} (hlibc : ScansNumbers libc) {n : Int}
    (hlarge : 2 ^ 63 ≤ n) : BecomesCell libc .uint64 (stringForm n) (2 ^ 63 - 1) := by
  have hsaturate : Numeral.saturate n = 2 ^ 63 - 1 := by
    unfold Numeral.saturate
    omega
  obtain ⟨hscan, -⟩ := scans_stringForm hlibc n
  rw [becomesCell_iff, appendCell, hscan, toNat_ofInt64, hsaturate]
  rfl

/-- **Integers survive.** The number form of each integer in the range of a column's type
becomes this integer. So does the string form, except for the numbers from `2 ^ 63` on in a
column of `UInt64`. -/
theorem keepsInteger_iff {libc : Libc} (hlibc : ScansNumbers libc) {l : LeafType} {n : Int}
    (hn : InRange l n) : KeepsInteger libc l n ↔ l ≠ .uint64 ∨ n < 2 ^ 63 := by
  constructor
  · rintro ⟨-, hstring⟩
    by_contra hnot
    push Not at hnot
    obtain ⟨rfl, hlarge⟩ := hnot
    have hother := (becomesCell_stringForm_large hlibc hlarge []).symm.trans (hstring [])
    cases hother
    omega
  · intro h
    obtain ⟨hlow, hhigh⟩ := lt_of_inRange hn h
    exact ⟨becomesCell_numberForm libc hn,
      becomesCell_iff.mpr (appendCell_of_residues (residues_stringForm hlibc hlow hhigh) hn)⟩

/-- The C library as far as integers are scanned. -/
def scanningLibc : Libc :=
  { idleLibc with
    scan_ld := fun s => (Numeral.strtol s).map UInt64.ofInt
    scan_d := fun s => (Numeral.strtol s).map UInt32.ofInt }

theorem scansNumbers_scanningLibc : ScansNumbers scanningLibc := ⟨fun _ => rfl, fun _ => rfl⟩

/-- The least `Int8` survives. -/
theorem keepsInteger_int8 : InRange .int8 (-128) ∧ KeepsInteger scanningLibc .int8 (-128) :=
  have hn : InRange .int8 (-128) := ⟨-2 ^ 7, 2 ^ 7, rfl, by decide, by decide⟩
  ⟨hn, (keepsInteger_iff scansNumbers_scanningLibc hn).mpr (.inl (by decide))⟩

/-- The string `"18446744073709551615"` becomes another number. -/
theorem largest_uint64_lost : ¬ KeepsInteger scanningLibc .uint64 (2 ^ 64 - 1) := by
  rintro ⟨-, hstring⟩
  have hother := becomesCell_stringForm_large scansNumbers_scanningLibc
    (show (2 : Int) ^ 63 ≤ 2 ^ 64 - 1 by decide)
  cases (hother []).symm.trans (hstring [])

end FlexEtl
