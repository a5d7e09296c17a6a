/-
FlexEtl.Db.DecimalCells — integers on their way into a decimal column.

A decimal column of scale `s` keeps a number as its multiple by `10 ^ s`, the
raw value. The conversion appends the integer as it is, so the cell is the
integer (`appendCell_decimal`) and not its raw value: every amount is
divided by `10 ^ s`. A string saturates on its way through `sscanf` as it does
into `Int64`.
-/
import FlexEtl.Db.IntegerCells

namespace FlexEtl

/-! ## Raw values -/

/-- The raw value of an integer in a column of scale `s`. -/
def rawValue (s : Nat) (n : Int) : Int := n * 10 ^ s

/-- `n` is one of the numbers of `Decimal(p, s)`. -/
def FitsDecimal (p s : Nat) (n : Int) : Prop := (rawValue s n).natAbs < 10 ^ p

instance (p s : Nat) (n : Int) : Decidable (FitsDecimal p s n) :=
  inferInstanceAs (Decidable ((rawValue s n).natAbs < 10 ^ p))

/-- A JSON integer: a number of 64 bits, signed or unsigned, or a string with the decimal form. -/
inductive IntegerForm (n : Int) : Value → Prop where
  | number : -2 ^ 63 ≤ n → n < 2 ^ 64 → IntegerForm n (numberForm n)
  | string : IntegerForm n (stringForm n)

/-- Only zero and the numbers of scale zero are their own raw values. -/
theorem eq_rawValue_iff {s : Nat} {n : Int} : n = rawValue s n ↔ n = 0 ∨ s = 0 := by
  unfold rawValue
  constructor
  · intro h
    by_cases hn : n = 0
    · exact .inl hn
    · have hpow : (10 : Int) ^ s = 1 := Int.eq_one_of_mul_eq_self_right hn h.symm
      have hnat : 10 ^ s = 1 := by exact_mod_cast hpow
      exact .inr ((Nat.pow_eq_one.mp hnat).resolve_left (by decide))
  · rintro (rfl | rfl)
    · simp
    · simp

theorem natAbs_le_rawValue (s : Nat) (n : Int) : n.natAbs ≤ (rawValue s n).natAbs := by
  rw [rawValue, Int.natAbs_mul, Int.natAbs_pow]
  exact Nat.le_mul_of_pos_right _ (Nat.pow_pos (by decide))

/-- A number with the digits of the precision has a place in the column. -/
theorem decimalCell_of_lt {p : Nat} {m : Int} (h : m.natAbs < 10 ^ p) :
    decimalCell p m = .int m := by
  unfold decimalCell
  split
  · rename_i hp
    have hpow : 10 ^ p ≤ 10 ^ 9 := Nat.pow_le_pow_right (by decide) hp
    rw [Int.bmod_eq_of_le (by omega) (by omega)]
  · split
    · rename_i hp
      have hpow : 10 ^ p ≤ 10 ^ 18 := Nat.pow_le_pow_right (by decide) hp
      rw [Int.bmod_eq_of_le (by omega) (by omega)]
    · rfl

/-! ## Cells -/

/-- The cell of a JSON number is the number. -/
theorem appendCell_decimal_number (libc : Libc) (p s : Nat) {n : Int} (hlow : -2 ^ 63 ≤ n)
    (hhigh : n < 2 ^ 64) :
    appendCell libc (.decimal p s) (numberForm n) = .ok (decimalCell p n) := by
  have hword := (residues_numberForm libc n).uint64
  obtain ⟨-, -, -, hint⟩ := getInts_of_residues (residues_numberForm libc n)
  by_cases hneg : 0 ≤ n
  · have htype : (numberForm n).type = .uint := by simp [numberForm, hneg, Value.type]
    rw [appendCell, if_pos htype, hword, Int.emod_eq_of_lt hneg hhigh]
  · have htype : (numberForm n).type ≠ .uint := by simp [numberForm, hneg, Value.type]
    rw [appendCell, if_neg htype, hint hlow (by omega)]

/-- The cell of a string is the number that `sscanf` stores. -/
theorem appendCell_decimal_string {libc : Libc} (hlibc : ScansNumbers libc) (p s : Nat) (n : Int) :
    appendCell libc (.decimal p s) (stringForm n) = .ok (decimalCell p (Numeral.saturate n)) := by
  obtain ⟨hscan, -⟩ := scans_stringForm hlibc n
  have htype : (stringForm n).type ≠ .uint := by simp [stringForm, Value.type]
  have hint : ((stringForm n).getInt64 libc).toInt = Numeral.saturate n := by
    show ((stringForm n).getUInt64 libc).toBitVec.toInt = _
    rw [hscan]
    refine toInt_of_residue (toNat_ofInt64 _) ?_ ?_
    · unfold Numeral.saturate
      omega
    · unfold Numeral.saturate
      omega
  rw [appendCell, if_neg htype, hint]

/-- A saturated number is the raw value of no other. -/
theorem saturate_eq_rawValue_iff {s : Nat} {n : Int} :
    Numeral.saturate n = rawValue s n ↔ n = 0 ∨ s = 0 ∧ -2 ^ 63 ≤ n ∧ n < 2 ^ 63 := by
  by_cases hrange : -2 ^ 63 ≤ n ∧ n < 2 ^ 63
  · rw [Numeral.saturate_of_mem hrange.1 hrange.2, eq_rawValue_iff]
    tauto
  · have hle := natAbs_le_rawValue s n
    have hsaturate : (Numeral.saturate n).natAbs < n.natAbs := by
      unfold Numeral.saturate
      omega
    constructor
    · intro h
      rw [h] at hsaturate
      omega
    · rintro (rfl | ⟨-, hmem⟩)
      · exact absurd (by decide) hrange
      · exact absurd hmem hrange

/-- **Decimal columns.** An integer that fits the column's type becomes its raw value exactly
when it is zero, or the scale is and the integer, if it is a string, has 64 bits. -/
theorem becomesCell_decimal_iff {libc : Libc} (hlibc : ScansNumbers libc) {p s : Nat} {n : Int}
    {v : Value} (hfits : FitsDecimal p s n) (hv : IntegerForm n v) :
    BecomesCell libc (.decimal p s) v (rawValue s n) ↔
      n = 0 ∨ s = 0 ∧ (v = stringForm n → -2 ^ 63 ≤ n ∧ n < 2 ^ 63) := by
  have hdigits : n.natAbs < 10 ^ p := Nat.lt_of_le_of_lt (natAbs_le_rawValue s n) hfits
  rw [becomesCell_iff]
  cases hv with
  | number hlow hhigh =>
      have hform : numberForm n ≠ stringForm n := by
        unfold numberForm stringForm
        split <;> simp
      rw [appendCell_decimal_number libc p s hlow hhigh, decimalCell_of_lt hdigits]
      simp [eq_rawValue_iff, hform]
  | string =>
      have hsaturate : (Numeral.saturate n).natAbs < 10 ^ p := by
        refine Nat.lt_of_le_of_lt ?_ hdigits
        unfold Numeral.saturate
        omega
      rw [appendCell_decimal_string hlibc, decimalCell_of_lt hsaturate]
      simp [saturate_eq_rawValue_iff]

/-- The string `"123456789012"` in a column of type `Decimal(18, 0)`. -/
theorem becomesCell_decimal_units :
    BecomesCell scanningLibc (.decimal 18 0) (stringForm 123456789012) (rawValue 0 123456789012) :=
  (becomesCell_decimal_iff scansNumbers_scanningLibc (show FitsDecimal 18 0 123456789012 by decide)
    .string).mpr (.inr ⟨rfl, fun _ => by decide⟩)

/-- The number 1 in a column of type `Decimal(9, 2)`, where its raw value is 100, becomes the
cell 1, which is 0.01. -/
theorem becomesCell_decimal_fails :
    FitsDecimal 9 2 1 ∧ IntegerForm 1 (numberForm 1) ∧
      ¬ BecomesCell idleLibc (.decimal 9 2) (numberForm 1) (rawValue 2 1) := by
  refine ⟨by decide, .number (by decide) (by decide), fun h => ?_⟩
  have hcell := becomesCell_iff.mp h
  rw [appendCell_decimal_number idleLibc 9 2 (by decide) (by decide)] at hcell
  exact absurd (Except.ok.inj hcell) (by decide)

end FlexEtl
