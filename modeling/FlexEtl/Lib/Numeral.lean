/-
FlexEtl.Lib.Numeral — numbers written in digits.

`scan base` reads the longest run of digits of a base, in either case, and
`spell` writes a number in so many digits, each in the case that is asked for.
A spelling has its number as value, up to the width (`value_spell`), and cut
in two it spells the quotient and the remainder (`spell_add`). `strtol` is the
C function for 64 bits and base ten.
-/
import Mathlib.Data.List.TakeWhile
import Mathlib.Tactic.IntervalCases
import Mathlib.Tactic.Ring

namespace Numeral

abbrev Bytes := List UInt8

/-! ## Digits -/

/-- The value of a digit. -/
def digit? (c : UInt8) : Option Nat :=
  if 48 ≤ c ∧ c ≤ 57 then some (c.toNat - 48)
  else if 97 ≤ c ∧ c ≤ 102 then some (c.toNat - 87)
  else if 65 ≤ c ∧ c ≤ 70 then some (c.toNat - 55)
  else none

/-- A digit of the base. -/
def isDigit (base : Nat) (c : UInt8) : Bool := (digit? c).any (· < base)

/-- The digit for a value below sixteen, in upper or lower case. -/
def digitChar (upper : Bool) (d : Nat) : UInt8 :=
  if d < 10 then UInt8.ofNat (48 + d)
  else if upper then UInt8.ofNat (55 + d) else UInt8.ofNat (87 + d)

theorem digit?_digitChar (upper : Bool) {d : Nat} (h : d < 16) :
    digit? (digitChar upper d) = some d := by
  interval_cases d <;> cases upper <;> decide

theorem isDigit_digitChar (upper : Bool) {base d : Nat} (h : d < base) (h16 : base ≤ 16) :
    isDigit base (digitChar upper d) = true := by
  simp [isDigit, digit?_digitChar upper (Nat.lt_of_lt_of_le h h16), h]

/-- A test of every byte, by running it. -/
theorem forall_byte {p : UInt8 → Bool}
    (h : (List.range 256).all (fun i => p (UInt8.ofNat i)) = true) (c : UInt8) : p c = true := by
  have hc := List.all_eq_true.mp h c.toNat (List.mem_range.mpr c.toNat_lt)
  rwa [UInt8.ofNat_toNat] at hc

/-! ## Values -/

/-- The number that some digits stand for. -/
def value (base : Nat) (ds : Bytes) : Nat :=
  ds.foldl (fun n c => base * n + (digit? c).getD 0) 0

theorem value_append_one (base : Nat) (ds : Bytes) (c : UInt8) :
    value base (ds ++ [c]) = base * value base ds + (digit? c).getD 0 := by
  simp [value]

/-- The number that some digits behind a number stand for. -/
def valueFrom (base n : Nat) (ds : Bytes) : Nat :=
  ds.foldl (fun n c => base * n + (digit? c).getD 0) n

@[simp] theorem valueFrom_nil (base n : Nat) : valueFrom base n [] = n := rfl

@[simp] theorem valueFrom_cons (base n : Nat) (c : UInt8) (ds : Bytes) :
    valueFrom base n (c :: ds) = valueFrom base (base * n + (digit? c).getD 0) ds := rfl

theorem valueFrom_append (base n : Nat) (ds es : Bytes) :
    valueFrom base n (ds ++ es) = valueFrom base (valueFrom base n ds) es := by
  simp [valueFrom]

theorem value_eq_valueFrom (base : Nat) (ds : Bytes) : value base ds = valueFrom base 0 ds := rfl

theorem valueFrom_eq (base n : Nat) (ds : Bytes) :
    valueFrom base n ds = n * base ^ ds.length + value base ds := by
  induction ds generalizing n with
  | nil => simp [value]
  | cons c ds ih =>
      rw [value_eq_valueFrom, valueFrom_cons, valueFrom_cons, ih, ih (base * 0 + _),
        List.length_cons, Nat.pow_succ]
      ring

theorem value_cons (base : Nat) (c : UInt8) (ds : Bytes) :
    value base (c :: ds) = (digit? c).getD 0 * base ^ ds.length + value base ds := by
  rw [value_eq_valueFrom, valueFrom_cons, valueFrom_eq]
  simp

theorem getD_digit?_lt {base : Nat} {c : UInt8} (h : isDigit base c = true) :
    (digit? c).getD 0 < base := by
  unfold isDigit at h
  cases hd : digit? c with
  | none => simp [hd] at h
  | some d => simpa [hd] using h

/-- So many digits stand for a number below that power of the base. -/
theorem value_lt {base : Nat} {ds : Bytes} (h : ∀ c ∈ ds, isDigit base c = true) :
    value base ds < base ^ ds.length := by
  induction ds with
  | nil => simp [value]
  | cons c ds ih =>
      obtain ⟨hc, hds⟩ := List.forall_mem_cons.mp h
      have hlow := ih hds
      have hhigh : (digit? c).getD 0 + 1 ≤ base := getD_digit?_lt hc
      have hmul := Nat.mul_le_mul_right (base ^ ds.length) hhigh
      rw [value_cons, List.length_cons, Nat.pow_succ, Nat.mul_comm _ base]
      rw [Nat.add_mul, Nat.one_mul] at hmul
      omega

/-- Read the longest run of digits. -/
def scan (base : Nat) (s : Bytes) : Option (Nat × Bytes) :=
  if s.takeWhile (isDigit base) = [] then none
  else some (value base (s.takeWhile (isDigit base)), s.dropWhile (isDigit base))

/-- What follows does not go on with a digit. -/
def Stops (base : Nat) (rest : Bytes) : Prop := ∀ c ∈ rest.head?, isDigit base c = false

theorem scan_append {base : Nat} {ds rest : Bytes} (hne : ds ≠ [])
    (hds : ∀ c ∈ ds, isDigit base c = true) (hrest : Stops base rest) :
    scan base (ds ++ rest) = some (value base ds, rest) := by
  have htake : rest.takeWhile (isDigit base) = [] ∧ rest.dropWhile (isDigit base) = rest := by
    cases rest with
    | nil => simp
    | cons c rest =>
        have hc : isDigit base c = false := hrest c rfl
        simp [hc]
  have hrun : (ds ++ rest).takeWhile (isDigit base) = ds := by
    rw [List.takeWhile_append_of_pos hds, htake.1, List.append_nil]
  have hleft : (ds ++ rest).dropWhile (isDigit base) = rest := by
    rw [List.dropWhile_append_of_pos hds, htake.2]
  rw [scan, hrun, hleft, if_neg hne]

/-! ## Spelling -/

/-- A number in so many digits, the most significant first; `upper` says which of them are in
upper case. -/
def spell (base : Nat) (upper : Nat → Bool) : Nat → Nat → Bytes
  | 0, _ => []
  | width + 1, n => spell base upper width (n / base) ++ [digitChar (upper width) (n % base)]

@[simp] theorem length_spell (base : Nat) (upper : Nat → Bool) (width n : Nat) :
    (spell base upper width n).length = width := by
  induction width generalizing n with
  | zero => rfl
  | succ width ih => simp [spell, ih]

theorem isDigit_of_mem_spell {base : Nat} (hpos : 0 < base) (h16 : base ≤ 16)
    {upper : Nat → Bool} {width n : Nat} {c : UInt8} (hc : c ∈ spell base upper width n) :
    isDigit base c = true := by
  induction width generalizing n with
  | zero => simp [spell] at hc
  | succ width ih =>
      rw [spell, List.mem_append, List.mem_singleton] at hc
      rcases hc with hc | rfl
      · exact ih hc
      · exact isDigit_digitChar _ (Nat.mod_lt n hpos) h16

theorem value_spell {base : Nat} (hpos : 0 < base) (h16 : base ≤ 16) (upper : Nat → Bool)
    (width n : Nat) : value base (spell base upper width n) = n % base ^ width := by
  induction width generalizing n with
  | zero => simp [spell, value, Nat.mod_one]
  | succ width ih =>
      have hd : n % base < 16 := Nat.lt_of_lt_of_le (Nat.mod_lt n hpos) h16
      rw [spell, value_append_one, ih, digit?_digitChar _ hd, Option.getD_some, Nat.pow_succ',
        Nat.mod_mul]
      omega

/-- A spelling in two parts. -/
theorem spell_add (base : Nat) (upper : Nat → Bool) (w v n : Nat) :
    spell base upper (w + v) n =
      spell base upper w (n / base ^ v) ++ spell base (fun i => upper (w + i)) v n := by
  induction v generalizing n with
  | zero => simp [spell]
  | succ v ih =>
      rw [← Nat.add_assoc, spell, ih, spell, List.append_assoc, Nat.div_div_eq_div_mul,
        Nat.pow_succ']

/-! ## Decimal numbers -/

/-- The decimal digits of a number, without leading zeros. -/
def decimal (n : Nat) : Bytes := (Nat.toDigits 10 n).map fun c => UInt8.ofNat c.toNat

theorem digit?_ofNat {c : Char} (h : c.isDigit = true) :
    digit? (UInt8.ofNat c.toNat) = some (c.toNat - 48) := by
  obtain ⟨hlow, hhigh⟩ := Char.isDigit_iff_toNat.mp h
  have hlow' : 48 ≤ c.toNat := hlow
  have hhigh' : c.toNat ≤ 57 := hhigh
  have hcast : (UInt8.ofNat c.toNat).toNat = c.toNat := by simp; omega
  have hrange : 48 ≤ UInt8.ofNat c.toNat ∧ UInt8.ofNat c.toNat ≤ 57 := by
    simp only [UInt8.le_iff_toNat_le, hcast]
    exact ⟨hlow', hhigh'⟩
  rw [digit?, if_pos hrange, hcast]

theorem isDigit_of_mem_decimal {n : Nat} {c : UInt8} (hc : c ∈ decimal n) :
    isDigit 10 c = true := by
  obtain ⟨d, hd, rfl⟩ := List.mem_map.mp hc
  have hdigit := Nat.isDigit_of_mem_toDigits (by decide) (by decide) hd
  obtain ⟨-, hhigh⟩ := Char.isDigit_iff_toNat.mp hdigit
  have hhigh' : d.toNat ≤ 57 := hhigh
  rw [isDigit, digit?_ofNat hdigit]
  simp
  omega

theorem decimal_ne_nil (n : Nat) : decimal n ≠ [] := by
  simp [decimal]

theorem value_decimal (n : Nat) : value 10 (decimal n) = n := by
  have hchars : ∀ (cs : List Char) (init : Nat), (∀ c ∈ cs, c.isDigit = true) →
      (cs.map fun c => UInt8.ofNat c.toNat).foldl (fun n c => 10 * n + (digit? c).getD 0) init =
        Nat.ofDigitChars 10 cs init := by
    intro cs
    induction cs with
    | nil => simp
    | cons c cs ih =>
        intro init hcs
        obtain ⟨hc, hcs⟩ := List.forall_mem_cons.mp hcs
        rw [List.map_cons, List.foldl_cons, ih _ hcs, digit?_ofNat hc, Nat.ofDigitChars_cons]
        rfl
  have hall : ∀ c ∈ Nat.toDigits 10 n, c.isDigit = true :=
    fun c hc => Nat.isDigit_of_mem_toDigits (by decide) (by decide) hc
  rw [value, decimal, hchars _ _ hall, Nat.ofDigitChars_ten_toDigits]

theorem scan_decimal (n : Nat) : scan 10 (decimal n) = some (n, []) := by
  have hscan := scan_append (decimal_ne_nil n) (fun c hc => isDigit_of_mem_decimal hc)
    (show Stops 10 [] from by simp [Stops])
  rwa [List.append_nil, value_decimal] at hscan

/-- `isspace`. -/
def isSpace (c : UInt8) : Bool := c = 32 ∨ 9 ≤ c ∧ c ≤ 13

/-- What is left when the blanks and the sign are read, and whether the sign was a minus. -/
def sign (s : Bytes) : Bool × Bytes :=
  match s.dropWhile isSpace with
  | 45 :: rest => (true, rest)
  | 43 :: rest => (false, rest)
  | rest => (false, rest)

theorem range_of_isDigit {c : UInt8} (h : isDigit 10 c = true) : 48 ≤ c.toNat ∧ c.toNat ≤ 57 := by
  unfold isDigit digit? at h
  simp only [UInt8.le_iff_toNat_le] at h
  split at h
  · assumption
  · split at h
    · rename_i hlower
      have hlow : 97 ≤ c.toNat := hlower.1
      simp at h
      omega
    · split at h
      · rename_i hupper
        have hlow : 65 ≤ c.toNat := hupper.1
        simp at h
        omega
      · simp at h

/-- A digit is no blank and no sign. -/
theorem sign_of_isDigit {c : UInt8} (h : isDigit 10 c = true) (cs : Bytes) :
    sign (c :: cs) = (false, c :: cs) := by
  obtain ⟨hlow, hhigh⟩ := range_of_isDigit h
  have hspace : isSpace c = false := by
    simp only [isSpace, UInt8.le_iff_toNat_le, ← UInt8.toNat_inj]
    simp
    omega
  unfold sign
  rw [List.dropWhile_cons_of_neg (by simp [hspace])]
  split
  · rename_i heq
    cases heq
    simp at hlow
  · rename_i heq
    cases heq
    simp at hlow
  · rfl

/-- The nearest number of 64 bits. -/
def saturate (n : Int) : Int := max (-2 ^ 63) (min n (2 ^ 63 - 1))

theorem saturate_of_mem {n : Int} (hlow : -2 ^ 63 ≤ n) (hhigh : n < 2 ^ 63) : saturate n = n := by
  unfold saturate
  omega

/-- `strtol` in base ten, if there is a number. -/
def strtol (s : Bytes) : Option Int :=
  (scan 10 (sign s).2).map fun r => saturate (if (sign s).1 then -r.1 else r.1)

/-- A number as it is printed. -/
def decimalInt (n : Int) : Bytes :=
  if n < 0 then 45 :: decimal n.natAbs else decimal n.natAbs

/-- Its characters are a minus and digits. -/
theorem mem_decimalInt {n : Int} {c : UInt8} (h : c ∈ decimalInt n) :
    c = 45 ∨ 48 ≤ c.toNat ∧ c.toNat ≤ 57 := by
  unfold decimalInt at h
  split at h
  · rcases List.mem_cons.mp h with rfl | h
    · exact .inl rfl
    · exact .inr (range_of_isDigit (isDigit_of_mem_decimal h))
  · exact .inr (range_of_isDigit (isDigit_of_mem_decimal h))

theorem sign_decimalInt (n : Int) :
    sign (decimalInt n) = (decide (n < 0), decimal n.natAbs) := by
  unfold decimalInt
  split
  · rename_i hneg
    simp [hneg, sign, isSpace]
  · rename_i hpos
    cases hdec : decimal n.natAbs with
    | nil => exact absurd hdec (decimal_ne_nil _)
    | cons c cs =>
        have hc : isDigit 10 c = true :=
          isDigit_of_mem_decimal (n := n.natAbs) (by rw [hdec]; simp)
        simp [sign_of_isDigit hc cs, hpos]

theorem strtol_decimalInt (n : Int) : strtol (decimalInt n) = some (saturate n) := by
  rw [strtol, sign_decimalInt]
  simp only [scan_decimal, Option.map_some, decide_eq_true_eq]
  congr 2
  split <;> omega

end Numeral
