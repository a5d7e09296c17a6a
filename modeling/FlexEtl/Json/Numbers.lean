/-
FlexEtl.Json.Numbers — the numbers of the grammar, and what they are worth.

`Parts` is a number of the grammar, taken apart, and `Parts.scalar` the scalar
that it stands for. An integer that 64 bits hold stands for itself. Everything
else is a double: the significand is made of the digits in their order, in 64
bits as long as it is small and then in doubles, and is multiplied with a power
of ten. No scalar belongs to a number that is too big, or so long that an `int`
of the reader does not hold its lengths.
-/
import FlexEtl.Json.Reader
import FlexEtl.Lib.Numeral

namespace FlexEtl

namespace Reader

/-! ## Texts -/

/-- The number a digit stands for. -/
def digitValue (c : UInt8) : Nat := (Numeral.digit? c).getD 0

/-- Nothing but digits. -/
def Digits (ds : Bytes) : Prop := ∀ c ∈ ds, isDigit c = true

instance (ds : Bytes) : Decidable (Digits ds) := List.decidableBAll _ ds

/-- An integer of the grammar: a zero, or digits that begin with another one. -/
inductive Number.IntDigits : Bytes → Prop
  | zero : IntDigits [0x30]
  | digits {c : UInt8} {ds : Bytes} (hlow : 0x31 ≤ c) (hhigh : c ≤ 0x39) (hds : Digits ds) :
      IntDigits (c :: ds)

inductive ExpSign where
  | none
  | plus
  | minus
  deriving DecidableEq

def ExpSign.text : ExpSign → Bytes
  | .none => []
  | .plus => [0x2B]
  | .minus => [0x2D]

/-- An exponent: `e` or `E`, a sign, digits. -/
structure ExpPart where
  letter : UInt8
  sign : ExpSign
  digits : Bytes

structure ExpPart.Valid (e : ExpPart) : Prop where
  letter : e.letter = 0x65 ∨ e.letter = 0x45
  digits : Digits e.digits
  some : e.digits ≠ []

def ExpPart.text (e : ExpPart) : Bytes := e.letter :: (e.sign.text ++ e.digits)

/-- A number, taken apart. -/
structure Parts where
  minus : Bool
  int : Bytes
  frac : Option Bytes
  exp : Option ExpPart

structure Parts.Valid (p : Parts) : Prop where
  int : Number.IntDigits p.int
  frac : ∀ f, p.frac = some f → Digits f ∧ f ≠ []
  exp : ∀ e, p.exp = some e → e.Valid

/-- The sign of a number. -/
def signText (minus : Bool) : Bytes := if minus then [0x2D] else []

def fracText : Option Bytes → Bytes
  | none => []
  | some f => 0x2E :: f

def expText : Option ExpPart → Bytes
  | none => []
  | some e => e.text

def Parts.text (p : Parts) : Bytes :=
  signText p.minus ++ (p.int ++ (fracText p.frac ++ expText p.exp))

/-! ## Integers -/

namespace Number

/-- The greatest absolute values of the types that an integer is reported in. -/
def bound32 (minus : Bool) : Nat := if minus then 2 ^ 31 else 2 ^ 32 - 1

def bound64 (minus : Bool) : Nat := if minus then 2 ^ 63 else 2 ^ 64 - 1

end Number

/-- The scalar for an integer that a type of the handler holds. -/
def integerScalar (minus : Bool) (v : Nat) : Option Scalar :=
  if v ≤ Number.bound32 minus then
    some (if minus then .int (Int32.ofInt (-v)) else .uint (UInt32.ofNat v))
  else if v ≤ Number.bound64 minus then
    some (if minus then .int64 (Int64.ofInt (-v)) else .uint64 (UInt64.ofNat v))
  else none

/-! ## Significands -/

section Significand

variable (fl : Doubles)

/-- The digits behind `k`, as far as the number stays within a bound, and the others. -/
def within (bound : Nat) : Nat → Bytes → Nat × Bytes
  | k, [] => (k, [])
  | k, c :: ds =>
      if 10 * k + digitValue c ≤ bound then within bound (10 * k + digitValue c) ds
      else (k, c :: ds)

/-- The double for an integer that 64 bits do not hold, from the digits behind `k`. -/
def bigDouble (bound k : Nat) (ds : Bytes) : UInt64 :=
  let (v, rest) := within bound k ds
  rest.foldl (Number.mulAdd fl) (fl.ofUInt64 (UInt64.ofNat v))

/-- The digits of a fraction behind a double, of which `shift` digits stand behind the point
already. What follows seventeen significant digits is left out. -/
def fracDouble : Nat → UInt64 → Nat → Bytes → UInt64 × Nat
  | _, d, shift, [] => (d, shift)
  | significant, d, shift, c :: f =>
      if significant < 17 then
        let d := Number.mulAdd fl d c
        fracDouble (if fl.isPositive d then significant + 1 else significant) d (shift + 1) f
      else (d, shift)

/-- The digits of a fraction behind a number, which becomes a double from 2^53 on. -/
def fracExact : Nat → Nat → Nat → Bytes → UInt64 × Nat
  | _, v, shift, [] => (fl.ofUInt64 (UInt64.ofNat v), shift)
  | significant, v, shift, c :: f =>
      if v < 2 ^ 53 then
        let v := 10 * v + digitValue c
        fracExact (if v ≠ 0 then significant + 1 else significant) v (shift + 1) f
      else fracDouble fl significant (fl.ofUInt64 (UInt64.ofNat v)) shift (c :: f)

/-- The double that the digits make, and how many of them stand behind the point. -/
def Parts.significand (p : Parts) : UInt64 × Nat :=
  let v := Numeral.value 10 p.int
  if v ≤ Number.bound64 p.minus then fracExact fl (p.int.length - 1) v 0 (p.frac.getD [])
  else (bigDouble fl (Number.bound64 p.minus) 0 p.int, 0)

end Significand

/-! ## Doubles -/

/-- The number of an exponent. -/
def ExpPart.value (e : ExpPart) : Int :=
  match e.sign with
  | .minus => -(Numeral.value 10 e.digits : Int)
  | _ => Numeral.value 10 e.digits

def expValue : Option ExpPart → Int
  | none => 0
  | some e => e.value

/-- The digits behind `k`, up to the one that takes the number past a bound. -/
def cutPast (bound : Nat) : Nat → Bytes → Nat
  | k, [] => k
  | k, c :: ds =>
      if bound < 10 * k + digitValue c then 10 * k + digitValue c
      else cutPast bound (10 * k + digitValue c) ds

/-- Whether an `int` holds the powers of ten that the digits behind the point and the exponent
make. A negative exponent is left alone once it is past a bound. -/
def fitsInt (shift : Nat) : Option ExpPart → Bool
  | none => shift ≤ 2 ^ 31
  | some e =>
      match e.sign, e.digits with
      | .minus, c :: ds =>
          shift ≤ 2 ^ 31 && cutPast ((2147483639 - shift) / 10) (digitValue c) ds + shift ≤ 2 ^ 31
      | _, _ => 308 + shift < 2 ^ 31

/-- A double times a power of ten: one operation, or two divisions for a very small power. -/
def scaled (fl : Doubles) (d : UInt64) (k : Int) : UInt64 :=
  if 0 ≤ k then fl.mul d (fl.pow10 k.toNat)
  else if -308 ≤ k then fl.div d (fl.pow10 (-k).toNat)
  else if -616 ≤ k then fl.div (fl.div d (fl.pow10 308)) (fl.pow10 (-(k + 308)).toNat)
  else 0

/-- The scalar for a double and a power of ten, unless one of them is too big. -/
def doubleScalar (fl : Doubles) (minus : Bool) (d : UInt64) (k : Int) : Option Scalar :=
  if 308 < k ∨ fl.exceedsMax (scaled fl d k) = true then none
  else some (.double (if minus then fl.neg (scaled fl d k) else scaled fl d k))

/-- The scalar for a number that is read as a double. -/
def Parts.double (fl : Doubles) (p : Parts) : Option Scalar :=
  let (d, shift) := p.significand fl
  if fitsInt shift p.exp then doubleScalar fl p.minus d (expValue p.exp - shift) else none

/-- What a number is read as. -/
def Parts.scalar (fl : Doubles) (p : Parts) : Option Scalar :=
  match p.frac, p.exp, integerScalar p.minus (Numeral.value 10 p.int) with
  | none, none, some s => some s
  | _, _, _ => p.double fl

end Reader

end FlexEtl
