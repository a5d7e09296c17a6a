/-
FlexEtl.Json.NumberScalar — what numbers are read as.

A number of the grammar that nothing continues is read as its scalar, or it has
none (`parseNumber_outcome`): each loop over digits does what the recursion over
the digits does that the scalar is made with. As long as the digits of a decimal
make a small number, its double is that number times a power of ten
(`parseNumber_decimal`): none of the cases that the loops over the fraction and
the exponent distinguish shows.
-/
import FlexEtl.Json.NumberText

namespace FlexEtl

namespace Reader

open Decoder

variable {fl : Doubles}

/-! ## All of a number is read -/

/-- Why a number with so many digits behind its point is not read. -/
def Refused (shift : Nat) (e : ReaderFault) : Prop :=
  e = .error .numberTooBig ∨ e = .overflow ∧ 214748055 < shift

/-- Seventeen significant digits are enough. -/
theorem fracDouble_full {significant : Nat} (h : ¬ significant < 17) (d : UInt64) (shift : Nat)
    (f : Bytes) : fracDouble fl significant d shift f = (d, shift) := by
  cases f with
  | nil => rfl
  | cons c f => rw [fracDouble, if_neg h]

theorem fracDouble_shift (significant : Nat) (d : UInt64) (shift : Nat) (f : Bytes) :
    shift ≤ (fracDouble fl significant d shift f).2 ∧
      (fracDouble fl significant d shift f).2 ≤ shift + f.length := by
  induction f generalizing significant d shift with
  | nil => exact ⟨Nat.le_refl _, Nat.le_refl _⟩
  | cons c f ih =>
      rw [List.length_cons]
      by_cases h : significant < 17
      · rw [fracDouble, if_pos h]
        obtain ⟨hlow, hhigh⟩ := ih (if fl.isPositive (Number.mulAdd fl d c) then significant + 1
          else significant) (Number.mulAdd fl d c) (shift + 1)
        exact ⟨by dsimp only; omega, by dsimp only; omega⟩
      · rw [fracDouble_full h]
        exact ⟨Nat.le_refl _, Nat.le_add_right _ _⟩

theorem fracExact_small {v : Nat} (h : v < 2 ^ 53) (significant shift : Nat) (c : UInt8)
    (f : Bytes) : fracExact fl significant v shift (c :: f) =
      fracExact fl (if 10 * v + digitValue c ≠ 0 then significant + 1 else significant)
        (10 * v + digitValue c) (shift + 1) f := by
  rw [fracExact, if_pos h]

theorem fracExact_shift (significant v shift : Nat) (f : Bytes) :
    shift ≤ (fracExact fl significant v shift f).2 ∧
      (fracExact fl significant v shift f).2 ≤ shift + f.length := by
  induction f generalizing significant v shift with
  | nil => exact ⟨Nat.le_refl _, Nat.le_refl _⟩
  | cons c f ih =>
      by_cases h : v < 2 ^ 53
      · rw [fracExact_small h, List.length_cons]
        obtain ⟨hlow, hhigh⟩ := ih (if 10 * v + digitValue c ≠ 0 then significant + 1
          else significant) (10 * v + digitValue c) (shift + 1)
        exact ⟨by omega, by omega⟩
      · rw [fracExact, if_neg h]
        exact fracDouble_shift _ _ _ _

theorem Parts.significand_shift (p : Parts) :
    (p.significand fl).2 ≤ (p.frac.getD []).length := by
  unfold Parts.significand
  dsimp only
  split
  · exact Nat.le_trans (fracExact_shift _ _ _ _).2 (Nat.le_of_eq (Nat.zero_add _))
  · exact Nat.zero_le _

namespace Number

/-- The state behind a fraction. -/
structure FracRead (minus : Bool) (d : UInt64) (shift : Nat) (m : Number) : Prop where
  sign : m.minus = minus
  double : m.useDouble = true
  d : m.d = d
  frac : m.expFrac = -(shift : Int)
  plain : m.expMinus = false ∧ m.exp = 0

/-- The digits of a fraction are read as long as an `int` counts them. -/
def FracOutcome (minus : Bool) (q : UInt64 × Nat) (r : Bytes)
    (res : EStateM.Result ReaderFault Bytes Number) : Prop :=
  (q.2 ≤ 2 ^ 31 → ∃ m, res = .ok m r ∧ FracRead minus q.1 q.2 m) ∧
    (2 ^ 31 < q.2 → ∃ r', res = .error .overflow r')

/-- One more digit behind the point, and the same for what follows it. -/
theorem lowerFrac_outcome {turn : Number → UInt8 → Turn} {c : UInt8} {m m' : Number}
    {shift : Nat} (hturn : turn m c = lowerFrac m') (hfrac : m'.expFrac = -(shift : Int)) :
    (shift < 2 ^ 31 ∧ turn m c = .take { m' with expFrac := -((shift + 1 : Nat) : Int) }) ∨
      (2 ^ 31 ≤ shift ∧ turn m c = .fail .overflow) := by
  rcases Nat.lt_or_ge shift (2 ^ 31) with hlt | hge
  · have hint : InInt (m'.expFrac - 1) := by
      rw [hfrac]
      exact ⟨by omega, by omega⟩
    have hnext : m'.expFrac - 1 = -((shift + 1 : Nat) : Int) := by
      rw [hfrac]
      omega
    exact .inl ⟨hlt, by rw [hturn, lowerFrac_of_inInt hint, hnext]⟩
  · have hout : ¬ InInt (m'.expFrac - 1) := by
      rw [hfrac]
      intro h
      have hlow := h.1
      omega
    exact .inr ⟨hge, hturn.trans (lowerFrac_of_not_inInt hout)⟩

theorem FracOutcome.of_overflow {minus : Bool} {q : UInt64 × Nat} {r r' : Bytes}
    (h : 2 ^ 31 < q.2) : FracOutcome minus q r (.error .overflow r') :=
  ⟨fun hle => absurd h (Nat.not_lt.mpr hle), fun _ => ⟨r', rfl⟩⟩

theorem fracDouble_run {f r : Bytes} (hf : Digits f) (hr : Stops (isDigit · = true) r)
    {m : Number} {minus : Bool} {d : UInt64} {shift : Nat} (hm : FracRead minus d shift m)
    (hshift : shift ≤ 2 ^ 31) : FracOutcome minus (fracDouble fl m.significandDigit d shift f) r
      (scanLoop (fracDoubleTurn fl) m (f ++ r)) := by
  induction f generalizing m d shift with
  | nil =>
      refine ⟨fun _ => ⟨m, ?_, hm⟩, fun h => absurd hshift (Nat.not_le.mpr h)⟩
      exact scanLoop_stops (fun m c hc => fracDoubleTurn_other m (Bool.not_eq_true _ ▸ hc)) m hr
  | cons c f ih =>
      obtain ⟨hc, hf⟩ := List.forall_mem_cons.mp hf
      have hturn := @fracDoubleTurn_digit fl m c hc
      rw [List.cons_append]
      by_cases hfull : m.significandDigit < 17
      · rw [if_pos hfull] at hturn
        rcases lowerFrac_outcome hturn hm.frac with ⟨hlt, htake⟩ | ⟨hge, hfail⟩
        · rw [scanLoop_take htake, fracDouble, if_pos hfull, ← hm.d]
          exact ih hf (m := { nextFracDouble fl m c with expFrac := -((shift + 1 : Nat) : Int) })
            ⟨hm.sign, hm.double, rfl, rfl, hm.plain⟩ hlt
        · rw [scanLoop_fail hfail]
          refine FracOutcome.of_overflow (Nat.lt_of_le_of_lt hge ?_)
          rw [fracDouble, if_pos hfull]
          exact (fracDouble_shift _ _ _ _).1
      · rw [if_neg hfull] at hturn
        have hrest := ih hf hm hshift
        rw [fracDouble_full hfull] at hrest ⊢
        rw [scanLoop_take hturn]
        exact hrest

/-- The two loops over a fraction. -/
def fracLoops (fl : Doubles) (m : Number) : ScanM Number := do
  let m ← scanLoop fracTurn m
  scanLoop (fracDoubleTurn fl) { m with d := fl.ofUInt64 m.i64, useDouble := true }

theorem fracLoops_take {m m' : Number} {c : UInt8} (h : fracTurn m c = .take m') (s : Bytes) :
    fracLoops fl m (c :: s) = fracLoops fl m' s := by
  show EStateM.bind _ _ _ = EStateM.bind _ _ _
  rw [EStateM.bind, EStateM.bind, scanLoop_take h]

/-- A digit that leaves the significand below 2^64. -/
theorem nextFrac_small {m : Number} {c : UInt8} (hc : isDigit c = true)
    (hsmall : m.i64.toNat < 2 ^ 53) : fracTurn m c = lowerFrac (nextFrac m c) ∧
      (nextFrac m c).i64.toNat = 10 * m.i64.toNat + digitValue c ∧
      (nextFrac m c).significandDigit = if 10 * m.i64.toNat + digitValue c ≠ 0 then
        m.significandDigit + 1 else m.significandDigit := by
  have hnot : ¬ m.i64 > 0x1FFFFFFFFFFFFF := by
    rw [gt_iff_lt, UInt64.lt_iff_toNat_lt]
    show ¬ 2 ^ 53 - 1 < m.i64.toNat
    omega
  have hnext : (m.i64 * 10 + (c - 0x30).toUInt64).toNat = 10 * m.i64.toNat + digitValue c := by
    have hlt := (digit_facts hc).2.1
    rw [UInt64.toNat_add, UInt64.toNat_mul, toUInt64_digit hc]
    show (m.i64.toNat * 10 % 2 ^ 64 + digitValue c) % 2 ^ 64 = _
    omega
  have hzero : m.i64 * 10 + (c - 0x30).toUInt64 ≠ 0 ↔ 10 * m.i64.toNat + digitValue c ≠ 0 := by
    rw [← hnext, ← UInt64.toNat_inj.ne]
    rfl
  refine ⟨by rw [fracTurn_digit m hc, if_neg hnot], hnext, ?_⟩
  unfold nextFrac
  simp only [hzero]

/-- Where the first loop ends, the second one takes what is left. -/
theorem fracLoops_stop {f r : Bytes} (hf : Digits f) (hr : Stops (isDigit · = true) r) {m : Number}
    {shift : Nat} (hfrac : m.expFrac = -(shift : Int)) (hplain : m.expMinus = false ∧ m.exp = 0)
    (hshift : shift ≤ 2 ^ 31) (hstop : scanLoop fracTurn m (f ++ r) = .ok m (f ++ r)) :
    FracOutcome m.minus
      (fracDouble fl m.significandDigit (fl.ofUInt64 (UInt64.ofNat m.i64.toNat)) shift f) r
      (fracLoops fl m (f ++ r)) := by
  rw [fracLoops, Outcome.bind_of_ok hstop, UInt64.ofNat_toNat]
  exact @fracDouble_run fl f r hf hr { m with d := fl.ofUInt64 m.i64, useDouble := true } m.minus _
    shift ⟨rfl, rfl, rfl, hfrac, hplain⟩ hshift

/-- The digits are taken into the significand until it is 2^53. -/
theorem fracExact_run {f r : Bytes} (hf : Digits f) (hr : Stops (isDigit · = true) r)
    {m : Number} {shift : Nat} (hfrac : m.expFrac = -(shift : Int))
    (hplain : m.expMinus = false ∧ m.exp = 0) (hshift : shift ≤ 2 ^ 31) :
    FracOutcome m.minus (fracExact fl m.significandDigit m.i64.toNat shift f) r
      (fracLoops fl m (f ++ r)) := by
  induction f generalizing m shift with
  | nil =>
      exact fracLoops_stop hf hr hfrac hplain hshift (scanLoop_stops
        (fun m c hc => fracTurn_other m (Bool.not_eq_true _ ▸ hc)) m hr)
  | cons c f ih =>
      obtain ⟨hc, hrest⟩ := List.forall_mem_cons.mp hf
      by_cases hsmall : m.i64.toNat < 2 ^ 53
      · obtain ⟨hturn, hi64, hcount⟩ := nextFrac_small hc hsmall
        rw [List.cons_append, fracExact_small hsmall]
        rcases lowerFrac_outcome hturn hfrac with ⟨hlt, htake⟩ | ⟨hge, hfail⟩
        · rw [fracLoops_take htake, ← hcount, ← hi64]
          exact ih hrest (m := { nextFrac m c with expFrac := -((shift + 1 : Nat) : Int) })
            rfl hplain hlt
        · have hrun : fracLoops fl m (c :: (f ++ r)) = .error .overflow (f ++ r) :=
            Outcome.bind_of_error (scanLoop_fail hfail _)
          rw [hrun]
          exact FracOutcome.of_overflow (Nat.lt_of_le_of_lt hge (fracExact_shift _ _ _ _).1)
      · have hlarge : m.i64 > 0x1FFFFFFFFFFFFF := by
          rw [gt_iff_lt, UInt64.lt_iff_toNat_lt]
          show 2 ^ 53 - 1 < m.i64.toNat
          omega
        have hturn := fracTurn_digit m hc
        rw [if_pos hlarge] at hturn
        rw [fracExact, if_neg hsmall]
        exact fracLoops_stop hf hr hfrac hplain hshift (scanLoop_stop hturn _)

theorem parseFrac_run {f r : Bytes} (hf : Digits f) (hne : f ≠ []) (m : Number) :
    parseFrac fl m (0x2E :: (f ++ r)) = fracDigits fl m (f ++ r) := by
  cases f with
  | nil => exact absurd rfl hne
  | cons c f =>
      have hc : isDigit c = true := hf c List.mem_cons_self
      rw [parseFrac, Outcome.bind_of_ok (consume_of_head _ _), if_pos rfl, List.cons_append,
        peek_bind_cons, if_pos hc]

/-- The integer part of a number, read. -/
abbrev PartRead (fl : Doubles) (p : Parts) (m : Number) : Prop :=
  IntRead p.minus (Numeral.value 10 p.int) (p.int.length - 1)
    (bigDouble fl (bound64 p.minus) 0 p.int) m

theorem IntRead.integer_toNat {minus : Bool} {v count : Nat} {d : UInt64} {m : Number}
    (h : IntRead minus v count d m) (hfit : v ≤ bound64 minus) :
    m.useDouble = false ∧ m.integer.toNat = v := by
  rcases Nat.lt_or_ge (bound32 minus) v with hwide | hsmall
  · obtain ⟨huse, hdouble, hvalue⟩ := h.wide hwide hfit
    exact ⟨hdouble, by rw [integer, if_pos huse, hvalue]⟩
  · obtain ⟨huse, hdouble, hvalue⟩ := h.small hsmall
    refine ⟨hdouble, ?_⟩
    rw [integer, if_neg (by rw [huse]; decide), UInt32.toNat_toUInt64, hvalue]

/-- A fraction makes the significand of its number. -/
theorem frac_run {p : Parts} {f : Bytes} (hp : p.frac = some f) (hf : Digits f) (hne : f ≠ [])
    {r : Bytes} (hr : Stops (isDigit · = true) r) {m : Number} (hm : PartRead fl p m) :
    FracOutcome p.minus (p.significand fl) r (parseFrac fl m (0x2E :: (f ++ r))) := by
  obtain ⟨hfrac, hplain⟩ := hm.plain
  rw [parseFrac_run hf hne, ← hm.sign]
  rcases Nat.lt_or_ge (bound64 p.minus) (Numeral.value 10 p.int) with hbig | hfit
  · obtain ⟨hdouble, hfull, hd⟩ := hm.big hbig
    have hsig : p.significand fl = fracDouble fl m.significandDigit m.d 0 f := by
      rw [fracDouble_full (Nat.not_lt.mpr hfull), Parts.significand, if_neg (Nat.not_le.mpr hbig),
        hd]
    rw [hsig, fracDigits, if_pos hdouble]
    exact fracDouble_run hf hr ⟨rfl, hdouble, rfl, hfrac, hplain⟩ (Nat.zero_le _)
  · obtain ⟨hdouble, hvalue⟩ := hm.integer_toNat hfit
    have hsig : p.significand fl = fracExact fl m.significandDigit m.integer.toNat 0 f := by
      rw [Parts.significand, if_pos hfit, hp, Option.getD_some, hm.count hfit, hvalue]
    rw [hsig, fracDigits, if_neg (by rw [hdouble]; decide)]
    exact @fracExact_run fl f r hf hr { m with i64 := m.integer } 0 hfrac hplain (Nat.zero_le _)

end Number

/-! ## Exponents -/

/-- A negative exponent is read to its end, or cut off past its bound. -/
theorem cutPast_cases (bound k : Nat) (ds : Bytes) :
    cutPast bound k ds = Numeral.valueFrom 10 k ds ∨
      bound < cutPast bound k ds ∧ cutPast bound k ds ≤ Numeral.valueFrom 10 k ds := by
  induction ds generalizing k with
  | nil => exact .inl rfl
  | cons c ds ih =>
      rw [cutPast, Numeral.valueFrom_cons]
      by_cases hpast : bound < 10 * k + digitValue c
      · rw [if_pos hpast]
        exact .inr ⟨hpast, le_valueFrom _ ds⟩
      · rw [if_neg hpast]
        exact ih _

theorem cutPast_le {bound k : Nat} {ds : Bytes} (hds : Digits ds) (hk : k ≤ 10 * bound + 9) :
    cutPast bound k ds ≤ 10 * max bound k + 9 := by
  induction ds generalizing k with
  | nil => exact Nat.le_trans (Nat.le_max_right bound k) (by omega)
  | cons c ds ih =>
      obtain ⟨hc, hds⟩ := List.forall_mem_cons.mp hds
      have hlt := (digit_facts hc).2.1
      rw [cutPast]
      by_cases hpast : bound < 10 * k + digitValue c
      · rw [if_pos hpast]
        omega
      · rw [if_neg hpast]
        have hrest := ih hds (k := 10 * k + digitValue c) (by omega)
        omega

namespace Number

/-- The number behind one more digit of an exponent. -/
theorem exp_digit {m : Number} {e : Nat} {c : UInt8} (hc : isDigit c = true) (he : m.exp = e) :
    m.exp * 10 + ((c - 0x30).toNat : Int) = (10 * e + digitValue c : Nat) := by
  rw [he, (digit_facts hc).1]
  push_cast
  ring

/-- A positive exponent is read, or refused past its greatest value. -/
theorem expPlus_run {maxExp : Nat} {ds r : Bytes} (hds : Digits ds)
    (hr : Stops (isDigit · = true) r) {m : Number} {e : Nat} (he : m.exp = e) (hmax : e ≤ maxExp)
    (hint : maxExp < 2 ^ 31) :
    (Numeral.valueFrom 10 e ds ≤ maxExp → scanLoop (expPlusTurn maxExp) m (ds ++ r) =
      .ok { m with exp := (Numeral.valueFrom 10 e ds : Int) } r) ∧
    (maxExp < Numeral.valueFrom 10 e ds → ∃ err r',
      scanLoop (expPlusTurn maxExp) m (ds ++ r) = .error err r' ∧
        (err = .error .numberTooBig ∨ err = .overflow ∧ 214748363 < maxExp)) := by
  induction ds generalizing m e with
  | nil =>
      refine ⟨fun _ => ?_, fun h => absurd hmax (Nat.not_le.mpr h)⟩
      rw [Numeral.valueFrom_nil, ← he]
      exact scanLoop_stops (fun m c hc => expPlusTurn_other m (Bool.not_eq_true _ ▸ hc)) m hr
  | cons c ds ih =>
      obtain ⟨hc, hds⟩ := List.forall_mem_cons.mp hds
      have hlt := (digit_facts hc).2.1
      have hturn : expPlusTurn maxExp m c =
          if ¬ InInt (10 * e + digitValue c : Nat) then .fail .overflow
          else if ((10 * e + digitValue c : Nat) : Int) > maxExp then .fail (.error .numberTooBig)
          else .take { m with exp := ((10 * e + digitValue c : Nat) : Int) } := by
        rw [expPlusTurn, if_pos hc, exp_digit hc he]
      rw [Numeral.valueFrom_cons, List.cons_append]
      by_cases hfit : 10 * e + digitValue c ≤ maxExp
      · rw [if_neg (not_not_intro ⟨by omega, by omega⟩), if_neg (by omega)] at hturn
        rw [scanLoop_take hturn]
        exact @ih hds { m with exp := ((10 * e + digitValue c : Nat) : Int) } _ rfl hfit
      · refine ⟨fun h => absurd (Nat.le_trans (le_valueFrom _ ds) h) hfit, fun _ => ?_⟩
        by_cases hin : InInt (10 * e + digitValue c : Nat)
        · rw [if_neg (not_not_intro hin), if_pos (by omega)] at hturn
          exact ⟨_, _, scanLoop_fail hturn _, .inl rfl⟩
        · rw [if_pos hin] at hturn
          refine ⟨_, _, scanLoop_fail hturn _, .inr ⟨rfl, ?_⟩⟩
          by_contra hsmall
          exact hin ⟨by omega, by omega⟩

/-- The loop over a negative exponent, which leaves the digits behind the cut. -/
theorem expMinus_run {maxExp : Nat} (hint : maxExp ≤ 214748363) {ds r : Bytes} (hds : Digits ds)
    (hr : Stops (isDigit · = true) r) {m : Number} {e : Nat} (he : m.exp = e)
    (hmax : e ≤ 214748363) : ∃ ds₂, Digits ds₂ ∧
      scanLoop (expMinusTurn maxExp) m (ds ++ r) =
        .ok { m with exp := (cutPast maxExp e ds : Int) } (ds₂ ++ r) := by
  induction ds generalizing m e with
  | nil =>
      refine ⟨[], fun _ h => absurd h List.not_mem_nil, ?_⟩
      rw [cutPast, ← he]
      exact scanLoop_stops (fun m c hc => expMinusTurn_other m (Bool.not_eq_true _ ▸ hc)) m hr
  | cons c ds ih =>
      obtain ⟨hc, hds⟩ := List.forall_mem_cons.mp hds
      have hlt := (digit_facts hc).2.1
      have hturn : expMinusTurn maxExp m c =
          if ¬ InInt (10 * e + digitValue c : Nat) then .fail .overflow
          else if ((10 * e + digitValue c : Nat) : Int) > maxExp then
            .last { m with exp := ((10 * e + digitValue c : Nat) : Int) }
          else .take { m with exp := ((10 * e + digitValue c : Nat) : Int) } := by
        rw [expMinusTurn, if_pos hc, exp_digit hc he]
      rw [if_neg (not_not_intro ⟨by omega, by omega⟩)] at hturn
      rw [cutPast, List.cons_append]
      by_cases hpast : maxExp < 10 * e + digitValue c
      · rw [if_pos (by omega)] at hturn
        rw [if_pos hpast]
        exact ⟨ds, hds, scanLoop_last hturn _⟩
      · rw [if_neg (by omega)] at hturn
        rw [if_neg hpast, scanLoop_take hturn]
        exact @ih hds { m with exp := ((10 * e + digitValue c : Nat) : Int) } _ rfl (by omega)

/-- The bound of a negative exponent is the division of an `int` by 10. -/
theorem tdiv_bound {shift : Nat} (h : shift ≤ 2 ^ 31) :
    Int.tdiv (-(shift : Int) + 2147483639) 10 = ((2147483639 - shift) / 10 : Nat) := by
  rcases Nat.lt_or_ge 2147483639 shift with hpast | hle
  · have hneg : -(shift : Int) + 2147483639 = -((shift - 2147483639 : Nat) : Int) := by omega
    have hten : shift - 2147483639 < 10 := by omega
    rw [hneg, Int.neg_tdiv, Nat.sub_eq_zero_of_le (Nat.le_of_lt hpast)]
    generalize shift - 2147483639 = k at hten
    interval_cases k <;> rfl
  · rw [Int.tdiv_eq_ediv_of_nonneg (by omega)]
    omega

theorem value_digits (c : UInt8) (ds : Bytes) :
    Numeral.value 10 (c :: ds) = Numeral.valueFrom 10 (digitValue c) ds := by
  rw [Numeral.value_eq_valueFrom, Numeral.valueFrom_cons, Nat.mul_zero, Nat.zero_add]
  rfl

/-- A positive exponent behind its sign is read, or refused. -/
theorem plusDigits_run {c : UInt8} {ds r : Bytes} (hds : Digits (c :: ds))
    (hr : Stops (isDigit · = true) r) {m : Number} (hsign : m.expMinus = false) {shift : Nat}
    (hfrac : m.expFrac = -(shift : Int)) :
    (308 + shift < 2 ^ 31 → Numeral.value 10 (c :: ds) ≤ 308 + shift →
      expDigits m (c :: (ds ++ r)) =
        .ok { m with exp := (Numeral.value 10 (c :: ds) : Int) } r) ∧
    (¬ (308 + shift < 2 ^ 31 ∧ Numeral.value 10 (c :: ds) ≤ 308 + shift) → ∃ e r',
      expDigits m (c :: (ds ++ r)) = .error e r' ∧ Refused shift e) := by
  obtain ⟨hc, hds⟩ := List.forall_mem_cons.mp hds
  obtain ⟨hnat, hlt, -⟩ := digit_facts hc
  have hmax : (308 : Int) - m.expFrac = ((308 + shift : Nat) : Int) := by omega
  rw [expDigits_digit m hc, hnat, expLoop, if_neg (by rw [hsign]; decide), value_digits]
  dsimp only
  rw [hmax]
  rcases Nat.lt_or_ge (308 + shift) (2 ^ 31) with hin | hout
  · rw [int_of_inInt ⟨by omega, by omega⟩, pure_bind]
    obtain ⟨hfit, hbig⟩ := @expPlus_run (308 + shift) ds r hds hr
      { m with exp := (digitValue c : Int) } (digitValue c) rfl (by omega) hin
    refine ⟨fun _ hle => hfit hle, fun h => ?_⟩
    obtain ⟨e, r', hrun, he⟩ := hbig (by omega)
    exact ⟨e, r', hrun, he.imp_right fun h => ⟨h.1, by omega⟩⟩
  · have hpast : ¬ InInt ((308 + shift : Nat) : Int) := by
      intro h
      have hhigh := h.2
      omega
    rw [int_of_not_inInt hpast]
    exact ⟨fun h => absurd h (Nat.not_lt.mpr hout),
      fun _ => ⟨_, _, rfl, .inr ⟨rfl, by omega⟩⟩⟩

/-- A negative one is read up to the cut. -/
theorem minusDigits_run {c : UInt8} {ds r : Bytes} (hds : Digits (c :: ds))
    (hr : Stops (isDigit · = true) r) {m : Number} (hsign : m.expMinus = true) {shift : Nat}
    (hfrac : m.expFrac = -(shift : Int)) (hshift : shift ≤ 2 ^ 31) :
    expDigits m (c :: (ds ++ r)) = .ok { m with
      exp := -(cutPast ((2147483639 - shift) / 10) (digitValue c) ds : Int) } r := by
  obtain ⟨hc, hds⟩ := List.forall_mem_cons.mp hds
  obtain ⟨hnat, hlt, -⟩ := digit_facts hc
  have hbound : Int.tdiv (m.expFrac + 2147483639) 10 = ((2147483639 - shift) / 10 : Nat) := by
    rw [hfrac, tdiv_bound hshift]
  obtain ⟨ds₂, hds₂, hrun⟩ := @expMinus_run ((2147483639 - shift) / 10) (by omega) ds r hds hr
    { m with exp := (digitValue c : Int) } (digitValue c) rfl (by omega)
  have hrest : ∀ m : Number, scanLoop restTurn m (ds₂ ++ r) = .ok m r := by
    intro m
    rw [@scanLoop_digits restTurn (fun m _ => m) (fun m c hc => by simp [restTurn, hc])
      (fun m c hc => restTurn_other m hc) _ _ hds₂ hr]
    rw [List.foldl_fixed]
  rw [expDigits_digit m hc, hnat, expLoop, if_pos hsign]
  dsimp only
  rw [int_of_inInt ⟨by omega, by omega⟩, pure_bind, hbound, Outcome.bind_of_ok hrun,
    Outcome.bind_of_ok (hrest _)]
  rfl

end Number

/-! ## The scalar of a number -/

/-- What reading a number comes to: its scalar, or a reason why it has none. -/
def Outcome (shift : Nat) (r : Bytes) (res : EStateM.Result ReaderFault Bytes Scalar) :
    Option Scalar → Prop
  | some x => res = .ok x r
  | none => ∃ e r', res = .error e r' ∧ Refused shift e

namespace Number

theorem fracText_stops {frac : Option Bytes} {C : UInt8 → Prop} (hC : ¬ C 0x2E) {s : Bytes}
    (hs : Stops C s) : Stops C (fracText frac ++ s) := by
  cases frac with
  | none => exact hs
  | some f => exact stops_cons.mpr hC

theorem expText_stops {exp : Option ExpPart} (hexp : ∀ e, exp = some e → e.Valid)
    {C : UInt8 → Prop} (hlower : ¬ C 0x65) (hupper : ¬ C 0x45) {s : Bytes} (hs : Stops C s) :
    Stops C (expText exp ++ s) := by
  cases exp with
  | none => exact hs
  | some e =>
      refine stops_cons.mpr ?_
      rcases (hexp e rfl).letter with hletter | hletter
      · rwa [hletter]
      · rwa [hletter]

/-- Behind the fraction of a number. -/
theorem stops_exp {exp : Option ExpPart} (hexp : ∀ e, exp = some e → e.Valid) {r : Bytes}
    (hr : Stops IsNumberByte r) :
    Stops (isDigit · = true) (expText exp ++ r) ∧ Stops (· = 0x2E) (expText exp ++ r) :=
  ⟨expText_stops hexp (by decide) (by decide) (hr.mono fun _ h => .inl h),
    expText_stops hexp (by decide) (by decide) (hr.mono fun _ h => .inr (.inr (.inr (.inl h))))⟩

theorem toDouble_of_useDouble {m : Number} (h : m.useDouble = true) : toDouble fl m = m :=
  if_pos h

theorem toDouble_frame (m : Number) : (toDouble fl m).minus = m.minus ∧
    (toDouble fl m).useDouble = true ∧ (toDouble fl m).expFrac = m.expFrac ∧
      (toDouble fl m).expMinus = m.expMinus := by
  unfold toDouble
  split
  · exact ⟨rfl, ‹_›, rfl, rfl⟩
  · exact ⟨rfl, rfl, rfl, rfl⟩

/-- The state before the exponent. -/
structure SigRead (fl : Doubles) (p : Parts) (m : Number) : Prop where
  sign : m.minus = p.minus
  d : (toDouble fl m).d = (p.significand fl).1
  frac : m.expFrac = -((p.significand fl).2 : Int)
  plain : m.expMinus = false ∧ m.exp = 0
  double : p.frac ≠ none ∨ bound64 p.minus < Numeral.value 10 p.int → m.useDouble = true

/-- Without a fraction, the significand is the integer. -/
theorem PartRead.sigRead {p : Parts} (hp : p.frac = none) {m : Number} (hm : PartRead fl p m) :
    SigRead fl p m := by
  obtain ⟨hfrac, hplain⟩ := hm.plain
  rcases Nat.lt_or_ge (bound64 p.minus) (Numeral.value 10 p.int) with hbig | hfit
  · obtain ⟨hdouble, -, hd⟩ := hm.big hbig
    have hsig : p.significand fl = (bigDouble fl (bound64 p.minus) 0 p.int, 0) := by
      rw [Parts.significand, if_neg (Nat.not_le.mpr hbig)]
    exact ⟨hm.sign, by rw [toDouble_of_useDouble hdouble, hsig, hd], by rw [hsig, hfrac]; rfl,
      hplain, fun _ => hdouble⟩
  · obtain ⟨hdouble, hvalue⟩ := hm.integer_toNat hfit
    have hsig : p.significand fl = (fl.ofUInt64 m.integer, 0) := by
      rw [Parts.significand, if_pos hfit, hp, Option.getD_none, fracExact, ← hvalue,
        UInt64.ofNat_toNat]
    refine ⟨hm.sign, ?_, by rw [hsig, hfrac]; rfl, hplain, fun h => ?_⟩
    · rw [toDouble, if_neg (by rw [hdouble]; decide), hsig]
    · exact absurd hfit (Nat.not_le.mpr (h.resolve_left fun hne => hne hp))

theorem FracRead.sigRead {p : Parts} {m : Number}
    (hm : FracRead p.minus (p.significand fl).1 (p.significand fl).2 m) : SigRead fl p m :=
  ⟨hm.sign, by rw [toDouble_of_useDouble hm.double, hm.d], hm.frac, hm.plain, fun _ => hm.double⟩

/-- A number is read up to its exponent, as long as an `int` counts its digits. -/
theorem significand_run {p : Parts} (hp : p.Valid) {s : Bytes}
    (hdigit : Stops (isDigit · = true) s) (hpoint : Stops (· = 0x2E) s) {m : Number}
    (hm : PartRead fl p m) :
    ((p.significand fl).2 ≤ 2 ^ 31 → ∃ m',
      parseFrac fl m (fracText p.frac ++ s) = .ok m' s ∧ SigRead fl p m') ∧
    (2 ^ 31 < (p.significand fl).2 → ∃ r',
      parseFrac fl m (fracText p.frac ++ s) = .error .overflow r') := by
  cases hfrac : p.frac with
  | none =>
      have hshift : (p.significand fl).2 ≤ 0 := by
        have hle := @Parts.significand_shift fl p
        rwa [hfrac] at hle
      exact ⟨fun _ => ⟨m, parseFrac_of_stops hpoint, PartRead.sigRead hfrac hm⟩,
        fun h => absurd hshift (by omega)⟩
  | some f =>
      obtain ⟨hf, hne⟩ := hp.frac f hfrac
      obtain ⟨hfit, hover⟩ := frac_run hfrac hf hne hdigit hm
      refine ⟨fun h => ?_, hover⟩
      obtain ⟨m', hrun, hread⟩ := hfit h
      exact ⟨m', hrun, hread.sigRead⟩

/-! ### The power of ten -/

theorem fastPath_run (d : UInt64) {k : Int} (h : k ≤ 308) (r : Bytes) : fastPath fl d k r = .ok
    (if 0 ≤ k then fl.mul d (fl.pow10 k.toNat)
      else if -308 ≤ k then fl.div d (fl.pow10 (-k).toNat) else 0) r := by
  rcases Int.lt_or_le k (-308) with hlow | hlow
  · rw [fastPath, if_pos hlow, if_neg (by omega), if_neg (by omega)]
    rfl
  · rw [fastPath, if_neg (by omega)]
    rcases Int.lt_or_le k 0 with hneg | hpos
    · have hpow : pow10 fl (-k) r = .ok (fl.pow10 (-k).toNat) r := by
        rw [pow10, if_pos (by omega)]
        rfl
      rw [if_neg (by omega), if_neg (by omega), if_pos hlow, Outcome.bind_of_ok hpow]
      rfl
    · have hpow : pow10 fl k r = .ok (fl.pow10 k.toNat) r := by
        rw [pow10, if_pos ⟨hpos, h⟩]
        rfl
      rw [if_pos hpos, if_pos hpos, Outcome.bind_of_ok hpow]
      rfl

theorem strtod_run (d : UInt64) {k : Int} (h : k ≤ 308) (r : Bytes) :
    strtodNormalPrecision fl d k r = .ok (scaled fl d k) r := by
  rcases Int.lt_or_le k (-308) with hlow | hlow
  · have hfirst : fastPath fl d (-308) r = .ok (fl.div d (fl.pow10 308)) r :=
      fastPath_run d (by decide) r
    rw [strtodNormalPrecision, if_pos hlow, Outcome.bind_of_ok hfirst,
      fastPath_run _ (by omega) r, scaled]
    simp only [show ¬ 0 ≤ k by omega, show ¬ -308 ≤ k by omega, show ¬ 0 ≤ k + 308 by omega,
      show -308 ≤ k + 308 ↔ -616 ≤ k by omega, if_false]
  · rw [strtodNormalPrecision, if_neg (by omega), fastPath_run d h r, scaled, if_pos hlow]
    by_cases hpos : 0 ≤ k
    · rw [if_pos hpos, if_pos hpos]
    · rw [if_neg hpos, if_neg hpos, if_pos hlow]

/-- Both powers of ten are too small to count. -/
theorem scaled_small (d : UInt64) {j k : Int} (hj : j < -616) (hk : k < -616) :
    scaled fl d j = scaled fl d k := by
  rw [scaled, scaled]
  simp only [show ¬ 0 ≤ j by omega, show ¬ 0 ≤ k by omega, show ¬ -308 ≤ j by omega,
    show ¬ -308 ≤ k by omega, show ¬ -616 ≤ j by omega, show ¬ -616 ≤ k by omega, if_false]

theorem finish_overflow {m : Number} (hdouble : m.useDouble = true)
    (hout : ¬ InInt (m.exp + m.expFrac)) (r : Bytes) : finish fl m r = .error .overflow r := by
  rw [finish, if_pos hdouble, int_of_not_inInt hout]
  rfl

/-- What is done with a double behind the last digit. -/
theorem finish_run {m : Number} (hdouble : m.useDouble = true) (hint : InInt (m.exp + m.expFrac))
    (htable : m.exp + m.expFrac ≤ 308) {k : Int} (hk : k ≤ 308)
    (hscale : scaled fl m.d (m.exp + m.expFrac) = scaled fl m.d k) (shift : Nat) (r : Bytes) :
    Outcome shift r (finish fl m r) (doubleScalar fl m.minus m.d k) := by
  have hrun := @strtod_run fl m.d _ htable r
  rw [hscale] at hrun
  rw [finish, if_pos hdouble, int_of_inInt hint, pure_bind, Outcome.bind_of_ok hrun, doubleScalar]
  by_cases hbig : fl.exceedsMax (scaled fl m.d k) = true
  · rw [if_pos hbig, if_pos (.inr hbig)]
    exact ⟨_, r, rfl, .inl rfl⟩
  · have hnot : ¬ (308 < k ∨ fl.exceedsMax (scaled fl m.d k) = true) := by
      rintro (hlt | hbig')
      · omega
      · exact hbig hbig'
    rw [if_neg hbig, if_neg hnot]
    rfl

/-! ### The exponent and the end -/

theorem expSigned_run {sign : ExpSign} {c : UInt8} {ds : Bytes} (hc : isDigit c = true)
    {m : Number} (hplain : m.expMinus = false) : expSigned m (sign.text ++ (c :: ds)) =
      expDigits { m with expMinus := decide (sign = .minus) } (c :: ds) := by
  have hstart : ∀ b, isDigit b = false → Stops (· = b) (c :: ds) := by
    intro b hb
    refine stops_cons.mpr ?_
    rintro rfl
    simp [hc] at hb
  cases sign with
  | none =>
      show expSigned m (c :: ds) = _
      rw [expSigned, Outcome.bind_of_ok (consume_of_stops (hstart _ (by decide))),
        if_neg (by decide), Outcome.bind_of_ok (consume_of_stops (hstart _ (by decide)))]
      rfl
  | plus =>
      show expSigned m (0x2B :: c :: ds) = _
      rw [expSigned, Outcome.bind_of_ok (consume_of_head _ _), if_pos rfl]
      show expDigits m _ = expDigits { m with expMinus := false } _
      rw [← hplain]
  | minus =>
      show expSigned m (0x2D :: c :: ds) = _
      rw [expSigned, Outcome.bind_of_ok (consume_of_stops (stops_cons.mpr (by decide))),
        if_neg (by decide), Outcome.bind_of_ok (consume_of_head _ _)]
      rfl

theorem parseExp_letter {e : ExpPart} (he : e.Valid) (m : Number) (s : Bytes) :
    parseExp fl m (e.letter :: s) = expSigned (toDouble fl m) s := by
  have hletter : (consume 0x65 <||> consume 0x45) (e.letter :: s) = .ok true s := by
    rcases he.letter with hlower | hupper
    · rw [hlower]
      exact Outcome.bind_of_ok (consume_of_head _ _)
    · rw [hupper]
      exact (Outcome.bind_of_ok (consume_of_stops (stops_cons.mpr (by decide)))).trans
        (consume_of_head _ _)
  rw [parseExp, Outcome.bind_of_ok hletter, if_pos rfl]

/-- What follows the fraction. -/
def afterFrac (fl : Doubles) (m : Number) : ScanM Scalar := parseExp fl m >>= finish fl

/-- A number with an exponent that is not negative. -/
theorem plus_run {c : UInt8} {ds r : Bytes} (hds : Digits (c :: ds))
    (hr : Stops (isDigit · = true) r) {m : Number} (hsign : m.expMinus = false)
    (hdouble : m.useDouble = true) {shift : Nat} (hfrac : m.expFrac = -(shift : Int)) :
    Outcome shift r ((expDigits m >>= finish fl) (c :: (ds ++ r)))
      (if 308 + shift < 2 ^ 31 then
        doubleScalar fl m.minus m.d (Numeral.value 10 (c :: ds) - shift) else none) := by
  obtain ⟨hfit, hbig⟩ := plusDigits_run hds hr hsign hfrac
  by_cases hread : 308 + shift < 2 ^ 31 ∧ Numeral.value 10 (c :: ds) ≤ 308 + shift
  · rw [if_pos hread.1, Outcome.bind_of_ok (hfit hread.1 hread.2)]
    have hpower : (Numeral.value 10 (c :: ds) : Int) + m.expFrac =
        Numeral.value 10 (c :: ds) - shift := by
      rw [hfrac]
      rfl
    refine @finish_run fl { m with exp := (Numeral.value 10 (c :: ds) : Int) } hdouble ?_ ?_ _
      (by omega) ?_ shift r
    · exact ⟨by dsimp only; omega, by dsimp only; omega⟩
    · dsimp only
      omega
    · dsimp only
      rw [hpower]
  · obtain ⟨e, r', hrun, he⟩ := hbig hread
    have hnone : (if 308 + shift < 2 ^ 31 then
        doubleScalar fl m.minus m.d (Numeral.value 10 (c :: ds) - shift) else none) = none := by
      split
      · rw [doubleScalar, if_pos (.inl (by omega))]
      · rfl
    rw [hnone]
    exact ⟨e, r', Outcome.bind_of_error hrun, he⟩

/-- A number with a negative exponent. Where that is cut off, both powers of ten are too small
to count. -/
theorem minus_run {c : UInt8} {ds r : Bytes} (hds : Digits (c :: ds))
    (hr : Stops (isDigit · = true) r) {m : Number} (hsign : m.expMinus = true)
    (hdouble : m.useDouble = true) {shift : Nat} (hfrac : m.expFrac = -(shift : Int))
    (hshift : shift ≤ 2 ^ 31) :
    Outcome shift r ((expDigits m >>= finish fl) (c :: (ds ++ r)))
      (if cutPast ((2147483639 - shift) / 10) (digitValue c) ds + shift ≤ 2 ^ 31 then
        doubleScalar fl m.minus m.d (-(Numeral.value 10 (c :: ds) : Int) - shift) else none) := by
  obtain ⟨hc, hrest⟩ := List.forall_mem_cons.mp hds
  have hlt := (digit_facts hc).2.1
  have hcases := cutPast_cases ((2147483639 - shift) / 10) (digitValue c) ds
  have hle := @cutPast_le ((2147483639 - shift) / 10) (digitValue c) ds hrest (by omega)
  rw [Outcome.bind_of_ok (minusDigits_run hds hr hsign hfrac hshift), ← value_digits] at *
  generalize cutPast ((2147483639 - shift) / 10) (digitValue c) ds = e at *
  by_cases hin : e + shift ≤ 2 ^ 31
  · rw [if_pos hin]
    refine @finish_run fl { m with exp := -(e : Int) } hdouble ?_ ?_ _ (by omega) ?_ shift r
    · exact ⟨by dsimp only; omega, by dsimp only; omega⟩
    · dsimp only
      omega
    · dsimp only
      rcases hcases with heq | ⟨hpast, hvalue⟩
      · rw [heq, hfrac]
        rfl
      · exact scaled_small m.d (by omega) (by omega)
  · have hout : ¬ InInt (-(e : Int) + m.expFrac) := by
      intro h
      have hlow := h.1
      omega
    rw [if_neg hin]
    exact ⟨_, r, @finish_overflow fl { m with exp := -(e : Int) } hdouble hout r,
      .inr ⟨rfl, by omega⟩⟩

theorem fitsInt_minus {shift : Nat} {letter c : UInt8} {ds : Bytes} (h : shift ≤ 2 ^ 31) :
    fitsInt shift (some ⟨letter, .minus, c :: ds⟩) = true ↔
      cutPast ((2147483639 - shift) / 10) (digitValue c) ds + shift ≤ 2 ^ 31 := by
  simp only [fitsInt, Bool.and_eq_true, decide_eq_true_eq]
  exact and_iff_right h

theorem fitsInt_plus {shift : Nat} {letter : UInt8} {sign : ExpSign} {ds : Bytes}
    (h : sign ≠ .minus) : fitsInt shift (some ⟨letter, sign, ds⟩) = true ↔
      308 + shift < 2 ^ 31 := by
  cases sign with
  | minus => exact absurd rfl h
  | none | plus => simp only [fitsInt, decide_eq_true_eq]

/-- A number with an exponent is read as its scalar. -/
theorem exp_run {p : Parts} {e : ExpPart} (hexp : p.exp = some e) (he : e.Valid) {r : Bytes}
    (hr : Stops (isDigit · = true) r) {m : Number} (hm : SigRead fl p m)
    (hshift : (p.significand fl).2 ≤ 2 ^ 31) :
    Outcome (p.significand fl).2 r (afterFrac fl m (e.text ++ r)) (p.double fl) := by
  obtain ⟨hminus, hdouble, hfrac, hplain⟩ := @toDouble_frame fl m
  obtain ⟨letter, sign, digits⟩ := e
  obtain ⟨-, hds, hne⟩ := id he
  obtain ⟨c, ds, rfl⟩ := List.exists_cons_of_ne_nil hne
  have hc : isDigit c = true := (List.forall_mem_cons.mp hds).1
  have hstart : afterFrac fl m (ExpPart.text ⟨letter, sign, c :: ds⟩ ++ r) =
      (expDigits { toDouble fl m with expMinus := decide (sign = .minus) } >>= finish fl)
        (c :: (ds ++ r)) := by
    have hrun : parseExp fl m (ExpPart.text ⟨letter, sign, c :: ds⟩ ++ r) =
        expDigits { toDouble fl m with expMinus := decide (sign = .minus) } (c :: (ds ++ r)) := by
      rw [ExpPart.text, List.cons_append, List.append_assoc]
      exact (parseExp_letter he m _).trans (expSigned_run hc (hplain.trans hm.plain.1))
    show EStateM.bind _ _ _ = EStateM.bind _ _ _
    rw [EStateM.bind, EStateM.bind, hrun]
  have hkeep := hfrac.trans hm.frac
  have hsign := hminus.trans hm.sign
  rw [hstart, Parts.double, hexp]
  dsimp only
  rw [← hm.d, ← hsign]
  generalize (p.significand fl).2 = shift at hshift hkeep ⊢
  cases sign with
  | minus =>
      simp only [@fitsInt_minus shift letter c ds hshift]
      exact minus_run hds hr (m := { toDouble fl m with expMinus := true }) rfl hdouble hkeep hshift
  | none =>
      simp only [@fitsInt_plus shift letter .none (c :: ds) (by decide)]
      exact plus_run hds hr (m := { toDouble fl m with expMinus := false }) rfl hdouble hkeep
  | plus =>
      simp only [@fitsInt_plus shift letter .plus (c :: ds) (by decide)]
      exact plus_run hds hr (m := { toDouble fl m with expMinus := false }) rfl hdouble hkeep

end Number

namespace Number

/-- A number, up to its fraction. -/
theorem parts_run {p : Parts} (hp : p.Valid) {r : Bytes} (hr : Stops IsNumberByte r) : ∃ m,
    parseNumber fl (p.text ++ r) =
      (parseFrac fl m >>= afterFrac fl) (fracText p.frac ++ (expText p.exp ++ r)) ∧
      PartRead fl p m := by
  obtain ⟨hdigit, -⟩ := stops_exp hp.exp hr
  obtain ⟨m, hint, hread⟩ := @integerPart_run fl p.minus p.int
    (fracText p.frac ++ (expText p.exp ++ r)) hp.int (fracText_stops (by decide) hdigit)
  refine ⟨m, ?_, hread⟩
  rw [Parts.text, List.append_assoc, List.append_assoc, List.append_assoc,
    parseNumber_sign p.minus (intDigits_begins hp.int _), Outcome.bind_of_ok hint]
  rfl

theorem fitsInt_shift {shift : Nat} {exp : Option ExpPart} (h : fitsInt shift exp = true) :
    shift ≤ 2 ^ 31 := by
  unfold fitsInt at h
  split at h
  · exact of_decide_eq_true h
  · split at h
    · rw [Bool.and_eq_true, decide_eq_true_eq] at h
      exact h.1
    · have hlt := of_decide_eq_true h
      omega

/-- A number that is read as a double. -/
theorem double_run {p : Parts} (hp : p.Valid) {r : Bytes} (hr : Stops IsNumberByte r)
    (hdouble : p.exp ≠ none ∨ p.frac ≠ none ∨ bound64 p.minus < Numeral.value 10 p.int)
    {m : Number} (hm : PartRead fl p m) : Outcome (p.significand fl).2 r
      ((parseFrac fl m >>= afterFrac fl) (fracText p.frac ++ (expText p.exp ++ r)))
      (p.double fl) := by
  obtain ⟨hdigit, hpoint⟩ := stops_exp hp.exp hr
  obtain ⟨hfit, hover⟩ := significand_run hp hdigit hpoint hm
  rcases Nat.lt_or_ge (2 ^ 31) (p.significand fl).2 with hpast | hshift
  · obtain ⟨r', hrun⟩ := hover hpast
    have hnone : p.double fl = none :=
      if_neg fun h => absurd (fitsInt_shift h) (Nat.not_le.mpr hpast)
    rw [hnone, Outcome.bind_of_error hrun]
    exact ⟨_, r', rfl, .inr ⟨rfl, by omega⟩⟩
  · obtain ⟨m', hrun, hread⟩ := hfit hshift
    rw [Outcome.bind_of_ok hrun]
    cases hexp : p.exp with
    | none =>
        have hbyte : ∀ d, IsNumberByte d → Stops (· = d) r := fun d hd => hr.mono fun _ h => h ▸ hd
        have huse := hread.double (hdouble.resolve_left (by simp [hexp]))
        have hscalar : p.double fl = doubleScalar fl m'.minus m'.d (0 - (p.significand fl).2) := by
          have hd := hread.d
          rw [toDouble_of_useDouble huse] at hd
          rw [Parts.double, hexp, hread.sign, hd]
          exact if_pos (decide_eq_true hshift)
        have hend : afterFrac fl m' r = finish fl m' r :=
          Outcome.bind_of_ok (parseExp_of_stops (hbyte _ (by simp [IsNumberByte]))
            (hbyte _ (by simp [IsNumberByte])))
        have hpower : m'.exp + m'.expFrac = 0 - (p.significand fl).2 := by
          rw [hread.plain.2, hread.frac]
          omega
        rw [expText, List.nil_append, hend, hscalar]
        exact finish_run huse ⟨by omega, by omega⟩ (by omega) (by omega) (by rw [hpower]) _ r
    | some e => exact exp_run hexp (hp.exp e hexp) (hr.mono fun _ h => .inl h) hread hshift

end Number

/-- A number that nothing continues is read as its scalar, or it has none. -/
theorem parseNumber_outcome {p : Parts} (hp : p.Valid) {r : Bytes} (hr : Stops IsNumberByte r) :
    Outcome (p.significand fl).2 r (parseNumber fl (p.text ++ r)) (p.scalar fl) := by
  obtain ⟨m, hrun, hread⟩ := @Number.parts_run fl p hp r hr
  have hdouble : p.scalar fl = p.double fl →
      (p.exp ≠ none ∨ p.frac ≠ none ∨ Number.bound64 p.minus < Numeral.value 10 p.int) →
      Outcome (p.significand fl).2 r (parseNumber fl (p.text ++ r)) (p.scalar fl) := by
    intro hscalar h
    rw [hrun, hscalar]
    exact Number.double_run hp hr h hread
  cases hfrac : p.frac with
  | some f => exact hdouble (by simp [Parts.scalar, hfrac]) (.inr (.inl (by simp [hfrac])))
  | none =>
      cases hexp : p.exp with
      | some e => exact hdouble (by simp [Parts.scalar, hexp]) (.inl (by simp [hexp]))
      | none =>
          cases hint : integerScalar p.minus (Numeral.value 10 p.int) with
          | none =>
              exact hdouble (by simp [Parts.scalar, hint])
                (.inr (.inr (bound_of_integerScalar hint)))
          | some s =>
              have hscalar : p.scalar fl = some s := by simp [Parts.scalar, hfrac, hexp, hint]
              rw [hscalar, hrun, hfrac, hexp]
              exact (Number.afterInteger_of_stops hr).trans (finish_integer hread hint r)

/-- Fewer digits behind its point than an `int` can count make a number too big at worst. -/
theorem parseNumber_scalar {p : Parts} (hp : p.Valid) (hlen : (p.frac.getD []).length ≤ 214748055)
    {r : Bytes} (hr : Stops IsNumberByte r) :
    match p.scalar fl with
    | some x => parseNumber fl (p.text ++ r) = .ok x r
    | none => ∃ r', parseNumber fl (p.text ++ r) = .error (.error .numberTooBig) r' := by
  have houtcome := @parseNumber_outcome fl p hp r hr
  cases hscalar : p.scalar fl with
  | some x =>
      rw [hscalar] at houtcome
      exact houtcome
  | none =>
      rw [hscalar] at houtcome
      obtain ⟨e, r', hrun, rfl | ⟨-, hlong⟩⟩ := houtcome
      · exact ⟨r', hrun⟩
      · exact absurd (Nat.lt_of_lt_of_le hlong p.significand_shift) (Nat.not_lt.mpr hlen)

theorem scalar_of_parseNumber {p : Parts} (hp : p.Valid) {r : Bytes} (hr : Stops IsNumberByte r)
    {x : Scalar} (h : parseNumber fl (p.text ++ r) = .ok x r) : p.scalar fl = some x := by
  have houtcome := @parseNumber_outcome fl p hp r hr
  rw [h] at houtcome
  cases hscalar : p.scalar fl with
  | some y =>
      rw [hscalar] at houtcome
      cases houtcome
      rfl
  | none =>
      rw [hscalar] at houtcome
      obtain ⟨e, r', hrun, -⟩ := houtcome
      cases hrun

theorem parseNumber_eq_ok {s r : Bytes} {x : Scalar} (hr : Stops IsNumberByte r) :
    parseNumber fl s = .ok x r ↔ ∃ p : Parts, p.Valid ∧ p.scalar fl = some x ∧ s = p.text ++ r := by
  constructor
  · intro h
    obtain ⟨p, hp, rfl⟩ := parts_of_parseNumber h
    exact ⟨p, hp, scalar_of_parseNumber hp hr h, rfl⟩
  · rintro ⟨p, hp, hscalar, rfl⟩
    have houtcome := @parseNumber_outcome fl p hp r hr
    rw [hscalar] at houtcome
    exact houtcome

/-- The numbers that are read are those of the grammar. Where one of them is not read, it is too
big, unless it has more digits behind its point than an `int` can count. -/
theorem parseNumber_grammar (fl : Doubles) :
    (∀ s r x, parseNumber fl s = .ok x r → ∃ p : Parts, p.Valid ∧ s = p.text ++ r ∧
      (Stops IsNumberByte r → p.scalar fl = some x)) ∧
      ∀ (p : Parts) (r : Bytes), p.Valid → Stops IsNumberByte r →
        (p.frac.getD []).length ≤ 214748055 →
          match p.scalar fl with
          | some x => parseNumber fl (p.text ++ r) = .ok x r
          | none => ∃ r', parseNumber fl (p.text ++ r) = .error (.error .numberTooBig) r' := by
  refine ⟨fun s r x h => ?_, fun _ _ hp hr hlen => parseNumber_scalar hp hlen hr⟩
  obtain ⟨p, hp, rfl⟩ := parts_of_parseNumber h
  exact ⟨p, hp, rfl, fun hr => scalar_of_parseNumber hp hr h⟩

/-! ## Decimals -/

/-- The digits of a number, without its point. -/
def Parts.digits (p : Parts) : Bytes := p.int ++ p.frac.getD []

/-- The exponent, once the point has been moved behind the last digit. -/
def Parts.scale (p : Parts) : Int := expValue p.exp - (p.frac.getD []).length

/-- As long as the significand is small, all digits of a fraction are taken into it. -/
theorem fracExact_of_small {significant v shift : Nat} {f : Bytes}
    (hsmall : Numeral.valueFrom 10 v f / 10 < 2 ^ 53) : fracExact fl significant v shift f =
      (fl.ofUInt64 (UInt64.ofNat (Numeral.valueFrom 10 v f)), shift + f.length) := by
  induction f generalizing significant v shift with
  | nil => rfl
  | cons c f ih =>
      have hcons : Numeral.valueFrom 10 v (c :: f) =
          Numeral.valueFrom 10 (10 * v + digitValue c) f := rfl
      have hle := le_valueFrom (10 * v + digitValue c) f
      rw [hcons] at hsmall ⊢
      rw [fracExact_small (by omega), ih hsmall, List.length_cons, Nat.add_assoc, Nat.add_comm 1]

theorem Parts.significand_of_small {p : Parts} (hsmall : Numeral.value 10 p.digits / 10 < 2 ^ 53) :
    p.significand fl = (fl.ofUInt64 (UInt64.ofNat (Numeral.value 10 p.digits)),
      (p.frac.getD []).length) := by
  have hvalue : Numeral.value 10 p.digits =
      Numeral.valueFrom 10 (Numeral.value 10 p.int) (p.frac.getD []) := by
    rw [Parts.digits, Numeral.value_eq_valueFrom, Numeral.valueFrom_append]
    rfl
  rw [hvalue] at hsmall ⊢
  have hle := le_valueFrom (Numeral.value 10 p.int) (p.frac.getD [])
  have h64 : 10 * 2 ^ 53 ≤ Number.bound64 p.minus := by cases p.minus <;> decide
  rw [Parts.significand, if_pos (by omega), fracExact_of_small hsmall, Nat.zero_add]

/-- A short number overflows no `int`. -/
theorem fitsInt_of_short {shift : Nat} (h : shift ≤ 214748055) {exp : Option ExpPart}
    (hexp : ∀ e, exp = some e → e.Valid) : fitsInt shift exp = true := by
  cases exp with
  | none => exact decide_eq_true (Nat.le_trans h (by decide))
  | some e =>
      obtain ⟨letter, sign, digits⟩ := e
      obtain ⟨-, hds, hne⟩ := hexp _ rfl
      obtain ⟨c, ds, rfl⟩ := List.exists_cons_of_ne_nil hne
      obtain ⟨hc, hrest⟩ := List.forall_mem_cons.mp hds
      have hlt := (digit_facts hc).2.1
      by_cases hsign : sign = .minus
      · subst hsign
        have hle := @cutPast_le ((2147483639 - shift) / 10) (digitValue c) ds hrest (by omega)
        exact (Number.fitsInt_minus (by omega)).mpr (by omega)
      · exact (Number.fitsInt_plus hsign).mpr (by omega)

/-- A decimal whose digits make a small number is that number times a power of ten, in the
arithmetic of doubles. -/
theorem parseNumber_decimal {p : Parts} (hp : p.Valid) (hdec : p.frac ≠ none ∨ p.exp ≠ none)
    (hsmall : Numeral.value 10 p.digits / 10 < 2 ^ 53)
    (hlen : (p.frac.getD []).length ≤ 214748055) {r : Bytes} (hr : Stops IsNumberByte r) :
    match doubleScalar fl p.minus (fl.ofUInt64 (UInt64.ofNat (Numeral.value 10 p.digits)))
      p.scale with
    | some x => parseNumber fl (p.text ++ r) = .ok x r
    | none => ∃ r', parseNumber fl (p.text ++ r) = .error (.error .numberTooBig) r' := by
  have hscalar : p.scalar fl = doubleScalar fl p.minus
      (fl.ofUInt64 (UInt64.ofNat (Numeral.value 10 p.digits))) p.scale := by
    have hdouble : p.scalar fl = p.double fl := by
      rcases hdec with hfrac | hexp
      · obtain ⟨f, hf⟩ := Option.ne_none_iff_exists'.mp hfrac
        simp [Parts.scalar, hf]
      · obtain ⟨e, he⟩ := Option.ne_none_iff_exists'.mp hexp
        simp [Parts.scalar, he]
    rw [hdouble, Parts.double, Parts.significand_of_small hsmall]
    exact if_pos (fitsInt_of_short hlen hp.exp)
  have hread := @parseNumber_scalar fl _ hp hlen _ hr
  rw [hscalar] at hread
  exact hread

/-- `-1.5`. -/
theorem parseNumber_decimal_half :
    match doubleScalar .machine true (Doubles.machine.ofUInt64 15) (-1) with
    | some x => parseNumber .machine [0x2D, 0x31, 0x2E, 0x35] = .ok x []
    | none => ∃ r, parseNumber .machine [0x2D, 0x31, 0x2E, 0x35] =
        .error (.error .numberTooBig) r := by
  have hvalid : Parts.Valid ⟨true, [0x31], some [0x35], none⟩ :=
    { int := .digits (by decide) (by decide) (by decide)
      frac := by
        rintro _ ⟨⟩
        exact ⟨by decide, by decide⟩
      exp := by simp }
  exact @parseNumber_decimal .machine _ hvalid (.inl (by simp)) (by decide) (by decide) []
    stops_nil

end Reader

end FlexEtl
