/-
FlexEtl.Json.NumberScan — how `ParseNumber` can fail.

In a text of less than 2^26 bytes the scanner of numbers leaves neither the
table of the powers of ten nor the values of an `int` (`runs_parseNumber`): a
positive exponent is refused before it could, a negative one is cut off, and
`StrtodNormalPrecision` divides a small power in two.
-/
import FlexEtl.Json.StringTheorems

namespace FlexEtl

namespace Reader

open Decoder

variable {n : Nat} {fl : Doubles}

/-- A byte with which a number can go on. -/
def IsNumberByte (c : UInt8) : Prop :=
  isDigit c = true ∨ c = 0x2B ∨ c = 0x2D ∨ c = 0x2E ∨ c = 0x45 ∨ c = 0x65

theorem digit_facts {c : UInt8} (h : isDigit c = true) :
    (c - 0x30).toNat = digitValue c ∧ digitValue c < 10 ∧ Numeral.isDigit 10 c = true := by
  have hall : ∀ i : Fin 256, isDigit (UInt8.ofFin i) = true →
      (UInt8.ofFin i - 0x30).toNat = digitValue (UInt8.ofFin i) ∧
        digitValue (UInt8.ofFin i) < 10 ∧ Numeral.isDigit 10 (UInt8.ofFin i) = true := by
    decide +kernel
  exact hall c.toFin h

theorem digitNat_le {c : UInt8} (h : isDigit c = true) : (c - 0x30).toNat ≤ 9 := by
  obtain ⟨hvalue, hlt, -⟩ := digit_facts h
  omega

/-! ## Cases of the scanner -/

namespace Number

variable {m : Number}

theorem parseInt_nil (m : Number) : parseInt m [] = .error (.error .valueInvalid) [] := rfl

theorem parseInt_zero (m : Number) (s : Bytes) :
    parseInt m (0x30 :: s) = .ok { m with i := 0 } s := rfl

/-- The loop over 32 bits. -/
def intLoop (m : Number) : ScanM Number :=
  if m.minus then scanLoop (intTurn 214748364 0x38) m else scanLoop (intTurn 429496729 0x35) m

theorem parseInt_digit (m : Number) {c : UInt8} (hlow : 0x31 ≤ c) (hhigh : c ≤ 0x39) (s : Bytes) :
    parseInt m (c :: s) = intLoop { m with i := (c - 0x30).toUInt32 } s := by
  have hzero : c ≠ 0x30 := by
    rintro rfl
    exact absurd hlow (by decide)
  rw [parseInt, peek_bind_cons, if_neg hzero, if_pos ⟨hlow, hhigh⟩]
  rfl

theorem parseInt_other (m : Number) {c : UInt8} (hzero : c ≠ 0x30)
    (hdigit : ¬ (0x31 ≤ c ∧ c ≤ 0x39)) (s : Bytes) :
    parseInt m (c :: s) = .error (.error .valueInvalid) (c :: s) := by
  rw [parseInt, peek_bind_cons, if_neg hzero, if_neg hdigit]
  rfl

theorem int_of_inInt {x : Int} (h : InInt x) : int x = pure x := if_pos h

theorem int_of_not_inInt {x : Int} (h : ¬ InInt x) : int x = throw .overflow := if_neg h

theorem expDigits_nil (m : Number) : expDigits m [] = .error (.error .numberMissExponent) [] := rfl

/-- The exponent behind its first digit. -/
def expLoop (m : Number) : ScanM Number :=
  if m.expMinus then do
    let maxExp := Int.tdiv (← int (m.expFrac + 2147483639)) 10
    let m ← scanLoop (expMinusTurn maxExp) m
    let m ← scanLoop restTurn m
    return { m with exp := -m.exp }
  else do
    let maxExp ← int (308 - m.expFrac)
    scanLoop (expPlusTurn maxExp) m

theorem expDigits_digit (m : Number) {c : UInt8} (hc : isDigit c = true) (s : Bytes) :
    expDigits m (c :: s) = expLoop { m with exp := ((c - 0x30).toNat : Int) } s := by
  rw [expDigits, peek_bind_cons, if_pos hc]
  rfl

theorem expDigits_other (m : Number) {c : UInt8} (hc : isDigit c = false) (s : Bytes) :
    expDigits m (c :: s) = .error (.error .numberMissExponent) (c :: s) := by
  rw [expDigits, peek_bind_cons, if_neg (by simp [hc])]
  rfl

end Number

/-! ## Errors -/

namespace Number

variable {m : Number}

/-- Before the exponent: at most `k` digits of a fraction have been counted. -/
structure NoExp (k : Nat) (m : Number) : Prop where
  low : -(k : Int) ≤ m.expFrac
  high : m.expFrac ≤ 0
  exp : m.exp = 0

/-- The power of ten that the significand is multiplied with is an `int`, and it is in the
table, unless it is negative. -/
structure InTable (m : Number) : Prop where
  low : -2147483648 ≤ m.exp + m.expFrac
  high : m.exp + m.expFrac ≤ 308

theorem NoExp.mono {k l : Nat} (hm : NoExp k m) (h : k ≤ l) : NoExp l m where
  low := Int.le_trans (Int.neg_le_neg (by exact_mod_cast h)) hm.low
  high := hm.high
  exp := hm.exp

theorem NoExp.inTable {k : Nat} (hm : NoExp k m) (hk : k ≤ 2 ^ 27) : InTable m := by
  obtain ⟨hlow, hhigh, hexp⟩ := hm
  exact ⟨by omega, by omega⟩

theorem runs_intLoop {k : Nat} (hm : NoExp k m) : Runs n (intLoop m) IsError (NoExp k) := by
  have hturn : ∀ limit last m c, NoExp k m →
      (intTurn limit last m c).Keeps IsError (NoExp k) := by
    intro limit last m c hm
    unfold intTurn
    split
    · split <;> exact ⟨hm.low, hm.high, hm.exp⟩
    · exact hm
  exact Runs.ite (fun _ => Runs.scanLoop (hturn _ _) hm) fun _ => Runs.scanLoop (hturn _ _) hm

theorem runs_parseInt {k : Nat} (hm : NoExp k m) : Runs n (parseInt m) IsError (NoExp k) := by
  obtain ⟨hlow, hhigh, hexp⟩ := hm
  refine runs_of_head ⟨_, parseInt_nil m⟩ fun c => ?_
  by_cases hzero : c = 0x30
  · subst hzero
    exact .inl ⟨pure { m with i := 0 }, Runs.pure ⟨hlow, hhigh, hexp⟩, parseInt_zero m⟩
  · by_cases hdigit : 0x31 ≤ c ∧ c ≤ 0x39
    · exact .inl ⟨_, @runs_intLoop n { m with i := (c - 0x30).toUInt32 } k ⟨hlow, hhigh, hexp⟩,
        parseInt_digit m hdigit.1 hdigit.2⟩
    · exact .inr ⟨_, parseInt_other m hzero hdigit⟩

theorem runs_parseInt64 {k : Nat} (hm : NoExp k m) :
    Runs n (parseInt64 fl m) IsError (NoExp k) := by
  have hturn : ∀ limit last m c, NoExp k m →
      (int64Turn fl limit last m c).Keeps IsError (NoExp k) := by
    intro limit last m c hm
    unfold int64Turn
    split
    · split <;> exact ⟨hm.low, hm.high, hm.exp⟩
    · exact hm
  refine Runs.ite (fun _ => ?_) fun _ => Runs.pure hm
  exact Runs.ite (fun _ => Runs.scanLoop (hturn _ _) hm) fun _ => Runs.scanLoop (hturn _ _) hm

theorem runs_parseBig {k : Nat} (hm : NoExp k m) : Runs n (parseBig fl m) IsError (NoExp k) := by
  refine Runs.ite (fun _ => Runs.scanLoop (fun m c hm => ?_) hm) fun _ => Runs.pure hm
  unfold bigTurn
  split
  · exact ⟨hm.low, hm.high, hm.exp⟩
  · exact hm

/-- One more digit of the fraction. -/
theorem NoExp.leads_lowerFrac {k : Nat} {Q : Number → Prop} (hm : NoExp k m) (hk : k < 2 ^ 27) :
    (lowerFrac m).Leads IsError (NoExp (k + 1)) Q := by
  obtain ⟨hlow, hhigh, hexp⟩ := hm
  have hint : InInt (m.expFrac - 1) := ⟨by omega, by omega⟩
  rw [lowerFrac, if_pos hint]
  exact ⟨by push_cast; omega, by dsimp only; omega, hexp⟩

theorem runs_fracLoop {turn : Number → UInt8 → Turn}
    (hturn : ∀ k m c, k < 2 ^ 27 → NoExp k m →
      (turn m c).Leads IsError (NoExp (k + 1)) (NoExp k)) {k : Nat} (hk : k + n ≤ 2 ^ 27)
    (hm : NoExp k m) : Runs n (scanLoop turn m) IsError (NoExp (k + n)) := by
  refine Runs.scanLoop_count (P := fun j => NoExp (k + j)) (fun j m c hj hm => ?_)
    (fun j m hj hm => hm.mono (by omega)) hm
  have hleads := hturn (k + j) m c (by omega) hm
  cases hcase : turn m c with
  | take m' =>
      rw [hcase] at hleads
      exact hleads
  | last m' | stop m' =>
      rw [hcase] at hleads
      exact NoExp.mono hleads (by omega)
  | fail e =>
      rw [hcase] at hleads
      exact hleads

theorem runs_fracDouble {k : Nat} (hk : k + n ≤ 2 ^ 27) (hm : NoExp k m) :
    Runs n (scanLoop (fracDoubleTurn fl) m) IsError (NoExp (k + n)) := by
  refine runs_fracLoop (fun k m c hk hm => ?_) hk hm
  unfold fracDoubleTurn
  split
  · split
    · exact NoExp.leads_lowerFrac ⟨hm.low, hm.high, hm.exp⟩ hk
    · exact hm.mono (Nat.le_succ k)
  · exact hm

theorem runs_parseFrac (hn : n ≤ 2 ^ 26) (hm : NoExp 0 m) :
    Runs n (parseFrac fl m) IsError (NoExp (n + n)) := by
  refine (runs_consume _).bind fun b _ => Runs.ite (fun _ => ?_) fun _ =>
    Runs.pure (hm.mono (Nat.zero_le _))
  refine runs_peek.bind fun c _ => Runs.ite (fun _ => ?_) fun _ => runs_parseError _
  refine Runs.ite (fun _ => ?_) fun _ => Runs.bind (P := NoExp (0 + n)) ?_ fun m hm => ?_
  · exact (runs_fracDouble (by omega) hm).mono fun m hm => hm.mono (by omega)
  · refine runs_fracLoop (fun k m c hk hm => ?_) (by omega) ⟨hm.low, hm.high, hm.exp⟩
    unfold fracTurn
    split
    · split
      · exact hm
      · exact NoExp.leads_lowerFrac ⟨hm.low, hm.high, hm.exp⟩ hk
    · exact hm
  · rw [Nat.zero_add] at hm
    exact runs_fracDouble (by omega) ⟨hm.low, hm.high, hm.exp⟩

/-- A digit behind an exponent that is small enough is taken without an overflow. -/
theorem expMinusTurn_leads {maxExp : Int} (hmax : maxExp ≤ 214748363) {k : Int} {c : UInt8}
    (hm : m.expFrac = k ∧ 0 ≤ m.exp ∧ m.exp ≤ maxExp) : (expMinusTurn maxExp m c).Leads IsError
      (fun m => m.expFrac = k ∧ 0 ≤ m.exp ∧ m.exp ≤ maxExp)
      fun m => m.expFrac = k ∧ 0 ≤ m.exp ∧ m.exp ≤ 10 * maxExp + 9 := by
  obtain ⟨hfrac, hlow, hhigh⟩ := hm
  unfold expMinusTurn
  split
  · have hdigit : ((c - 0x30).toNat : Int) ≤ 9 := by exact_mod_cast digitNat_le ‹_›
    dsimp only
    rw [if_neg (not_not_intro ⟨by omega, by omega⟩)]
    split
    · exact ⟨hfrac, by dsimp only; omega, by dsimp only; omega⟩
    · exact ⟨hfrac, by dsimp only; omega, Int.not_lt.mp ‹_›⟩
  · exact ⟨hfrac, hlow, by omega⟩

theorem expPlusTurn_leads {maxExp : Int} (hmax : maxExp ≤ 214748363) {k : Int} {c : UInt8}
    (hm : m.expFrac = k ∧ 0 ≤ m.exp ∧ m.exp ≤ maxExp) : (expPlusTurn maxExp m c).Keeps IsError
      fun m => m.expFrac = k ∧ 0 ≤ m.exp ∧ m.exp ≤ maxExp := by
  obtain ⟨hfrac, hlow, hhigh⟩ := hm
  unfold expPlusTurn
  split
  · have hdigit : ((c - 0x30).toNat : Int) ≤ 9 := by exact_mod_cast digitNat_le ‹_›
    dsimp only
    rw [if_neg (not_not_intro ⟨by omega, by omega⟩)]
    split
    · exact ⟨_, rfl⟩
    · exact ⟨hfrac, by dsimp only; omega, Int.not_lt.mp ‹_›⟩
  · exact ⟨hfrac, hlow, hhigh⟩

/-- The exponent so far can be taken together with the digits of the fraction. -/
theorem runs_expLoop {k : Nat} (hk : k ≤ 2 ^ 27) (hfrac : -(k : Int) ≤ m.expFrac)
    (hneg : m.expFrac ≤ 0) (hlow : 0 ≤ m.exp) (hhigh : m.exp ≤ 9) :
    Runs n (expLoop m) IsError InTable := by
  refine Runs.ite (fun _ => ?_) fun _ => ?_
  · rw [int_of_inInt ⟨by omega, by omega⟩, pure_bind]
    have hmax : 10 * Int.tdiv (m.expFrac + 2147483639) 10 ≤ m.expFrac + 2147483639 ∧
        9 ≤ Int.tdiv (m.expFrac + 2147483639) 10 := by
      rw [Int.tdiv_eq_ediv_of_nonneg (by omega)]
      omega
    generalize Int.tdiv (m.expFrac + 2147483639) 10 = maxExp at hmax
    refine Runs.bind (P := fun m' => m'.expFrac = m.expFrac ∧ 0 ≤ m'.exp ∧
      m'.exp ≤ 10 * maxExp + 9) ?_ fun m₁ hm₁ => ?_
    · exact Runs.scanLoop_count (fun _ m' c _ => expMinusTurn_leads (by omega))
        (fun _ m' _ hm => ⟨hm.1, hm.2.1, by omega⟩) ⟨rfl, hlow, by omega⟩
    · refine Runs.bind (P := fun m' => m'.expFrac = m.expFrac ∧ 0 ≤ m'.exp ∧
        m'.exp ≤ 10 * maxExp + 9) ?_ fun m₂ hm₂ => ?_
      · refine Runs.scanLoop (fun m' c hm => ?_) hm₁
        unfold restTurn
        split <;> exact hm
      · exact Runs.pure ⟨by dsimp only; omega, by dsimp only; omega⟩
  · rw [int_of_inInt ⟨by omega, by omega⟩, pure_bind]
    refine (Runs.scanLoop (P := fun m' => m'.expFrac = m.expFrac ∧ 0 ≤ m'.exp ∧
      m'.exp ≤ 308 - m.expFrac) (fun m' c => expPlusTurn_leads (by omega))
      ⟨rfl, hlow, by omega⟩).mono fun m' hm => ?_
    exact ⟨by omega, by omega⟩

theorem runs_expDigits {k : Nat} (hk : k ≤ 2 ^ 27) (hfrac : -(k : Int) ≤ m.expFrac)
    (hneg : m.expFrac ≤ 0) : Runs n (expDigits m) IsError InTable := by
  refine runs_of_head ⟨_, expDigits_nil m⟩ fun c => ?_
  cases hc : isDigit c with
  | true =>
      have hdigit : ((c - 0x30).toNat : Int) ≤ 9 := by exact_mod_cast digitNat_le hc
      exact .inl ⟨_, @runs_expLoop n { m with exp := ((c - 0x30).toNat : Int) } k hk hfrac hneg
        (Int.natCast_nonneg _) hdigit, expDigits_digit m hc⟩
  | false => exact .inr ⟨_, expDigits_other m hc⟩

theorem runs_expSigned {k : Nat} (hk : k ≤ 2 ^ 27) (hfrac : -(k : Int) ≤ m.expFrac)
    (hneg : m.expFrac ≤ 0) : Runs n (expSigned m) IsError InTable := by
  refine (runs_consume _).bind fun b _ =>
    Runs.ite (fun _ => runs_expDigits hk hfrac hneg) fun _ => ?_
  exact (runs_consume _).bind fun b _ => @runs_expDigits n { m with expMinus := b } k hk hfrac hneg

theorem runs_parseExp {k : Nat} (hk : k ≤ 2 ^ 27) (hm : NoExp k m) :
    Runs n (parseExp fl m) IsError InTable := by
  refine Runs.bind (P := fun _ => True) ?_ fun b _ => ?_
  · refine (runs_consume _).bind fun found _ => ?_
    cases found with
    | true => exact Runs.pure trivial
    | false => exact runs_consume _
  · refine Runs.ite (fun _ => ?_) fun _ => Runs.pure (hm.inTable hk)
    have hdouble : (toDouble fl m).expFrac = m.expFrac := by
      unfold toDouble
      split <;> rfl
    exact runs_expSigned hk (hdouble ▸ hm.low) (hdouble ▸ hm.high)

/-- The number is too big. -/
def IsTooBig (e : ReaderFault) : Prop := e = .error .numberTooBig

theorem runs_pow10 {e : Int} (hlow : 0 ≤ e) (hhigh : e ≤ 308) :
    Runs n (pow10 fl e) IsTooBig fun _ => True :=
  Runs.ite (fun _ => Runs.pure trivial) fun h => absurd ⟨hlow, hhigh⟩ h

theorem runs_fastPath (d : UInt64) {e : Int} (h : e ≤ 308) :
    Runs n (fastPath fl d e) IsTooBig fun _ => True := by
  refine Runs.ite (fun _ => Runs.pure trivial) fun hlow => Runs.ite (fun hpos => ?_) fun hneg => ?_
  · exact (runs_pow10 hpos h).bind fun _ _ => Runs.pure trivial
  · exact (runs_pow10 (by omega) (by omega)).bind fun _ _ => Runs.pure trivial

theorem runs_finish (hm : InTable m) : Runs n (finish fl m) IsTooBig fun _ => True := by
  refine Runs.ite (fun _ => ?_) fun _ => Runs.ite (fun _ => Runs.pure trivial) fun _ =>
    Runs.pure trivial
  obtain ⟨hlow, hhigh⟩ := hm
  rw [int_of_inInt ⟨hlow, by omega⟩, pure_bind]
  refine Runs.bind (P := fun _ => True) (Runs.ite (fun _ => ?_) fun _ => ?_) fun d _ =>
    Runs.ite (fun _ => Runs.throw rfl) fun _ => Runs.pure trivial
  · exact (runs_fastPath _ (by decide)).bind fun d _ => runs_fastPath _ (by omega)
  · exact runs_fastPath _ hhigh

end Number

/-- A number is read, or it has an error in it. -/
theorem runs_parseNumber (hn : n ≤ 2 ^ 26) : Runs n (parseNumber fl) IsError fun _ => True := by
  refine (runs_consume _).bind fun minus _ => ?_
  refine (@Number.runs_parseInt n { minus } 0 ⟨by simp, Int.le_refl _, rfl⟩).bind fun m hm => ?_
  refine (Number.runs_parseInt64 hm).bind fun m hm => ?_
  refine (Number.runs_parseBig hm).bind fun m hm => ?_
  refine (Number.runs_parseFrac hn hm).bind fun m hm => ?_
  exact (Number.runs_parseExp (by omega) hm).bind fun m hm =>
    (Number.runs_finish hm).imp_error fun e he => ⟨_, he⟩

end Reader

end FlexEtl
