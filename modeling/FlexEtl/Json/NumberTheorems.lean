/-
FlexEtl.Json.NumberTheorems — the values of numbers.

The digits of an integer go through three loops: over 32 bits, over 64 bits and
over doubles. Each of the first two takes the digits as long as the value fits
(`Bounded.fits`) and leaves the next one to the loop behind it. So an integer
keeps its value in the narrowest type that holds it (`parseNumber_integer`),
and a decimal whose digits make a small enough number is scaled from that
number (`parseNumber_decimal`).
-/
import FlexEtl.Json.NumberScan

namespace FlexEtl

namespace Reader

open Decoder

variable {n : Nat} {fl : Doubles}

/-! ## Digits -/

theorem toUInt32_digit {c : UInt8} (h : isDigit c = true) :
    (c - 0x30).toUInt32.toNat = digitValue c := by
  rw [UInt8.toNat_toUInt32, (digit_facts h).1]

theorem toUInt64_digit {c : UInt8} (h : isDigit c = true) :
    (c - 0x30).toUInt64.toNat = digitValue c := by
  rw [UInt8.toNat_toUInt64, (digit_facts h).1]

/-- A digit compares like its number. -/
theorem lt_digit {c d : UInt8} (hc : isDigit c = true) (hd : isDigit d = true) :
    d < c ↔ digitValue d < digitValue c := by
  rw [← (digit_facts hc).1, ← (digit_facts hd).1, UInt8.lt_iff_toNat_lt]
  simp only [isDigit, Bool.and_eq_true, decide_eq_true_eq] at hc hd
  rw [UInt8.toNat_sub_of_le _ _ hc.1, UInt8.toNat_sub_of_le _ _ hd.1]
  have hlow := UInt8.le_iff_toNat_le.mp hd.1
  have hlow' := UInt8.le_iff_toNat_le.mp hc.1
  omega

theorem le_valueFrom (k : Nat) (ds : Bytes) : k ≤ Numeral.valueFrom 10 k ds := by
  rw [Numeral.valueFrom_eq]
  have hpos : 1 ≤ 10 ^ ds.length := Nat.one_le_pow _ _ (by decide)
  calc k = k * 1 := (Nat.mul_one k).symm
    _ ≤ k * 10 ^ ds.length := Nat.mul_le_mul_left k hpos
    _ ≤ _ := Nat.le_add_right _ _

theorem valueFrom_lt {k : Nat} {ds : Bytes} (hds : Digits ds) {j : Nat} (hk : k < 10 ^ j) :
    Numeral.valueFrom 10 k ds < 10 ^ (j + ds.length) := by
  induction ds generalizing k j with
  | nil => exact hk
  | cons c ds ih =>
      obtain ⟨hc, hds⟩ := List.forall_mem_cons.mp hds
      have hlt := (digit_facts hc).2.1
      have hnext : 10 * k + digitValue c < 10 ^ (j + 1) := by
        rw [Nat.pow_succ]
        omega
      rw [Numeral.valueFrom_cons, List.length_cons, Nat.add_comm ds.length, ← Nat.add_assoc]
      exact ih hds hnext

/-! ## Loops that stop before a bound -/

section Bounded

variable {turn : Number → UInt8 → Turn} {next : Number → UInt8 → Number}
  {past : Number → Number} {acc : Number → Nat} {bound : Nat}

/-- The loop takes digits into an accumulator, up to a bound. -/
structure Bounded (turn : Number → UInt8 → Turn) (next : Number → UInt8 → Number)
    (past : Number → Number) (acc : Number → Nat) (bound : Nat) : Prop where
  other : ∀ m c, isDigit c = false → turn m c = .stop m
  fits : ∀ m c, isDigit c = true → 10 * acc m + digitValue c ≤ bound →
    turn m c = .take (next m c) ∧ acc (next m c) = 10 * acc m + digitValue c
  past : ∀ m c, isDigit c = true → bound < 10 * acc m + digitValue c →
    turn m c = .stop (past m)

/-- Digits that fit are taken. -/
theorem Bounded.take (h : Bounded turn next past acc bound) {ds : Bytes} (hds : Digits ds)
    {m : Number} (hfit : Numeral.valueFrom 10 (acc m) ds ≤ bound) (r : Bytes) :
    scanLoop turn m (ds ++ r) = scanLoop turn (ds.foldl next m) r ∧
      acc (ds.foldl next m) = Numeral.valueFrom 10 (acc m) ds := by
  induction ds generalizing m with
  | nil => exact ⟨rfl, rfl⟩
  | cons c ds ih =>
      obtain ⟨hc, hds⟩ := List.forall_mem_cons.mp hds
      rw [Numeral.valueFrom_cons] at hfit ⊢
      obtain ⟨hturn, hacc⟩ := h.fits m c hc (Nat.le_trans (le_valueFrom _ ds) hfit)
      obtain ⟨hloop, hvalue⟩ := ih hds (m := next m c) (by rw [hacc]; exact hfit)
      rw [List.cons_append, scanLoop_take hturn, List.foldl_cons, hloop, hvalue, hacc]
      exact ⟨rfl, rfl⟩

theorem Bounded.fits_run (h : Bounded turn next past acc bound) {ds r : Bytes} (hds : Digits ds)
    (hr : Stops (isDigit · = true) r) {m : Number}
    (hfit : Numeral.valueFrom 10 (acc m) ds ≤ bound) :
    scanLoop turn m (ds ++ r) = .ok (ds.foldl next m) r := by
  rw [(h.take hds hfit r).1]
  exact scanLoop_stops (fun m c hc => h.other m c (Bool.not_eq_true _ ▸ hc)) _ hr

theorem Bounded.over_run (h : Bounded turn next past acc bound) {ds s : Bytes} {c : UInt8}
    (hds : Digits ds) (hc : isDigit c = true) {m : Number}
    (hfit : Numeral.valueFrom 10 (acc m) ds ≤ bound)
    (hover : bound < Numeral.valueFrom 10 (acc m) (ds ++ [c])) :
    scanLoop turn m (ds ++ c :: s) = .ok (past (ds.foldl next m)) (c :: s) := by
  obtain ⟨hloop, hacc⟩ := h.take hds hfit (c :: s)
  rw [Numeral.valueFrom_append, ← hacc] at hover
  rw [hloop, scanLoop_stop (h.past _ c hc hover)]

/-- Where the bound is passed. -/
theorem exists_split {k : Nat} (hk : k ≤ bound) {ds : Bytes}
    (hover : bound < Numeral.valueFrom 10 k ds) :
    ∃ ds₁ c ds₂, ds = ds₁ ++ c :: ds₂ ∧ Numeral.valueFrom 10 k ds₁ ≤ bound ∧
      bound < Numeral.valueFrom 10 k (ds₁ ++ [c]) := by
  induction ds generalizing k with
  | nil => exact absurd hover (Nat.not_lt.mpr hk)
  | cons c ds ih =>
      rw [Numeral.valueFrom_cons] at hover
      by_cases hnext : 10 * k + (Numeral.digit? c).getD 0 ≤ bound
      · obtain ⟨ds₁, d, ds₂, rfl, hfit, hpast⟩ := ih hnext hover
        exact ⟨c :: ds₁, d, ds₂, rfl, hfit, hpast⟩
      · exact ⟨[], c, ds, rfl, hk, Nat.not_le.mp hnext⟩

end Bounded

section BigDouble

variable {bound k : Nat} {ds₁ ds₂ : Bytes}

theorem within_append (hfit : Numeral.valueFrom 10 k ds₁ ≤ bound) :
    within bound k (ds₁ ++ ds₂) = within bound (Numeral.valueFrom 10 k ds₁) ds₂ := by
  induction ds₁ generalizing k with
  | nil => rfl
  | cons c ds₁ ih =>
      rw [Numeral.valueFrom_cons] at hfit ⊢
      have hc : 10 * k + digitValue c ≤ bound := Nat.le_trans (le_valueFrom _ ds₁) hfit
      rw [List.cons_append, within, if_pos hc]
      exact ih hfit

/-- Digits that 64 bits hold count as their number. -/
theorem bigDouble_append (hfit : Numeral.valueFrom 10 k ds₁ ≤ bound) :
    bigDouble fl bound k (ds₁ ++ ds₂) = bigDouble fl bound (Numeral.valueFrom 10 k ds₁) ds₂ := by
  rw [bigDouble, bigDouble, within_append hfit]

theorem bigDouble_over {c : UInt8} (hover : bound < 10 * k + digitValue c) :
    bigDouble fl bound k (c :: ds₂) =
      (c :: ds₂).foldl (Number.mulAdd fl) (fl.ofUInt64 (UInt64.ofNat k)) := by
  rw [bigDouble, within, if_neg (Nat.not_le.mpr hover)]

end BigDouble

namespace Number

/-! ## Integers -/

/-- A digit that is taken over 32 bits. -/
def nextInt (m : Number) (c : UInt8) : Number :=
  { m with i := m.i * 10 + (c - 0x30).toUInt32, significandDigit := m.significandDigit + 1 }

def overInt (m : Number) : Number := { m with i64 := m.i.toUInt64, use64bit := true }

def nextInt64 (m : Number) (c : UInt8) : Number :=
  { m with i64 := m.i64 * 10 + (c - 0x30).toUInt64, significandDigit := m.significandDigit + 1 }

def overInt64 (fl : Doubles) (m : Number) : Number :=
  { m with d := fl.ofUInt64 m.i64, useDouble := true }

/-- The test of a loop says whether the value would pass the bound. -/
theorem passes_iff {k limit last d bound : Nat} (hbound : bound = 10 * limit + last)
    (hlast : last < 10) (hd : d < 10) :
    (limit ≤ k ∧ (k ≠ limit ∨ last < d)) ↔ bound < 10 * k + d := by
  subst hbound
  by_cases hk : k = limit
  · subst hk
    simp
  · omega

theorem bounded_int {limit : UInt32} {last : UInt8} {bound : Nat} (hlast : isDigit last = true)
    (hbound : bound = 10 * limit.toNat + digitValue last) (hmax : bound < 2 ^ 32) :
    Bounded (intTurn limit last) nextInt overInt (fun m => m.i.toNat) bound := by
  have htest : ∀ (m : Number) (c : UInt8), isDigit c = true →
      ((m.i ≥ limit ∧ (m.i ≠ limit ∨ c > last)) ↔ bound < 10 * m.i.toNat + digitValue c) := by
    intro m c hc
    rw [← passes_iff hbound (digit_facts hlast).2.1 (digit_facts hc).2.1]
    rw [ge_iff_le, UInt32.le_iff_toNat_le, gt_iff_lt, lt_digit hc hlast, ← UInt32.toNat_inj.ne]
  refine { other := fun m c hc => by simp [intTurn, hc], fits := ?_, past := ?_ }
  · intro m c hc hfit
    have hnot : ¬ (m.i ≥ limit ∧ (m.i ≠ limit ∨ c > last)) := by
      rw [htest m c hc]
      exact Nat.not_lt.mpr hfit
    refine ⟨by rw [intTurn, if_pos hc, if_neg hnot]; rfl, ?_⟩
    show (m.i * 10 + (c - 0x30).toUInt32).toNat = _
    rw [UInt32.toNat_add, UInt32.toNat_mul, toUInt32_digit hc]
    show (m.i.toNat * 10 % 2 ^ 32 + digitValue c) % 2 ^ 32 = _
    omega
  · intro m c hc hover
    rw [intTurn, if_pos hc, if_pos ((htest m c hc).mpr hover)]
    rfl

theorem bounded_int64 {limit : UInt64} {last : UInt8} {bound : Nat} (hlast : isDigit last = true)
    (hbound : bound = 10 * limit.toNat + digitValue last) (hmax : bound < 2 ^ 64) :
    Bounded (int64Turn fl limit last) nextInt64 (overInt64 fl) (fun m => m.i64.toNat) bound := by
  have htest : ∀ (m : Number) (c : UInt8), isDigit c = true →
      ((m.i64 ≥ limit ∧ (m.i64 ≠ limit ∨ c > last)) ↔
        bound < 10 * m.i64.toNat + digitValue c) := by
    intro m c hc
    rw [← passes_iff hbound (digit_facts hlast).2.1 (digit_facts hc).2.1]
    rw [ge_iff_le, UInt64.le_iff_toNat_le, gt_iff_lt, lt_digit hc hlast, ← UInt64.toNat_inj.ne]
  refine { other := fun m c hc => by simp [int64Turn, hc], fits := ?_, past := ?_ }
  · intro m c hc hfit
    have hnot : ¬ (m.i64 ≥ limit ∧ (m.i64 ≠ limit ∨ c > last)) := by
      rw [htest m c hc]
      exact Nat.not_lt.mpr hfit
    refine ⟨by rw [int64Turn, if_pos hc, if_neg hnot]; rfl, ?_⟩
    show (m.i64 * 10 + (c - 0x30).toUInt64).toNat = _
    rw [UInt64.toNat_add, UInt64.toNat_mul, toUInt64_digit hc]
    show (m.i64.toNat * 10 % 2 ^ 64 + digitValue c) % 2 ^ 64 = _
    omega
  · intro m c hc hover
    rw [int64Turn, if_pos hc, if_pos ((htest m c hc).mpr hover)]
    rfl

/-- A digit of an integer that is a double already. -/
def nextBig (fl : Doubles) (m : Number) (c : UInt8) : Number := { m with d := mulAdd fl m.d c }

/-- What the loops over an integer leave alone. -/
def frame (m : Number) : Bool × Bool × Bool × Int × Bool × Int :=
  (m.minus, m.use64bit, m.useDouble, m.expFrac, m.expMinus, m.exp)

theorem foldl_frame {next : Number → UInt8 → Number} (h : ∀ m c, (next m c).frame = m.frame)
    (ds : Bytes) (m : Number) : (ds.foldl next m).frame = m.frame := by
  induction ds generalizing m with
  | nil => rfl
  | cons c ds ih => rw [List.foldl_cons, ih, h]

theorem foldl_significandDigit {next : Number → UInt8 → Number}
    (h : ∀ m c, (next m c).significandDigit = m.significandDigit + 1) (ds : Bytes) (m : Number) :
    (ds.foldl next m).significandDigit = m.significandDigit + ds.length := by
  induction ds generalizing m with
  | nil => rfl
  | cons c ds ih =>
      rw [List.foldl_cons, ih, h, List.length_cons]
      omega

theorem foldl_nextBig (ds : Bytes) (m : Number) : (ds.foldl (nextBig fl) m).d =
    ds.foldl (mulAdd fl) m.d ∧ (ds.foldl (nextBig fl) m).significandDigit = m.significandDigit := by
  induction ds generalizing m with
  | nil => exact ⟨rfl, rfl⟩
  | cons c ds ih => exact ih (nextBig fl m c)

/-- A loop that takes all digits. -/
theorem scanLoop_digits {turn : Number → UInt8 → Turn} {next : Number → UInt8 → Number}
    (htake : ∀ m c, isDigit c = true → turn m c = .take (next m c))
    (hother : ∀ m c, isDigit c = false → turn m c = .stop m) {ds r : Bytes} (hds : Digits ds)
    (hr : Stops (isDigit · = true) r) (m : Number) :
    scanLoop turn m (ds ++ r) = .ok (ds.foldl next m) r := by
  induction ds generalizing m with
  | nil => exact scanLoop_stops (fun m c hc => hother m c (Bool.not_eq_true _ ▸ hc)) m hr
  | cons c ds ih =>
      obtain ⟨hc, hds⟩ := List.forall_mem_cons.mp hds
      rw [List.cons_append, scanLoop_take (htake m c hc), ih hds, List.foldl_cons]

/-- The integer part. -/
def integerPart (fl : Doubles) (m : Number) : ScanM Number := do
  let m ← parseInt m
  let m ← parseInt64 fl m
  parseBig fl m

/-- The state after the integer part, by its value, the number of digits behind the first one,
and the double for it when it is too big for 64 bits. -/
structure IntRead (minus : Bool) (v count : Nat) (d : UInt64) (m : Number) : Prop where
  sign : m.minus = minus
  plain : m.expFrac = 0 ∧ m.expMinus = false ∧ m.exp = 0
  small : v ≤ bound32 minus → m.use64bit = false ∧ m.useDouble = false ∧ m.i.toNat = v
  wide : bound32 minus < v → v ≤ bound64 minus →
    m.use64bit = true ∧ m.useDouble = false ∧ m.i64.toNat = v
  count : v ≤ bound64 minus → m.significandDigit = count
  big : bound64 minus < v → m.useDouble = true ∧ 17 ≤ m.significandDigit ∧ m.d = d

theorem bound32_lt (minus : Bool) : bound32 minus < 2 ^ 32 ∧ bound32 minus < bound64 minus := by
  cases minus <;> decide

theorem intLoop_bounded (minus : Bool) : ∃ turn,
    (∀ m : Number, m.minus = minus → intLoop m = scanLoop turn m) ∧
      Bounded turn nextInt overInt (fun m => m.i.toNat) (bound32 minus) := by
  cases minus with
  | true =>
      refine ⟨_, fun m hm => by rw [intLoop, if_pos hm], bounded_int (by decide) ?_ (by decide)⟩
      decide
  | false =>
      refine ⟨_, fun m hm => by rw [intLoop, if_neg (by simp [hm])],
        bounded_int (by decide) ?_ (by decide)⟩
      decide

theorem parseInt64_bounded (minus : Bool) : ∃ turn,
    (∀ m : Number, m.minus = minus → m.use64bit = true →
      parseInt64 fl m = scanLoop turn m) ∧
      Bounded turn nextInt64 (overInt64 fl) (fun m => m.i64.toNat) (bound64 minus) := by
  cases minus with
  | true =>
      refine ⟨_, fun m hm huse => by rw [parseInt64, if_pos huse, if_pos hm],
        bounded_int64 (by decide) ?_ (by decide)⟩
      decide
  | false =>
      refine ⟨_, fun m hm huse => by rw [parseInt64, if_pos huse, if_neg (by simp [hm])],
        bounded_int64 (by decide) ?_ (by decide)⟩
      decide

/-- A number that is too big for 64 bits with one more digit has eighteen digits. -/
theorem count_of_over {minus : Bool} {v count d : Nat} (hv : v < 10 ^ (count + 1)) (hd : d < 10)
    (hover : bound64 minus < 10 * v + d) : 17 ≤ count := by
  by_contra hlt
  have hbound : 10 ^ 18 ≤ bound64 minus := by cases minus <;> decide
  have hpow : 10 ^ (count + 1) ≤ 10 ^ 17 := Nat.pow_le_pow_right (by decide) (by omega)
  omega

/-- The digits from the one on that does not fit into 64 bits are taken into a double. -/
theorem big_run {minus : Bool} {m : Number} (hframe : m.frame = (minus, true, false, 0, false, 0))
    {ds r : Bytes} (hds : Digits ds) (hr : Stops (isDigit · = true) r)
    (hbig : bound64 minus < Numeral.valueFrom 10 m.i64.toNat ds)
    (hfit : m.i64.toNat ≤ bound64 minus) (hcount : m.i64.toNat < 10 ^ (m.significandDigit + 1)) :
    ∃ m', (parseInt64 fl m >>= parseBig fl) (ds ++ r) = .ok m' r ∧
      IntRead minus (Numeral.valueFrom 10 m.i64.toNat ds) (m.significandDigit + ds.length)
        (bigDouble fl (bound64 minus) m.i64.toNat ds) m' := by
  obtain ⟨turn, hloop, hbounded⟩ := @parseInt64_bounded fl minus
  simp only [frame, Prod.mk.injEq] at hframe
  obtain ⟨hminus, huse, -, hfrac, hsign, hexp⟩ := hframe
  obtain ⟨ds₁, c, ds₂, rfl, hfit₁, hover⟩ := exists_split hfit hbig
  obtain ⟨hds₁, hds₂⟩ := List.forall_mem_append.mp hds
  obtain ⟨hc, -⟩ := List.forall_mem_cons.mp hds₂
  have hrun : parseInt64 fl m (ds₁ ++ c :: ds₂ ++ r) =
      .ok (overInt64 fl (ds₁.foldl nextInt64 m)) (c :: ds₂ ++ r) := by
    rw [hloop m hminus huse, List.append_assoc]
    exact hbounded.over_run hds₁ hc hfit₁ hover
  have hall := @scanLoop_digits (bigTurn fl) (nextBig fl)
    (fun m c hc => by simp [bigTurn, nextBig, hc]) (fun m c hc => by simp [bigTurn, hc])
    _ r hds₂ hr (overInt64 fl (ds₁.foldl nextInt64 m))
  have hkeep : ((c :: ds₂).foldl (nextBig fl) (overInt64 fl (ds₁.foldl nextInt64 m))).frame =
      (minus, true, true, 0, false, 0) := by
    rw [@foldl_frame (nextBig fl) (fun _ _ => rfl)]
    have hbefore := @foldl_frame nextInt64 (fun _ _ => rfl) ds₁ m
    simp only [frame, Prod.mk.injEq] at hbefore
    simp only [frame, overInt64, hbefore, hminus, huse, hfrac, hsign, hexp]
  have hcounted := @foldl_significandDigit nextInt64 (fun _ _ => rfl) ds₁ m
  have hvalue : (ds₁.foldl nextInt64 m).i64.toNat = Numeral.valueFrom 10 m.i64.toNat ds₁ :=
    (hbounded.take hds₁ hfit₁ []).2
  rw [Numeral.valueFrom_append, Numeral.valueFrom_cons, Numeral.valueFrom_nil] at hover
  obtain ⟨hd, hkept⟩ := @foldl_nextBig fl (c :: ds₂) (overInt64 fl (ds₁.foldl nextInt64 m))
  have hdouble : bigDouble fl (bound64 minus) m.i64.toNat (ds₁ ++ c :: ds₂) =
      (c :: ds₂).foldl (mulAdd fl) (fl.ofUInt64 (ds₁.foldl nextInt64 m).i64) := by
    rw [bigDouble_append hfit₁, bigDouble_over hover, ← hvalue, UInt64.ofNat_toNat]
  have hmany : 17 ≤ m.significandDigit + ds₁.length := by
    refine @count_of_over minus (Numeral.valueFrom 10 m.i64.toNat ds₁) _ _ ?_
      (digit_facts hc).2.1 hover
    rw [Nat.add_right_comm]
    exact valueFrom_lt hds₁ hcount
  refine ⟨_, (Outcome.bind_of_ok hrun).trans ((congrFun (if_pos rfl) _).trans hall), ?_⟩
  simp only [frame, Prod.mk.injEq] at hkeep
  exact { sign := hkeep.1
          plain := hkeep.2.2.2
          small := fun h => absurd (h.trans (bound32_lt minus).2.le) (Nat.not_le.mpr hbig)
          wide := fun _ h => absurd h (Nat.not_le.mpr hbig)
          count := fun h => absurd h (Nat.not_le.mpr hbig)
          big := fun _ => ⟨hkeep.2.2.1, hmany.trans_eq (hkept.trans hcounted).symm,
            hd.trans hdouble.symm⟩ }

/-- The digits from the one on that does not fit into 32 bits. -/
theorem wide_run {minus : Bool} {m : Number} (hframe : m.frame = (minus, true, false, 0, false, 0))
    {ds r : Bytes} (hds : Digits ds) (hr : Stops (isDigit · = true) r)
    (hlow : bound32 minus < Numeral.valueFrom 10 m.i64.toNat ds)
    (hfit : m.i64.toNat ≤ bound64 minus) (hcount : m.i64.toNat < 10 ^ (m.significandDigit + 1)) :
    ∃ m', (parseInt64 fl m >>= parseBig fl) (ds ++ r) = .ok m' r ∧
      IntRead minus (Numeral.valueFrom 10 m.i64.toNat ds) (m.significandDigit + ds.length)
        (bigDouble fl (bound64 minus) m.i64.toNat ds) m' := by
  rcases Nat.lt_or_ge (bound64 minus) (Numeral.valueFrom 10 m.i64.toNat ds) with hbig | hwide
  · exact big_run hframe hds hr hbig hfit hcount
  · obtain ⟨turn, hloop, hbounded⟩ := @parseInt64_bounded fl minus
    have hkeep := (@foldl_frame nextInt64 (fun _ _ => rfl) ds m).trans hframe
    simp only [frame, Prod.mk.injEq] at hframe hkeep
    have hrun : parseInt64 fl m (ds ++ r) = .ok (ds.foldl nextInt64 m) r := by
      rw [hloop m hframe.1 hframe.2.1]
      exact hbounded.fits_run hds hr hwide
    refine ⟨ds.foldl nextInt64 m, ?_, ?_⟩
    · rw [Outcome.bind_of_ok hrun, parseBig, if_neg (by simp [hkeep])]
      rfl
    · exact { sign := hkeep.1
              plain := hkeep.2.2.2
              small := fun h => absurd h (Nat.not_le.mpr hlow)
              wide := fun _ _ => ⟨hkeep.2.1, hkeep.2.2.1, (hbounded.take hds hwide r).2⟩
              count := fun _ => @foldl_significandDigit nextInt64 (fun _ _ => rfl) ds m
              big := fun h => absurd h (Nat.not_lt.mpr hwide) }

/-- The integer part behind its first digit. -/
def behindFirst (fl : Doubles) (m : Number) : ScanM Number := do
  let m ← intLoop m
  let m ← parseInt64 fl m
  parseBig fl m

/-- All digits behind the first one fit into 32 bits. -/
theorem behindFirst_narrow {minus : Bool} {k : UInt32} {ds r : Bytes} (hds : Digits ds)
    (hr : Stops (isDigit · = true) r) (hsmall : Numeral.valueFrom 10 k.toNat ds ≤ bound32 minus)
    (d : UInt64) : ∃ m, behindFirst fl { minus, i := k } (ds ++ r) = .ok m r ∧
      IntRead minus (Numeral.valueFrom 10 k.toNat ds) ds.length d m := by
  obtain ⟨turn, hloop, hbounded⟩ := intLoop_bounded minus
  have hkeep := @foldl_frame nextInt (fun _ _ => rfl) ds { minus, i := k }
  simp only [frame, Prod.mk.injEq] at hkeep
  have hfit64 := Nat.le_trans hsmall (Nat.le_of_lt (bound32_lt minus).2)
  have hrun : intLoop { minus, i := k } (ds ++ r) = .ok (ds.foldl nextInt { minus, i := k }) r := by
    rw [hloop _ rfl]
    exact hbounded.fits_run hds hr hsmall
  refine ⟨ds.foldl nextInt { minus, i := k }, ?_, ?_⟩
  · rw [behindFirst, Outcome.bind_of_ok hrun]
    show (parseInt64 fl _ >>= parseBig fl) r = _
    rw [parseInt64, if_neg (by rw [hkeep.2.1]; decide)]
    show parseBig fl _ r = _
    rw [parseBig, if_neg (by rw [hkeep.2.2.1]; decide)]
    rfl
  · exact { sign := hkeep.1
            plain := hkeep.2.2.2
            small := fun _ => ⟨hkeep.2.1, hkeep.2.2.1, (hbounded.take hds hsmall r).2⟩
            wide := fun h => absurd h (Nat.not_lt.mpr hsmall)
            count := fun _ => (@foldl_significandDigit nextInt (fun _ _ => rfl) ds
              { minus, i := k }).trans (Nat.zero_add _)
            big := fun h => absurd h (Nat.not_lt.mpr hfit64) }

/-- The digits behind the first one do not fit into 32 bits. -/
theorem behindFirst_wide {minus : Bool} {k : UInt32} (hk : k.toNat < 10) {ds r : Bytes}
    (hds : Digits ds) (hr : Stops (isDigit · = true) r)
    (hwide : bound32 minus < Numeral.valueFrom 10 k.toNat ds) :
    ∃ m, behindFirst fl { minus, i := k } (ds ++ r) = .ok m r ∧
      IntRead minus (Numeral.valueFrom 10 k.toNat ds) ds.length
        (bigDouble fl (bound64 minus) k.toNat ds) m := by
  obtain ⟨turn, hloop, hbounded⟩ := intLoop_bounded minus
  have hten : 10 ≤ bound32 minus := by cases minus <;> decide
  obtain ⟨ds₁, d, ds₂, rfl, hfit, hover⟩ := exists_split (by omega) hwide
  obtain ⟨hds₁, hds₂⟩ := List.forall_mem_append.mp hds
  obtain ⟨hd, -⟩ := List.forall_mem_cons.mp hds₂
  have hrun : intLoop { minus, i := k } (ds₁ ++ d :: ds₂ ++ r) =
      .ok (overInt (ds₁.foldl nextInt { minus, i := k })) (d :: ds₂ ++ r) := by
    rw [hloop _ rfl, List.append_assoc]
    exact hbounded.over_run hds₁ hd hfit hover
  have hkeep := @foldl_frame nextInt (fun _ _ => rfl) ds₁ { minus, i := k }
  simp only [frame, Prod.mk.injEq] at hkeep
  have hframe : (overInt (ds₁.foldl nextInt { minus, i := k })).frame =
      (minus, true, false, 0, false, 0) := by
    simp only [frame, overInt, hkeep]
  have hcount := @foldl_significandDigit nextInt (fun _ _ => rfl) ds₁ { minus, i := k }
  rw [Nat.zero_add] at hcount
  have hfit64 := Nat.le_trans hfit (Nat.le_of_lt (bound32_lt minus).2)
  have hi64 : (overInt (ds₁.foldl nextInt { minus, i := k })).i64.toNat =
      Numeral.valueFrom 10 k.toNat ds₁ := by
    show (UInt32.toUInt64 _).toNat = _
    rw [UInt32.toNat_toUInt64]
    exact (hbounded.take hds₁ (m := { minus, i := k }) hfit r).2
  have hsize : (overInt (ds₁.foldl nextInt { minus, i := k })).i64.toNat <
      10 ^ (ds₁.length + 1) := by
    rw [hi64, Nat.add_comm]
    exact valueFrom_lt hds₁ hk
  rw [Numeral.valueFrom_append, ← hi64] at hwide ⊢
  rw [bigDouble_append hfit64, ← hi64, List.length_append]
  obtain ⟨m', hrest, hread⟩ := @wide_run fl minus _ hframe _ r hds₂ hr hwide
    (by rw [hi64]; exact hfit64) (hcount ▸ hsize)
  exact ⟨m', (Outcome.bind_of_ok hrun).trans hrest, hcount ▸ hread⟩

theorem isDigit_of_range {c : UInt8} (hlow : 0x31 ≤ c) (hhigh : c ≤ 0x39) : isDigit c = true := by
  have h : (0x30 : UInt8) ≤ c := UInt8.le_trans (by decide) hlow
  simp [isDigit, h, hhigh]

/-- The integer part is read to its end, with its value. -/
theorem integerPart_run {minus : Bool} {ds r : Bytes} (hds : IntDigits ds)
    (hr : Stops (isDigit · = true) r) : ∃ m, integerPart fl { minus } (ds ++ r) = .ok m r ∧
      IntRead minus (Numeral.value 10 ds) (ds.length - 1)
        (bigDouble fl (bound64 minus) 0 ds) m := by
  cases hds with
  | zero =>
      refine ⟨{ minus, i := 0 }, rfl, ?_⟩
      exact { sign := rfl
              plain := ⟨rfl, rfl, rfl⟩
              small := fun _ => ⟨rfl, rfl, rfl⟩
              wide := fun h => absurd h (Nat.not_lt_zero _)
              count := fun _ => rfl
              big := fun h => absurd h (Nat.not_lt_zero _) }
  | @digits c ds hlow hhigh hds =>
      have hc := isDigit_of_range hlow hhigh
      have hfirst : Numeral.valueFrom 10 0 [c] = (c - 0x30).toUInt32.toNat := by
        rw [Numeral.valueFrom_cons, Numeral.valueFrom_nil, toUInt32_digit hc]
        simp [digitValue]
      have hstart : (c - 0x30).toUInt32.toNat < 10 := by
        rw [toUInt32_digit hc]
        exact (digit_facts hc).2.1
      have hvalue : Numeral.value 10 (c :: ds) =
          Numeral.valueFrom 10 (c - 0x30).toUInt32.toNat ds := by
        rw [Numeral.value_eq_valueFrom, ← hfirst, ← Numeral.valueFrom_append]
        rfl
      have hdouble : bigDouble fl (bound64 minus) 0 (c :: ds) =
          bigDouble fl (bound64 minus) (c - 0x30).toUInt32.toNat ds := by
        have hle : Numeral.valueFrom 10 0 [c] ≤ bound64 minus := by
          have hten : 10 ≤ bound64 minus := by cases minus <;> decide
          omega
        rw [← hfirst, ← bigDouble_append hle]
        rfl
      have hrun : integerPart fl { minus } (c :: ds ++ r) =
          behindFirst fl { minus, i := (c - 0x30).toUInt32 } (ds ++ r) := by
        have hint : parseInt { minus } (c :: (ds ++ r)) =
            intLoop { minus, i := (c - 0x30).toUInt32 } (ds ++ r) :=
          parseInt_digit _ hlow hhigh (ds ++ r)
        exact Outcome.bind_congr_run hint
      rw [hvalue, hdouble, hrun, List.length_cons, Nat.add_sub_cancel]
      rcases Nat.lt_or_ge (bound32 minus)
        (Numeral.valueFrom 10 (c - 0x30).toUInt32.toNat ds) with hwide | hsmall
      · exact behindFirst_wide hstart hds hr hwide
      · exact behindFirst_narrow hds hr hsmall _

/-- What follows the integer part. -/
def afterInteger (fl : Doubles) (m : Number) : ScanM Scalar := do
  let m ← parseFrac fl m
  let m ← parseExp fl m
  finish fl m

theorem parseFrac_of_stops {m : Number} {r : Bytes} (hr : Stops (· = 0x2E) r) :
    parseFrac fl m r = .ok m r := by
  rw [parseFrac, Outcome.bind_of_ok (consume_of_stops hr)]
  rfl

theorem parseExp_of_stops {m : Number} {r : Bytes} (hlower : Stops (· = 0x65) r)
    (hupper : Stops (· = 0x45) r) : parseExp fl m r = .ok m r := by
  have hneither : (consume 0x65 <||> consume 0x45) r = .ok false r := by
    show (consume 0x65 >>= _) r = _
    rw [Outcome.bind_of_ok (consume_of_stops hlower)]
    exact consume_of_stops hupper
  rw [parseExp, Outcome.bind_of_ok hneither]
  rfl

theorem afterInteger_of_stops {m : Number} {r : Bytes} (hr : Stops IsNumberByte r) :
    afterInteger fl m r = finish fl m r := by
  have hbyte : ∀ d, IsNumberByte d → Stops (· = d) r := fun d hd => hr.mono fun _ h => h ▸ hd
  rw [afterInteger, Outcome.bind_of_ok (parseFrac_of_stops (hbyte _ (by simp [IsNumberByte]))),
    Outcome.bind_of_ok (parseExp_of_stops (hbyte _ (by simp [IsNumberByte]))
      (hbyte _ (by simp [IsNumberByte])))]

theorem neg_toInt32 {i : UInt32} {v : Nat} (h : i.toNat = v) :
    (~~~i + 1).toInt32 = Int32.ofInt (-v) := by
  subst h
  rw [← UInt32.neg_eq_not_add, Int32.ofInt_neg, UInt32.toInt32_neg]
  congr 1
  exact (congrArg UInt32.toInt32 (UInt32.ofNat_toNat (x := i)).symm).trans UInt32.toInt32_ofNat'

end Number

theorem intDigits_begins {ds : Bytes} (h : Number.IntDigits ds) (r : Bytes) :
    Stops (· = 0x2D) (ds ++ r) := by
  cases h with
  | zero => exact stops_cons.mpr (by decide)
  | @digits c ds hlow hhigh hds =>
      refine stops_cons.mpr ?_
      rintro rfl
      exact absurd hlow (by decide)

theorem parseNumber_eq : parseNumber fl = (consume 0x2D >>= fun minus =>
    Number.integerPart fl { minus } >>= Number.afterInteger fl) := by
  simp only [Number.integerPart, bind_assoc]
  rfl

/-- A number, from its integer part on. -/
theorem parseNumber_sign (minus : Bool) {s : Bytes} (hs : Stops (· = 0x2D) s) :
    parseNumber fl (signText minus ++ s) =
      (Number.integerPart fl { minus } >>= Number.afterInteger fl) s := by
  have hconsume : consume 0x2D (signText minus ++ s) = .ok minus s := by
    cases minus with
    | true => exact consume_of_head _ _
    | false => exact consume_of_stops hs
  rw [parseNumber_eq, Outcome.bind_of_ok hconsume]

theorem neg_toInt64 {i : UInt64} {v : Nat} (h : i.toNat = v) :
    (~~~i + 1).toInt64 = Int64.ofInt (-v) := by
  subst h
  rw [← UInt64.neg_eq_not_add, Int64.ofInt_neg, UInt64.toInt64_neg]
  congr 1
  exact (congrArg UInt64.toInt64 (UInt64.ofNat_toNat (x := i)).symm).trans UInt64.toInt64_ofNat'

theorem finish_int {m : Number} {r : Bytes} (hdouble : m.useDouble = false)
    (huse : m.use64bit = false) : Number.finish fl m r =
      .ok (if m.minus then .int (~~~m.i + 1).toInt32 else .uint m.i) r := by
  rw [Number.finish, if_neg (by rw [hdouble]; decide), if_neg (by rw [huse]; decide)]
  rfl

theorem finish_int64 {m : Number} {r : Bytes} (hdouble : m.useDouble = false)
    (huse : m.use64bit = true) : Number.finish fl m r =
      .ok (if m.minus then .int64 (~~~m.i64 + 1).toInt64 else .uint64 m.i64) r := by
  rw [Number.finish, if_neg (by rw [hdouble]; decide), if_pos huse]
  rfl

/-- An integer that a type of the handler holds is reported in it. -/
theorem finish_integer {minus : Bool} {v count : Nat} {d : UInt64} {m : Number}
    (hm : Number.IntRead minus v count d m) {s : Scalar} (h : integerScalar minus v = some s)
    (r : Bytes) : Number.finish fl m r = .ok s r := by
  rw [integerScalar] at h
  split at h
  · obtain ⟨huse, hdouble, hvalue⟩ := hm.small ‹_›
    rw [finish_int hdouble huse, hm.sign, Number.neg_toInt32 hvalue, ← Option.some.inj h, ← hvalue,
      UInt32.ofNat_toNat]
  · split at h
    · obtain ⟨huse, hdouble, hvalue⟩ := hm.wide (Nat.not_le.mp ‹_›) ‹_›
      rw [finish_int64 hdouble huse, hm.sign, neg_toInt64 hvalue, ← Option.some.inj h, ← hvalue,
        UInt64.ofNat_toNat]
    · cases h

theorem bound_of_integerScalar {minus : Bool} {v : Nat} (h : integerScalar minus v = none) :
    Number.bound64 minus < v := by
  rw [integerScalar] at h
  split at h
  · cases h
  · split at h
    · cases h
    · exact Nat.not_le.mp ‹_›

/-- A double that is not scaled. -/
theorem finish_big {m : Number} {r : Bytes} (hdouble : m.useDouble = true) (hexp : m.exp = 0)
    (hfrac : m.expFrac = 0) : (∃ d, Number.finish fl m r = .ok (.double d) r) ∨
      ∃ r', Number.finish fl m r = .error (.error .numberTooBig) r' := by
  have hscale : Number.strtodNormalPrecision fl m.d (m.exp + m.expFrac) r =
      .ok (fl.mul m.d (fl.pow10 0)) r := by
    rw [hexp, hfrac]
    rfl
  have hint : InInt (m.exp + m.expFrac) := by
    rw [hexp, hfrac]
    decide
  rw [Number.finish, if_pos hdouble, Number.int_of_inInt hint, pure_bind,
    Outcome.bind_of_ok hscale]
  by_cases hmax : fl.exceedsMax (fl.mul m.d (fl.pow10 0)) = true
  · rw [if_pos hmax]
    exact .inr ⟨r, rfl⟩
  · rw [if_neg hmax]
    exact .inl ⟨_, rfl⟩

/-- An integer keeps its value in the narrowest type of the handler that holds it. One that no
type holds is a double, or too big. -/
theorem parseNumber_integer {minus : Bool} {ds r : Bytes} (hds : Number.IntDigits ds)
    (hr : Stops IsNumberByte r) :
    match integerScalar minus (Numeral.value 10 ds) with
    | some s => parseNumber fl (signText minus ++ (ds ++ r)) = .ok s r
    | none => (∃ d, parseNumber fl (signText minus ++ (ds ++ r)) = .ok (.double d) r) ∨
        ∃ r', parseNumber fl (signText minus ++ (ds ++ r)) = .error (.error .numberTooBig) r' := by
  obtain ⟨m, hrun, hread⟩ := @Number.integerPart_run fl minus ds r hds
    (hr.mono fun _ h => .inl h)
  have hnumber : parseNumber fl (signText minus ++ (ds ++ r)) = Number.finish fl m r := by
    rw [parseNumber_sign minus (intDigits_begins hds r), Outcome.bind_of_ok hrun,
      Number.afterInteger_of_stops hr]
  rw [hnumber]
  cases hscalar : integerScalar minus (Numeral.value 10 ds) with
  | some s => exact finish_integer hread hscalar r
  | none =>
      have hbig := (hread.big (bound_of_integerScalar hscalar)).1
      exact finish_big hbig hread.plain.2.2 hread.plain.1

/-- `-3000000000` does not fit into 32 bits. -/
theorem parseNumber_integer_int64 :
    parseNumber .machine [0x2D, 0x33, 0x30, 0x30, 0x30, 0x30, 0x30, 0x30, 0x30, 0x30, 0x30] =
      .ok (.int64 (-3000000000)) [] :=
  @parseNumber_integer .machine true [0x33, 0x30, 0x30, 0x30, 0x30, 0x30, 0x30, 0x30, 0x30, 0x30]
    [] (.digits (by decide) (by decide) (by decide)) stops_nil

end Reader

end FlexEtl
