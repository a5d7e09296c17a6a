/-
FlexEtl.Json.NumberText — the texts of numbers.

What `parseNumber` takes is a number of the grammar, and each of its parts the
text of one part (`parts_of_parseNumber`).
-/
import FlexEtl.Json.NumberTheorems

namespace FlexEtl

namespace Reader

open Decoder

variable {n : Nat} {fl : Doubles}

/-! ## Loops over digits -/

namespace Number

section Loops

variable {turn : Number → UInt8 → Turn} {m m' : Number} {s r : Bytes}

/-- A loop over digits takes digits. -/
theorem scanLoop_sound (hother : ∀ m c, isDigit c = false → turn m c = .stop m)
    (h : scanLoop turn m s = .ok m' r) : ∃ ds, Digits ds ∧ s = ds ++ r := by
  induction s generalizing m with
  | nil =>
      cases h
      exact ⟨[], fun _ h => absurd h List.not_mem_nil, rfl⟩
  | cons c s ih =>
      have hc : (∀ m', turn m c ≠ .stop m') → isDigit c = true := by
        intro hne
        cases hc : isDigit c with
        | true => rfl
        | false => exact absurd (hother m c hc) (hne m)
      cases hturn : turn m c with
      | take b =>
          rw [scanLoop_take hturn] at h
          obtain ⟨ds, hds, rfl⟩ := ih h
          refine ⟨c :: ds, List.forall_mem_cons.mpr ⟨hc (by simp [hturn]), hds⟩, rfl⟩
      | last b =>
          rw [scanLoop_last hturn] at h
          cases h
          exact ⟨[c], by simpa [Digits] using hc (by simp [hturn]), rfl⟩
      | stop b =>
          rw [scanLoop_stop hturn] at h
          cases h
          exact ⟨[], fun _ h => absurd h List.not_mem_nil, rfl⟩
      | fail e => simp [scanLoop, hturn] at h

/-- One that never leaves a digit takes all of them. -/
theorem stops_of_scanLoop (hdigit : ∀ m c, isDigit c = true → ∀ m', turn m c ≠ .stop m')
    (hlast : ∀ m c m', turn m c ≠ .last m') (h : scanLoop turn m s = .ok m' r) :
    Stops (isDigit · = true) r := by
  induction s generalizing m with
  | nil =>
      cases h
      exact stops_nil
  | cons c s ih =>
      cases hturn : turn m c with
      | take b =>
          rw [scanLoop_take hturn] at h
          exact ih h
      | last b => exact absurd hturn (hlast m c b)
      | stop b =>
          rw [scanLoop_stop hturn] at h
          cases h
          exact stops_cons.mpr fun hc => hdigit m c hc _ hturn
      | fail e => simp [scanLoop, hturn] at h

end Loops

/-! ## The integer part -/

theorem parseInt_sound {m m' : Number} {s r : Bytes} (h : parseInt m s = .ok m' r) :
    (∃ t, s = 0x30 :: t ∧ t = r ∧ m' = { m with i := 0 }) ∨
      ∃ c ds, 0x31 ≤ c ∧ c ≤ 0x39 ∧ Digits ds ∧ s = c :: (ds ++ r) := by
  cases s with
  | nil => cases h
  | cons c s =>
      by_cases hzero : c = 0x30
      · subst hzero
        rw [parseInt_zero] at h
        cases h
        exact .inl ⟨_, rfl, rfl, rfl⟩
      · by_cases hdigit : 0x31 ≤ c ∧ c ≤ 0x39
        · rw [parseInt_digit m hdigit.1 hdigit.2] at h
          obtain ⟨turn, hloop, hbounded⟩ := intLoop_bounded m.minus
          have hscan := (congrFun (hloop { m with i := (c - 0x30).toUInt32 } rfl) s).symm.trans h
          obtain ⟨ds, hds, rfl⟩ := scanLoop_sound hbounded.other hscan
          exact .inr ⟨c, ds, hdigit.1, hdigit.2, hds, rfl⟩
        · rw [parseInt_other m hzero hdigit] at h
          cases h

theorem parseInt64_sound {m m' : Number} {s r : Bytes} (h : parseInt64 fl m s = .ok m' r) :
    (∃ ds, Digits ds ∧ s = ds ++ r) ∧ (m.use64bit = false → s = r ∧ m' = m) := by
  cases huse : m.use64bit with
  | false =>
      rw [parseInt64, if_neg (by rw [huse]; decide)] at h
      obtain ⟨rfl, rfl⟩ := Decoder.pure_eq_ok.mp h
      exact ⟨⟨[], fun _ h => absurd h List.not_mem_nil, rfl⟩, fun _ => ⟨rfl, rfl⟩⟩
  | true =>
      obtain ⟨turn, hloop, hbounded⟩ := @parseInt64_bounded fl m.minus
      rw [hloop m rfl huse] at h
      exact ⟨scanLoop_sound hbounded.other h, fun hfalse => by simp at hfalse⟩

theorem parseBig_sound {m m' : Number} {s r : Bytes} (h : parseBig fl m s = .ok m' r) :
    (∃ ds, Digits ds ∧ s = ds ++ r) ∧ (m.useDouble = false → s = r ∧ m' = m) := by
  cases hdouble : m.useDouble with
  | false =>
      rw [parseBig, if_neg (by rw [hdouble]; decide)] at h
      obtain ⟨rfl, rfl⟩ := Decoder.pure_eq_ok.mp h
      exact ⟨⟨[], fun _ h => absurd h List.not_mem_nil, rfl⟩, fun _ => ⟨rfl, rfl⟩⟩
  | true =>
      rw [parseBig, if_pos hdouble] at h
      exact ⟨scanLoop_sound (fun m c hc => by simp [bigTurn, hc]) h,
        fun hfalse => by simp at hfalse⟩

theorem integerPart_sound {minus : Bool} {m : Number} {s r : Bytes}
    (h : integerPart fl { minus } s = .ok m r) : ∃ ds, IntDigits ds ∧ s = ds ++ r := by
  obtain ⟨m₁, s₁, hint, hrest⟩ := Decoder.bind_eq_ok.mp h
  obtain ⟨m₂, s₂, hint64, hbig⟩ := Decoder.bind_eq_ok.mp hrest
  obtain ⟨⟨ds₂, hds₂, hs₁⟩, hkeep₂⟩ := parseInt64_sound hint64
  obtain ⟨⟨ds₃, hds₃, hs₂⟩, hkeep₃⟩ := parseBig_sound hbig
  rcases parseInt_sound hint with ⟨t, rfl, rfl, rfl⟩ | ⟨c, ds, hlow, hhigh, hds, rfl⟩
  · obtain ⟨rfl, rfl⟩ := hkeep₂ rfl
    obtain ⟨rfl, rfl⟩ := hkeep₃ rfl
    exact ⟨[0x30], .zero, rfl⟩
  · refine ⟨c :: (ds ++ (ds₂ ++ ds₃)), .digits hlow hhigh ?_, by simp [hs₁, hs₂]⟩
    exact List.forall_mem_append.mpr ⟨hds, List.forall_mem_append.mpr ⟨hds₂, hds₃⟩⟩

/-! ## The fraction -/

theorem lowerFrac_of_inInt {m : Number} (h : InInt (m.expFrac - 1)) :
    lowerFrac m = .take { m with expFrac := m.expFrac - 1 } := if_pos h

theorem lowerFrac_of_not_inInt {m : Number} (h : ¬ InInt (m.expFrac - 1)) :
    lowerFrac m = .fail .overflow := if_neg h

/-- A digit that is taken over doubles. -/
def nextFracDouble (fl : Doubles) (m : Number) (c : UInt8) : Number :=
  { m with
    d := mulAdd fl m.d c
    significandDigit :=
      if fl.isPositive (mulAdd fl m.d c) then m.significandDigit + 1 else m.significandDigit }

theorem fracDoubleTurn_digit (m : Number) {c : UInt8} (hc : isDigit c = true) :
    fracDoubleTurn fl m c =
      if m.significandDigit < 17 then lowerFrac (nextFracDouble fl m c) else .take m := by
  rw [fracDoubleTurn, if_pos hc]
  rfl

theorem fracDoubleTurn_other (m : Number) {c : UInt8} (hc : isDigit c = false) :
    fracDoubleTurn fl m c = .stop m := by
  simp [fracDoubleTurn, hc]

/-- A digit that is taken into the significand. -/
def nextFrac (m : Number) (c : UInt8) : Number :=
  { m with
    i64 := m.i64 * 10 + (c - 0x30).toUInt64
    significandDigit := if m.i64 * 10 + (c - 0x30).toUInt64 ≠ 0 then m.significandDigit + 1
      else m.significandDigit }

theorem fracTurn_digit (m : Number) {c : UInt8} (hc : isDigit c = true) :
    fracTurn m c =
      if m.i64 > 0x1FFFFFFFFFFFFF then .stop m else lowerFrac (nextFrac m c) := by
  rw [fracTurn, if_pos hc]
  rfl

theorem fracTurn_other (m : Number) {c : UInt8} (hc : isDigit c = false) :
    fracTurn m c = .stop m := by
  simp [fracTurn, hc]

/-- The loop over doubles takes all digits. -/
theorem stops_of_fracDouble {m m' : Number} {s r : Bytes}
    (h : scanLoop (fracDoubleTurn fl) m s = .ok m' r) : Stops (isDigit · = true) r := by
  have hlower : ∀ m m' : Number, lowerFrac m ≠ .stop m' ∧ lowerFrac m ≠ .last m' := by
    intro m m'
    unfold lowerFrac
    split_ifs <;> simp
  refine stops_of_scanLoop (fun m c hc m' => ?_) (fun m c m' => ?_) h
  · rw [fracDoubleTurn_digit m hc]
    split
    · exact (hlower _ m').1
    · simp
  · unfold fracDoubleTurn
    split_ifs
    · exact (hlower _ m').2
    · simp
    · simp

theorem fracDigits_sound {m m' : Number} {s r : Bytes} (h : fracDigits fl m s = .ok m' r) :
    (∃ ds, Digits ds ∧ s = ds ++ r) ∧ Stops (isDigit · = true) r := by
  rw [fracDigits] at h
  split at h
  · exact ⟨scanLoop_sound (fun m c hc => fracDoubleTurn_other m hc) h, stops_of_fracDouble h⟩
  · obtain ⟨m₁, s₁, hfirst, hrest⟩ := Decoder.bind_eq_ok.mp h
    obtain ⟨ds₁, hds₁, rfl⟩ := scanLoop_sound (fun m c hc => fracTurn_other m hc) hfirst
    obtain ⟨ds₂, hds₂, rfl⟩ := scanLoop_sound (fun m c hc => fracDoubleTurn_other m hc) hrest
    exact ⟨⟨ds₁ ++ ds₂, List.forall_mem_append.mpr ⟨hds₁, hds₂⟩, by simp⟩,
      stops_of_fracDouble hrest⟩

theorem parseFrac_sound {m m' : Number} {s r : Bytes} (h : parseFrac fl m s = .ok m' r) :
    ∃ frac, (∀ f, frac = some f → Digits f ∧ f ≠ []) ∧ s = fracText frac ++ r := by
  obtain ⟨b, s₁, hpoint, hrest⟩ := Decoder.bind_eq_ok.mp h
  rcases consume_eq_ok hpoint with ⟨rfl, rfl⟩ | ⟨rfl, rfl, -⟩
  · rw [if_pos rfl] at hrest
    cases s₁ with
    | nil => cases hrest
    | cons c s₁ =>
        rw [peek_bind_cons] at hrest
        split at hrest
        · rename_i hc
          obtain ⟨⟨f, hf, hs⟩, hstops⟩ := fracDigits_sound hrest
          refine ⟨some f, ?_, by rw [hs]; rfl⟩
          rintro _ ⟨⟩
          refine ⟨hf, ?_⟩
          rintro rfl
          obtain rfl : c :: s₁ = r := hs
          exact stops_cons.mp hstops hc
        · exact absurd hrest throw_ne_ok
  · obtain ⟨rfl, rfl⟩ := Decoder.pure_eq_ok.mp hrest
    exact ⟨none, by simp, rfl⟩

/-! ## The exponent -/

theorem expMinusTurn_other {maxExp : Int} (m : Number) {c : UInt8} (hc : isDigit c = false) :
    expMinusTurn maxExp m c = .stop m := by
  simp [expMinusTurn, hc]

theorem expPlusTurn_other {maxExp : Int} (m : Number) {c : UInt8} (hc : isDigit c = false) :
    expPlusTurn maxExp m c = .stop m := by
  simp [expPlusTurn, hc]

theorem restTurn_other (m : Number) {c : UInt8} (hc : isDigit c = false) :
    restTurn m c = .stop m := by
  simp [restTurn, hc]

theorem int_eq_ok {x y : Int} {s r : Bytes} (h : int x s = .ok y r) : y = x ∧ r = s := by
  rw [int] at h
  split at h
  · exact Decoder.pure_eq_ok.mp h
  · exact absurd h throw_ne_ok

theorem expDigits_sound {m m' : Number} {s r : Bytes} (h : expDigits m s = .ok m' r) :
    ∃ ds, Digits ds ∧ ds ≠ [] ∧ s = ds ++ r := by
  cases s with
  | nil => cases h
  | cons c s =>
      cases hc : isDigit c with
      | false =>
          rw [expDigits_other m hc] at h
          cases h
      | true =>
          rw [expDigits_digit m hc, expLoop] at h
          split at h
          · obtain ⟨maxExp, s₀, hint, hthen⟩ := Decoder.bind_eq_ok.mp h
            obtain ⟨-, rfl⟩ := int_eq_ok hint
            obtain ⟨m₁, s₁, hloop, hrest⟩ := Decoder.bind_eq_ok.mp hthen
            obtain ⟨m₂, s₂, hloop', hlast⟩ := Decoder.bind_eq_ok.mp hrest
            obtain ⟨-, rfl⟩ := Decoder.pure_eq_ok.mp hlast
            obtain ⟨ds₁, hds₁, rfl⟩ := scanLoop_sound (fun m c hc => expMinusTurn_other m hc) hloop
            obtain ⟨ds₂, hds₂, rfl⟩ := scanLoop_sound (fun m c hc => restTurn_other m hc) hloop'
            refine ⟨c :: (ds₁ ++ ds₂), ?_, List.cons_ne_nil _ _, by simp⟩
            exact List.forall_mem_cons.mpr ⟨hc, List.forall_mem_append.mpr ⟨hds₁, hds₂⟩⟩
          · obtain ⟨maxExp, s₀, hint, hloop⟩ := Decoder.bind_eq_ok.mp h
            obtain ⟨-, rfl⟩ := int_eq_ok hint
            obtain ⟨ds, hds, rfl⟩ := scanLoop_sound (fun m c hc => expPlusTurn_other m hc) hloop
            exact ⟨c :: ds, List.forall_mem_cons.mpr ⟨hc, hds⟩, List.cons_ne_nil _ _, rfl⟩

theorem orConsume_sound {a b : UInt8} {found : Bool} {s r : Bytes}
    (h : (consume a <||> consume b) s = .ok found r) :
    found = true ∧ (∃ c, (c = a ∨ c = b) ∧ s = c :: r) ∨ found = false ∧ s = r := by
  obtain ⟨first, s₁, hfirst, hrest⟩ := Decoder.bind_eq_ok.mp h
  rcases consume_eq_ok hfirst with ⟨rfl, rfl⟩ | ⟨rfl, rfl, -⟩
  · obtain ⟨rfl, rfl⟩ := Decoder.pure_eq_ok.mp hrest
    exact .inl ⟨rfl, a, .inl rfl, rfl⟩
  · rcases consume_eq_ok hrest with ⟨rfl, rfl⟩ | ⟨rfl, rfl, -⟩
    · exact .inl ⟨rfl, b, .inr rfl, rfl⟩
    · exact .inr ⟨rfl, rfl⟩

theorem expSigned_sound {m m' : Number} {s r : Bytes} (h : expSigned m s = .ok m' r) :
    ∃ (sign : ExpSign) (ds : Bytes), Digits ds ∧ ds ≠ [] ∧ s = sign.text ++ ds ++ r := by
  obtain ⟨plus, s₁, hplus, hrest⟩ := Decoder.bind_eq_ok.mp h
  rcases consume_eq_ok hplus with ⟨rfl, rfl⟩ | ⟨rfl, rfl, -⟩
  · obtain ⟨ds, hds, hne, rfl⟩ := expDigits_sound hrest
    exact ⟨.plus, ds, hds, hne, rfl⟩
  · obtain ⟨minus, s₂, hminus, hlast⟩ := Decoder.bind_eq_ok.mp hrest
    obtain ⟨ds, hds, hne, rfl⟩ := expDigits_sound hlast
    rcases consume_eq_ok hminus with ⟨rfl, rfl⟩ | ⟨rfl, rfl, -⟩
    · exact ⟨.minus, ds, hds, hne, rfl⟩
    · exact ⟨.none, ds, hds, hne, rfl⟩

theorem parseExp_sound {m m' : Number} {s r : Bytes} (h : parseExp fl m s = .ok m' r) :
    ∃ exp, (∀ e, exp = some e → ExpPart.Valid e) ∧ s = expText exp ++ r := by
  obtain ⟨found, s₁, hletter, hrest⟩ := Decoder.bind_eq_ok.mp h
  rcases orConsume_sound hletter with ⟨rfl, c, hc, rfl⟩ | ⟨rfl, rfl⟩
  · obtain ⟨sign, ds, hds, hne, rfl⟩ := expSigned_sound hrest
    refine ⟨some ⟨c, sign, ds⟩, ?_, rfl⟩
    rintro _ ⟨⟩
    exact ⟨hc, hds, hne⟩
  · obtain ⟨rfl, rfl⟩ := Decoder.pure_eq_ok.mp hrest
    exact ⟨none, by simp, rfl⟩

/-! ## The end -/

theorem pow10_sound {e : Int} {d : UInt64} {s r : Bytes} (h : pow10 fl e s = .ok d r) : r = s := by
  rw [pow10] at h
  split at h
  · exact (Decoder.pure_eq_ok.mp h).2
  · exact absurd h throw_ne_ok

theorem fastPath_sound {d x : UInt64} {e : Int} {s r : Bytes} (h : fastPath fl d e s = .ok x r) :
    r = s := by
  rw [fastPath] at h
  split at h
  · exact (Decoder.pure_eq_ok.mp h).2
  · split at h
    · obtain ⟨y, s₁, hpow, hrest⟩ := Decoder.bind_eq_ok.mp h
      exact (Decoder.pure_eq_ok.mp hrest).2.trans (pow10_sound hpow)
    · obtain ⟨y, s₁, hpow, hrest⟩ := Decoder.bind_eq_ok.mp h
      exact (Decoder.pure_eq_ok.mp hrest).2.trans (pow10_sound hpow)

theorem strtod_sound {d x : UInt64} {p : Int} {s r : Bytes}
    (h : strtodNormalPrecision fl d p s = .ok x r) : r = s := by
  rw [strtodNormalPrecision] at h
  split at h
  · obtain ⟨y, s₁, hfirst, hrest⟩ := Decoder.bind_eq_ok.mp h
    exact (fastPath_sound hrest).trans (fastPath_sound hfirst)
  · exact fastPath_sound h

theorem finish_sound {m : Number} {x : Scalar} {s r : Bytes} (h : finish fl m s = .ok x r) :
    r = s := by
  rw [finish] at h
  split at h
  · obtain ⟨p, s₁, hint, hthen⟩ := Decoder.bind_eq_ok.mp h
    obtain ⟨-, rfl⟩ := int_eq_ok hint
    obtain ⟨d, s₂, hscale, hrest⟩ := Decoder.bind_eq_ok.mp hthen
    split at hrest
    · exact absurd hrest throw_ne_ok
    · exact (Decoder.pure_eq_ok.mp hrest).2.trans (strtod_sound hscale)
  · split at h <;> exact (Decoder.pure_eq_ok.mp h).2

end Number

/-- What `ParseNumber` takes is a number of the grammar. -/
theorem parts_of_parseNumber {s r : Bytes} {x : Scalar} (h : parseNumber fl s = .ok x r) :
    ∃ p : Parts, p.Valid ∧ s = p.text ++ r := by
  rw [parseNumber_eq] at h
  obtain ⟨minus, s₁, hminus, hrest⟩ := Decoder.bind_eq_ok.mp h
  obtain ⟨m₁, s₂, hint, hafter⟩ := Decoder.bind_eq_ok.mp hrest
  obtain ⟨m₂, s₃, hfrac, hthen⟩ := Decoder.bind_eq_ok.mp hafter
  obtain ⟨m₃, s₄, hexp, hfinish⟩ := Decoder.bind_eq_ok.mp hthen
  obtain rfl := Number.finish_sound hfinish
  obtain ⟨ds, hds, rfl⟩ := Number.integerPart_sound hint
  obtain ⟨frac, hvalid, rfl⟩ := Number.parseFrac_sound hfrac
  obtain ⟨exp, hvalid', rfl⟩ := Number.parseExp_sound hexp
  refine ⟨⟨minus, ds, frac, exp⟩, ⟨hds, hvalid, hvalid'⟩, ?_⟩
  rcases consume_eq_ok hminus with ⟨rfl, rfl⟩ | ⟨rfl, rfl, -⟩ <;>
    simp [Parts.text, signText]

end Reader

end FlexEtl
