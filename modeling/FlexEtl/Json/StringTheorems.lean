/-
FlexEtl.Json.StringTheorems — the strings that the reader takes, and what it makes of them.

White space, hexadecimal digits, escapes and whole strings are read as the
grammar has them (`scans_parseStringToStream`). The escapes of a character, one
codepoint or a pair of surrogates, put its UTF-8 (`encode_char`,
`joinSurrogates_eq`).
-/
import FlexEtl.Json.Spelling
import Mathlib.Tactic.NormNum

namespace FlexEtl

namespace Reader

open Decoder

variable {n : Nat} {C : UInt8 → Prop}

/-- Nothing has to stop the scanner. -/
abbrev Any : UInt8 → Prop := fun _ => False

/-- An error in the text, and nothing worse. -/
def IsError (e : ReaderFault) : Prop := ∃ code, e = .error code

/-! ## The stream -/

@[simp] theorem peek_nil : peek [] = .ok 0 [] := rfl

@[simp] theorem peek_cons (c : UInt8) (s : Bytes) : peek (c :: s) = .ok c (c :: s) := rfl

@[simp] theorem take_cons (c : UInt8) (s : Bytes) : take (c :: s) = .ok () s := rfl

theorem peek_bind_cons {α : Type} (f : UInt8 → ScanM α) (c : UInt8) (s : Bytes) :
    (peek >>= f) (c :: s) = f c (c :: s) := rfl

theorem consume_of_head (c : UInt8) (s : Bytes) : consume c (c :: s) = .ok true s := by
  simp [consume]

theorem consume_of_stops {c : UInt8} {s : Bytes} (h : Stops (· = c) s) :
    consume c s = .ok false s := by
  cases s with
  | nil => rfl
  | cons d s => simp [consume, stops_cons.mp h]

theorem consume_eq_ok {c : UInt8} {b : Bool} {s r : Bytes} (h : consume c s = .ok b r) :
    b = true ∧ s = c :: r ∨ b = false ∧ s = r ∧ Stops (· = c) s := by
  cases s with
  | nil =>
      cases h
      exact .inr ⟨rfl, rfl, stops_nil⟩
  | cons d s =>
      by_cases hd : d = c
      · subst hd
        rw [consume_of_head] at h
        cases h
        exact .inl ⟨rfl, rfl⟩
      · rw [consume_of_stops (stops_cons.mpr hd)] at h
        cases h
        exact .inr ⟨rfl, rfl, stops_cons.mpr hd⟩

theorem runs_consume (c : UInt8) : Runs n (consume c) IsError fun _ => True where
  ok := by
    intro s b r _ h
    rcases consume_eq_ok h with ⟨-, rfl, -⟩ | ⟨-, rfl, -⟩ <;> simp
  error := by
    intro s e r _ h
    cases s with
    | nil => cases h
    | cons d s =>
        simp only [consume] at h
        split at h <;> cases h

theorem runs_peek : Runs n peek IsError fun _ => True where
  ok := by
    intro s b r _ h
    cases h
    exact ⟨Nat.le_refl _, trivial⟩
  error := by
    intro s e r _ h
    cases h

theorem runs_parseError {α : Type} {P : α → Prop} (code : ParseErrorCode) :
    Runs n (parseError code : ScanM α) IsError P :=
  Runs.throw ⟨code, rfl⟩

theorem skipWhitespace_eq (s : Bytes) : skipWhitespace s = .ok () (s.dropWhile isBlank) := by
  unfold skipWhitespace
  induction s with
  | nil => rfl
  | cons c s ih =>
      cases hc : isBlank c with
      | true =>
          rw [@scanLoop_take _ _ Unit _ _ () c (by simp [hc]), ih, List.dropWhile_cons_of_pos hc]
      | false =>
          rw [@scanLoop_stop _ _ Unit _ _ () c (by simp [hc]),
            List.dropWhile_cons_of_neg (by simp [hc])]

theorem scans_skipWhitespace (n : Nat) :
    Scans n (isBlank · = true) skipWhitespace fun _ t => Blank t where
  sound := by
    intro s b r _ h
    rw [skipWhitespace_eq] at h
    cases h
    exact ⟨s.takeWhile isBlank, fun c hc => (List.mem_takeWhile_imp hc),
      (List.takeWhile_append_dropWhile).symm⟩
  complete := by
    intro _ t r ht hr _
    rw [skipWhitespace_eq, List.dropWhile_append_of_pos ht]
    cases r with
    | nil => rfl
    | cons c r =>
        rw [List.dropWhile_cons_of_neg (hr c rfl)]

theorem runs_skipWhitespace : Runs n skipWhitespace IsError fun _ => True where
  ok := by
    intro s b r _ h
    rw [skipWhitespace_eq] at h
    cases h
    exact ⟨(List.dropWhile_suffix isBlank).length_le, trivial⟩
  error := by
    intro s e r _ h
    rw [skipWhitespace_eq] at h
    cases h

/-- A scanner that takes the next byte and goes on, or finds an error there. -/
theorem runs_of_head {α : Type} {p : ScanM α} {P : α → Prop}
    (hnil : ∃ code, p [] = .error (.error code) [])
    (hcons : ∀ c, (∃ q, Runs n q IsError P ∧ ∀ s, p (c :: s) = q s) ∨
      ∃ code, ∀ s, p (c :: s) = .error (.error code) (c :: s)) : Runs n p IsError P where
  ok := by
    intro s a r hlen h
    cases s with
    | nil =>
        obtain ⟨code, herror⟩ := hnil
        rw [herror] at h
        cases h
    | cons c s =>
        rcases hcons c with ⟨q, hq, heq⟩ | ⟨code, herror⟩
        · rw [heq] at h
          exact (hq.ok (Nat.lt_of_succ_lt hlen) h).imp_left Nat.le_succ_of_le
        · rw [herror] at h
          cases h
  error := by
    intro s e r hlen h
    cases s with
    | nil =>
        obtain ⟨code, herror⟩ := hnil
        rw [herror] at h
        cases h
        exact ⟨code, rfl⟩
    | cons c s =>
        rcases hcons c with ⟨q, hq, heq⟩ | ⟨code, herror⟩
        · rw [heq] at h
          exact hq.error (Nat.lt_of_succ_lt hlen) h
        · rw [herror] at h
          cases h
          exact ⟨code, rfl⟩

/-! ## Hexadecimal digits -/

/-- The digits of the reader are those of the base sixteen. -/
theorem hexDigit?_eq (c : UInt8) : (hexDigit? c).map UInt32.toNat = Numeral.digit? c ∧
    (hexDigit? c).isSome = Numeral.isDigit 16 c := by
  have hall : ∀ i : Fin 256,
      (hexDigit? (UInt8.ofFin i)).map UInt32.toNat = Numeral.digit? (UInt8.ofFin i) ∧
        (hexDigit? (UInt8.ofFin i)).isSome = Numeral.isDigit 16 (UInt8.ofFin i) := by
    decide +kernel
  exact hall c.toFin

theorem isDigit_iff_hexDigit? {c : UInt8} :
    Numeral.isDigit 16 c = true ↔ ∃ d, hexDigit? c = some d := by
  rw [← (hexDigit?_eq c).2, Option.isSome_iff_exists]

theorem hexStep_nil (u : UInt32) :
    hexStep u [] = .error (.error .stringUnicodeEscapeInvalidHex) [] := rfl

theorem hexStep_of_some {c : UInt8} {d : UInt32} (h : hexDigit? c = some d) (u : UInt32)
    (s : Bytes) : hexStep u (c :: s) = .ok ((u <<< 4) + d) s := by
  rw [hexStep, peek_bind_cons, h]
  rfl

theorem hexStep_of_none {c : UInt8} (h : hexDigit? c = none) (u : UInt32) (s : Bytes) :
    hexStep u (c :: s) = .error (.error .stringUnicodeEscapeInvalidHex) (c :: s) := by
  rw [hexStep, peek_bind_cons, h]
  rfl

theorem hexStep_eq_ok {u v : UInt32} {s r : Bytes} (h : hexStep u s = .ok v r) :
    ∃ c d, hexDigit? c = some d ∧ s = c :: r ∧ v = (u <<< 4) + d := by
  cases s with
  | nil => cases h
  | cons c s =>
      cases hd : hexDigit? c with
      | some d =>
          rw [hexStep_of_some hd] at h
          cases h
          exact ⟨c, d, hd, rfl, rfl⟩
      | none =>
          rw [hexStep_of_none hd] at h
          cases h

theorem toNat_hexStep {c : UInt8} {d : UInt32} (h : hexDigit? c = some d) (u : UInt32) :
    ((u <<< 4) + d).toNat = (16 * u.toNat + (Numeral.digit? c).getD 0) % 2 ^ 32 := by
  have hd := (hexDigit?_eq c).1
  rw [h, Option.map_some] at hd
  have hshift : u.toNat <<< (UInt32.toNat 4 % 32) = 16 * u.toNat := by
    rw [show UInt32.toNat 4 % 32 = 4 from rfl, Nat.shiftLeft_eq, Nat.mul_comm]
  rw [← hd, Option.getD_some, UInt32.toNat_add, UInt32.toNat_shiftLeft, hshift, Nat.mod_add_mod]

/-- So many digits, behind those that are read. -/
theorem scans_hexSteps (n k : Nat) (u : UInt32) : Scans n C (Decoder.iter hexStep k u) fun v t =>
    t.length = k ∧ (∀ c ∈ t, Numeral.isDigit 16 c = true) ∧
      v.toNat = Numeral.valueFrom 16 u.toNat t % 2 ^ 32 where
  sound := by
    intro s v r _ h
    induction k generalizing u s with
    | zero =>
        obtain ⟨rfl, rfl⟩ := Decoder.pure_eq_ok.mp h
        exact ⟨[], by simp [Nat.mod_eq_of_lt v.toNat_lt], rfl⟩
    | succ k ih =>
        obtain ⟨w, s', hstep, hrest⟩ := Decoder.bind_eq_ok.mp h
        obtain ⟨c, d, hd, rfl, rfl⟩ := hexStep_eq_ok hstep
        obtain ⟨t, ⟨hlen, hdigits, hvalue⟩, rfl⟩ := ih _ hrest
        refine ⟨c :: t, ⟨by simp [hlen], ?_, ?_⟩, rfl⟩
        · exact List.forall_mem_cons.mpr ⟨isDigit_iff_hexDigit?.mpr ⟨d, hd⟩, hdigits⟩
        · rw [hvalue, toNat_hexStep hd, Numeral.valueFrom_cons, Numeral.valueFrom_eq,
            Numeral.valueFrom_eq 16 (16 * _ + _)]
          simp [Nat.add_mod, Nat.mul_mod]
  complete := by
    intro v t r hG hr hlen
    induction k generalizing u t with
    | zero =>
        obtain ⟨hnil, -, hvalue⟩ := hG
        obtain rfl := List.length_eq_zero_iff.mp hnil
        rw [Numeral.valueFrom_nil, Nat.mod_eq_of_lt u.toNat_lt] at hvalue
        obtain rfl := UInt32.toNat_inj.mp hvalue
        rfl
    | succ k ih =>
        obtain ⟨hcons, hdigits, hvalue⟩ := hG
        obtain ⟨c, t, rfl⟩ := List.exists_cons_of_length_eq_add_one hcons
        obtain ⟨hc, ht⟩ := List.forall_mem_cons.mp hdigits
        obtain ⟨d, hd⟩ := isDigit_iff_hexDigit?.mp hc
        rw [List.cons_append, Decoder.iter, Outcome.bind_of_ok (hexStep_of_some hd u _)]
        refine ih _ ⟨by simpa using hcons, ht, ?_⟩ (by simp at hlen ⊢; omega)
        rw [hvalue, toNat_hexStep hd, Numeral.valueFrom_cons, Numeral.valueFrom_eq,
          Numeral.valueFrom_eq 16 (_ % _)]
        simp [Nat.add_mod, Nat.mul_mod]

theorem scans_parseHex4 (n : Nat) : Scans n C parseHex4 fun u t => SpellsHex4 u t := by
  refine (scans_hexSteps n 4 0).congr fun u t => ?_
  have hvalue : t.length = 4 → (∀ c ∈ t, Numeral.isDigit 16 c = true) →
      Numeral.valueFrom 16 (0 : UInt32).toNat t % 2 ^ 32 = Numeral.value 16 t := by
    intro hlen hdigits
    have hlt := Numeral.value_lt hdigits
    rw [hlen] at hlt
    exact Nat.mod_eq_of_lt (Nat.lt_trans hlt (by decide))
  constructor
  · rintro ⟨hlen, hdigits, h⟩
    exact ⟨hlen, hdigits, h.trans (hvalue hlen hdigits)⟩
  · rintro ⟨hlen, hdigits, h⟩
    exact ⟨hlen, hdigits, h.trans (hvalue hlen hdigits).symm⟩

theorem runs_hexStep (u : UInt32) : Runs n (hexStep u) IsError fun _ => True := by
  refine runs_of_head ⟨_, hexStep_nil u⟩ fun c => ?_
  cases hd : hexDigit? c with
  | some d => exact .inl ⟨pure ((u <<< 4) + d), Runs.pure trivial, hexStep_of_some hd u⟩
  | none => exact .inr ⟨_, hexStep_of_none hd u⟩

theorem runs_parseHex4 : Runs n parseHex4 IsError fun _ => True := by
  suffices h : ∀ k u, Runs n (Decoder.iter hexStep k u) IsError fun _ => True from h 4 0
  intro k
  induction k with
  | zero => exact fun u => Runs.pure trivial
  | succ k ih => exact fun u => (runs_hexStep u).bind fun v _ => ih v

/-! ## Escapes -/

/-- The table of the reader has the letters, and nothing else. -/
theorem escapeLetter_iff {e b : UInt8} : EscapeLetter e b ↔ escape e = b ∧ escape e ≠ 0 := by
  constructor
  · intro h
    cases h <;> decide
  · rintro ⟨rfl, h⟩
    unfold escape at h ⊢
    split_ifs at h ⊢ <;> first | (subst_vars; constructor) | exact absurd rfl h

theorem consume_pair_eq_ok {a b : UInt8} {s r : Bytes}
    (h : (consume a <&&> consume b) s = .ok true r) : s = a :: b :: r := by
  obtain ⟨found, s', hfirst, hrest⟩ := Decoder.bind_eq_ok.mp h
  rcases consume_eq_ok hfirst with ⟨rfl, rfl⟩ | ⟨rfl, rfl, -⟩
  · rcases consume_eq_ok hrest with ⟨-, rfl⟩ | ⟨hfalse, -⟩
    · rfl
    · cases hfalse
  · cases hrest

theorem consume_pair_run (a b : UInt8) (r : Bytes) :
    (consume a <&&> consume b) (a :: b :: r) = .ok true r := by
  show (consume a >>= _) _ = _
  rw [Outcome.bind_of_ok (consume_of_head a _)]
  exact consume_of_head b r

theorem parseUnicode_sound {s b r : Bytes} (h : parseUnicode s = .ok b r) :
    ∃ e, SpellsEscape b (0x75 :: e) ∧ s = e ++ r := by
  obtain ⟨u, s₁, hfirst, hrest⟩ := Decoder.bind_eq_ok.mp h
  obtain ⟨t, hu, rfl⟩ := (@scans_parseHex4 Any 0).sound stops_false hfirst
  cases hhigh : isHighSurrogate u with
  | false =>
      simp only [hhigh, Bool.false_eq_true, if_false] at hrest
      obtain ⟨rfl, rfl⟩ := Decoder.pure_eq_ok.mp hrest
      exact ⟨t, .codepoint hu hhigh, rfl⟩
  | true =>
      simp only [hhigh, if_true] at hrest
      obtain ⟨both, s₂, hconsume, hpair⟩ := Decoder.bind_eq_ok.mp hrest
      cases both with
      | false => cases hpair
      | true =>
          obtain rfl := consume_pair_eq_ok hconsume
          simp only [if_true] at hpair
          obtain ⟨v, s₃, hsecond, hlast⟩ := Decoder.bind_eq_ok.mp hpair
          obtain ⟨k, hv, rfl⟩ := (@scans_parseHex4 Any 0).sound stops_false hsecond
          cases hlow : isLowSurrogate v with
          | false =>
              rw [if_neg (by simp [hlow])] at hlast
              exact absurd hlast throw_ne_ok
          | true =>
              rw [if_pos hlow] at hlast
              obtain ⟨hb, hr⟩ := Decoder.pure_eq_ok.mp hlast
              rw [hb, hr]
              exact ⟨_, .pair hu hhigh hv hlow, by simp⟩

theorem parseHex4_run {u : UInt32} {t : Bytes} (h : SpellsHex4 u t) (r : Bytes) :
    parseHex4 (t ++ r) = .ok u r :=
  (@scans_parseHex4 Any ((t ++ r).length + 1)).complete h stops_false (Nat.lt_succ_self _)

theorem parseUnicode_run {b e : Bytes} (h : SpellsEscape b (0x75 :: e)) (r : Bytes) :
    parseUnicode (e ++ r) = .ok b r := by
  cases h with
  | char he => cases he
  | codepoint hu hone =>
      rw [parseUnicode, Outcome.bind_of_ok (parseHex4_run hu r)]
      simp only [hone, Bool.false_eq_true, if_false]
      rfl
  | @pair u v h k hu hhigh hv hlow =>
      rw [List.append_assoc, parseUnicode, Outcome.bind_of_ok (parseHex4_run hu _)]
      simp only [hhigh, if_true, List.cons_append]
      rw [Outcome.bind_of_ok (consume_pair_run _ _ _)]
      simp only [if_true]
      rw [Outcome.bind_of_ok (parseHex4_run hv r)]
      simp only [hlow, if_true]
      rfl

theorem parseEscape_cons (e : UInt8) (s : Bytes) : parseEscape (e :: s) =
    if escape e ≠ 0 then .ok [escape e] s
    else if e = 0x75 then parseUnicode s
    else .error (.error .stringEscapeInvalid) (e :: s) := by
  rw [parseEscape, peek_bind_cons]
  by_cases hchar : escape e ≠ 0
  · simp only [if_pos hchar]
    rfl
  · by_cases hu : e = 0x75
    · simp only [if_neg hchar, if_pos hu]
      rfl
    · simp only [if_neg hchar, if_neg hu]
      rfl

theorem parseEscape_sound {s b r : Bytes} (h : parseEscape s = .ok b r) :
    ∃ e, SpellsEscape b e ∧ s = e ++ r := by
  cases s with
  | nil => cases h
  | cons c s =>
      rw [parseEscape_cons] at h
      split at h
      · cases h
        exact ⟨[c], .char (escapeLetter_iff.mpr ⟨rfl, ‹_›⟩), rfl⟩
      · split at h
        · subst ‹c = 0x75›
          obtain ⟨e, he, rfl⟩ := parseUnicode_sound h
          exact ⟨0x75 :: e, he, rfl⟩
        · cases h

theorem parseEscape_run {b e : Bytes} (h : SpellsEscape b e) (r : Bytes) :
    parseEscape (e ++ r) = .ok b r := by
  cases h with
  | char he =>
      obtain ⟨rfl, hne⟩ := escapeLetter_iff.mp he
      rw [List.cons_append, parseEscape_cons, if_pos hne, List.nil_append]
  | codepoint hu hone =>
      rw [List.cons_append, parseEscape_cons, if_neg (by decide), if_pos rfl]
      exact parseUnicode_run (.codepoint hu hone) r
  | pair hu hhigh hv hlow =>
      rw [List.cons_append, parseEscape_cons, if_neg (by decide), if_pos rfl]
      exact parseUnicode_run (.pair hu hhigh hv hlow) r

theorem runs_parseUnicode : Runs n parseUnicode IsError fun _ => True := by
  refine runs_parseHex4.bind fun u _ => Runs.ite (fun _ => ?_) fun _ => Runs.pure trivial
  refine Runs.bind (P := fun _ => True) (runs_consume _ |>.bind fun b _ => ?_) fun b _ =>
    Runs.ite (fun _ => ?_) fun _ => runs_parseError _
  · cases b with
    | false => exact Runs.pure trivial
    | true => exact runs_consume _
  · refine runs_parseHex4.bind fun v _ => Runs.ite (fun _ => Runs.pure trivial) fun _ => ?_
    exact runs_parseError _

theorem runs_parseEscape : Runs n parseEscape IsError fun _ => True := by
  refine runs_of_head ⟨_, rfl⟩ fun e => ?_
  by_cases hchar : escape e ≠ 0
  · refine .inl ⟨pure [escape e], Runs.pure trivial, fun s => ?_⟩
    rw [parseEscape_cons, if_pos hchar]
    rfl
  · by_cases hu : e = 0x75
    · refine .inl ⟨parseUnicode, runs_parseUnicode, fun s => ?_⟩
      rw [parseEscape_cons, if_neg hchar, if_pos hu]
    · refine .inr ⟨.stringEscapeInvalid, fun s => ?_⟩
      rw [parseEscape_cons, if_neg hchar, if_neg hu]

/-! ## Strings -/

section StringLoop

variable {fuel : Nat} {os s : Bytes}

theorem stringLoop_escape : stringLoop (fuel + 1) os (0x5C :: s) =
    (parseEscape >>= fun bytes => stringLoop fuel (os ++ bytes)) s := rfl

theorem stringLoop_plain {c : UInt8} (hlow : ¬ c < 0x20) (hquote : c ≠ 0x22) (hslash : c ≠ 0x5C) :
    stringLoop (fuel + 1) os (c :: s) = stringLoop fuel (os ++ [c]) s := by
  rw [stringLoop, peek_bind_cons, if_neg hslash, if_neg hquote, if_neg hlow]
  rfl

/-- Control characters are refused. -/
theorem stringLoop_low {c : UInt8} (hlow : c < 0x20) : ∃ code,
    stringLoop (fuel + 1) os (c :: s) = .error (.error code) (c :: s) := by
  have hslash : c ≠ 0x5C := by
    rintro rfl
    exact absurd hlow (by decide)
  have hquote : c ≠ 0x22 := by
    rintro rfl
    exact absurd hlow (by decide)
  rw [stringLoop, peek_bind_cons, if_neg hslash, if_neg hquote, if_pos hlow]
  split
  · exact ⟨_, rfl⟩
  · exact ⟨_, rfl⟩

/-- What the next byte can be in a string. -/
theorem stringByte_cases (c : UInt8) :
    c = 0x5C ∨ c = 0x22 ∨ c < 0x20 ∨ ¬ c < 0x20 ∧ c ≠ 0x22 ∧ c ≠ 0x5C := by
  by_cases hslash : c = 0x5C
  · exact .inl hslash
  · by_cases hquote : c = 0x22
    · exact .inr (.inl hquote)
    · by_cases hlow : c < 0x20
      · exact .inr (.inr (.inl hlow))
      · exact .inr (.inr (.inr ⟨hlow, hquote, hslash⟩))

theorem stringLoop_sound {v r : Bytes} (h : stringLoop fuel os s = .ok v r) :
    ∃ w t, SpellsBody w t ∧ v = os ++ w ∧ s = t ++ 0x22 :: r := by
  induction fuel generalizing os s with
  | zero => cases h
  | succ fuel ih =>
      cases s with
      | nil => cases h
      | cons c s =>
          rcases stringByte_cases c with rfl | rfl | hlow | ⟨hlow, hquote, hslash⟩
          · rw [stringLoop_escape] at h
            obtain ⟨b, s', hescape, hrest⟩ := Decoder.bind_eq_ok.mp h
            obtain ⟨e, he, rfl⟩ := parseEscape_sound hescape
            obtain ⟨w, t, hbody, rfl, rfl⟩ := ih hrest
            exact ⟨b ++ w, _, .escape he hbody, by simp, by simp⟩
          · cases h
            exact ⟨[], [], .nil, by simp, rfl⟩
          · obtain ⟨code, herror⟩ := @stringLoop_low fuel os s c hlow
            rw [herror] at h
            cases h
          · rw [stringLoop_plain hlow hquote hslash] at h
            obtain ⟨w, t, hbody, rfl, rfl⟩ := ih h
            exact ⟨c :: w, c :: t, .plain hlow hquote hslash hbody, by simp, rfl⟩

theorem stringLoop_run {w t r : Bytes} (h : SpellsBody w t)
    (hfuel : (t ++ 0x22 :: r).length < fuel) :
    stringLoop fuel os (t ++ 0x22 :: r) = .ok (os ++ w) r := by
  induction h generalizing fuel os with
  | nil =>
      obtain ⟨fuel, rfl⟩ := Nat.exists_eq_succ_of_ne_zero (Nat.ne_zero_of_lt hfuel)
      rw [List.append_nil]
      rfl
  | @plain c v t hlow hquote hslash _ ih =>
      obtain ⟨fuel, rfl⟩ := Nat.exists_eq_succ_of_ne_zero (Nat.ne_zero_of_lt hfuel)
      rw [List.cons_append, stringLoop_plain hlow hquote hslash, ih (by simpa using hfuel)]
      simp
  | @escape b e v t he _ ih =>
      obtain ⟨fuel, rfl⟩ := Nat.exists_eq_succ_of_ne_zero (Nat.ne_zero_of_lt hfuel)
      rw [List.cons_append, List.append_assoc, stringLoop_escape,
        Outcome.bind_of_ok (parseEscape_run he _), ih (by simp at hfuel ⊢; omega)]
      simp

theorem runs_stringLoop : Runs fuel (stringLoop fuel os) IsError fun _ => True where
  ok := by
    intro s v r _ h
    obtain ⟨w, t, -, -, rfl⟩ := stringLoop_sound h
    simp
    omega
  error := by
    intro s x r hlen h
    induction fuel generalizing os s with
    | zero => exact absurd hlen (Nat.not_lt_zero _)
    | succ fuel ih =>
        cases s with
        | nil =>
            cases h
            exact ⟨_, rfl⟩
        | cons c s =>
            have hrest : s.length < fuel := by simpa using hlen
            rcases stringByte_cases c with rfl | rfl | hlow | ⟨hlow, hquote, hslash⟩
            · rw [stringLoop_escape] at h
              cases hescape : parseEscape s with
              | ok b s' =>
                  rw [Outcome.bind_of_ok hescape] at h
                  exact ih (Nat.lt_of_le_of_lt (runs_parseEscape.ok hrest hescape).1 hrest) h
              | error x' s' =>
                  rw [Outcome.bind_of_error hescape] at h
                  cases h
                  exact runs_parseEscape.error hrest hescape
            · cases h
            · obtain ⟨code, herror⟩ := @stringLoop_low fuel os s c hlow
              rw [herror] at h
              cases h
              exact ⟨code, rfl⟩
            · rw [stringLoop_plain hlow hquote hslash] at h
              exact ih hrest h

end StringLoop

theorem parseStringToStream_cons (c : UInt8) (s : Bytes) :
    parseStringToStream (c :: s) = stringLoop (s.length + 1) [] s := rfl

/-- The strings behind a quotation mark. -/
theorem parseStringToStream_eq_ok {v s r : Bytes} : parseStringToStream (0x22 :: s) = .ok v r ↔
    ∃ t, SpellsString v t ∧ 0x22 :: s = t ++ r := by
  rw [parseStringToStream_cons]
  constructor
  · intro h
    obtain ⟨w, t, hbody, rfl, rfl⟩ := stringLoop_sound h
    exact ⟨_, ⟨t, hbody, rfl⟩, by simp⟩
  · rintro ⟨_, ⟨t, hbody, rfl⟩, hs⟩
    obtain rfl : s = t ++ 0x22 :: r := by simpa using hs
    simpa using @stringLoop_run _ [] _ _ _ hbody (Nat.lt_succ_self _)

/-! ## UTF-8 -/

theorem tailByte_eq (u s : UInt32) : tailByte u s = (u >>> s).toUInt8 &&& 0x3f ||| 0x80 := by
  rw [tailByte, UInt32.toUInt8_or, UInt32.toUInt8_and, UInt8.or_comm]
  rfl

/-- A first byte keeps only bits that fit behind its mark. -/
theorem leadByte_eq {mark u s : UInt32} {mask : UInt8} {i : Nat} (hmask : mask.toNat = 2 ^ i - 1)
    (hi : i ≤ 8) (hu : (u >>> s).toNat < 2 ^ i) :
    leadByte mark u s = (u >>> s).toUInt8 &&& mask ||| mark.toUInt8 := by
  have hpow : 2 ^ i ≤ 2 ^ 8 := Nat.pow_le_pow_right (by decide) hi
  rw [leadByte, UInt32.toUInt8_or, UInt32.toUInt8_and, UInt8.or_comm]
  congr 1
  rw [← UInt8.toNat_inj, UInt8.toNat_and, UInt8.toNat_and, UInt32.toNat_toUInt8, hmask,
    Nat.and_two_pow_sub_one_eq_mod, Nat.mod_eq_of_lt (b := 256) (by omega), Nat.mod_eq_of_lt hu]
  exact (Nat.and_two_pow_sub_one_eq_mod _ 8).trans (Nat.mod_eq_of_lt (by omega))

theorem shiftRight_lt {u s : UInt32} {i j : Nat} (hs : s.toNat % 32 = j)
    (h : u.toNat < 2 ^ (i + j)) : (u >>> s).toNat < 2 ^ i := by
  rw [UInt32.toNat_shiftRight, hs, Nat.shiftRight_eq_div_pow]
  rw [Nat.pow_add] at h
  exact Nat.div_lt_of_lt_mul (by rwa [Nat.mul_comm])

theorem and_byte (u : UInt32) : (u &&& 0xFF).toUInt8 = u.toUInt8 := by
  rw [UInt32.toUInt8_and, ← UInt8.toNat_inj, UInt8.toNat_and]
  exact (Nat.and_two_pow_sub_one_eq_mod _ 8).trans (Nat.mod_eq_of_lt (UInt8.toNat_lt _))

/-- What `Encode` puts for a character is its UTF-8. -/
theorem encode_char (c : Char) : encode c.val = String.utf8EncodeChar c := by
  have hmax : c.val.toNat < 2 ^ (3 + 18) := by
    have hvalid := c.valid
    simp only [UInt32.isValidChar, Nat.isValidChar] at hvalid
    omega
  have hlt : ∀ {bound : UInt32}, c.val ≤ bound → c.val.toNat < bound.toNat + 1 :=
    fun h => Nat.lt_succ_of_le (UInt32.le_iff_toNat_le.mp h)
  rw [String.utf8EncodeChar_eq_utf8EncodeCharFast, encode, String.utf8EncodeCharFast]
  simp only [tailByte_eq, and_byte]
  split
  · rfl
  · split
    · have h : c.val.toNat < 2 ^ (5 + 6) := hlt ‹c.val ≤ 0x7FF›
      rw [@leadByte_eq _ _ _ 0x1f 5 rfl (by decide) (shiftRight_lt rfl h)]
      simp
    · split
      · have h : c.val.toNat < 2 ^ (4 + 12) := hlt ‹c.val ≤ 0xFFFF›
        rw [@leadByte_eq _ _ _ 0x0f 4 rfl (by decide) (shiftRight_lt rfl h)]
        simp
      · rw [@leadByte_eq _ _ _ 0x07 3 rfl (by decide) (shiftRight_lt rfl hmax)]
        simp

/-! ## Characters in a string -/

/-- The two halves of a character beyond the basic plane. -/
def highHalf (c : Char) : Nat := 0xD800 + (c.toNat - 0x10000) / 0x400

def lowHalf (c : Char) : Nat := 0xDC00 + (c.toNat - 0x10000) % 0x400

/-- The escape with `\u`, behind the backslash: one codepoint, or a pair. -/
def unicodeEscape (upper : Nat → Bool) (c : Char) : Bytes :=
  if c.toNat < 0x10000 then 0x75 :: Numeral.spell 16 upper 4 c.toNat
  else 0x75 :: (Numeral.spell 16 upper 4 (highHalf c) ++
    0x5C :: 0x75 :: Numeral.spell 16 upper 4 (lowHalf c))

theorem spellsHex4_spell (upper : Nat → Bool) {u : UInt32} {k : Nat} (hu : u.toNat = k)
    (hk : k < 16 ^ 4) : SpellsHex4 u (Numeral.spell 16 upper 4 k) where
  length := Numeral.length_spell 16 upper 4 k
  digits _ hc := Numeral.isDigit_of_mem_spell (by decide) (by decide) hc
  value := by
    rw [Numeral.value_spell (by decide) (by decide), Nat.mod_eq_of_lt hk, hu]

/-- A half less the beginning of its range. -/
theorem toNat_half_sub {base : UInt32} {k b x : Nat} (hb : base.toNat = b) (hk : k = b + x)
    (hlt : k < 2 ^ 32) : (UInt32.ofNat k - base).toNat = x := by
  have hnat : (UInt32.ofNat k).toNat = k := UInt32.toNat_ofNat_of_lt hlt
  have hle : base ≤ UInt32.ofNat k := by
    rw [UInt32.le_iff_toNat_le, hnat, hb, hk]
    exact Nat.le_add_right b x
  rw [UInt32.toNat_sub_of_le _ _ hle, hnat, hb, hk, Nat.add_sub_cancel_left]

/-- Joined, the halves are the character again. -/
theorem joinSurrogates_eq {c : Char} (h : 0x10000 ≤ c.toNat) :
    joinSurrogates (UInt32.ofNat (highHalf c)) (UInt32.ofNat (lowHalf c)) = c.val := by
  have hmax : c.toNat < 0x110000 := by
    have hvalid := c.valid
    simp only [UInt32.isValidChar, Nat.isValidChar] at hvalid
    exact hvalid.elim (fun h => Nat.lt_trans h (by decide)) And.right
  have hx := @toNat_half_sub 0xD800 (highHalf c) _ _ rfl rfl (by unfold highHalf; omega)
  have hy := @toNat_half_sub 0xDC00 (lowHalf c) _ _ rfl rfl (by unfold lowHalf; omega)
  have hshift : ((c.toNat - 0x10000) / 0x400) <<< (UInt32.toNat 10 % 32) % 2 ^ 32 =
      2 ^ 10 * ((c.toNat - 0x10000) / 0x400) := by
    rw [show UInt32.toNat 10 % 32 = 10 from rfl, Nat.shiftLeft_eq, Nat.mul_comm]
    exact Nat.mod_eq_of_lt (by omega)
  rw [joinSurrogates, ← UInt32.toNat_inj, UInt32.toNat_add, UInt32.toNat_or,
    UInt32.toNat_shiftLeft, hx, hy, hshift,
    ← Nat.two_pow_add_eq_or_of_lt (Nat.mod_lt _ (by decide)), Nat.div_add_mod]
  show (c.toNat - 0x10000 + 0x10000) % 2 ^ 32 = c.toNat
  omega

theorem isHighSurrogate_iff {u : UInt32} :
    isHighSurrogate u = true ↔ 0xD800 ≤ u.toNat ∧ u.toNat ≤ 0xDBFF := by
  simp [isHighSurrogate, UInt32.le_iff_toNat_le]

theorem isLowSurrogate_iff {u : UInt32} :
    isLowSurrogate u = true ↔ 0xDC00 ≤ u.toNat ∧ u.toNat ≤ 0xDFFF := by
  simp [isLowSurrogate, UInt32.le_iff_toNat_le]

/-- The escape with `\\u` of a character puts its UTF-8. -/
theorem spellsEscape_char (upper : Nat → Bool) (c : Char) :
    SpellsEscape (String.utf8EncodeChar c) (unicodeEscape upper c) := by
  have hvalid := c.valid
  simp only [UInt32.isValidChar, Nat.isValidChar] at hvalid
  change c.toNat < 0xD800 ∨ 0xDFFF < c.toNat ∧ c.toNat < 0x110000 at hvalid
  unfold unicodeEscape
  split
  · rename_i hlow
    rw [← encode_char]
    refine .codepoint (spellsHex4_spell upper rfl hlow) ?_
    rw [← Bool.not_eq_true, isHighSurrogate_iff]
    change ¬ (0xD800 ≤ c.toNat ∧ c.toNat ≤ 0xDBFF)
    omega
  · rename_i hbig
    have hhigh : (UInt32.ofNat (highHalf c)).toNat = highHalf c :=
      UInt32.toNat_ofNat_of_lt (Nat.lt_trans (m := 2 ^ 17) (by unfold highHalf; omega) (by decide))
    have hlow : (UInt32.ofNat (lowHalf c)).toNat = lowHalf c :=
      UInt32.toNat_ofNat_of_lt (Nat.lt_trans (m := 2 ^ 17) (by unfold lowHalf; omega) (by decide))
    rw [← encode_char, ← joinSurrogates_eq (Nat.le_of_not_lt hbig)]
    refine .pair (spellsHex4_spell upper hhigh ?_) ?_ (spellsHex4_spell upper hlow ?_) ?_
    · unfold highHalf
      omega
    · rw [isHighSurrogate_iff, hhigh]
      unfold highHalf
      omega
    · unfold lowHalf
      omega
    · rw [isLowSurrogate_iff, hlow]
      unfold lowHalf
      omega

/-- How a character may be written in a string: as it is, with a letter behind a backslash, or
with its number. -/
inductive WritesChar (c : Char) : Bytes → Prop
  | plain (hlow : 0x20 ≤ c.toNat) (hquote : c.toNat ≠ 0x22) (hslash : c.toNat ≠ 0x5C) :
      WritesChar c (String.utf8EncodeChar c)
  | letter {e b : UInt8} (he : EscapeLetter e b) (hc : c.toNat = b.toNat) :
      WritesChar c [0x5C, e]
  | number (upper : Nat → Bool) : WritesChar c (0x5C :: unicodeEscape upper c)

theorem spellsBody_append_plain {b v t : Bytes}
    (hb : ∀ c ∈ b, ¬ c < 0x20 ∧ c ≠ 0x22 ∧ c ≠ 0x5C) (ht : SpellsBody v t) :
    SpellsBody (b ++ v) (b ++ t) := by
  induction b with
  | nil => exact ht
  | cons c b ih =>
      obtain ⟨⟨hlow, hquote, hslash⟩, hrest⟩ := List.forall_mem_cons.mp hb
      exact .plain hlow hquote hslash (ih hrest)

/-- Every byte of a character is one that a string may hold. -/
theorem utf8EncodeChar_plain {c : Char} (hlow : 0x20 ≤ c.toNat) (hquote : c.toNat ≠ 0x22)
    (hslash : c.toNat ≠ 0x5C) :
    ∀ b ∈ String.utf8EncodeChar c, ¬ b < 0x20 ∧ b ≠ 0x22 ∧ b ≠ 0x5C := by
  have hof : ∀ b : UInt8, 0x20 ≤ b.toNat → b.toNat ≠ 0x22 → b.toNat ≠ 0x5C →
      ¬ b < 0x20 ∧ b ≠ 0x22 ∧ b ≠ 0x5C := by
    intro b h₁ h₂ h₃
    refine ⟨?_, ?_, ?_⟩
    · rw [UInt8.lt_iff_toNat_lt]
      exact Nat.not_lt.mpr h₁
    · rintro rfl
      exact h₂ rfl
    · rintro rfl
      exact h₃ rfl
  have hmark : ∀ x m : UInt8, 0x80 ≤ m.toNat →
      0x20 ≤ (x ||| m) ∧ (x ||| m) ≠ 0x22 ∧ (x ||| m) ≠ 0x5C := by
    intro x m hm
    have hge : 0x80 ≤ (x ||| m).toNat := by
      rw [UInt8.toNat_or]
      exact Nat.le_trans hm Nat.right_le_or
    exact (hof _ (by omega) (by omega) (by omega)).imp_left UInt8.not_lt.mp
  rw [String.utf8EncodeChar_eq_utf8EncodeCharFast, String.utf8EncodeCharFast]
  split
  · rename_i hone
    have hnat : c.val.toUInt8.toNat = c.toNat := by
      have hle : c.toNat ≤ 0x7F := UInt32.le_iff_toNat_le.mp hone
      rw [UInt32.toNat_toUInt8]
      exact Nat.mod_eq_of_lt (by omega : c.toNat < 2 ^ 8)
    simpa using hof c.val.toUInt8 (hnat ▸ hlow) (hnat ▸ hquote) (hnat ▸ hslash)
  · split
    · simp [hmark]
    · split <;> simp [hmark]

/-- The UTF-8 of a text is what its string is read as, however its characters are written. -/
theorem spellsString_of_writes {cs : List Char} {ts : List Bytes}
    (h : List.Forall₂ WritesChar cs ts) :
    SpellsString (cs.flatMap String.utf8EncodeChar) (0x22 :: (ts.flatten ++ [0x22])) := by
  refine ⟨ts.flatten, ?_, rfl⟩
  induction h with
  | nil => exact .nil
  | @cons c t cs ts hc _ ih =>
      rw [List.flatMap_cons, List.flatten_cons]
      cases hc with
      | plain hlow hquote hslash =>
          exact spellsBody_append_plain (utf8EncodeChar_plain hlow hquote hslash) ih
      | @letter e b he hc =>
          have hbyte : String.utf8EncodeChar c = [b] := by
            have hle : c.toNat ≤ 0x5C := by
              rw [hc]
              cases he <;> decide
            have hone : c.val ≤ 0x7F :=
              UInt32.le_iff_toNat_le.mpr (Nat.le_trans hle (by decide : 0x5C ≤ 0x7F))
            rw [← encode_char, encode, if_pos hone, and_byte]
            congr 1
            rw [← UInt8.toNat_inj, ← hc, UInt32.toNat_toUInt8]
            exact Nat.mod_eq_of_lt (by omega : c.toNat < 2 ^ 8)
          rw [hbyte]
          exact .escape (.char he) ih
      | number upper => exact .escape (spellsEscape_char upper c) ih

end Reader

end FlexEtl
