/-
FlexEtl.Db.UuidCells — the text of a UUID and its two words.

The canonical text is the 32 hexadecimal digits of the number, in groups of
8, 4, 4, 4 and 12, and each digit may be in either case (`uuidText`). Each
group spells a part of one of the words (`uuidText_eq`), the scan reads the five
parts, and shifted to where they came from they do not overlap, so or-ing
them adds them up (`getUInt128_uuidText`).
-/
import FlexEtl.Db.IntegerCells

namespace FlexEtl

/-! ## The text -/

/-- The characters with a dash after the first `n`. -/
def dashAfter (n : Nat) (s rest : Bytes) : Bytes := s.take n ++ 45 :: rest

/-- Groups of 8, 4, 4, 4 and 12 characters. -/
def grouped (ds : Bytes) : Bytes :=
  dashAfter 8 ds (dashAfter 4 (ds.drop 8) (dashAfter 4 (ds.drop 12)
    (dashAfter 4 (ds.drop 16) (ds.drop 20))))

/-- The canonical text of a number of 128 bits; `upper` says which digits are in upper case. -/
def uuidText (upper : Nat → Bool) (hi lo : UInt64) : Bytes :=
  grouped (Numeral.spell 16 upper 32 (hi.toNat * 2 ^ 64 + lo.toNat))

example : uuidText (fun _ => false) 0x00112233445566aa 0x8899aabbccddeeff =
    ascii "00112233-4455-66aa-8899-aabbccddeeff" := by decide +kernel

/-- `sscanf` reads a run of hexadecimal digits as a number of 64 bits, when it fits and does
not look like a prefix. -/
def ScansHex (libc : Libc) : Prop :=
  ∀ ds rest : Bytes, ds ≠ [] → ds.length ≤ 16 → (∀ c ∈ ds, Numeral.isDigit 16 c = true) →
    Numeral.Stops 16 rest → rest.head? ≠ some 120 → rest.head? ≠ some 88 →
    libc.scan_lx (ds ++ rest) = some (UInt64.ofNat (Numeral.value 16 ds), rest)

/-! ## Its parts -/

theorem grouped_append {a b c d : Bytes} (ha : a.length = 8) (hb : b.length = 4)
    (hc : c.length = 4) (hd : d.length = 4) (e : Bytes) :
    grouped (a ++ (b ++ (c ++ (d ++ e)))) =
      a ++ 45 :: (b ++ 45 :: (c ++ 45 :: (d ++ 45 :: e))) := by
  have h12 : a ++ (b ++ (c ++ (d ++ e))) = (a ++ b) ++ (c ++ (d ++ e)) := by simp
  have h16 : a ++ (b ++ (c ++ (d ++ e))) = (a ++ b ++ c) ++ (d ++ e) := by simp
  have h20 : a ++ (b ++ (c ++ (d ++ e))) = (a ++ b ++ c ++ d) ++ e := by simp
  have hdrop8 : (a ++ (b ++ (c ++ (d ++ e)))).drop 8 = b ++ (c ++ (d ++ e)) :=
    List.drop_left' ha
  have hdrop12 : (a ++ (b ++ (c ++ (d ++ e)))).drop 12 = c ++ (d ++ e) := by
    rw [h12]
    exact List.drop_left' (by simp [ha, hb])
  have hdrop16 : (a ++ (b ++ (c ++ (d ++ e)))).drop 16 = d ++ e := by
    rw [h16]
    exact List.drop_left' (by simp [ha, hb, hc])
  have hdrop20 : (a ++ (b ++ (c ++ (d ++ e)))).drop 20 = e := by
    rw [h20]
    exact List.drop_left' (by simp [ha, hb, hc, hd])
  rw [grouped, hdrop8, hdrop12, hdrop16, hdrop20]
  unfold dashAfter
  rw [List.take_left' ha, List.take_left' hb, List.take_left' hc, List.take_left' hd]

/-- The groups of the spelling of a number. -/
theorem grouped_spell (upper : Nat → Bool) (n : Nat) :
    grouped (Numeral.spell 16 upper 32 n) =
      Numeral.spell 16 upper 8 (n / 16 ^ 24) ++ 45 ::
        (Numeral.spell 16 (fun i => upper (8 + i)) 4 (n / 16 ^ 20) ++ 45 ::
          (Numeral.spell 16 (fun i => upper (8 + (4 + i))) 4 (n / 16 ^ 16) ++ 45 ::
            (Numeral.spell 16 (fun i => upper (8 + (4 + (4 + i)))) 4 (n / 16 ^ 12) ++ 45 ::
              Numeral.spell 16 (fun i => upper (8 + (4 + (4 + (4 + i))))) 12 n))) := by
  have hsplit := Numeral.spell_add 16 upper 8 24 n
  rw [Numeral.spell_add 16 _ 4 20, Numeral.spell_add 16 _ 4 16, Numeral.spell_add 16 _ 4 12]
    at hsplit
  rw [hsplit]
  exact grouped_append (by simp) (by simp) (by simp) (by simp) _

/-- What is spelled is scanned. -/
theorem scan_lx_spell {libc : Libc} (hlibc : ScansHex libc) (upper : Nat → Bool)
    {width n : Nat} (hpos : 0 < width) (h16 : width ≤ 16) {rest : Bytes}
    (hstops : Numeral.Stops 16 rest) (hx : rest.head? ≠ some 120) (hX : rest.head? ≠ some 88) :
    libc.scan_lx (Numeral.spell 16 upper width n ++ rest) =
      some (UInt64.ofNat (n % 16 ^ width), rest) := by
  have hne : Numeral.spell 16 upper width n ≠ [] :=
    List.ne_nil_of_length_pos (by simpa using hpos)
  rw [hlibc _ _ hne (by simpa using h16)
    (fun c hc => Numeral.isDigit_of_mem_spell (by decide) (by decide) hc) hstops hx hX,
    Numeral.value_spell (by decide) (by decide)]

theorem scanWords_spell {libc : Libc} (hlibc : ScansHex libc) (upper : Nat → Bool)
    {width n : Nat} (hpos : 0 < width) (h16 : width ≤ 16) (words : Nat) (rest : Bytes) :
    Value.scanWords libc (words + 1) (Numeral.spell 16 upper width n ++ 45 :: rest) =
      UInt64.ofNat (n % 16 ^ width) :: Value.scanWords libc words rest := by
  have hstops : Numeral.Stops 16 (45 :: rest) := by
    simp [Numeral.Stops]
    decide
  rw [Value.scanWords, scan_lx_spell hlibc upper hpos h16 hstops (by simp) (by simp)]
  rfl

/-- The last word ends with the text. -/
theorem scanWords_spell_last {libc : Libc} (hlibc : ScansHex libc) (upper : Nat → Bool)
    {width n : Nat} (hpos : 0 < width) (h16 : width ≤ 16) :
    Value.scanWords libc 1 (Numeral.spell 16 upper width n) =
      [UInt64.ofNat (n % 16 ^ width)] := by
  have hstops : Numeral.Stops 16 [] := by simp [Numeral.Stops]
  have hscan := scan_lx_spell hlibc upper (n := n) hpos h16 hstops (by simp) (by simp)
  rw [List.append_nil] at hscan
  rw [Value.scanWords, hscan]

/-- The scan of a text: the five groups. -/
theorem scanWords_uuidText {libc : Libc} (hlibc : ScansHex libc) (upper : Nat → Bool) (n : Nat) :
    Value.scanWords libc 5 (grouped (Numeral.spell 16 upper 32 n)) =
      [UInt64.ofNat (n / 16 ^ 24 % 16 ^ 8), UInt64.ofNat (n / 16 ^ 20 % 16 ^ 4),
        UInt64.ofNat (n / 16 ^ 16 % 16 ^ 4), UInt64.ofNat (n / 16 ^ 12 % 16 ^ 4),
        UInt64.ofNat (n % 16 ^ 12)] := by
  rw [grouped_spell, scanWords_spell hlibc _ (by decide) (by decide),
    scanWords_spell hlibc _ (by decide) (by decide),
    scanWords_spell hlibc _ (by decide) (by decide),
    scanWords_spell hlibc _ (by decide) (by decide),
    scanWords_spell_last hlibc _ (by decide) (by decide)]

/-! ## The words -/

/-- Or-ing what does not overlap. -/
theorem toNat_or_of_dvd {x y : UInt64} {w : Nat} (hx : 2 ^ w ∣ x.toNat) (hy : y.toNat < 2 ^ w) :
    (x ||| y).toNat = x.toNat + y.toNat := by
  obtain ⟨q, hq⟩ := hx
  rw [UInt64.toNat_or, hq, Nat.mul_comm, ← Nat.shiftLeft_eq, Nat.shiftLeft_add_eq_or_of_lt hy]

theorem toNat_shiftLeft_of_lt {x k : UInt64} (hk : k.toNat < 64)
    (hx : x.toNat * 2 ^ k.toNat < 2 ^ 64) : (x <<< k).toNat = x.toNat * 2 ^ k.toNat := by
  rw [UInt64.toNat_shiftLeft, Nat.mod_eq_of_lt hk, Nat.shiftLeft_eq, Nat.mod_eq_of_lt hx]

/-- The upper word is put together from its three parts. -/
theorem high_word {u₁ u₂ u₃ hi : UInt64} (h₁ : u₁.toNat = hi.toNat / 2 ^ 32)
    (h₂ : u₂.toNat = hi.toNat / 2 ^ 16 % 2 ^ 16) (h₃ : u₃.toNat = hi.toNat % 2 ^ 16) :
    (u₁ <<< 32) ||| (u₂ <<< 16) ||| u₃ = hi := by
  have hlt := hi.toNat_lt
  have hs₁ : (u₁ <<< 32).toNat = u₁.toNat * 2 ^ 32 :=
    toNat_shiftLeft_of_lt (by decide) (by rw [h₁]; show _ * 2 ^ 32 < _; omega)
  have hs₂ : (u₂ <<< 16).toNat = u₂.toNat * 2 ^ 16 :=
    toNat_shiftLeft_of_lt (by decide) (by rw [h₂]; show _ * 2 ^ 16 < _; omega)
  have hor : ((u₁ <<< 32) ||| (u₂ <<< 16)).toNat = u₁.toNat * 2 ^ 32 + u₂.toNat * 2 ^ 16 := by
    rw [toNat_or_of_dvd (w := 32) (by rw [hs₁]; exact Nat.dvd_mul_left _ _)
      (by rw [hs₂, h₂]; omega), hs₁, hs₂]
  refine UInt64.toNat_inj.mp ?_
  rw [toNat_or_of_dvd (w := 16) (by rw [hor]; omega) (by rw [h₃]; omega), hor, h₁, h₂, h₃]
  omega

/-- And the lower one from two. -/
theorem low_word {u₄ u₅ lo : UInt64} (h₄ : u₄.toNat = lo.toNat / 2 ^ 48)
    (h₅ : u₅.toNat = lo.toNat % 2 ^ 48) : (u₄ <<< 48) ||| u₅ = lo := by
  have hlt := lo.toNat_lt
  have hs : (u₄ <<< 48).toNat = u₄.toNat * 2 ^ 48 :=
    toNat_shiftLeft_of_lt (by decide) (by rw [h₄]; show _ * 2 ^ 48 < _; omega)
  refine UInt64.toNat_inj.mp ?_
  rw [toNat_or_of_dvd (w := 48) (by rw [hs]; exact Nat.dvd_mul_left _ _) (by rw [h₅]; omega),
    hs, h₄, h₅]
  omega

/-! ## Decoding -/

theorem not_zero_mem_grouped {ds : Bytes} (h : ∀ c ∈ ds, c ≠ 0) : 0 ∉ grouped ds := by
  have hmem : ∀ {n : Nat} {s rest : Bytes}, (∀ c ∈ s, c ≠ 0) → 0 ∉ rest →
      0 ∉ dashAfter n s rest := by
    intro n s rest hs hrest hzero
    rcases List.mem_append.mp hzero with hleft | hright
    · exact hs 0 (List.mem_of_mem_take hleft) rfl
    · rcases List.mem_cons.mp hright with hdash | hright
      · exact absurd hdash (by decide)
      · exact hrest hright
  have hdrop : ∀ n, ∀ c ∈ ds.drop n, c ≠ 0 := fun n c hc => h c (List.mem_of_mem_drop hc)
  exact hmem h (hmem (hdrop 8) (hmem (hdrop 12) (hmem (hdrop 16) fun hzero => hdrop 20 0 hzero rfl)))

theorem cstring_uuidText (upper : Nat → Bool) (hi lo : UInt64) :
    cstring (uuidText upper hi lo) = uuidText upper hi lo := by
  refine cstring_of_plain (not_zero_mem_grouped fun c hc hzero => ?_)
  have hdigit := Numeral.isDigit_of_mem_spell (by decide) (by decide) hc
  rw [hzero] at hdigit
  exact absurd hdigit (by decide)

/-- **UUID text.** The canonical text of each number of 128 bits, its digits in either case,
decodes to its two words. -/
theorem getUInt128_uuidText {libc : Libc} (hlibc : ScansHex libc) (upper : Nat → Bool)
    (hi lo : UInt64) :
    (Value.str (uuidText upper hi lo)).getUInt128 libc = (hi, lo) ∧
      appendCell libc .uuid (.str (uuidText upper hi lo)) = .ok (.uuid hi lo) := by
  have hhi := hi.toNat_lt
  have hlo := lo.toNat_lt
  have hwords := scanWords_uuidText hlibc upper (hi.toNat * 2 ^ 64 + lo.toNat)
  have hword : (Value.str (uuidText upper hi lo)).getUInt128 libc = (hi, lo) := by
    simp only [Value.getUInt128, cstring_uuidText]
    rw [uuidText, hwords]
    dsimp only
    rw [@high_word _ _ _ hi (by simp; omega) (by simp; omega) (by simp; omega),
      @low_word _ _ lo (by simp; omega) (by simp; omega)]
  exact ⟨hword, by rw [appendCell, hword]⟩

/-- The C library as far as hexadecimal numbers are scanned. -/
def hexLibc : Libc :=
  { idleLibc with
    scan_lx := fun s => (Numeral.scan 16 s).map fun r => (UInt64.ofNat r.1, r.2) }

theorem scansHex_hexLibc : ScansHex hexLibc := by
  intro ds rest hne _ hds hrest _ _
  show (Numeral.scan 16 (ds ++ rest)).map _ = _
  rw [Numeral.scan_append hne hds hrest]
  rfl

/-- A number with leading zeros, every other digit in upper case. -/
theorem getUInt128_mixedCase :
    (Value.str (uuidText (fun i => i % 2 == 0) 0x0000000deadbeef0 0xabcdef)).getUInt128 hexLibc =
      (0x0000000deadbeef0, 0xabcdef) :=
  (getUInt128_uuidText scansHex_hexLibc _ _ _).1

end FlexEtl
