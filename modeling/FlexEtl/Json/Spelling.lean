/-
FlexEtl.Json.Spelling — the texts that are read as a JSON value.

The grammar, stated from the side of the value: `Json.Spells j t` when `t` is a
text of `j`. Strings may hold any byte from 0x20 on, whether or not it is UTF-8,
and an escape may name half of a surrogate pair, as long as it is the second
half. A number is one of the grammar, and stands for what its digits make.
-/
import FlexEtl.Json.Numbers

namespace FlexEtl

open Reader

/-! ## Strings -/

/-- White space. -/
def Blank (t : Bytes) : Prop := ∀ c ∈ t, isBlank c = true

/-- Four hexadecimal digits. -/
structure SpellsHex4 (u : UInt32) (t : Bytes) : Prop where
  length : t.length = 4
  digits : ∀ c ∈ t, Numeral.isDigit 16 c = true
  value : u.toNat = Numeral.value 16 t

/-- A letter behind a backslash, and the byte it stands for. -/
inductive EscapeLetter : UInt8 → UInt8 → Prop
  | quotationMark : EscapeLetter 0x22 0x22
  | solidus : EscapeLetter 0x2F 0x2F
  | reverseSolidus : EscapeLetter 0x5C 0x5C
  | backspace : EscapeLetter 0x62 0x08
  | formFeed : EscapeLetter 0x66 0x0C
  | lineFeed : EscapeLetter 0x6E 0x0A
  | carriageReturn : EscapeLetter 0x72 0x0D
  | tab : EscapeLetter 0x74 0x09

/-- What may follow a backslash, and the bytes it stands for. -/
inductive SpellsEscape : Bytes → Bytes → Prop
  | char {e b : UInt8} (he : EscapeLetter e b) : SpellsEscape [b] [e]
  | codepoint {u : UInt32} {h : Bytes} (hu : SpellsHex4 u h) (hone : isHighSurrogate u = false) :
      SpellsEscape (encode u) (0x75 :: h)
  | pair {u v : UInt32} {h k : Bytes} (hu : SpellsHex4 u h) (hhigh : isHighSurrogate u = true)
      (hv : SpellsHex4 v k) (hlow : isLowSurrogate v = true) :
      SpellsEscape (encode (joinSurrogates u v)) (0x75 :: (h ++ 0x5C :: 0x75 :: k))

/-- The inside of a string. -/
inductive SpellsBody : Bytes → Bytes → Prop
  | nil : SpellsBody [] []
  | plain {c : UInt8} {v t : Bytes} (hlow : ¬ c < 0x20) (hquote : c ≠ 0x22) (hslash : c ≠ 0x5C)
      (ht : SpellsBody v t) : SpellsBody (c :: v) (c :: t)
  | escape {b e v t : Bytes} (he : SpellsEscape b e) (ht : SpellsBody v t) :
      SpellsBody (b ++ v) (0x5C :: (e ++ t))

/-- A string with its quotation marks. -/
def SpellsString (v t : Bytes) : Prop := ∃ body, SpellsBody v body ∧ t = 0x22 :: (body ++ [0x22])

/-! ## Values -/

variable (fl : Doubles)

/-- The text of a value that is one event. -/
inductive Scalar.Spells : Scalar → Bytes → Prop
  | null : Scalar.Spells .null [0x6E, 0x75, 0x6C, 0x6C]
  | true : Scalar.Spells (.bool true) [0x74, 0x72, 0x75, 0x65]
  | false : Scalar.Spells (.bool false) [0x66, 0x61, 0x6C, 0x73, 0x65]
  | string {v t : Bytes} (h : SpellsString v t) : Scalar.Spells (.string v) t
  | number {s : Scalar} {p : Parts} (hp : p.Valid) (hs : p.scalar fl = some s) :
      Scalar.Spells s p.text

/-- Items with commas between them. -/
inductive SpellsItems {α : Type} (M : α → Bytes → Prop) : List α → Bytes → Prop
  | last {x : α} {t b : Bytes} (hx : M x t) (hb : Blank b) : SpellsItems M [x] (t ++ b)
  | cons {x : α} {xs : List α} {t b c u : Bytes} (hx : M x t) (hb : Blank b) (hc : Blank c)
      (hxs : SpellsItems M xs u) : SpellsItems M (x :: xs) (t ++ (b ++ 0x2C :: (c ++ u)))

/-- A key with its value. -/
inductive SpellsMember (R : Json → Bytes → Prop) : Bytes × Json → Bytes → Prop
  | intro {k t a b u : Bytes} {v : Json} (hk : SpellsString k t) (ha : Blank a) (hb : Blank b)
      (hv : R v u) : SpellsMember R (k, v) (t ++ (a ++ 0x3A :: (b ++ u)))

/-- The text of a value. -/
inductive Json.Spells : Json → Bytes → Prop
  | scalar {s : Scalar} {t : Bytes} (h : s.Spells fl t) : Json.Spells (.scalar s) t
  | emptyArray {b : Bytes} (hb : Blank b) : Json.Spells (.array []) (0x5B :: (b ++ [0x5D]))
  | array {xs : List Json} {b t : Bytes} (hb : Blank b) (h : SpellsItems Json.Spells xs t) :
      Json.Spells (.array xs) (0x5B :: (b ++ (t ++ [0x5D])))
  | emptyObject {b : Bytes} (hb : Blank b) : Json.Spells (.object []) (0x7B :: (b ++ [0x7D]))
  | object {ms : List (Bytes × Json)} {b t : Bytes} (hb : Blank b)
      (h : SpellsItems (SpellsMember Json.Spells) ms t) :
      Json.Spells (.object ms) (0x7B :: (b ++ (t ++ [0x7D])))

/-- A value with white space around it. -/
def Json.SpellsDocument (j : Json) (t : Bytes) : Prop :=
  ∃ a u b, Blank a ∧ j.Spells fl u ∧ Blank b ∧ t = a ++ (u ++ b)

end FlexEtl
