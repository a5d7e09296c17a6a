/-
FlexEtl.Json.Reader — `rapidjson::Reader` on a C string.

The reader of `reader.h` with the default flags. A scanner works on the bytes
that are still to come and fails with a `ReaderFault`; a parser also notes the
events that it hands to the handler, so what the handler has seen of a text
with an error in it is kept. The handler of this program never returns false.
Where the source compares and takes a byte in a loop, `scanLoop` does.

Doubles are bit patterns. Their arithmetic is a parameter, with the operations
that the reader uses.
-/
import FlexEtl.Json.Document
import FlexEtl.Lib.TracedScanner
import FlexEtl.Table.Cdb

namespace FlexEtl

/-! ## Errors -/

/-- `enum ParseErrorCode`, as far as the reader can report it here. -/
inductive ParseErrorCode where
  | documentEmpty
  | documentRootNotSingular
  | valueInvalid
  | objectMissName
  | objectMissColon
  | objectMissCommaOrCurlyBracket
  | arrayMissCommaOrSquareBracket
  | stringUnicodeEscapeInvalidHex
  | stringUnicodeSurrogateInvalid
  | stringEscapeInvalid
  | stringMissQuotationMark
  | stringInvalidEncoding
  | numberTooBig
  | numberMissFraction
  | numberMissExponent
  deriving DecidableEq, Repr

/-- How the reader can end before its end: with an error in the text, with an access outside
an array, with a value that an `int` does not hold, or because the model has run out of rounds. -/
inductive ReaderFault where
  | error (code : ParseErrorCode)
  | outOfBounds
  | overflow
  | outOfFuel
  deriving DecidableEq, Repr

abbrev ScanM := EStateM ReaderFault Bytes

abbrev ReaderM := Decoder.Traced ReaderFault Bytes Event

/-- `double` on bit patterns, and the table of `internal::Pow10`. -/
structure Doubles where
  ofUInt64 : UInt64 → UInt64
  add : UInt64 → UInt64 → UInt64
  mul : UInt64 → UInt64 → UInt64
  div : UInt64 → UInt64 → UInt64
  neg : UInt64 → UInt64
  /-- `d > 0.0` -/
  isPositive : UInt64 → Bool
  /-- `d > std::numeric_limits<double>::max()` -/
  exceedsMax : UInt64 → Bool
  pow10 : Nat → UInt64

/-- The doubles of the machine. -/
def Doubles.machine : Doubles where
  ofUInt64 u := u.toFloat.toBits
  add x y := (Float.ofBits x + Float.ofBits y).toBits
  mul x y := (Float.ofBits x * Float.ofBits y).toBits
  div x y := (Float.ofBits x / Float.ofBits y).toBits
  neg x := (-Float.ofBits x).toBits
  isPositive x := decide (0 < Float.ofBits x)
  exceedsMax x := decide (Float.ofBits 0x7FEFFFFFFFFFFFFF < Float.ofBits x)
  pow10 n := (Float.ofScientific 1 false n).toBits

namespace Reader

open Decoder

/-! ## The stream -/

/-- `StringStream::Peek`: the terminator stands behind the last byte. -/
def peek : ScanM UInt8 := fun s => .ok (s.headD 0) s

/-- `StringStream::Take`. -/
def take : ScanM Unit
  | [] => .error .outOfBounds []
  | _ :: s => .ok () s

/-- `Consume`. -/
def consume (expect : UInt8) : ScanM Bool
  | [] => .ok false []
  | c :: s => if c = expect then .ok true s else .ok false (c :: s)

def isBlank (c : UInt8) : Bool := c = 0x20 || c = 0x0A || c = 0x0D || c = 0x09

def isDigit (c : UInt8) : Bool := 0x30 ≤ c && c ≤ 0x39

/-- `SkipWhitespace`. -/
def skipWhitespace : ScanM Unit :=
  scanLoop (fun _ c => if isBlank c then .take () else .stop ()) ()

/-- `RAPIDJSON_PARSE_ERROR`. -/
def parseError {α : Type} (code : ParseErrorCode) : ScanM α := throw (.error code)

/-! ## Strings -/

/-- `unsigned(c)` less the base of its digit range, for a hexadecimal digit. -/
def hexDigit? (c : UInt8) : Option UInt32 :=
  if 0x30 ≤ c ∧ c ≤ 0x39 then some (c.toUInt32 - 0x30)
  else if 0x41 ≤ c ∧ c ≤ 0x46 then some (c.toUInt32 - (0x41 - 10))
  else if 0x61 ≤ c ∧ c ≤ 0x66 then some (c.toUInt32 - (0x61 - 10))
  else none

/-- The body of the loop in `ParseHex4`. -/
def hexStep (codepoint : UInt32) : ScanM UInt32 := do
  match hexDigit? (← peek) with
  | some digit =>
      take
      return (codepoint <<< 4) + digit
  | none => parseError .stringUnicodeEscapeInvalidHex

/-- `ParseHex4`. -/
def parseHex4 : ScanM UInt32 := Decoder.iter hexStep 4 0

/-- The first byte of a sequence. -/
def leadByte (mark codepoint shift : UInt32) : UInt8 :=
  (mark ||| ((codepoint >>> shift) &&& 0xFF)).toUInt8

/-- A byte after the first. -/
def tailByte (codepoint shift : UInt32) : UInt8 :=
  ((0x80 : UInt32) ||| ((codepoint >>> shift) &&& 0x3F)).toUInt8

/-- `UTF8<>::Encode`. -/
def encode (codepoint : UInt32) : Bytes :=
  if codepoint ≤ 0x7F then [(codepoint &&& 0xFF).toUInt8]
  else if codepoint ≤ 0x7FF then [leadByte 0xC0 codepoint 6, tailByte codepoint 0]
  else if codepoint ≤ 0xFFFF then
    [leadByte 0xE0 codepoint 12, tailByte codepoint 6, tailByte codepoint 0]
  else
    [leadByte 0xF0 codepoint 18, tailByte codepoint 12, tailByte codepoint 6,
      tailByte codepoint 0]

/-- `static const char escape[256]`. -/
def escape (e : UInt8) : UInt8 :=
  if e = 0x22 then 0x22
  else if e = 0x2F then 0x2F
  else if e = 0x5C then 0x5C
  else if e = 0x62 then 0x08
  else if e = 0x66 then 0x0C
  else if e = 0x6E then 0x0A
  else if e = 0x72 then 0x0D
  else if e = 0x74 then 0x09
  else 0

def isHighSurrogate (codepoint : UInt32) : Bool := 0xD800 ≤ codepoint && codepoint ≤ 0xDBFF

def isLowSurrogate (codepoint : UInt32) : Bool := 0xDC00 ≤ codepoint && codepoint ≤ 0xDFFF

/-- The codepoint of a pair of surrogates. -/
def joinSurrogates (codepoint codepoint2 : UInt32) : UInt32 :=
  (((codepoint - 0xD800) <<< 10) ||| (codepoint2 - 0xDC00)) + 0x10000

/-- After `\u`: the bytes that are put. -/
def parseUnicode : ScanM Bytes := do
  let codepoint ← parseHex4
  if isHighSurrogate codepoint then
    if ← consume 0x5C <&&> consume 0x75 then
      let codepoint2 ← parseHex4
      if isLowSurrogate codepoint2 then return encode (joinSurrogates codepoint codepoint2)
      else parseError .stringUnicodeSurrogateInvalid
    else parseError .stringUnicodeSurrogateInvalid
  else return encode codepoint

/-- After a backslash: the bytes that are put. -/
def parseEscape : ScanM Bytes := do
  let e ← peek
  if escape e ≠ 0 then
    take
    return [escape e]
  else if e = 0x75 then
    take
    parseUnicode
  else parseError .stringEscapeInvalid

/-- `for (;;)` in `ParseStringToStream`, with what has been put. `char` is signed, so a byte
from 0x80 on is not below 0x20 as an `unsigned`. -/
def stringLoop : Nat → Bytes → ScanM Bytes
  | 0, _ => throw .outOfFuel
  | fuel + 1, os => do
      let c ← peek
      if c = 0x5C then
        take
        let bytes ← parseEscape
        stringLoop fuel (os ++ bytes)
      else if c = 0x22 then
        take
        return os
      else if c < 0x20 then
        if c = 0 then parseError .stringMissQuotationMark else parseError .stringInvalidEncoding
      else
        take
        stringLoop fuel (os ++ [c])

/-- `ParseStringToStream`, after the quotation mark that `ParseString` takes. -/
def parseStringToStream : ScanM Bytes := do
  take
  stringLoop ((← get).length + 1) []

/-! ## Numbers -/

/-- The variables of `ParseNumber`. -/
structure Number where
  minus : Bool
  i : UInt32 := 0
  i64 : UInt64 := 0
  use64bit : Bool := false
  significandDigit : Nat := 0
  d : UInt64 := 0
  useDouble : Bool := false
  expFrac : Int := 0
  expMinus : Bool := false
  exp : Int := 0

abbrev Turn := Decoder.Turn ReaderFault Number

/-- The values of an `int`. -/
def InInt (x : Int) : Prop := -2147483648 ≤ x ∧ x ≤ 2147483647

instance (x : Int) : Decidable (InInt x) := inferInstanceAs (Decidable (_ ∧ _))

/-- The result of an operation on `int`, where it is defined. -/
def int (x : Int) : ScanM Int := if InInt x then return x else throw .overflow

namespace Number

variable (fl : Doubles)

/-- A digit in the first loop. -/
def intTurn (limit : UInt32) (last : UInt8) (n : Number) (c : UInt8) : Turn :=
  if isDigit c then
    if n.i ≥ limit ∧ (n.i ≠ limit ∨ c > last) then
      .stop { n with i64 := n.i.toUInt64, use64bit := true }
    else
      .take { n with
        i := n.i * 10 + (c - 0x30).toUInt32, significandDigit := n.significandDigit + 1 }
  else .stop n

/-- `Parse int`. -/
def parseInt (n : Number) : ScanM Number := do
  let c ← peek
  if c = 0x30 then
    take
    return { n with i := 0 }
  else if 0x31 ≤ c ∧ c ≤ 0x39 then
    take
    let n := { n with i := (c - 0x30).toUInt32 }
    if n.minus then scanLoop (intTurn 214748364 0x38) n else scanLoop (intTurn 429496729 0x35) n
  else parseError .valueInvalid

/-- A digit in the loop over 64 bits. -/
def int64Turn (limit : UInt64) (last : UInt8) (n : Number) (c : UInt8) : Turn :=
  if isDigit c then
    if n.i64 ≥ limit ∧ (n.i64 ≠ limit ∨ c > last) then
      .stop { n with d := fl.ofUInt64 n.i64, useDouble := true }
    else
      .take { n with
        i64 := n.i64 * 10 + (c - 0x30).toUInt64, significandDigit := n.significandDigit + 1 }
  else .stop n

/-- `Parse 64bit int`. -/
def parseInt64 (n : Number) : ScanM Number :=
  if n.use64bit then
    if n.minus then scanLoop (int64Turn fl 0x0CCCCCCCCCCCCCCC 0x38) n
    else scanLoop (int64Turn fl 0x1999999999999999 0x35) n
  else return n

/-- `d * 10 + (c - '0')` -/
def mulAdd (d : UInt64) (c : UInt8) : UInt64 :=
  fl.add (fl.mul d (fl.ofUInt64 10)) (fl.ofUInt64 (c - 0x30).toUInt64)

/-- A digit of an integer that is too big for 64 bits. -/
def bigTurn (n : Number) (c : UInt8) : Turn :=
  if isDigit c then .take { n with d := mulAdd fl n.d c } else .stop n

/-- `Force double for big integer`. -/
def parseBig (n : Number) : ScanM Number :=
  if n.useDouble then scanLoop (bigTurn fl) n else return n

/-- `--expFrac`, behind a digit that has been taken. -/
def lowerFrac (n : Number) : Turn :=
  if InInt (n.expFrac - 1) then .take { n with expFrac := n.expFrac - 1 } else .fail .overflow

/-- A digit of the fraction, while the significand is below 2^53. -/
def fracTurn (n : Number) (c : UInt8) : Turn :=
  if isDigit c then
    if n.i64 > 0x1FFFFFFFFFFFFF then .stop n
    else
      let i64 := n.i64 * 10 + (c - 0x30).toUInt64
      lowerFrac { n with
        i64, significandDigit := if i64 ≠ 0 then n.significandDigit + 1 else n.significandDigit }
  else .stop n

/-- A digit of the fraction after that. -/
def fracDoubleTurn (n : Number) (c : UInt8) : Turn :=
  if isDigit c then
    if n.significandDigit < 17 then
      let d := mulAdd fl n.d c
      lowerFrac { n with
        d, significandDigit :=
          if fl.isPositive d then n.significandDigit + 1 else n.significandDigit }
    else .take n
  else .stop n

/-- `use64bit ? i64 : i` -/
def integer (n : Number) : UInt64 := if n.use64bit then n.i64 else n.i.toUInt64

/-- The digits behind the point. -/
def fracDigits (n : Number) : ScanM Number :=
  if n.useDouble then scanLoop (fracDoubleTurn fl) n
  else do
    let n ← scanLoop fracTurn { n with i64 := n.integer }
    scanLoop (fracDoubleTurn fl) { n with d := fl.ofUInt64 n.i64, useDouble := true }

/-- `Parse frac`. -/
def parseFrac (n : Number) : ScanM Number := do
  if ← consume 0x2E then
    if isDigit (← peek) then fracDigits fl n else parseError .numberMissFraction
  else return n

/-- A further digit of a negative exponent. -/
def expMinusTurn (maxExp : Int) (n : Number) (c : UInt8) : Turn :=
  if isDigit c then
    let exp := n.exp * 10 + (c - 0x30).toNat
    if ¬ InInt exp then .fail .overflow
    else if exp > maxExp then .last { n with exp }
    else .take { n with exp }
  else .stop n

/-- `Consume the rest of exponent`. -/
def restTurn (n : Number) (c : UInt8) : Turn := if isDigit c then .take n else .stop n

/-- A further digit of a positive exponent. -/
def expPlusTurn (maxExp : Int) (n : Number) (c : UInt8) : Turn :=
  if isDigit c then
    let exp := n.exp * 10 + (c - 0x30).toNat
    if ¬ InInt exp then .fail .overflow
    else if exp > maxExp then .fail (.error .numberTooBig)
    else .take { n with exp }
  else .stop n

/-- The digits of an exponent. -/
def expDigits (n : Number) : ScanM Number := do
  let c ← peek
  if isDigit c then
    take
    let n := { n with exp := ((c - 0x30).toNat : Int) }
    if n.expMinus then do
      let maxExp := Int.tdiv (← int (n.expFrac + 2147483639)) 10
      let n ← scanLoop (expMinusTurn maxExp) n
      let n ← scanLoop restTurn n
      return { n with exp := -n.exp }
    else do
      let maxExp ← int (308 - n.expFrac)
      scanLoop (expPlusTurn maxExp) n
  else parseError .numberMissExponent

/-- The significand of a number with an exponent. -/
def toDouble (n : Number) : Number :=
  if n.useDouble then n else { n with d := fl.ofUInt64 n.integer, useDouble := true }

/-- An exponent behind its letter. -/
def expSigned (n : Number) : ScanM Number := do
  if ← consume 0x2B then expDigits n
  else expDigits { n with expMinus := ← consume 0x2D }

/-- `Parse exp`. -/
def parseExp (n : Number) : ScanM Number := do
  if ← consume 0x65 <||> consume 0x45 then expSigned (toDouble fl n)
  else return n

/-- `internal::Pow10`. -/
def pow10 (n : Int) : ScanM UInt64 :=
  if 0 ≤ n ∧ n ≤ 308 then return fl.pow10 n.toNat else throw .outOfBounds

/-- `internal::FastPath`. -/
def fastPath (significand : UInt64) (exp : Int) : ScanM UInt64 := do
  if exp < -308 then return 0
  else if exp ≥ 0 then return fl.mul significand (← pow10 fl exp)
  else return fl.div significand (← pow10 fl (-exp))

/-- `internal::StrtodNormalPrecision`. -/
def strtodNormalPrecision (d : UInt64) (p : Int) : ScanM UInt64 := do
  if p < -308 then
    let d ← fastPath fl d (-308)
    fastPath fl d (p + 308)
  else fastPath fl d p

/-- `Finish parsing, call event according to the type of number`. -/
def finish (n : Number) : ScanM Scalar := do
  if n.useDouble then
    let p ← int (n.exp + n.expFrac)
    let d ← strtodNormalPrecision fl n.d p
    if fl.exceedsMax d then parseError .numberTooBig
    else return .double (if n.minus then fl.neg d else d)
  else if n.use64bit then
    return if n.minus then .int64 (~~~n.i64 + 1).toInt64 else .uint64 n.i64
  else
    return if n.minus then .int (~~~n.i + 1).toInt32 else .uint n.i

end Number

/-- `ParseNumber`. -/
def parseNumber (fl : Doubles) : ScanM Scalar := do
  let minus ← consume 0x2D
  let n ← Number.parseInt { minus }
  let n ← Number.parseInt64 fl n
  let n ← Number.parseBig fl n
  let n ← Number.parseFrac fl n
  let n ← Number.parseExp fl n
  Number.finish fl n

/-! ## Values -/

/-- A callback of the handler. -/
def call (e : Event) : ReaderM Unit := Traced.note e

def failWith (code : ParseErrorCode) : ReaderM Unit := Traced.throw (.error code)

/-- `ParseNull`, `ParseTrue` and `ParseFalse`: the rest of a word. -/
def parseWord (word : Bytes) (s : Scalar) : ReaderM Unit := do
  Traced.lift take
  if ← Traced.lift (word.foldr (fun c rest => consume c <&&> rest) (pure true)) then
    call (.scalar s)
  else failWith .valueInvalid

def parseNull : ReaderM Unit := parseWord [0x75, 0x6C, 0x6C] .null
def parseTrue : ReaderM Unit := parseWord [0x72, 0x75, 0x65] (.bool true)
def parseFalse : ReaderM Unit := parseWord [0x61, 0x6C, 0x73, 0x65] (.bool false)

/-- `ParseString`: the string, or the key, that the handler is given. -/
def parseString (event : Bytes → Event) : ReaderM Unit := do
  let str ← Traced.lift parseStringToStream
  call (event str)

/-- The loop of `ParseArray`. -/
def arrayLoop (parseValue : ReaderM Unit) : Nat → Nat → ReaderM Unit
  | 0, _ => Traced.throw .outOfFuel
  | fuel + 1, elementCount => do
      parseValue
      Traced.lift skipWhitespace
      if ← Traced.lift (consume 0x2C) then
        Traced.lift skipWhitespace
        arrayLoop parseValue fuel (elementCount + 1)
      else if ← Traced.lift (consume 0x5D) then call (.endArray (elementCount + 1))
      else failWith .arrayMissCommaOrSquareBracket

/-- `ParseArray`. -/
def parseArray (parseValue : ReaderM Unit) (fuel : Nat) : ReaderM Unit := do
  Traced.lift take
  call .startArray
  Traced.lift skipWhitespace
  if ← Traced.lift (consume 0x5D) then call (.endArray 0)
  else arrayLoop parseValue fuel 0

/-- The loop of `ParseObject`. -/
def objectLoop (parseValue : ReaderM Unit) : Nat → Nat → ReaderM Unit
  | 0, _ => Traced.throw .outOfFuel
  | fuel + 1, memberCount => do
      if (← Traced.lift peek) = 0x22 then
        parseString .key
        Traced.lift skipWhitespace
        if ← Traced.lift (consume 0x3A) then
          Traced.lift skipWhitespace
          parseValue
          Traced.lift skipWhitespace
          if ← Traced.lift (consume 0x2C) then
            Traced.lift skipWhitespace
            objectLoop parseValue fuel (memberCount + 1)
          else if ← Traced.lift (consume 0x7D) then call (.endObject (memberCount + 1))
          else failWith .objectMissCommaOrCurlyBracket
        else failWith .objectMissColon
      else failWith .objectMissName

/-- `ParseObject`. -/
def parseObject (parseValue : ReaderM Unit) (fuel : Nat) : ReaderM Unit := do
  Traced.lift take
  call .startObject
  Traced.lift skipWhitespace
  if ← Traced.lift (consume 0x7D) then call (.endObject 0)
  else objectLoop parseValue fuel 0

/-- `ParseValue`, for a value that is shorter than `fuel`. -/
def parseValue (fl : Doubles) : Nat → ReaderM Unit
  | 0 => Traced.throw .outOfFuel
  | fuel + 1 => do
      let c ← Traced.lift peek
      if c = 0x6E then parseNull
      else if c = 0x74 then parseTrue
      else if c = 0x66 then parseFalse
      else if c = 0x22 then parseString fun str => .scalar (.string str)
      else if c = 0x7B then parseObject (parseValue fl fuel) fuel
      else if c = 0x5B then parseArray (parseValue fl fuel) fuel
      else
        let s ← Traced.lift (parseNumber fl)
        call (.scalar s)

/-- `GenericReader::Parse`. -/
def parseDocument (fl : Doubles) (fuel : Nat) : ReaderM Unit := do
  Traced.lift skipWhitespace
  if (← Traced.lift peek) = 0 then failWith .documentEmpty
  else
    parseValue fl fuel
    Traced.lift skipWhitespace
    if (← Traced.lift peek) = 0 then pure () else failWith .documentRootNotSingular

/-- What `reader.Parse(ss, handler)` does with the C string in `buffer`. -/
def parse (fl : Doubles) (buffer : Bytes) : ParseStream :=
  let text := cstring buffer
  match parseDocument fl (text.length + 1) text with
  | (.ok _ _, events) => { events, isError := false }
  | (.error _ _, events) => { events, isError := true }

end Reader

end FlexEtl
