/-
FlexEtl.Table.Cdb — the `.cdb` file format of `clicktbl.cpp`.

`storeValue` and `save` are the lists of `fwrite` payloads, in call order.
`restoreValue` and `load` are decoders over `Stream`: the unread bytes of the
file and the scratch `Buffer` that names and strings are read into. Both
sides run on a little-endian machine with a four-byte `int` and a four-byte
enumeration.

The C++ run has three ways to end, so `Fault` separates a thrown exception,
which `load` catches, from undefined behaviour, which nothing catches: the
signed overflow of `size + 1` and a write outside the block that the buffer
owns. `restoreValue` recurses on nested arrays, and the model bounds that
recursion by a fuel argument which `load` sets from the length of the file.
-/
import FlexEtl.Table.ClickTable
import FlexEtl.Lib.LittleEndian
import FlexEtl.Lib.Decoder

namespace FlexEtl

/-! ## C integers -/

/-- `INT_MAX`. -/
def intMax : Int := 2147483647

/-- Conversion of a `size_t` to `int`: the low 32 bits, read as signed. -/
def toCInt (n : Nat) : Int := Int.bmod n (2 ^ 32)

/-- Conversion of an `int` to `size_t`. -/
def toSizeT (i : Int) : Nat := (i % 2 ^ 64).toNat

/-- The image of an `int` or of an enumeration in a file. -/
def intBytes (i : Int) : Bytes := LittleEndian.ofInt 4 i

/-! ## Writing -/

def KEY : Int := 0x6264632e

def MASK : Int := 0

/-- The payloads `fwrite` is given for an `int` length and the characters it
counts. The count is the converted length: the whole string when the length fits
in an `int`, and less of it from `2^32` bytes on. From `2^31` to `2^32 - 1` bytes
the count is huge and `fwrite` reads on past the string, which is left out here: the
payload stops at its end. -/
def storeChars (s : Bytes) : List Bytes :=
  [intBytes (toCInt s.length), s.take (toSizeT (toCInt s.length))]

/-- `storeValue`: the tag, then the payload the tag calls for. -/
def storeValue : Value → List Bytes
  | .null => [intBytes ClickType.unknown.code]
  | .str s => intBytes ClickType.str.code :: storeChars s
  | .int i => [intBytes ClickType.int.code, LittleEndian.bytes 8 i.toUInt64.toNat]
  | .uint u => [intBytes ClickType.uint.code, LittleEndian.bytes 8 u.toNat]
  | .double d => [intBytes ClickType.double.code, LittleEndian.bytes 8 d.toNat]
  | .bool b => [intBytes ClickType.bool.code, [if b then 1 else 0]]
  | .array xs =>
      intBytes ClickType.array.code :: intBytes (toCInt xs.length) :: storeList xs
where
  storeList : List Value → List Bytes
    | [] => []
    | x :: xs => storeValue x ++ storeList xs

/-- The payloads of one column: its name, then its cells. -/
def storeColumn (entry : Bytes × ClickColumn) : List Bytes :=
  storeChars entry.1 ++ entry.2.data.flatMap storeValue

/-- `ClickTable::save`, once the file is open: `std::map` iterates in key order. -/
def ClickTable.save (t : ClickTable) : List Bytes :=
  [intBytes KEY, intBytes MASK, intBytes (toCInt t.m_tbl.size), intBytes (toCInt t.m_rowCount)]
    ++ t.m_tbl.toList.flatMap storeColumn

/-- The bytes of the file that `save` writes when every `fwrite` is whole. -/
def ClickTable.saved (t : ClickTable) : Bytes := t.save.flatten

/-! ## The scratch buffer -/

/-- `class Buffer`: `size` is the member `_size`, `block` the bytes that really
stand behind `_data`. They differ only after an allocation failed. -/
structure Buffer where
  size : Nat := 0
  block : Nat := 0
  deriving DecidableEq, Repr

/-- `PTRDIFF_MAX`: no allocation above it succeeds. -/
def maxAlloc : Nat := 2 ^ 63 - 1

/-- `Buffer::reserve`. -/
def Buffer.reserve (b : Buffer) (size : Nat) : Buffer :=
  if b.size ≥ size then b
  else { size := size, block := if size ≤ maxAlloc then size else 0 }

/-! ## Reading -/

/-- How a decoder stops without a result. -/
inductive Fault where
  | thrown (what : String)
  | undefined (what : String)
  | outOfFuel
  deriving DecidableEq, Repr

/-- An open file beside the buffer: what the decoders pass around. -/
structure Stream where
  rest : Bytes
  buffer : Buffer := {}

abbrev LoadM := EStateM Fault Stream

/-- `assert1`. -/
def assert1 (expr : Bool) (message : String) : LoadM Unit :=
  if expr then pure () else throw (.thrown message)

/-- `fread` of single bytes: at most `n` of those that remain. -/
def fread (n : Nat) : LoadM Bytes := fun s =>
  .ok (s.rest.take n) { s with rest := s.rest.drop n }

/-- `1 == fread(&x, n, 1, fl)` under `assert1`. -/
def freadExact (n : Nat) (message : String) : LoadM Bytes := do
  let bs ← fread n
  assert1 (bs.length == n) message
  pure bs

/-- Reading an `int` variable. -/
def readInt (message : String) : LoadM Int := do
  let bs ← freadExact 4 message
  pure (LittleEndian.toInt bs)

/-- Reading one of the eight-byte union members. -/
def readWord (message : String) : LoadM UInt64 := do
  let bs ← freadExact 8 message
  pure (UInt64.ofNat (LittleEndian.toNat bs))

/-- `buffer.reserve(size + 1)`: the addition is on `int`. -/
def reserveChars (size : Int) : LoadM Unit :=
  if size = intMax then throw (.undefined "signed overflow in size + 1")
  else modify fun s => { s with buffer := s.buffer.reserve (toSizeT (size + 1)) }

/-- `size == fread(buffer.reserve(size + 1), 1, size, fl)` under `assert1`, then
`buffer[size] = 0`. The count and the comparison are on `size_t`. -/
def readChars (size : Int) (message : String) : LoadM Bytes := do
  reserveChars size
  let bs ← fread (toSizeT size)
  let s ← get
  if s.buffer.block < bs.length then
    throw (.undefined "fread past the end of the buffer")
  assert1 (bs.length == toSizeT size) message
  if s.buffer.block ≤ bs.length then
    throw (.undefined "terminating zero past the end of the buffer")
  pure bs

/-- The string a `char *` denotes: the characters before the first zero byte. -/
def cstring (bs : Bytes) : Bytes := bs.takeWhile (· ≠ 0)

/-- Reading the `ClickType` variable: the bytes are an unsigned enumeration. -/
def readType : LoadM (Option ClickType) := do
  let bs ← freadExact 4 "Read type value failed"
  pure (ClickType.ofCode? (LittleEndian.toNat bs))

/-- `restoreValue`: append the next value of the file to the array `value`. -/
def restoreValue : Nat → Value → LoadM Value
  | 0, _ => throw .outOfFuel
  | fuel + 1, .array vec => do
      match ← readType with
      | some .str =>
          let size ← readInt "Read string value length failed"
          let bs ← readChars size "Read string value failed"
          pure (.array (vec ++ [.str (cstring bs)]))
      | some .array =>
          let size ← readInt "Read array length failed"
          let val ← Decoder.iter (restoreValue fuel) size.toNat (.array [])
          pure (.array (vec ++ [val]))
      | some .int =>
          let u ← readWord "Read value failed"
          pure (.array (vec ++ [.int u.toInt64]))
      | some .uint =>
          let u ← readWord "Read value failed"
          pure (.array (vec ++ [.uint u]))
      | some .double =>
          let u ← readWord "Read value failed"
          pure (.array (vec ++ [.double u]))
      | some .bool =>
          let bs ← freadExact 1 "Read value failed"
          pure (.array (vec ++ [.bool (bs != [0])]))
      | some .unknown => pure (.array (vec ++ [.null]))
      | none => throw (.thrown "Read unknown value type")
  | _ + 1, _ => throw (.thrown "Value type mast be CT_ARRAY")

/-- The body of `load`'s loop over the columns. -/
def loadColumn (fuel : Nat) (rowCount : Int) (t : ClickTable) : LoadM ClickTable := do
  let nameSize ← readInt "Read 'nameSize' failed"
  let bs ← readChars nameSize "Read 'name' failed"
  let name := cstring bs
  let el := t.m_tbl[name]?.getD {}
  -- a negative count converts to a size no vector can have
  if rowCount < 0 then throw (.thrown "vector::reserve")
  let data ← Decoder.iter (restoreValue fuel) rowCount.toNat (.array el.data)
  pure { t with m_tbl := t.m_tbl.insert name ⟨(data.vector?).getD []⟩ }

/-- The `try` block of `load`. -/
def loadBody (fuel : Nat) (t : ClickTable) : LoadM ClickTable := do
  let key ← readInt "Read 'KEY' failed"
  let mask ← readInt "Read 'MASK' failed"
  assert1 (key == KEY) "invalid KEY"
  assert1 (mask == MASK) "invalid MASK"
  let columnCount ← readInt "Read 'columnCount' failed"
  let rowCount ← readInt "Read 'rowCount' failed"
  let t ← Decoder.iter (loadColumn fuel rowCount) columnCount.toNat t
  pure { t with m_rowCount := toSizeT rowCount }

/-- How a call of `load` ends, with the table it leaves behind. -/
inductive LoadResult where
  | returned (t : ClickTable)
  | threw (what : String) (t : ClickTable)
  | undefined (what : String)
  | outOfFuel

/-- `ClickTable::load`. `file` is the content of the file, or `none` when it
cannot be opened. -/
def ClickTable.load (t : ClickTable) (fileName : String) (file : Option Bytes) : LoadResult :=
  match file with
  | none => .threw s!"Error at open file '{fileName}'" t
  | some bytes =>
      match loadBody bytes.length t { rest := bytes } with
      | .ok t' _ => .returned t'
      | .error (.thrown what) _ => .threw s!"Error at load '{fileName}': {what}" t.flushTbl
      | .error (.undefined what) _ => .undefined what
      | .error .outOfFuel _ => .outOfFuel

end FlexEtl
