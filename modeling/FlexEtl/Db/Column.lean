/-
FlexEtl.Db.Column — ClickHouse columns, and `column2ClickColumn` of `click2db.cpp`.

`ChType` is the tree of a column's type object. `Column t` is the data that
the bundled client keeps for a column of that type, so a column and its type
cannot disagree; the client's comparison of type names, which always succeeds
here, is left out. `slice` of an array or of a tuple is a null pointer in the
client, and `Fault.undefined` marks its use. `append` of a Decimal column takes
nothing over: the client hands the whole column to the one that keeps the numbers.

`readVector` is the one place where the program reads the array member of a
`Value`. Under another tag that read is undefined: the fault `misread`.
-/
import FlexEtl.Table.Getters

namespace FlexEtl

/-! ## Types -/

/-- The type codes without parameters of their own types, with what the type
object keeps beside the code. -/
inductive LeafType where
  | int8 | int16 | int32 | int64 | int128
  | uint8 | uint16 | uint32 | uint64
  | float32 | float64
  | string
  | fixedString (n : Nat)
  | dateTime | date
  | enum8 (items : List (Bytes × Int))
  | enum16 (items : List (Bytes × Int))
  | uuid
  | decimal (precision scale : Nat)
  | ipv4 | ipv6
  deriving DecidableEq, Repr

/-- `clickhouse::Type`. -/
inductive ChType where
  | leaf (l : LeafType)
  | array (item : ChType)
  | nullable (nested : ChType)
  | tuple (items : List ChType)

/-- Induction on what is converted: the items of a tuple never are. -/
theorem ChType.inductOn {motive : ChType → Prop} (leaf : ∀ l, motive (.leaf l))
    (array : ∀ item, motive item → motive (.array item))
    (nullable : ∀ nested, motive nested → motive (.nullable nested))
    (tuple : ∀ items, motive (.tuple items)) : ∀ t, motive t
  | .leaf l => leaf l
  | .array item => array item (inductOn leaf array nullable tuple item)
  | .nullable nested => nullable nested (inductOn leaf array nullable tuple nested)
  | .tuple items => tuple items

/-! ## Columns -/

/-- One cell of a column without nesting, as the client stores it. -/
inductive Cell where
  | int (n : Int)
  | float32 (bits : UInt32)
  | float64 (bits : UInt64)
  | text (s : Bytes)
  | uuid (first second : UInt64)
  deriving DecidableEq, Repr

/-- The data of a column: the cells; the ends of the rows and the items; the nested
column and the null flags. Nothing is ever appended to a tuple. -/
def Column : ChType → Type
  | .leaf _ => List Cell
  | .array item => List Nat × Column item
  | .nullable nested => Column nested × List Bool
  | .tuple _ => Unit

namespace Column

/-- `CreateColumnByType`, on the name of a type. -/
def create : (t : ChType) → Column t
  | .leaf _ => ([] : List Cell)
  | .array item => (([] : List Nat), create item)
  | .nullable nested => (create nested, ([] : List Bool))
  | .tuple _ => ()

/-- `Column::Size`. -/
def size : (t : ChType) → Column t → Nat
  | .leaf _, cells => List.length (α := Cell) cells
  | .array _, col => List.length (α := Nat) col.1
  | .nullable _, col => List.length (α := Bool) col.2
  | .tuple _, _ => 0

/-- A null pointer is dereferenced. -/
def nullColumn : Fault := .undefined "null ColumnRef"

/-- What the constructor of `ColumnNullable` throws. -/
def unevenNulls : Fault :=
  .thrown "count of elements in nested and nulls should be the same"

/-- The constructor of `ColumnNullable`, on the nested column and the flags. -/
def makeNullable (nested : ChType) (col : Option (Column nested)) (nulls : List Bool) :
    Except Fault (Option (Column nested × List Bool)) :=
  match col with
  | none => .error nullColumn
  | some col =>
      if size nested col = nulls.length then .ok (some (col, nulls)) else .error unevenNulls

/-- `Column::Slice`, where `none` is a null pointer. -/
def slice : (t : ChType) → Column t → Nat → Nat → Except Fault (Option (Column t))
  | .leaf _, cells, begin, len => .ok (some ((List.drop (α := Cell) begin cells).take len))
  | .array _, _, _, _ => .ok none
  | .nullable nested, col, begin, len => do
      let s ← slice nested col.1 begin len
      makeNullable nested s ((col.2.drop begin).take len)
  | .tuple _, _, _, _ => .ok none

/-- `ColumnArray::AppendAsColumn`, given how its data column appends. -/
def appendAsColumn {item : ChType}
    (appendData : Column item → Column item → Except Fault (Column item))
    (col : List Nat × Column item) (row : Option (Column item)) :
    Except Fault (List Nat × Column item) :=
  match row with
  | none => .error nullColumn
  | some row => do
      let data ← appendData col.2 row
      pure (col.1 ++ [col.1.getLast?.getD 0 + size item row], data)

/-- `ColumnArray::GetAsColumn`. -/
def getAsColumn {item : ChType} (col : List Nat × Column item) (n : Nat) :
    Except Fault (Option (Column item)) :=
  let offset := if n = 0 then 0 else col.1.getD (n - 1) 0
  slice item col.2 offset (col.1.getD n 0 - offset)

/-- The cells after `Append` of a column of the same type. `ColumnDecimal` hands the other one
itself to its column of integers, which takes over only columns of its own class. -/
def appendCells : LeafType → List Cell → List Cell → List Cell
  | .decimal _ _, cells, _ => cells
  | _, cells, other => cells ++ other

/-- `Column::Append` of a column of the same type. -/
def append : (t : ChType) → Column t → Column t → Except Fault (Column t)
  | .leaf l, cells, other => .ok (appendCells l cells other)
  | .array item, col, other =>
      (List.range (List.length (α := Nat) other.1)).foldlM (fun col i => do
        let row ← getAsColumn other i
        appendAsColumn (append item) col row) col
  | .nullable nested, col, other => do
      let data ← append nested col.1 other.1
      pure (data, col.2 ++ other.2)
  | .tuple _, _, _ => .ok ()

end Column

/-! ## Conversion -/

/-- The fault of reading `_vector` under another tag. -/
def misread : Fault := .undefined "_vector of a value that is not an array"

/-- `*inColumn._vector`. -/
def readVector (v : Value) : Except Fault (List Value) :=
  match v.vector? with
  | some xs => .ok xs
  | none => .error misread

/-- The enumerator's code that `EnumType` keeps for a name: the last one. -/
def enumValue? (items : List (Bytes × Int)) (name : Bytes) : Option Int :=
  (items.reverse.find? fun item => item.1 == name).map (·.2)

/-- Appending to a `ColumnEnum` whose cells are the residues `wrap`. -/
def enumCell (libc : Libc) (what : String) (wrap : Int → Int) (items : List (Bytes × Int))
    (el : Value) : Except Fault Cell :=
  match el.type with
  | .uint => .ok (.int (wrap (el.getUInt64 libc).toNat))
  | .int => .ok (.int (wrap (el.getInt64 libc).toInt))
  | .str =>
      match enumValue? items (el.getString libc) with
      | some n => .ok (.int (wrap n))
      | none => .error (.thrown "map::at")
  | _ => .error (.thrown what)

/-- `ColumnDecimal::Append`: the width of the cells depends on the precision. -/
def decimalCell (precision : Nat) (n : Int) : Cell :=
  if precision ≤ 9 then .int (n.bmod (2 ^ 32))
  else if precision ≤ 18 then .int (n.bmod (2 ^ 64))
  else .int n

/-- A text cut or filled up with zero bytes. -/
def fixedText (n : Nat) (s : Bytes) : Cell := .text (s.take n ++ List.replicate (n - s.length) 0)

/-- The cell that one element appends: the loop body of each case of
`column2ClickColumn` on a type without nesting. -/
def appendCell (libc : Libc) : LeafType → Value → Except Fault Cell
  | .int8, el => .ok (.int (el.getInt8 libc).toInt)
  | .int16, el => .ok (.int (el.getInt16 libc).toInt)
  | .int32, el => .ok (.int (el.getInt32 libc).toInt)
  | .int64, el => .ok (.int (el.getInt64 libc).toInt)
  | .int128, el => .ok (.int (el.getInt64 libc).toInt)
  | .uint8, el => .ok (.int (el.getUInt8 libc).toNat)
  | .uint16, el => .ok (.int (el.getUInt16 libc).toNat)
  | .uint32, el => .ok (.int (el.getUInt32 libc).toNat)
  | .ipv4, el => .ok (.int (libc.ntohl (libc.inet_addr (cstring (el.getString libc)))).toNat)
  | .uint64, el => .ok (.int (el.getUInt64 libc).toNat)
  | .float32, el => .ok (.float32 (el.getFloat libc))
  | .float64, el => .ok (.float64 (el.getDouble libc))
  | .string, el => .ok (.text (el.getString libc))
  | .fixedString n, el => .ok (fixedText n (el.getString libc))
  -- the client keeps four bytes of the time, and two of the day
  | .dateTime, el => .ok (.int (el.getDateTime libc % 2 ^ 32))
  | .date, el => .ok (.int ((el.getDate libc).tdiv 86400 % 2 ^ 16))
  | .enum8 items, el => enumCell libc "convert to Enum8 failed" (·.bmod (2 ^ 8)) items el
  | .enum16 items, el => enumCell libc "convert to Enum16 failed" (·.bmod (2 ^ 16)) items el
  | .decimal precision _, el =>
      if el.type = .uint then .ok (decimalCell precision (el.getUInt64 libc).toNat)
      else .ok (decimalCell precision (el.getInt64 libc).toInt)
  | .ipv6, el => .ok (fixedText 16 (el.getString libc))
  | .uuid, el => .ok (.uuid (el.getUInt128 libc).1 (el.getUInt128 libc).2)

/-- `column2ClickColumn`: append the elements of `inColumn` to a column. -/
def column2ClickColumn (libc : Libc) :
    (t : ChType) → Value → Column t → Except Fault (Column t)
  | .leaf l, inColumn, cells => do
      let vec ← readVector inColumn
      vec.foldlM (fun (cells : List Cell) el => do
        let cell ← appendCell libc l el
        pure (cells ++ [cell])) cells
  | .array item, inColumn, col => do
      let vec ← readVector inColumn
      vec.foldlM (fun (col : List Nat × Column item) el => do
        let row ← column2ClickColumn libc item el (Column.create item)
        Column.appendAsColumn (Column.append item) col (some row)) col
  | .nullable nested, inColumn, col => do
      let data ← column2ClickColumn libc nested inColumn col.1
      let vec ← readVector inColumn
      pure (data, col.2 ++ vec.map Value.isNull)
  | .tuple _, _, _ => throw (.thrown "unsupported clickhouse type")

end FlexEtl
