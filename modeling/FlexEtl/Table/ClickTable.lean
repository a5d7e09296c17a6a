/-
FlexEtl.Table.ClickTable — the columnar table of `clicktbl.h`.

`ClickTable` keeps one `ClickColumn` per name in a `std::map` and a row
count beside it. No column knows the row count: `append` is told the row it
writes to, `finishAppend` pads or cuts every column, and the two flushes
clear. `std::map` is `Std.ExtTreeMap`, ordered on the bytes of the name as
`std::string` is, so two tables are equal when they hold the same columns.

Sizes are natural numbers here; `size_t` never wraps on a table that fits in
memory.
-/
import FlexEtl.Table.Value

namespace FlexEtl

/-! ## Columns -/

/-- `std::vector<Value>::resize`: cut, or extend by default-constructed values. -/
def resize (xs : List Value) (n : Nat) : List Value :=
  xs.take n ++ List.replicate (n - xs.length) .null

/-- `struct ClickColumn`. The source's `_data` is a `Value` that is created as
an array and never retagged, so only its vector is kept. -/
@[ext] structure ClickColumn where
  data : List Value := []
  deriving DecidableEq, Repr

namespace ClickColumn

/-- `ClickColumn::size`. -/
def size (col : ClickColumn) : Nat := col.data.length

/-- `ClickColumn::append`: write `val` at row `n`, after making `n` the size. -/
def append (col : ClickColumn) (n : Nat) (val : Value) : ClickColumn :=
  if col.size ≠ n then ⟨resize col.data n ++ [val]⟩ else ⟨col.data ++ [val]⟩

/-- `ClickColumn::revert`. -/
def revert (col : ClickColumn) (n : Nat) : ClickColumn :=
  if n = 0 then ⟨[]⟩ else ⟨resize col.data n⟩

/-- The inner loop of `finishAppend`: nulls from the column's size up to row `n`. -/
def pad (col : ClickColumn) (n : Nat) : ClickColumn :=
  (List.range' col.size (n - col.size)).foldl (fun c i => c.append i .null) col

end ClickColumn

/-! ## Tables -/

/-- `class ClickTable`. -/
structure ClickTable where
  m_tbl : Std.ExtTreeMap Bytes ClickColumn compare := ∅
  m_rowCount : Nat := 0

namespace ClickTable

/-- `ClickTable::rowCount`. -/
def rowCount (t : ClickTable) : Nat := t.m_rowCount

/-- `ClickTable::append`: `operator[]` creates the column when it is new. -/
def append (t : ClickTable) (column : Bytes) (val : Value) : ClickTable :=
  { t with
    m_tbl := t.m_tbl.alter column fun col => some ((col.getD {}).append t.m_rowCount val) }

/-- `ClickTable::finishAppend`. -/
def finishAppend (t : ClickTable) (bSucceeded : Bool) : ClickTable :=
  if bSucceeded then
    { m_tbl := t.m_tbl.map fun _ col => col.pad (t.m_rowCount + 1)
      m_rowCount := t.m_rowCount + 1 }
  else
    { t with m_tbl := t.m_tbl.map fun _ col => col.revert t.m_rowCount }

/-- `ClickTable::flushData`. -/
def flushData (t : ClickTable) : ClickTable :=
  { m_tbl := t.m_tbl.map fun _ col => col.revert 0, m_rowCount := 0 }

/-- `ClickTable::flushTbl`. -/
def flushTbl (_ : ClickTable) : ClickTable := {}

/-! ## Whole rows and whole runs -/

/-- The calls `append(column, value)` that make up one row, in call order. -/
abbrev Appends := List (Bytes × Value)

/-- All the appends of one row. -/
def appendAll (t : ClickTable) (a : Appends) : ClickTable :=
  a.foldl (fun t kv => t.append kv.1 kv.2) t

/-- One row: its appends, then `finishAppend`. -/
def row (t : ClickTable) (a : Appends) (bSucceeded : Bool) : ClickTable :=
  (t.appendAll a).finishAppend bSucceeded

/-- What a client does to a table between two row boundaries. -/
inductive Op where
  | row (a : Appends) (bSucceeded : Bool)
  | flushData
  | flushTbl

/-- One client operation. -/
def exec (t : ClickTable) : Op → ClickTable
  | .row a ok => t.row a ok
  | .flushData => t.flushData
  | .flushTbl => t.flushTbl

/-- A client's whole run, from the table `t`. -/
def run (t : ClickTable) (ops : List Op) : ClickTable := ops.foldl exec t

end ClickTable

end FlexEtl
