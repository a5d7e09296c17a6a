/-
FlexEtl.Db.SendTable — `descibeTable` and `sendTable` of `click2db.cpp`.

The members of `Click2DB` are a record, and a member function is a program
in `DbM`: the members it has changed stay changed when it throws, as they do
in the source. What the server answers is an argument. The client that makes
columns is the parameter `Columns`, and `clickColumns` is the bundled one,
given how it reads the name of a type.

`log` and `inserts` are no members. They record what happened, the newest
first: `log` the calls through the client with the pointer they went through,
and what became of the files; `inserts` the arguments of each `Insert`. No
definition reads them.
-/
import FlexEtl.Db.Column
import FlexEtl.Node.FileSystem

namespace FlexEtl

/-! ## Blocks -/

/-- `std::map<std::string, std::string>`: column names, and the names of their types. -/
abbrev TblType := Std.ExtTreeMap Bytes Bytes compare

/-- What `sendTable` uses of columns. A null `ColumnRef` is `none`. -/
structure Columns (γ : Type) where
  CreateColumnByType : Bytes → Except Fault (Option γ)
  column2ClickColumn : ClickColumn → γ → Except Fault γ
  Size : γ → Nat

/-- The columns of the bundled client. `typeByName` reads the name of a type. -/
def clickColumns (libc : Libc) (typeByName : Bytes → Except Fault (Option ChType)) :
    Columns ((t : ChType) × Column t) where
  CreateColumnByType name := do
    let t ← typeByName name
    pure (t.map fun t => ⟨t, Column.create t⟩)
  column2ClickColumn col column := do
    let data ← FlexEtl.column2ClickColumn libc column.1 (.array col.data) column.2
    pure ⟨column.1, data⟩
  Size column := Column.size column.1 column.2

/-- `clickhouse::Block`. -/
structure Block (γ : Type) where
  columns : List (Bytes × γ) := []
  rows : Nat := 0

namespace Block

variable {γ : Type}

/-- `Block::GetColumnCount`. -/
def GetColumnCount (b : Block γ) : Nat := b.columns.length

/-- `Block::GetRowCount`. -/
def GetRowCount (b : Block γ) : Nat := b.rows

/-- `Block::AppendColumn`. -/
def AppendColumn (Size : γ → Nat) (b : Block γ) (name : Bytes) (col : γ) :
    Except Fault (Block γ) :=
  if b.columns.isEmpty then .ok { columns := [(name, col)], rows := Size col }
  else if Size col ≠ b.rows then
    .error (.thrown "all columns in block must have same count of rows")
  else .ok { b with columns := b.columns ++ [(name, col)] }

end Block

/-! ## The members -/

/-- The functions of the client that are called through `m_pClickDB`. -/
inductive Call where
  | Ping | Execute | Insert
  deriving DecidableEq, Repr

/-- What the record of the past holds. Clients and runs of the process are numbered. -/
inductive SenderEvent where
  | connected (client : Nat)
  | called (call : Call) (client : Option Nat)
  | described (client : Nat)
  | accepted (file : Path)
  | loadFailed (file : Path)
  | inserted (file : Path)
  | sendFailed (run : Nat) (file : Path)
  | requeued (file : Path)
  | moved (run : Nat) (toPath : String) (file : Path)
  deriving DecidableEq, Repr

/-- A call of `Client::Insert`. -/
structure InsertCall (γ : Type) where
  client : Option Nat
  table_name : Bytes
  block : Block γ

/-- `class Click2DB`. The client is the number under which it was connected. -/
structure Click2DB (γ : Type) where
  m_run : Bool := false
  m_pQueue : List (Nat × Path) := []
  m_tblType : TblType := ∅
  m_pClickDB : Option Nat := none
  g_ErrorDB : Nat := 0
  g_ErrorFS : Nat := 0
  g_ErrorTypes : Nat := 0
  g_InsertedRows : Nat := 0
  log : List SenderEvent := []
  inserts : List (InsertCall γ) := []

abbrev DbM (γ : Type) := EStateM Fault (Click2DB γ)

namespace Click2DB

variable {γ : Type}

/-- Record an event. -/
def record (e : SenderEvent) (db : Click2DB γ) : Click2DB γ := { db with log := e :: db.log }

/-- Use `m_pClickDB`. -/
def call (c : Call) : DbM γ Unit := modify fun db => db.record (.called c db.m_pClickDB)

/-- `++g_ErrorTypes`. -/
def countErrorTypes : DbM γ Unit := modify fun db => { db with g_ErrorTypes := db.g_ErrorTypes + 1 }

/-- The names and type names of the block that the server describes the table with. -/
abbrev Description := List (Bytes × Bytes)

/-- The map that the callback of `descibeTable` fills. -/
def tblTypeOf (desc : Description) : TblType :=
  desc.foldl (fun tblType column => tblType.insert column.1 column.2) ∅

/-- `Click2DB::descibeTable`, where `Execute` throws or hands over a description. -/
def descibeTable (answer : Except String Description) : DbM γ Bool := do
  let db ← get
  match db.m_pClickDB with
  | none => throw (.thrown "Describe failed: no connection")
  | some client =>
      call .Execute
      match answer with
      | .error what => throw (.thrown what)
      | .ok desc =>
          modify fun db => { db with m_tblType := tblTypeOf desc }.record (.described client)
          pure (decide (tblTypeOf desc ≠ db.m_tblType))

/-! ## Sending -/

/-- The body of the loop in `fillTable`: unknown types so far and the block. A null
column is left out, and so is one whose conversion throws. -/
def fillColumn (columns : Columns γ) (acc : Bool × Block γ) (col : Bytes × ClickColumn) :
    DbM γ (Bool × Block γ) := do
  let db ← get
  match db.m_tblType[col.1]? with
  | none => countErrorTypes; pure (true, acc.2)
  | some typeName =>
      match columns.CreateColumnByType typeName with
      | .error fault => throw fault
      | .ok none => countErrorTypes; pure acc
      | .ok (some column) =>
          match columns.column2ClickColumn col.2 column with
          | .error (.thrown _) => countErrorTypes; pure acc
          | .error fault => throw fault
          | .ok column =>
              match acc.2.AppendColumn columns.Size col.1 column with
              | .error fault => throw fault
              | .ok block => pure (acc.1, block)

/-- `fillTable`: whether there were unknown types, and the filled block. -/
def fillTable (columns : Columns γ) (table : ClickTable) (block : Block γ) :
    DbM γ (Bool × Block γ) :=
  table.m_tbl.toList.foldlM (fillColumn columns) (false, block)

/-- The table has unknown types: the description is read again, and the block is filled
again when it has changed. -/
def refillTable (columns : Columns γ) (answer : Except String Description) (table : ClickTable)
    (block : Block γ) : DbM γ (Block γ) := do
  if ← descibeTable answer then
    let (_, block) ← fillTable columns table {}
    pure block
  else pure block

/-- The two tests of the block. -/
def checkBlock (block : Block γ) : DbM γ (Block γ) :=
  if block.GetColumnCount = 0 then throw (.thrown "no column om table")
  else if block.GetRowCount = 0 then throw (.thrown "no rows om table")
  else pure block

/-- `sendTable` before its call of `Insert`. -/
def makeBlock (columns : Columns γ) (answer : Except String Description) (table : ClickTable) :
    DbM γ (Block γ) := do
  let (hasUnknownTypes, block) ← fillTable columns table {}
  let block ← if hasUnknownTypes then refillTable columns answer table block else pure block
  checkBlock block

/-- What the server answers during one `sendTable`. -/
structure SendEnv where
  description : Except String Description := .ok []
  insert : Except String Unit := .ok ()

/-- `m_pClickDB->Insert(table_name, block)`, which throws or returns. -/
def Insert (answer : Except String Unit) (table_name : Bytes) (block : Block γ) : DbM γ Unit := do
  call .Insert
  modify fun db => { db with inserts := ⟨db.m_pClickDB, table_name, block⟩ :: db.inserts }
  match answer with
  | .error what => throw (.thrown what)
  | .ok () => pure ()

/-- `g_InsertedRows += table.rowCount()`. -/
def countRows (file : Path) (table : ClickTable) (db : Click2DB γ) : Click2DB γ :=
  { db with g_InsertedRows := db.g_InsertedRows + table.rowCount }.record (.inserted file)

/-- `Click2DB::sendTable`. `file` is where the table was loaded from: it is for the
record only. -/
def sendTable (columns : Columns γ) (m_tableName : Bytes) (env : SendEnv) (file : Path)
    (table : ClickTable) : DbM γ Unit := do
  let block ← makeBlock columns env.description table
  Insert env.insert m_tableName block
  modify (countRows file table)

end Click2DB

end FlexEtl
