/-
FlexEtl.Db.SendTableTheorems — what `sendTable` does to the members.

Filling a block only counts errors. `descibeTable` uses the client when there
is one, and changes the description only when the server answers. `Asks` puts
the two together for everything before `Insert`, and `Sends` for the whole:
these are the only facts about sending that the proofs about the worker use.
-/
import FlexEtl.Db.SendTable
import FlexEtl.Lib.Outcome

namespace FlexEtl.Click2DB

open Outcome

variable {γ : Type}

/-! ## The bundled client -/

/-- With the bundled client a converted column has the type that was named, and holds the
data of the table's column. -/
theorem clickColumns_converted {libc : Libc} {typeByName : Bytes → Except Fault (Option ChType)}
    {typeName : Bytes} {col : ClickColumn} {fresh column : (t : ChType) × Column t}
    (hcreate : (clickColumns libc typeByName).CreateColumnByType typeName = .ok (some fresh))
    (hconvert : (clickColumns libc typeByName).column2ClickColumn col fresh = .ok column) :
    typeByName typeName = .ok (some column.1) ∧
      FlexEtl.column2ClickColumn libc column.1 (.array col.data) (Column.create column.1) =
        .ok column.2 := by
  unfold clickColumns at hcreate hconvert
  dsimp only at hcreate hconvert
  cases htype : typeByName typeName with
  | error fault => rw [htype] at hcreate; cases hcreate
  | ok t =>
      rw [htype] at hcreate
      cases t with
      | none => cases hcreate
      | some t =>
          cases hcreate
          dsimp only at hconvert
          cases hdata : FlexEtl.column2ClickColumn libc t (.array col.data) (Column.create t) with
          | error fault => rw [hdata] at hconvert; cases hconvert
          | ok data =>
              rw [hdata] at hconvert
              cases hconvert
              exact ⟨rfl, hdata⟩

/-! ## Filling -/

/-- Only the counter of the types has changed. -/
def Counts (db db' : Click2DB γ) : Prop := ∃ n, db' = { db with g_ErrorTypes := n }

theorem counts_refl (db : Click2DB γ) : Counts db db := ⟨db.g_ErrorTypes, rfl⟩

theorem counts_trans (db db' db'' : Click2DB γ) :
    Counts db db' → Counts db' db'' → Counts db db'' := by
  rintro ⟨n, rfl⟩ ⟨n', rfl⟩
  exact ⟨n', rfl⟩

theorem counts_fillColumn (columns : Columns γ) (acc : Bool × Block γ) (col : Bytes × ClickColumn)
    (db : Click2DB γ) : Counts db (after (fillColumn columns acc col) db) := by
  unfold fillColumn
  rw [after_get_bind]
  cases db.m_tblType[col.1]? with
  | none => exact ⟨db.g_ErrorTypes + 1, rfl⟩
  | some typeName =>
      dsimp only
      cases columns.CreateColumnByType typeName with
      | error fault => exact counts_refl db
      | ok column =>
          cases column with
          | none => exact ⟨db.g_ErrorTypes + 1, rfl⟩
          | some column =>
              dsimp only
              cases columns.column2ClickColumn col.2 column with
              | error fault =>
                  cases fault with
                  | thrown what => exact ⟨db.g_ErrorTypes + 1, rfl⟩
                  | undefined what => exact counts_refl db
                  | outOfFuel => exact counts_refl db
              | ok column =>
                  dsimp only
                  cases acc.2.AppendColumn columns.Size col.1 column with
                  | error fault => exact counts_refl db
                  | ok block => exact counts_refl db

theorem counts_fillTable (columns : Columns γ) (table : ClickTable) (block : Block γ)
    (db : Click2DB γ) : Counts db (after (fillTable columns table block) db) :=
  after_foldlM counts_refl counts_trans (counts_fillColumn columns) _ _ db

/-! ## Describing -/

/-- The description is not asked for, or the server does not answer, or it does. -/
inductive Asks (db : Click2DB γ) : Click2DB γ → Prop where
  | silent (errors : Nat) : Asks db { db with g_ErrorTypes := errors }
  | refused (errors client : Nat) : db.m_pClickDB = some client →
      Asks db { db with
        g_ErrorTypes := errors
        log := .called .Execute (some client) :: db.log }
  | answered (errors client : Nat) (tblType : TblType) : db.m_pClickDB = some client →
      Asks db { db with
        g_ErrorTypes := errors
        m_tblType := tblType
        log := .described client :: .called .Execute (some client) :: db.log }

theorem asks_of_counts {db db' : Click2DB γ} (h : Counts db db') : Asks db db' := by
  obtain ⟨n, rfl⟩ := h
  exact .silent n

theorem Asks.counts {db db' db'' : Click2DB γ} (h : Asks db db') (hc : Counts db' db'') :
    Asks db db'' := by
  obtain ⟨n, rfl⟩ := hc
  cases h with
  | silent _ => exact .silent n
  | refused _ client hclient => exact .refused n client hclient
  | answered _ client tblType hclient => exact .answered n client tblType hclient

theorem Counts.asks {db db' db'' : Click2DB γ} (hc : Counts db db') (h : Asks db' db'') :
    Asks db db'' := by
  obtain ⟨n, rfl⟩ := hc
  cases h with
  | silent n' => exact .silent n'
  | refused n' client hclient => exact .refused n' client hclient
  | answered n' client tblType hclient => exact .answered n' client tblType hclient

/-- A call of `descibeTable`: the only way to a new description. -/
theorem descibeTable_cases (answer : Except String Description) (db : Click2DB γ) :
    (db.m_pClickDB = none ∧ ∃ what, descibeTable answer db = .error (.thrown what) db) ∨
    (∃ client, db.m_pClickDB = some client ∧
      ((∃ what, descibeTable answer db =
        .error (.thrown what) { db with log := .called .Execute (some client) :: db.log }) ∨
      (∃ tblType changed, descibeTable answer db = .ok changed { db with
        m_tblType := tblType
        log := .described client :: .called .Execute (some client) :: db.log }))) := by
  obtain ⟨m_run, m_pQueue, m_tblType, m_pClickDB, _, _, _, _, log, inserts⟩ := db
  cases m_pClickDB with
  | none => exact .inl ⟨rfl, _, rfl⟩
  | some client =>
      cases answer with
      | error what => exact .inr ⟨client, rfl, .inl ⟨what, rfl⟩⟩
      | ok desc => exact .inr ⟨client, rfl, .inr ⟨tblTypeOf desc, _, rfl⟩⟩

theorem asks_descibeTable (answer : Except String Description) (db : Click2DB γ) :
    Asks db (after (descibeTable answer) db) := by
  rcases descibeTable_cases answer db with
    ⟨-, what, hrun⟩ | ⟨client, hclient, ⟨what, hrun⟩ | ⟨tblType, changed, hrun⟩⟩
  · rw [after_error hrun]
    exact .silent db.g_ErrorTypes
  · rw [after_error hrun]
    exact .refused db.g_ErrorTypes client hclient
  · rw [after_ok hrun]
    exact .answered db.g_ErrorTypes client tblType hclient

/-! ## Making the block and sending it -/

theorem asks_bind {α β : Type} {x : DbM γ α} {f : α → DbM γ β} {db : Click2DB γ}
    (hx : Asks db (after x db)) (hf : ∀ a s, Counts s (after (f a) s)) :
    Asks db (after (x >>= f) db) := by
  rcases after_bind_cases x f db with hstop | ⟨a, hgo⟩
  · rw [hstop]
    exact hx
  · rw [hgo]
    exact hx.counts (hf a _)

theorem asks_refillTable (columns : Columns γ) (answer : Except String Description)
    (table : ClickTable) (block : Block γ) (db : Click2DB γ) :
    Asks db (after (refillTable columns answer table block) db) := by
  refine asks_bind (asks_descibeTable answer db) fun changed s => ?_
  cases changed with
  | false => exact counts_refl s
  | true =>
      exact after_bind (f := fun filled => pure filled.2) counts_trans
        (counts_fillTable columns table {}) (fun _ s' => counts_refl s') s

theorem counts_checkBlock (block : Block γ) (db : Click2DB γ) :
    Counts db (after (checkBlock block) db) := by
  unfold checkBlock
  split
  · exact counts_refl db
  · split
    · exact counts_refl db
    · exact counts_refl db

/-- Before `Insert` the description is asked for at most once. -/
theorem asks_makeBlock (columns : Columns γ) (answer : Except String Description)
    (table : ClickTable) (db : Click2DB γ) :
    Asks db (after (makeBlock columns answer table) db) := by
  have hcounts := counts_fillTable columns table {} db
  unfold makeBlock
  rcases after_bind_cases (fillTable columns table {}) _ db with hstop | ⟨filled, hgo⟩
  · rw [hstop]
    exact asks_of_counts hcounts
  · rw [hgo]
    obtain ⟨hasUnknownTypes, block⟩ := filled
    refine hcounts.asks ?_
    cases hasUnknownTypes with
    | false => exact asks_of_counts (counts_checkBlock block _)
    | true => exact asks_bind (asks_refillTable columns answer table block _) counts_checkBlock

/-- The members after a call of `Insert`. -/
def inserted (m_tableName : Bytes) (block : Block γ) (db : Click2DB γ) : Click2DB γ :=
  { db with
    log := .called .Insert db.m_pClickDB :: db.log
    inserts := ⟨db.m_pClickDB, m_tableName, block⟩ :: db.inserts }

theorem Insert_error (what : String) (m_tableName : Bytes) (block : Block γ) (db : Click2DB γ) :
    Insert (.error what) m_tableName block db =
      .error (.thrown what) (inserted m_tableName block db) := rfl

theorem Insert_ok (m_tableName : Bytes) (block : Block γ) (db : Click2DB γ) :
    Insert (.ok ()) m_tableName block db = .ok () (inserted m_tableName block db) := rfl

/-- How a call of `sendTable` ends: before `Insert`, in it, or after it. -/
inductive Sends (file : Path) (db : Click2DB γ) :
    EStateM.Result Fault (Click2DB γ) Unit → Prop where
  | unmade (fault : Fault) {db' : Click2DB γ} : Asks db db' → Sends file db (.error fault db')
  | refused (what : String) (m_tableName : Bytes) (block : Block γ) {db' : Click2DB γ} :
      Asks db db' → Sends file db (.error (.thrown what) (inserted m_tableName block db'))
  | sent (table : ClickTable) (m_tableName : Bytes) (block : Block γ) {db' : Click2DB γ} :
      Asks db db' →
      Sends file db (.ok () (countRows file table (inserted m_tableName block db')))

theorem sends_sendTable (columns : Columns γ) (m_tableName : Bytes) (env : SendEnv) (file : Path)
    (table : ClickTable) (db : Click2DB γ) :
    Sends file db ((sendTable columns m_tableName env file table).run db) := by
  have hasks := asks_makeBlock columns env.description table db
  unfold sendTable
  rcases bind_cases (makeBlock columns env.description table) _ db with
    ⟨fault, db', hmake, hrun⟩ | ⟨block, db', hmake, hrun⟩
  · rw [after_error hmake] at hasks
    rw [EStateM.run, hrun]
    exact .unmade fault hasks
  · rw [after_ok hmake] at hasks
    rw [EStateM.run, hrun]
    cases hinsert : env.insert with
    | error what =>
        rw [bind_of_error (Insert_error what m_tableName block db')]
        exact .refused what m_tableName block hasks
    | ok u =>
        rw [bind_of_ok (Insert_ok m_tableName block db')]
        exact .sent table m_tableName block hasks

end FlexEtl.Click2DB
