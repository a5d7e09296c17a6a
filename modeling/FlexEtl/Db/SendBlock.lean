/-
FlexEtl.Db.SendBlock — which block `sendTable` sends.

Filling a block depends on the members only through the description, and on
the description only through the columns that it declares: `fillTable` ends the
same under any members with the same description (`endsWith_fillTable`), and
the block it leaves is the list `describedColumns`. So a block that was filled
before the description was read again is the block that would be filled after
it, as long as the two descriptions are equal (`endsAs_makeBlock`), and the
argument of `Insert` is the block of the description in force there
(`sendTable_block`).
-/
import FlexEtl.Db.SendTableTheorems
import FlexEtl.Lib.EventStream

namespace FlexEtl.Click2DB

open Outcome

variable {γ : Type}

/-! ## The block of a description -/

/-- The column of the declared type, converted, if the description has one and the
conversion succeeds. -/
def convert (columns : Columns γ) (tblType : TblType) (col : Bytes × ClickColumn) : Option γ := do
  let typeName ← tblType[col.1]?
  let fresh ← (columns.CreateColumnByType typeName).toOption.join
  (columns.column2ClickColumn col.2 fresh).toOption

/-- One column for each column of the table that can be converted, in the order of the table. -/
def describedColumns (columns : Columns γ) (tblType : TblType) (table : ClickTable) :
    List (Bytes × γ) :=
  table.m_tbl.toList.filterMap fun col => (convert columns tblType col).map (col.1, ·)

/-- `sendTable` before `Insert`, if it filled the block again whenever it has read the
description again. -/
def makeBlockRefilling (columns : Columns γ) (answer : Except String Description)
    (table : ClickTable) : DbM γ (Block γ) := do
  let (hasUnknownTypes, block) ← fillTable columns table {}
  let block ←
    if hasUnknownTypes then do
      let _ ← descibeTable answer
      let (_, block) ← fillTable columns table {}
      pure block
    else pure block
  checkBlock block

/-- `sendTable` with that block. -/
def sendTableRefilling (columns : Columns γ) (m_tableName : Bytes) (env : SendEnv) (file : Path)
    (table : ClickTable) : DbM γ Unit := do
  let block ← makeBlockRefilling columns env.description table
  Insert env.insert m_tableName block
  modify (countRows file table)

/-! ## Filling depends on the description -/

/-- So many more errors in the types. -/
def count (k : Nat) (db : Click2DB γ) : Click2DB γ :=
  { db with g_ErrorTypes := db.g_ErrorTypes + k }

@[simp] theorem count_zero (db : Click2DB γ) : db.count 0 = db := rfl

@[simp] theorem count_count (k m : Nat) (db : Click2DB γ) :
    (db.count k).count m = db.count (k + m) := by
  simp [count, Nat.add_assoc]

@[simp] theorem count_tblType (k : Nat) (db : Click2DB γ) :
    (db.count k).m_tblType = db.m_tblType := rfl

theorem counts_count (k : Nat) (db : Click2DB γ) : Counts db (db.count k) := ⟨_, rfl⟩

/-- What a result is in the end, after the errors are counted. -/
def endOf {α : Type} (r : Except Fault α) (db : Click2DB γ) : EStateM.Result Fault (Click2DB γ) α :=
  match r with
  | .ok a => .ok a db
  | .error fault => .error fault db

/-- Under this description the program has this result, and counts so many errors. -/
def EndsWith {α : Type} (tblType : TblType) (p : DbM γ α) (r : Except Fault α) (k : Nat) : Prop :=
  ∀ db : Click2DB γ, db.m_tblType = tblType → p db = endOf r (db.count k)

theorem EndsWith.bind {α β : Type} {tblType : TblType} {p : DbM γ α} {f : α → DbM γ β} {a : α}
    {r : Except Fault β} {k m : Nat} (hp : EndsWith tblType p (.ok a) k)
    (hf : EndsWith tblType (f a) r m) : EndsWith tblType (p >>= f) r (k + m) := by
  intro db hdb
  have hrest := hf (db.count k) hdb
  rw [count_count] at hrest
  exact (bind_of_ok (hp db hdb)).trans hrest

theorem EndsWith.stop {α β : Type} {tblType : TblType} {p : DbM γ α} {f : α → DbM γ β}
    {fault : Fault} {k : Nat} (hp : EndsWith tblType p (.error fault) k) :
    EndsWith tblType (p >>= f) (.error fault) k := by
  intro db hdb
  exact bind_of_error (hp db hdb)

theorem columns_appendColumn {Size : γ → Nat} {block block' : Block γ} {name : Bytes} {column : γ}
    (h : block.AppendColumn Size name column = .ok block') :
    block'.columns = block.columns ++ [(name, column)] := by
  unfold Block.AppendColumn at h
  split at h
  · rename_i hempty
    cases h
    simp [List.isEmpty_iff.mp hempty]
  · split at h
    · cases h
    · cases h
      rfl

/-- A step of `fillTable`: the column is appended when it can be converted. -/
theorem endsWith_fillColumn (columns : Columns γ) (tblType : TblType) (acc : Bool × Block γ)
    (col : Bytes × ClickColumn) :
    ∃ r k, EndsWith tblType (fillColumn columns acc col) r k ∧ ∀ acc', r = .ok acc' →
      acc'.1 = (acc.1 || tblType[col.1]?.isNone) ∧
      acc'.2.columns =
        acc.2.columns ++ ((convert columns tblType col).map (col.1, ·)).toList := by
  cases htype : tblType[col.1]? with
  | none =>
      refine ⟨.ok (true, acc.2), 1, fun db hdb => ?_, ?_⟩
      · rw [fillColumn, EventStream.get_bind, hdb, htype]
        rfl
      · rintro _ ⟨⟩
        simp [convert, htype]
  | some typeName =>
      cases hcreate : columns.CreateColumnByType typeName with
      | error fault =>
          refine ⟨.error fault, 0, fun db hdb => ?_, fun acc' h => by cases h⟩
          rw [fillColumn, EventStream.get_bind, hdb, htype]
          simp only [hcreate]
          rfl
      | ok fresh =>
          cases fresh with
          | none =>
              refine ⟨.ok acc, 1, fun db hdb => ?_, ?_⟩
              · rw [fillColumn, EventStream.get_bind, hdb, htype]
                simp only [hcreate]
                rfl
              · rintro _ ⟨⟩
                simp [convert, htype, hcreate, Except.toOption]
          | some fresh =>
              cases hconvert : columns.column2ClickColumn col.2 fresh with
              | error fault =>
                  cases fault with
                  | thrown what =>
                      refine ⟨.ok acc, 1, fun db hdb => ?_, ?_⟩
                      · rw [fillColumn, EventStream.get_bind, hdb, htype]
                        simp only [hcreate, hconvert]
                        rfl
                      · rintro _ ⟨⟩
                        simp [convert, htype, hcreate, hconvert, Except.toOption]
                  | undefined what =>
                      refine ⟨.error (.undefined what), 0, fun db hdb => ?_,
                        fun acc' h => by cases h⟩
                      rw [fillColumn, EventStream.get_bind, hdb, htype]
                      simp only [hcreate, hconvert]
                      rfl
                  | outOfFuel =>
                      refine ⟨.error .outOfFuel, 0, fun db hdb => ?_, fun acc' h => by cases h⟩
                      rw [fillColumn, EventStream.get_bind, hdb, htype]
                      simp only [hcreate, hconvert]
                      rfl
              | ok column =>
                  cases happend : acc.2.AppendColumn columns.Size col.1 column with
                  | error fault =>
                      refine ⟨.error fault, 0, fun db hdb => ?_, fun acc' h => by cases h⟩
                      rw [fillColumn, EventStream.get_bind, hdb, htype]
                      simp only [hcreate, hconvert, happend]
                      rfl
                  | ok block =>
                      refine ⟨.ok (acc.1, block), 0, fun db hdb => ?_, ?_⟩
                      · rw [fillColumn, EventStream.get_bind, hdb, htype]
                        simp only [hcreate, hconvert, happend]
                        rfl
                      · rintro _ ⟨⟩
                        simp [convert, htype, hcreate, hconvert, Except.toOption,
                          columns_appendColumn happend]

/-- The loop of `fillTable`, from any block. -/
theorem endsWith_fillColumns (columns : Columns γ) (tblType : TblType)
    (cols : List (Bytes × ClickColumn)) : ∀ acc : Bool × Block γ,
    ∃ r k, EndsWith tblType (cols.foldlM (fillColumn columns) acc) r k ∧ ∀ acc', r = .ok acc' →
      acc'.1 = (acc.1 || cols.any fun col => tblType[col.1]?.isNone) ∧
      acc'.2.columns = acc.2.columns ++
        cols.filterMap fun col => (convert columns tblType col).map (col.1, ·) := by
  induction cols with
  | nil =>
      intro acc
      refine ⟨.ok acc, 0, fun _ _ => rfl, ?_⟩
      rintro _ ⟨⟩
      simp
  | cons col cols ih =>
      intro acc
      obtain ⟨r, k, hstep, hplaced⟩ := endsWith_fillColumn columns tblType acc col
      cases r with
      | error fault => exact ⟨.error fault, k, hstep.stop, fun acc' h => by cases h⟩
      | ok acc₁ =>
          obtain ⟨hunknown₁, hcolumns₁⟩ := hplaced acc₁ rfl
          obtain ⟨r, m, hrest, hplaced'⟩ := ih acc₁
          refine ⟨r, k + m, hstep.bind hrest, fun acc' h => ?_⟩
          obtain ⟨hunknown, hcolumns⟩ := hplaced' acc' h
          constructor
          · rw [hunknown, hunknown₁, List.any_cons, Bool.or_assoc]
          · rw [hcolumns, hcolumns₁, List.append_assoc]
            cases hconvert : convert columns tblType col with
            | none => simp [hconvert]
            | some column => simp [hconvert]

/-- Whatever the other members are, `fillTable` from scratch ends the same, and leaves the
columns of the description. -/
theorem endsWith_fillTable (columns : Columns γ) (tblType : TblType) (table : ClickTable) :
    ∃ r k, EndsWith tblType (fillTable columns table {}) r k ∧ ∀ unknown block,
      r = .ok (unknown, block) → block.columns = describedColumns columns tblType table := by
  obtain ⟨r, k, hends, hplaced⟩ :=
    endsWith_fillColumns columns tblType table.m_tbl.toList (false, {})
  exact ⟨r, k, hends, fun unknown block h => (hplaced _ h).2⟩

/-! ## Keeping the first block -/

/-- The two results are the same, but for the errors that were counted. -/
def EndsAs {α : Type} :
    EStateM.Result Fault (Click2DB γ) α → EStateM.Result Fault (Click2DB γ) α → Prop
  | .ok a db, .ok a' db' => a = a' ∧ Counts db db'
  | .error fault db, .error fault' db' => fault = fault' ∧ Counts db db'
  | _, _ => False

theorem endsAs_refl {α : Type} (r : EStateM.Result Fault (Click2DB γ) α) : EndsAs r r := by
  cases r with
  | ok a db => exact ⟨rfl, counts_refl db⟩
  | error fault db => exact ⟨rfl, counts_refl db⟩

/-- A call of `descibeTable` says whether the description is another one. -/
theorem descibeTable_ok {answer : Except String Description} {db db' : Click2DB γ} {changed : Bool}
    (h : descibeTable answer db = .ok changed db') :
    changed = decide (db'.m_tblType ≠ db.m_tblType) := by
  unfold descibeTable at h
  rw [EventStream.get_bind] at h
  cases hclient : db.m_pClickDB with
  | none =>
      rw [hclient] at h
      cases h
  | some client =>
      rw [hclient] at h
      cases answer with
      | error what => cases h
      | ok desc =>
          cases h
          rfl

theorem endsAs_checkBlock (block : Block γ) {db db' : Click2DB γ} (h : Counts db db') :
    EndsAs (checkBlock block db) (checkBlock block db') := by
  unfold checkBlock
  split
  · exact ⟨rfl, h⟩
  · split
    · exact ⟨rfl, h⟩
    · exact ⟨rfl, h⟩

/-- Filling the block again each time makes no difference. -/
theorem endsAs_makeBlock (columns : Columns γ) (answer : Except String Description)
    (table : ClickTable) (db : Click2DB γ) :
    EndsAs (makeBlock columns answer table db) (makeBlockRefilling columns answer table db) := by
  obtain ⟨r, k, hends, -⟩ := endsWith_fillTable columns db.m_tblType table
  have hfill := hends db rfl
  unfold makeBlock makeBlockRefilling
  cases r with
  | error fault =>
      rw [bind_of_error hfill, bind_of_error hfill]
      exact endsAs_refl _
  | ok filled =>
      obtain ⟨unknown, block⟩ := filled
      rw [bind_of_ok hfill, bind_of_ok hfill]
      cases unknown with
      | false => exact endsAs_refl _
      | true =>
          simp only [if_true, refillTable, bind_assoc]
          rcases bind_cases (descibeTable answer) (fun _ => pure ()) (db.count k) with
            ⟨fault, db₁, hdescribe, -⟩ | ⟨changed, db₁, hdescribe, -⟩
          · rw [bind_of_error hdescribe, bind_of_error hdescribe]
            exact endsAs_refl _
          · rw [bind_of_ok hdescribe, bind_of_ok hdescribe]
            cases changed with
            | true =>
                simp only [if_true, bind_assoc, pure_bind]
                exact endsAs_refl _
            | false =>
                -- the description is the one that the block was filled with
                have hchanged := descibeTable_ok hdescribe
                have hsame : db₁.m_tblType = db.m_tblType :=
                  of_not_not (of_decide_eq_false hchanged.symm)
                rw [bind_of_ok (hends db₁ hsame)]
                simp only [Bool.false_eq_true, if_false, pure_bind]
                exact endsAs_checkBlock block (counts_count k db₁)

theorem EndsAs.bind {α β : Type} {x y : DbM γ α} {f : α → DbM γ β} {db : Click2DB γ}
    (h : EndsAs (x db) (y db))
    (hf : ∀ (a : α) (s s' : Click2DB γ), Counts s s' → EndsAs (f a s) (f a s')) :
    EndsAs ((x >>= f) db) ((y >>= f) db) := by
  cases hx : x db with
  | error fault s =>
      cases hy : y db with
      | error fault' s' =>
          rw [hx, hy] at h
          rw [bind_of_error hx, bind_of_error hy]
          exact h
      | ok a s' => rw [hx, hy] at h; exact h.elim
  | ok a s =>
      cases hy : y db with
      | error fault' s' => rw [hx, hy] at h; exact h.elim
      | ok a' s' =>
          rw [hx, hy] at h
          obtain ⟨rfl, hcounts⟩ := h
          rw [bind_of_ok hx, bind_of_ok hy]
          exact hf a s s' hcounts

/-- The same block is inserted, and the same rows are counted. -/
theorem endsAs_sendTable (columns : Columns γ) (m_tableName : Bytes) (env : SendEnv) (file : Path)
    (table : ClickTable) (db : Click2DB γ) :
    EndsAs (sendTable columns m_tableName env file table db)
      (sendTableRefilling columns m_tableName env file table db) := by
  refine (endsAs_makeBlock columns env.description table db).bind fun block s s' h => ?_
  obtain ⟨n, rfl⟩ := h
  cases hinsert : env.insert with
  | error what => exact ⟨rfl, n, rfl⟩
  | ok u => exact ⟨rfl, n, rfl⟩

/-! ## What is sent -/

/-- The block is what `fillTable` makes from scratch under this description: the columns
that are described. -/
def FilledAt (columns : Columns γ) (table : ClickTable) (tblType : TblType) (block : Block γ) :
    Prop :=
  (∃ unknown k, EndsWith tblType (fillTable columns table {}) (.ok (unknown, block)) k) ∧
    block.columns = describedColumns columns tblType table

theorem filledAt_of_fillTable {columns : Columns γ} {table : ClickTable} {db db' : Click2DB γ}
    {unknown : Bool} {block : Block γ}
    (h : fillTable columns table {} db = .ok (unknown, block) db') :
    FilledAt columns table db.m_tblType block ∧ db'.m_tblType = db.m_tblType := by
  obtain ⟨r, k, hends, hplaced⟩ := endsWith_fillTable columns db.m_tblType table
  have hfill := hends db rfl
  rw [h] at hfill
  cases r with
  | error fault => cases hfill
  | ok filled =>
      cases hfill
      exact ⟨⟨⟨unknown, k, hends⟩, hplaced unknown block rfl⟩, rfl⟩

theorem checkBlock_ok {b block : Block γ} {db db' : Click2DB γ}
    (h : checkBlock b db = .ok block db') : b = block ∧ db = db' := by
  unfold checkBlock at h
  split at h
  · cases h
  · split at h
    · cases h
    · cases h
      exact ⟨rfl, rfl⟩

/-- A block that can be sent is the one of the description that is in force by then. -/
theorem filledAt_of_makeBlock {columns : Columns γ} {answer : Except String Description}
    {table : ClickTable} {db db' : Click2DB γ} {block : Block γ}
    (h : makeBlock columns answer table db = .ok block db') :
    FilledAt columns table db'.m_tblType block := by
  unfold makeBlock at h
  rcases bind_cases (fillTable columns table {}) _ db with
    ⟨fault, s, -, hbind⟩ | ⟨⟨unknown, first⟩, s, hfill, hbind⟩
  · rw [hbind] at h
    cases h
  · rw [hbind] at h
    obtain ⟨hfirst, htype⟩ := filledAt_of_fillTable hfill
    cases unknown with
    | false =>
        obtain ⟨rfl, rfl⟩ := checkBlock_ok h
        rwa [htype]
    | true =>
        simp only [if_true, refillTable, bind_assoc] at h
        rcases bind_cases (descibeTable answer) _ s with
          ⟨fault, s', -, hbind⟩ | ⟨changed, s', hdescribe, hbind⟩
        · rw [hbind] at h
          cases h
        · rw [hbind] at h
          cases changed with
          | false =>
              have hsame := of_not_not (of_decide_eq_false (descibeTable_ok hdescribe).symm)
              simp only [Bool.false_eq_true, if_false, pure_bind] at h
              obtain ⟨rfl, rfl⟩ := checkBlock_ok h
              rwa [hsame, htype]
          | true =>
              simp only [if_true, bind_assoc, pure_bind] at h
              rcases bind_cases (fillTable columns table {}) _ s' with
                ⟨fault, s₁, -, hbind⟩ | ⟨⟨unknown, second⟩, s₁, hfill, hbind⟩
              · rw [hbind] at h
                cases h
              · rw [hbind] at h
                obtain ⟨rfl, rfl⟩ := checkBlock_ok h
                obtain ⟨hsecond, htype'⟩ := filledAt_of_fillTable hfill
                rwa [htype']

theorem convert_eq_some {columns : Columns γ} {tblType : TblType} {col : Bytes × ClickColumn}
    {column : γ} : convert columns tblType col = some column ↔ ∃ typeName fresh,
      tblType[col.1]? = some typeName ∧ columns.CreateColumnByType typeName = .ok (some fresh) ∧
      columns.column2ClickColumn col.2 fresh = .ok column := by
  have hok : ∀ {α : Type} {r : Except Fault α} {a : α}, r.toOption = some a ↔ r = .ok a := by
    intro α r a
    cases r with
    | error fault => simp [Except.toOption]
    | ok b => simp [Except.toOption]
  simp [convert, Option.bind_eq_some_iff, Option.join_eq_some_iff, hok]

/-- A column is in the block when the table has it, the description declares it and its
conversion succeeds. -/
theorem mem_describedColumns {columns : Columns γ} {tblType : TblType} {table : ClickTable}
    {name : Bytes} {column : γ} :
    (name, column) ∈ describedColumns columns tblType table ↔ ∃ col typeName fresh,
      table.m_tbl[name]? = some col ∧ tblType[name]? = some typeName ∧
      columns.CreateColumnByType typeName = .ok (some fresh) ∧
      columns.column2ClickColumn col fresh = .ok column := by
  simp only [describedColumns, List.mem_filterMap, Option.map_eq_some_iff, convert_eq_some,
    Std.ExtTreeMap.mem_toList_iff_getElem?_eq_some, Prod.mk.injEq, Prod.exists]
  constructor
  · rintro ⟨_, col, hcol, _, ⟨typeName, fresh, htype, hcreate, hconvert⟩, rfl, rfl⟩
    exact ⟨col, typeName, fresh, hcol, htype, hcreate, hconvert⟩
  · rintro ⟨col, typeName, fresh, hcol, htype, hcreate, hconvert⟩
    exact ⟨name, col, hcol, column, ⟨typeName, fresh, htype, hcreate, hconvert⟩, rfl, rfl⟩

/-- The names of the block ascend. -/
theorem ascending_describedColumns (columns : Columns γ) (tblType : TblType) (table : ClickTable) :
    ((describedColumns columns tblType table).map Prod.fst).Pairwise
      fun a b => compare a b = .lt := by
  have hsub : ∀ cols : List (Bytes × ClickColumn),
      ((cols.filterMap fun col =>
        (convert columns tblType col).map (col.1, ·)).map Prod.fst).Sublist (cols.map Prod.fst) := by
    intro cols
    induction cols with
    | nil => simp
    | cons col cols ih =>
        cases hconvert : convert columns tblType col with
        | none => simpa [hconvert] using ih.cons col.1
        | some column => simpa [hconvert] using ih.cons_cons col.1
  have hkeys : (table.m_tbl.toList.map Prod.fst).Pairwise fun a b => compare a b = .lt := by
    rw [Std.ExtTreeMap.map_fst_toList_eq_keys]
    exact Std.ExtTreeMap.ordered_keys
  exact hkeys.sublist (hsub _)

/-- Before `Insert` nothing is inserted. -/
theorem inserts_of_asks {db db' : Click2DB γ} (h : Asks db db') : db'.inserts = db.inserts := by
  cases h with
  | silent n => rfl
  | refused n c hclient => rfl
  | answered n c tblType hclient => rfl

/-- There is no call of `Insert`, or one with the block that was made. -/
theorem inserts_sendTable (columns : Columns γ) (m_tableName : Bytes) (env : SendEnv)
    (file : Path) (table : ClickTable) (db : Click2DB γ) :
    let db' := after (sendTable columns m_tableName env file table) db
    db'.inserts = db.inserts ∨
    ∃ block s, makeBlock columns env.description table db = .ok block s ∧
      db'.inserts = ⟨s.m_pClickDB, m_tableName, block⟩ :: db.inserts ∧
      db'.m_tblType = s.m_tblType := by
  intro db'
  have hasks := asks_makeBlock columns env.description table db
  rcases bind_cases (makeBlock columns env.description table) _ db with
    ⟨fault, s, hmake, hrun⟩ | ⟨block, s, hmake, hrun⟩
  · rw [after_error hmake] at hasks
    refine .inl ?_
    show (after (sendTable columns m_tableName env file table) db).inserts = _
    rw [sendTable, after_error hrun]
    exact inserts_of_asks hasks
  · rw [after_ok hmake] at hasks
    refine .inr ⟨block, s, hmake, ?_⟩
    show (after (sendTable columns m_tableName env file table) db).inserts = _ ∧
      (after (sendTable columns m_tableName env file table) db).m_tblType = _
    rw [sendTable, after, hrun, ← inserts_of_asks hasks]
    cases hinsert : env.insert with
    | error what => exact ⟨rfl, rfl⟩
    | ok u => exact ⟨rfl, rfl⟩

/-- **The block matches the description.** `sendTable` calls `Insert` at most once. The call
names the table of the node, and its block is what `fillTable` makes from scratch under the
description at that moment, which is the one `sendTable` leaves: a column for each of the
table that the description declares and whose conversion succeeds, made for the declared
type, in the order of the names and each once, and no others. And the whole call ends as it
would if the block were filled again after each description. -/
theorem sendTable_block (columns : Columns γ) (m_tableName : Bytes) (env : SendEnv) (file : Path)
    (table : ClickTable) (db : Click2DB γ) :
    let db' := after (sendTable columns m_tableName env file table) db
    (∃ inserts, db'.inserts = inserts ++ db.inserts ∧ inserts.length ≤ 1 ∧
      ∀ insert ∈ inserts, insert.table_name = m_tableName ∧
        (∃ unknown k,
          EndsWith db'.m_tblType (fillTable columns table {}) (.ok (unknown, insert.block)) k) ∧
        (∀ name column, (name, column) ∈ insert.block.columns ↔ ∃ col typeName fresh,
          table.m_tbl[name]? = some col ∧ db'.m_tblType[name]? = some typeName ∧
          columns.CreateColumnByType typeName = .ok (some fresh) ∧
          columns.column2ClickColumn col fresh = .ok column) ∧
        (insert.block.columns.map Prod.fst).Pairwise fun a b => compare a b = .lt) ∧
    EndsAs (sendTable columns m_tableName env file table db)
      (sendTableRefilling columns m_tableName env file table db) := by
  intro db'
  refine ⟨?_, endsAs_sendTable columns m_tableName env file table db⟩
  rcases inserts_sendTable columns m_tableName env file table db with
    hnone | ⟨block, s, hmake, hinserts, htype⟩
  · exact ⟨[], hnone, Nat.zero_le 1, fun insert hmem => by cases hmem⟩
  · refine ⟨[_], hinserts, le_rfl, fun insert hmem => ?_⟩
    obtain rfl := List.mem_singleton.mp hmem
    obtain ⟨hscratch, hcolumns⟩ := filledAt_of_makeBlock hmake
    have htype' : db'.m_tblType = s.m_tblType := htype
    rw [htype']
    refine ⟨rfl, hscratch, fun name column => ?_, ?_⟩
    · show _ ∈ block.columns ↔ _
      rw [hcolumns]
      exact mem_describedColumns
    · show (block.columns.map Prod.fst).Pairwise _
      rw [hcolumns]
      exact ascending_describedColumns columns s.m_tblType table

/-- A client whose columns are the numbers of cells. -/
def sizeColumns : Columns Nat where
  CreateColumnByType _ := .ok (some 0)
  column2ClickColumn col n := .ok (n + col.size)
  Size n := n

/-- A table of one row with a column `a`. -/
def oneColumn : ClickTable where
  m_tbl := Std.ExtTreeMap.insert ∅ [97] ⟨[.int 1]⟩
  m_rowCount := 1

/-- The first description is empty, and the second declares the column: it is in the block
that is inserted. -/
theorem sendTable_block_described :
    ∃ insert, (after (sendTable sizeColumns [116] { description := .ok [([97], [73])] }
        ⟨"d", "a.cdb"⟩ oneColumn) { m_pClickDB := some 0 }).inserts = [insert] ∧
      insert.table_name = [116] ∧ ([97], 1) ∈ insert.block.columns := by
  obtain ⟨⟨inserts, hinserts, -, hblock⟩, -⟩ := sendTable_block sizeColumns [116]
    { description := .ok [([97], [73])] } ⟨"d", "a.cdb"⟩ oneColumn { m_pClickDB := some 0 }
  rw [List.append_nil] at hinserts
  obtain ⟨insert, hone⟩ : ∃ insert, inserts = [insert] := ⟨_, hinserts.symm⟩
  obtain ⟨hname, -, hmem, -⟩ := hblock insert (by rw [hone]; exact List.mem_singleton_self _)
  refine ⟨insert, by rw [hinserts, hone], hname, ?_⟩
  exact (hmem [97] 1).mpr ⟨⟨[.int 1]⟩, [73], 0, rfl, rfl, rfl, rfl⟩

end FlexEtl.Click2DB
