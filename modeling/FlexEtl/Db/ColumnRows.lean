/-
FlexEtl.Db.ColumnRows — what a converted column holds.

A column holds a list of values when it has one cell for each of them at
every level: under Nullable, so have the nested column and the flags; under
Array, the ends are the running sums of the element counts, and the items
are the cells of all the elements (`Cells`). A conversion leaves that, but
for Decimals under an Array: their rows are joined, and lose their cells
(`cells_iff_of_joined`).

The rows themselves are always there. So all columns of a block have as many
rows as the table, which is what the check of `AppendColumn` asks for
(`column2ClickColumn_rows_iff`).
-/
import FlexEtl.Db.ColumnTheorems
import FlexEtl.Db.SendTableTheorems
import FlexEtl.Table.ClickTableTheorems

namespace FlexEtl

/-! ## The values of a column -/

/-- The column holds one cell for each of the values, at every level. -/
def Cells : (t : ChType) → List Value → Column t → Prop
  | .leaf _, xs, cells => List.length (α := Cell) cells = xs.length
  | .array item, xs, col =>
      col.1 = Ragged.ends ((xs.map vectorOf).map List.length) ∧
        Cells item (xs.map vectorOf).flatten col.2
  | .nullable nested, xs, col => List.length (α := Bool) col.2 = xs.length ∧ Cells nested xs col.1
  | .tuple _, xs, _ => xs = []

/-- The scalars in the values, as deep as the type goes. -/
def scalarsOf : ChType → List Value → List Value
  | .leaf _, xs => xs
  | .array item, xs => scalarsOf item (xs.map vectorOf).flatten
  | .nullable nested, xs => scalarsOf nested xs
  | .tuple _, _ => []

/-- Decimals that stand under an Array. -/
def DecimalUnderArray : ChType → Prop
  | .leaf _ => False
  | .array item => HasDecimal item
  | .nullable nested => DecimalUnderArray nested
  | .tuple _ => False

/-! ## Joined rows -/

/-- Rows are as long as their values, unless they are Decimals. -/
theorem kept_rows {t : ChType} {rows : List (List Value)}
    (h : ¬ HasDecimal t ∨ scalarsOf t rows.flatten = []) :
    ∀ row ∈ rows, kept t row = row.length := by
  intro row hrow
  cases t with
  | leaf l =>
      rcases h with hdecimal | hnone
      · exact kept_of_not_hasDecimal hdecimal row
      · rw [List.flatten_eq_nil_iff.mp hnone row hrow]
        exact kept_nil (.leaf l)
  | _ => rfl

/-- The columns of joined rows hold one cell for each value, unless there are Decimals. -/
theorem cells_iff_of_joined {t : ChType} : ∀ {xs : List Value} {col : Column t},
    Joined t xs col → (Cells t xs col ↔ ¬ HasDecimal t ∨ scalarsOf t xs = []) := by
  induction t using ChType.inductOn with
  | leaf l =>
      intro xs col h
      constructor
      · intro hcells
        by_cases hdecimal : HasDecimal (.leaf l)
        · cases l with
          | decimal precision scale =>
              exact .inr (List.eq_nil_of_length_eq_zero (hcells.symm.trans h))
          | _ => exact hdecimal.elim
        · exact .inl hdecimal
      · intro hnone
        have hrow := @kept_rows (.leaf l) [xs] (by simpa using hnone)
        exact (size_of_joined h).trans (hrow xs (List.mem_singleton_self xs))
  | array item ih =>
      intro xs col h
      obtain ⟨hends, hitems⟩ := h
      constructor
      · intro hcells
        exact (ih hitems).mp hcells.2
      · intro hnone
        refine ⟨?_, (ih hitems).mpr hnone⟩
        rw [hends, List.map_congr_left (kept_rows hnone)]
  | nullable nested ih =>
      intro xs col h
      constructor
      · intro hcells
        exact (ih h.2).mp hcells.2
      · intro hnone
        exact ⟨h.1, (ih h.2).mpr hnone⟩
  | tuple items => exact fun h => ⟨fun _ => .inl id, fun _ => h⟩

/-! ## Conversions -/

theorem cells_iff_of_filled {t : ChType} : ∀ {xs : List Value} {col : Column t},
    HasRows t col xs.length → Filled t xs col →
      (Cells t xs col ↔ ¬ DecimalUnderArray t ∨ scalarsOf t xs = []) := by
  induction t using ChType.inductOn with
  | leaf l => exact fun hrows _ => ⟨fun _ => .inl id, fun _ => hrows⟩
  | array item _ =>
      intro xs col _ h
      have hitems := cells_iff_of_joined h.2
      exact ⟨fun hcells => hitems.mp hcells.2, fun hnone => ⟨h.1, hitems.mpr hnone⟩⟩
  | nullable nested ih =>
      intro xs col hrows h
      have hnested := ih hrows.2 h.2
      exact ⟨fun hcells => hnested.mp hcells.2, fun hnone => ⟨h.1, hnested.mpr hnone⟩⟩
  | tuple items => exact fun _ h => ⟨fun _ => .inl id, fun _ => h⟩

/-- What a conversion to a fresh column leaves. -/
theorem cells_iff_of_convert {libc : Libc} {t : ChType} {xs : List Value} {col : Column t}
    (h : column2ClickColumn libc t (.array xs) (Column.create t) = .ok col) :
    Cells t xs col ↔ ¬ DecimalUnderArray t ∨ scalarsOf t xs = [] := by
  obtain ⟨col', hcol', hrows, hfilled⟩ :=
    @convert_of_accepts libc t _ (Column.create t) (accepts_of_convert libc t h)
  rw [h] at hcol'
  cases hcol'
  have hn := hrows 0 (hasRows_create t)
  rw [Nat.zero_add] at hn
  exact cells_iff_of_filled hn (hfilled [] (filled_create t))

/-! ## Blocks -/

namespace Click2DB

open Outcome

variable {γ : Type}

/-- The columns of a block have `n` rows each, and the block knows it. -/
def HasHeight (Size : γ → Nat) (n : Nat) (block : Block γ) : Prop :=
  (∀ column ∈ block.columns, Size column.2 = n) ∧ (block.columns ≠ [] → block.rows = n)

/-- A column of the same height passes the check of `AppendColumn`. -/
theorem hasHeight_appendColumn {Size : γ → Nat} {n : Nat} {block : Block γ}
    (hblock : HasHeight Size n block) (name : Bytes) {column : γ} (hcolumn : Size column = n) :
    ∃ block', block.AppendColumn Size name column = .ok block' ∧ HasHeight Size n block' := by
  unfold Block.AppendColumn
  cases hempty : block.columns with
  | nil =>
      refine ⟨{ columns := [(name, column)], rows := Size column }, rfl, ?_, fun _ => hcolumn⟩
      simpa using hcolumn
  | cons first rest =>
      have hrows : block.rows = n := hblock.2 (by simp [hempty])
      refine ⟨{ block with columns := first :: rest ++ [(name, column)] }, ?_, ?_, fun _ => hrows⟩
      · simp [hcolumn, hrows]
      · intro column' hmem
        rcases List.mem_append.mp hmem with hold | hnew
        · exact hblock.1 column' (hempty ▸ hold)
        · obtain rfl : column' = (name, column) := by simpa using hnew
          exact hcolumn

/-- The converted column that the loop of `fillTable` appends for a column of the table. -/
def Converted (columns : Columns γ) (col : ClickColumn) (column : γ) : Prop :=
  ∃ typeName fresh, columns.CreateColumnByType typeName = .ok (some fresh) ∧
    columns.column2ClickColumn col fresh = .ok column

/-- One step of `fillTable`: the block stays, or a converted column is appended. -/
theorem fillColumn_ok {columns : Columns γ} {acc acc' : Bool × Block γ}
    {col : Bytes × ClickColumn} {db db' : Click2DB γ}
    (h : fillColumn columns acc col db = .ok acc' db') :
    acc'.2 = acc.2 ∨ ∃ column, Converted columns col.2 column ∧
      acc.2.AppendColumn columns.Size col.1 column = .ok acc'.2 := by
  unfold fillColumn at h
  rw [EventStream.get_bind] at h
  cases htype : db.m_tblType[col.1]? with
  | none =>
      rw [htype] at h
      cases h
      exact .inl rfl
  | some typeName =>
      rw [htype] at h
      dsimp only at h
      cases hcreate : columns.CreateColumnByType typeName with
      | error fault => rw [hcreate] at h; cases h
      | ok fresh =>
          rw [hcreate] at h
          cases fresh with
          | none => cases h; exact .inl rfl
          | some fresh =>
              dsimp only at h
              cases hconvert : columns.column2ClickColumn col.2 fresh with
              | error fault =>
                  rw [hconvert] at h
                  cases fault with
                  | thrown what => cases h; exact .inl rfl
                  | undefined what => cases h
                  | outOfFuel => cases h
              | ok column =>
                  rw [hconvert] at h
                  dsimp only at h
                  cases happ : acc.2.AppendColumn columns.Size col.1 column with
                  | error fault => rw [happ] at h; cases h
                  | ok block =>
                      rw [happ] at h
                      cases h
                      exact .inr ⟨column, ⟨typeName, fresh, hcreate, hconvert⟩, happ⟩

/-- While a block is filled from the table, `AppendColumn` refuses a converted column. -/
def RefusesColumn (columns : Columns γ) (table : ClickTable) : Prop :=
  ∃ filled col rest, table.m_tbl.toList = filled ++ col :: rest ∧
    ∃ db acc db', (filled.foldlM (fillColumn columns) (false, {})) db = .ok acc db' ∧
      ∃ column fault, Converted columns col.2 column ∧
        acc.2.AppendColumn columns.Size col.1 column = .error fault

/-- Where the converted columns have as many rows as the table, none is refused. -/
theorem not_refusesColumn {columns : Columns γ} {table : ClickTable}
    (hrows : ∀ col ∈ table.m_tbl.toList, ∀ column, Converted columns col.2 column →
      columns.Size column = table.rowCount) : ¬ RefusesColumn columns table := by
  rintro ⟨filled, col, rest, hsplit, db, acc, db', hfill, column, fault, hconv, hrefuse⟩
  have hacc : HasHeight columns.Size table.rowCount acc.2 := by
    refine foldlM_ok (P := fun acc => HasHeight columns.Size table.rowCount acc.2)
      (fun col hcol acc s acc' s' hacc hstep => ?_) ⟨by simp, by simp⟩ hfill
    rcases fillColumn_ok hstep with hsame | ⟨column, hconv, happ⟩
    · rw [hsame]
      exact hacc
    · have hmem : col ∈ table.m_tbl.toList := by
        rw [hsplit]
        exact List.mem_append_left _ hcol
      obtain ⟨block, hok, hheight⟩ :=
        hasHeight_appendColumn hacc col.1 (hrows col hmem column hconv)
      rw [hok] at happ
      cases happ
      exact hheight
  have hmem : col ∈ table.m_tbl.toList := by
    rw [hsplit]
    simp
  obtain ⟨block, hok, -⟩ := hasHeight_appendColumn hacc col.1 (hrows col hmem column hconv)
  rw [hok] at hrefuse
  cases hrefuse

/-- The bundled client converts a column to one of as many rows. -/
theorem size_of_converted {libc : Libc} {typeByName : Bytes → Except Fault (Option ChType)}
    {col : ClickColumn} {column : (t : ChType) × Column t}
    (h : Converted (clickColumns libc typeByName) col column) :
    (clickColumns libc typeByName).Size column = col.size := by
  obtain ⟨typeName, fresh, hcreate, hconvert⟩ := h
  exact size_convert (clickColumns_converted hcreate hconvert).2

end Click2DB

/-- **One cell a row, at every level.** A conversion of `n` values to a fresh column that
returns leaves `n` cells there, and cells of the same values at every level below, exactly
when no Decimal stands under an Array, or no element reaches it, or the values do not
convert. And while `sendTable` fills its block from a table at a row boundary, on any
description, `AppendColumn` refuses no column. -/
theorem column2ClickColumn_rows_iff (libc : Libc) :
    (∀ (t : ChType) (xs : List Value),
      (∀ col, column2ClickColumn libc t (.array xs) (Column.create t) = .ok col →
        Column.size t col = xs.length ∧ Cells t xs col) ↔
      ¬ DecimalUnderArray t ∨ scalarsOf t xs = [] ∨ ¬ Accepts t (.array xs)) ∧
    ∀ (typeByName : Bytes → Except Fault (Option ChType)) (table : ClickTable), table.Aligned →
      ¬ Click2DB.RefusesColumn (clickColumns libc typeByName) table := by
  constructor
  · intro t xs
    constructor
    · intro hrows
      by_cases hacc : Accepts t (.array xs)
      · obtain ⟨col, hcol, -⟩ := @convert_of_accepts libc t _ (Column.create t) hacc
        rcases (cells_iff_of_convert hcol).mp (hrows col hcol).2 with hdecimal | hscalars
        · exact .inl hdecimal
        · exact .inr (.inl hscalars)
      · exact .inr (.inr hacc)
    · intro hnone col hcol
      refine ⟨size_convert hcol, (cells_iff_of_convert hcol).mpr ?_⟩
      rcases hnone with hdecimal | hscalars | hnot
      · exact .inl hdecimal
      · exact .inr hscalars
      · exact absurd (accepts_of_convert libc t hcol) hnot
  · intro typeByName table haligned
    refine Click2DB.not_refusesColumn fun col hcol column hconv => ?_
    rw [Click2DB.size_of_converted hconv]
    exact haligned col.1 col.2 (Std.ExtTreeMap.mem_toList_iff_getElem?_eq_some.mp hcol)

/-- The values `[1,null]` and `[2]` in a column of type `Array(Nullable(Int32))`, and a
table of one row. -/
theorem column2ClickColumn_rows_nested :
    (∃ col : List Nat × Column (.nullable (.leaf .int32)),
      column2ClickColumn idleLibc (.array (.nullable (.leaf .int32)))
        (.array [.array [.int 1, .null], .array [.int 2]]) (Column.create _) = .ok col ∧
      col.1 = [2, 3]) ∧
    ¬ Click2DB.RefusesColumn (clickColumns idleLibc fun _ => .ok (some (.leaf .int32)))
      (ClickTable.run {} [.row [([97], .int 1)] true]) := by
  obtain ⟨hcells, hblock⟩ := column2ClickColumn_rows_iff idleLibc
  have hrun : column2ClickColumn idleLibc (.array (.nullable (.leaf .int32)))
      (.array [.array [.int 1, .null], .array [.int 2]]) (Column.create _) =
        .ok ([2, 3], ([.int 1, .int 0, .int 2], [false, true, false])) := rfl
  refine ⟨⟨_, hrun, ((hcells _ _).mpr (.inl id) _ hrun).2.1⟩, hblock _ _ ?_⟩
  exact ClickTable.aligned_run ClickTable.aligned_empty _

/-- Three flags, and no Decimal. -/
def unevenColumn : Column (.array (.nullable (.leaf (.decimal 9 2)))) :=
  (([2, 3] : List Nat), (([] : List Cell), [false, false, false]))

/-- The values `[1,2]` and `[3]` in a column of type `Array(Nullable(Decimal(9, 2)))`. -/
theorem decimals_not_joined :
    column2ClickColumn idleLibc (.array (.nullable (.leaf (.decimal 9 2))))
      (.array [.array [.uint 1, .uint 2], .array [.uint 3]]) (Column.create _) = .ok unevenColumn ∧
    ¬ Cells _ [.array [.uint 1, .uint 2], .array [.uint 3]] unevenColumn := by
  refine ⟨rfl, fun hcells => ?_⟩
  have hnested : (0 : Nat) = 3 := hcells.2.2
  cases hnested

end FlexEtl
