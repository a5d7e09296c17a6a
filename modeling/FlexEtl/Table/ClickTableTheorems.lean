/-
FlexEtl.Table.ClickTableTheorems — a table denotes its list of committed rows.

The abstract reading of a table is a list of `Row`s, total functions from
column names to values in which a column the row does not mention is null.
`rows` reads the table that way, and each client operation refines the
operation a list of rows has: a committed row is appended, a failed row
changes nothing, a flush empties the list.

The argument has one idea. Inside a row every column is either untouched or
cut to the row count and extended by the last value appended to it
(`getElem?_appendAll`). That needs no assumption on the table, because
`append` resizes before it writes; alignment (`Aligned`) is used only where a
row is finished.
-/
import FlexEtl.Table.ClickTable
import Mathlib.Data.List.Induction

namespace FlexEtl

/-! ## Resizing -/

@[simp] theorem length_resize (xs : List Value) (n : Nat) : (resize xs n).length = n := by
  simp [resize]; omega

theorem resize_length (xs : List Value) : resize xs xs.length = xs := by
  simp [resize]

theorem resize_append_resize (xs ys : List Value) (n : Nat) :
    resize (resize xs n ++ ys) n = resize xs n := by
  have hlen : (resize xs n).length = n := length_resize xs n
  rw [resize, List.take_left' hlen]
  simp [hlen]

@[simp] theorem resize_nil (n : Nat) : resize [] n = List.replicate n .null := by
  simp [resize]

/-! ## Columns -/

namespace ClickColumn

/-- Both branches of `append` write the value right after `n` cells. -/
theorem append_eq (col : ClickColumn) (n : Nat) (val : Value) :
    col.append n val = ⟨resize col.data n ++ [val]⟩ := by
  unfold append
  split
  · rfl
  · rename_i h
    have hn : col.data.length = n := by simpa [size] using h
    rw [← hn, resize_length]

/-- The branch of `revert` at zero is the general one. -/
theorem revert_eq (col : ClickColumn) (n : Nat) : col.revert n = ⟨resize col.data n⟩ := by
  unfold revert
  split
  · subst n; simp [resize]
  · rfl

theorem foldl_append_null : ∀ (k : Nat) (col : ClickColumn),
    (List.range' col.size k).foldl (fun c i => c.append i .null) col
      = ⟨col.data ++ List.replicate k .null⟩
  | 0, col => by simp
  | k + 1, col => by
      have hstep : col.append col.size .null = ⟨col.data ++ [.null]⟩ := by
        simp [append]
      have hsize : (⟨col.data ++ [.null]⟩ : ClickColumn).size = col.size + 1 := by
        simp [size]
      have ih := foldl_append_null k ⟨col.data ++ [.null]⟩
      rw [hsize] at ih
      rw [List.range'_succ, List.foldl_cons, hstep, ih]
      simp [List.replicate_succ]

/-- The padding loop appends the missing nulls. -/
theorem pad_eq (col : ClickColumn) (n : Nat) :
    col.pad n = ⟨col.data ++ List.replicate (n - col.size) .null⟩ :=
  foldl_append_null (n - col.size) col

/-- A column of `n` cells has one more after padding to `n + 1`. -/
theorem pad_succ {col : ClickColumn} {n : Nat} (h : col.size = n) :
    col.pad (n + 1) = ⟨col.data ++ [.null]⟩ := by
  rw [pad_eq, h, show n + 1 - n = 1 by omega]
  rfl

/-- Padding leaves a column alone that is long enough. -/
theorem pad_of_le {col : ClickColumn} {n : Nat} (h : n ≤ col.size) : col.pad n = col := by
  rw [pad_eq, Nat.sub_eq_zero_of_le h]
  simp

end ClickColumn

namespace ClickTable

/-! ## One row, before it is finished -/

/-- The value of the last append to `c` in a row, if there was one. -/
def lastAppended (c : Bytes) : Appends → Option Value
  | [] => none
  | (k, v) :: a => (lastAppended c a).or (if k = c then some v else none)

theorem lastAppended_isSome {c : Bytes} {a : Appends} :
    (lastAppended c a).isSome ↔ c ∈ a.map (·.1) := by
  induction a with
  | nil => simp [lastAppended]
  | cons kv a ih =>
      obtain ⟨k, v⟩ := kv
      by_cases hk : k = c
      · simp [lastAppended, hk]
      · have hk' : c ≠ k := fun h => hk h.symm
        simp [lastAppended, hk, hk', ih]

@[simp] theorem appendAll_nil (t : ClickTable) : t.appendAll [] = t := rfl

@[simp] theorem appendAll_cons (t : ClickTable) (kv : Bytes × Value) (a : Appends) :
    t.appendAll (kv :: a) = (t.append kv.1 kv.2).appendAll a := rfl

theorem appendAll_append (t : ClickTable) (a b : Appends) :
    t.appendAll (a ++ b) = (t.appendAll a).appendAll b := by
  simp [appendAll]

@[simp] theorem append_rowCount (t : ClickTable) (c : Bytes) (v : Value) :
    (t.append c v).m_rowCount = t.m_rowCount := rfl

@[simp] theorem appendAll_rowCount (t : ClickTable) (a : Appends) :
    (t.appendAll a).m_rowCount = t.m_rowCount := by
  induction a generalizing t with
  | nil => rfl
  | cons kv a ih => simp [ih]

/-- The cells of column `c` that a row started at row `n` keeps. -/
def kept (t : ClickTable) (c : Bytes) : List Value :=
  resize (t.m_tbl[c]?.getD {}).data t.m_rowCount

theorem getElem?_append (t : ClickTable) (k : Bytes) (v : Value) (c : Bytes) :
    (t.append k v).m_tbl[c]? =
      if k = c then some ⟨t.kept c ++ [v]⟩ else t.m_tbl[c]? := by
  by_cases h : k = c
  · subst h
    simp [append, ClickColumn.append_eq, kept]
  · have hc : compare k c ≠ .eq := by simpa using h
    simp [append, Std.ExtTreeMap.getElem?_alter, h]

theorem kept_append (t : ClickTable) (k : Bytes) (v : Value) (c : Bytes) :
    (t.append k v).kept c = t.kept c := by
  unfold kept
  rw [getElem?_append]
  split
  · simp [kept, resize_append_resize]
  · rfl

/-- A column inside a row: untouched, or cut to the row count and extended by
the last value appended to it. -/
theorem getElem?_appendAll (t : ClickTable) (a : Appends) (c : Bytes) :
    (t.appendAll a).m_tbl[c]? =
      match lastAppended c a with
      | some v => some ⟨t.kept c ++ [v]⟩
      | none => t.m_tbl[c]? := by
  induction a generalizing t with
  | nil => rfl
  | cons kv a ih =>
      obtain ⟨k, v⟩ := kv
      rw [appendAll_cons, ih, kept_append, getElem?_append]
      cases h : lastAppended c a with
      | some w => simp [lastAppended, h]
      | none => by_cases hk : k = c <;> simp [lastAppended, h, hk]

/-! ## Alignment -/

/-- Every column holds exactly `rowCount()` cells. -/
def Aligned (t : ClickTable) : Prop :=
  ∀ (c : Bytes) (col : ClickColumn), t.m_tbl[c]? = some col → col.size = t.rowCount

theorem Aligned.size_eq {t : ClickTable} (ht : t.Aligned) {c : Bytes} {col : ClickColumn}
    (h : t.m_tbl[c]? = some col) : col.size = t.m_rowCount := ht c col h

theorem aligned_empty : Aligned {} := by
  intro c col h
  simp at h

theorem kept_of_some {t : ClickTable} (ht : t.Aligned) {c : Bytes} {col : ClickColumn}
    (h : t.m_tbl[c]? = some col) : t.kept c = col.data := by
  have hsize : col.data.length = t.m_rowCount := ht.size_eq h
  simp [kept, h, ← hsize, resize_length]

theorem kept_of_none {t : ClickTable} {c : Bytes} (h : t.m_tbl[c]? = none) :
    t.kept c = List.replicate t.m_rowCount .null := by
  simp [kept, h]

theorem length_kept (t : ClickTable) (c : Bytes) : (t.kept c).length = t.m_rowCount := by
  simp [kept]

/-! ## Finishing a row -/

/-- The value a committed row gives column `c`. -/
def rowValue (a : Appends) (c : Bytes) : Value := (lastAppended c a).getD .null

@[simp] theorem row_rowCount_true (t : ClickTable) (a : Appends) :
    (t.row a true).m_rowCount = t.m_rowCount + 1 := by
  simp [row, finishAppend]

@[simp] theorem row_rowCount_false (t : ClickTable) (a : Appends) :
    (t.row a false).m_rowCount = t.m_rowCount := by
  simp [row, finishAppend]

/-- A committed row gives every column, old or new, exactly one more cell. -/
theorem getElem?_row_true {t : ClickTable} (ht : t.Aligned) (a : Appends) (c : Bytes) :
    (t.row a true).m_tbl[c]? =
      if t.m_tbl[c]?.isSome ∨ (lastAppended c a).isSome then
        some ⟨t.kept c ++ [rowValue a c]⟩
      else none := by
  simp only [row, finishAppend, if_true, Std.ExtTreeMap.getElem?_map, getElem?_appendAll,
    appendAll_rowCount, rowValue]
  cases hv : lastAppended c a with
  | some v =>
      have hsize : t.m_rowCount + 1 ≤ ClickColumn.size ⟨t.kept c ++ [v]⟩ := by
        simp [ClickColumn.size, length_kept]
      simp [ClickColumn.pad_of_le hsize]
  | none =>
      cases hc : t.m_tbl[c]? with
      | none => simp
      | some col => simp [ClickColumn.pad_succ (ht.size_eq hc), kept_of_some ht hc]

/-- A failed row gives back every column it found, and leaves the columns it
created filled with nulls. -/
theorem getElem?_row_false {t : ClickTable} (ht : t.Aligned) (a : Appends) (c : Bytes) :
    (t.row a false).m_tbl[c]? =
      if t.m_tbl[c]?.isSome ∨ (lastAppended c a).isSome then some ⟨t.kept c⟩ else none := by
  simp only [row, finishAppend, Bool.false_eq_true, if_false, Std.ExtTreeMap.getElem?_map,
    getElem?_appendAll, appendAll_rowCount]
  cases hv : lastAppended c a with
  | some v =>
      have hlen : (t.kept c).length = t.m_rowCount := length_kept t c
      simp [ClickColumn.revert_eq, resize, List.take_left' hlen, hlen]
  | none =>
      cases hc : t.m_tbl[c]? with
      | none => simp
      | some col =>
          have hsize : col.data.length = t.m_rowCount := ht.size_eq hc
          simp [ClickColumn.revert_eq, kept_of_some ht hc, ← hsize, resize_length]

theorem aligned_row {t : ClickTable} (ht : t.Aligned) (a : Appends) (ok : Bool) :
    (t.row a ok).Aligned := by
  intro c col h
  cases ok with
  | true =>
      rw [getElem?_row_true ht] at h
      split at h
      · cases h; simp [ClickColumn.size, length_kept, rowCount]
      · cases h
  | false =>
      rw [getElem?_row_false ht] at h
      split at h
      · cases h; simp [ClickColumn.size, length_kept, rowCount]
      · cases h

/-! ## Flushing -/

theorem getElem?_flushData (t : ClickTable) (c : Bytes) :
    t.flushData.m_tbl[c]? = t.m_tbl[c]?.map fun _ => {} := by
  simp [flushData, Std.ExtTreeMap.getElem?_map, ClickColumn.revert]

theorem aligned_flushData (t : ClickTable) : t.flushData.Aligned := by
  intro c col h
  rw [getElem?_flushData] at h
  cases hc : t.m_tbl[c]? with
  | none => simp [hc] at h
  | some old =>
      obtain rfl : ({} : ClickColumn) = col := by simpa [hc] using h
      rfl

theorem aligned_exec {t : ClickTable} (ht : t.Aligned) (op : Op) : (t.exec op).Aligned := by
  cases op with
  | row a ok => exact aligned_row ht a ok
  | flushData => exact aligned_flushData t
  | flushTbl => exact aligned_empty

theorem aligned_run {t : ClickTable} (ht : t.Aligned) (ops : List Op) :
    (t.run ops).Aligned := by
  induction ops generalizing t with
  | nil => exact ht
  | cons op ops ih => exact ih (aligned_exec ht op)

/-! ## The rows a table denotes -/

/-- A row of the abstract table: a column it does not mention is null. -/
abbrev Row := Bytes → Value

/-- The cell of row `i` in column `c`. -/
def cell (t : ClickTable) (i : Nat) : Row := fun c =>
  ((t.m_tbl[c]?.getD {}).data[i]?).getD .null

/-- The committed rows since the last flush, as the table holds them. -/
def rows (t : ClickTable) : List Row := (List.range t.rowCount).map t.cell

@[simp] theorem length_rows (t : ClickTable) : t.rows.length = t.rowCount := by
  simp [rows]

theorem cell_eq_kept {t : ClickTable} {i : Nat} (hi : i < t.m_rowCount) (c : Bytes)
    (ht : t.Aligned) : t.cell i c = ((t.kept c)[i]?).getD .null := by
  cases hc : t.m_tbl[c]? with
  | none => simp [cell, hc, kept_of_none hc, hi]
  | some col => simp [cell, hc, kept_of_some ht hc]

theorem cell_row_true {t : ClickTable} (ht : t.Aligned) (a : Appends) {i : Nat}
    (hi : i < t.m_rowCount) : (t.row a true).cell i = t.cell i := by
  funext c
  rw [cell_eq_kept hi c ht, cell, getElem?_row_true ht]
  split
  · have hk : i < (t.kept c).length := by rw [length_kept]; exact hi
    simp [List.getElem?_append_left hk]
  · rename_i h
    have hc : t.m_tbl[c]? = none := by
      simpa using fun hs => h (Or.inl hs)
    simp [kept_of_none hc, hi]

theorem cell_row_new {t : ClickTable} (ht : t.Aligned) (a : Appends) :
    (t.row a true).cell t.m_rowCount = rowValue a := by
  funext c
  rw [cell, getElem?_row_true ht]
  split
  · have hk : (t.kept c).length = t.m_rowCount := length_kept t c
    simp [← hk]
  · rename_i h
    have hv : lastAppended c a = none := by
      simpa using fun hs => h (Or.inr hs)
    simp [rowValue, hv]

theorem cell_row_false {t : ClickTable} (ht : t.Aligned) (a : Appends) {i : Nat}
    (hi : i < t.m_rowCount) : (t.row a false).cell i = t.cell i := by
  funext c
  rw [cell_eq_kept hi c ht, cell, getElem?_row_false ht]
  split
  · rfl
  · rename_i h
    have hc : t.m_tbl[c]? = none := by
      simpa using fun hs => h (Or.inl hs)
    simp [kept_of_none hc, hi]

/-- A committed row is appended to the abstract table. -/
theorem rows_row_true {t : ClickTable} (ht : t.Aligned) (a : Appends) :
    (t.row a true).rows = t.rows ++ [rowValue a] := by
  have hold : (List.range t.m_rowCount).map (t.row a true).cell
      = (List.range t.m_rowCount).map t.cell :=
    List.map_congr_left fun i hi => cell_row_true ht a (List.mem_range.mp hi)
  simp [rows, rowCount, List.range_succ, hold, cell_row_new ht]

/-- A failed row leaves the abstract table as it was. -/
theorem rows_row_false {t : ClickTable} (ht : t.Aligned) (a : Appends) :
    (t.row a false).rows = t.rows := by
  simp only [rows, rowCount, row_rowCount_false]
  exact List.map_congr_left fun i hi => cell_row_false ht a (List.mem_range.mp hi)

/-! ## Whole runs -/

/-- The rows committed since the last flush, read off the operations alone. -/
def committed : List Op → List Appends :=
  List.foldl (fun acc op =>
    match op with
    | .row a true => acc ++ [a]
    | .row _ false => acc
    | .flushData => []
    | .flushTbl => []) []

theorem committed_append_one (ops : List Op) (op : Op) :
    committed (ops ++ [op]) =
      match op with
      | .row a true => committed ops ++ [a]
      | .row _ false => committed ops
      | .flushData => []
      | .flushTbl => [] := by
  simp [committed]

theorem run_append_one (t : ClickTable) (ops : List Op) (op : Op) :
    t.run (ops ++ [op]) = (t.run ops).exec op := by
  simp [run]

/-- A run of the table refines the run of the list of committed rows. -/
theorem rows_run (ops : List Op) :
    (ClickTable.run {} ops).rows = (committed ops).map rowValue := by
  induction ops using List.reverseRecOn with
  | nil => rfl
  | append_singleton ops op ih =>
      have ht : (ClickTable.run {} ops).Aligned := aligned_run aligned_empty ops
      rw [run_append_one, committed_append_one]
      cases op with
      | row a ok =>
          cases ok with
          | true => simp [exec, rows_row_true ht, ih]
          | false => simp [exec, rows_row_false ht, ih]
      | flushData => rfl
      | flushTbl => rfl

/-- Every column a committed row wrote to is still there. -/
theorem isSome_of_committed (ops : List Op) {a : Appends} (ha : a ∈ committed ops) {c : Bytes}
    (hc : (lastAppended c a).isSome) : ((ClickTable.run {} ops).m_tbl[c]?).isSome := by
  induction ops using List.reverseRecOn with
  | nil => simp [committed] at ha
  | append_singleton ops op ih =>
      have ht : (ClickTable.run {} ops).Aligned := aligned_run aligned_empty ops
      rw [committed_append_one] at ha
      rw [run_append_one]
      cases op with
      | row b ok =>
          cases ok with
          | true =>
              rw [exec, getElem?_row_true ht]
              rcases List.mem_append.mp ha with ha | ha
              · simp [ih ha]
              · obtain rfl : a = b := by simpa using ha
                simp [hc]
          | false => simp [exec, getElem?_row_false ht, ih ha]
      | flushData => simp at ha
      | flushTbl => simp at ha

/-- A failed row changes no column that was there before it. -/
theorem getElem?_row_false_of_some {t : ClickTable} (ht : t.Aligned) (a : Appends) {c : Bytes}
    {col : ClickColumn} (hc : t.m_tbl[c]? = some col) :
    (t.row a false).m_tbl[c]? = some col := by
  rw [getElem?_row_false ht]
  simp [hc, kept_of_some ht hc]

/-- **Columnar table semantics.** After any client run from an empty table every
column holds `rowCount()` cells, one row of cells per committed row since the
last flush, and the cell of a row in a column is the last value the row
appended there, or null. No column a committed row wrote to is missing, and a
failed row coming next would change neither the row count nor any of these
columns. -/
theorem run_semantics (ops : List Op) :
    (ClickTable.run {} ops).Aligned ∧
    (ClickTable.run {} ops).rowCount = (committed ops).length ∧
    (∀ (i : Nat) (a : Appends), (committed ops)[i]? = some a →
      (∀ (c : Bytes) (col : ClickColumn), (ClickTable.run {} ops).m_tbl[c]? = some col →
        col.data[i]? = some ((lastAppended c a).getD .null)) ∧
      (∀ c ∈ a.map (·.1), ((ClickTable.run {} ops).m_tbl[c]?).isSome)) ∧
    (∀ a : Appends,
      ((ClickTable.run {} ops).row a false).rowCount = (ClickTable.run {} ops).rowCount ∧
      ∀ (c : Bytes) (col : ClickColumn), (ClickTable.run {} ops).m_tbl[c]? = some col →
        ((ClickTable.run {} ops).row a false).m_tbl[c]? = some col) := by
  have ht : (ClickTable.run {} ops).Aligned := aligned_run aligned_empty ops
  have hrows := rows_run ops
  have hcount : (ClickTable.run {} ops).rowCount = (committed ops).length := by
    simpa using congrArg List.length hrows
  refine ⟨ht, hcount, ?_, ?_⟩
  · intro i a ha
    refine ⟨fun c col hcol => ?_, fun c hc => ?_⟩
    · have hi : i < (ClickTable.run {} ops).m_rowCount := by
        have := (List.getElem?_eq_some_iff.mp ha).1
        rwa [← hcount] at this
      have hcell : (ClickTable.run {} ops).cell i = rowValue a := by
        have h := congrArg (·[i]?) hrows
        simpa [rows, ha, hi, rowCount] using h
      have hlt : i < col.data.length := by
        have := ht.size_eq hcol
        rw [ClickColumn.size] at this
        omega
      have := congrFun hcell c
      rw [cell, hcol] at this
      simpa [List.getElem?_eq_getElem hlt, rowValue] using this
    · exact isSome_of_committed ops (List.mem_of_getElem? ha) (lastAppended_isSome.mpr hc)
  · intro a
    exact ⟨row_rowCount_false _ a, fun c col hc => getElem?_row_false_of_some ht a hc⟩

/-- A late column is back-filled, a repeated key keeps its last value, and a
failed row leaves no cell behind. -/
example : (ClickTable.run {}
    [.row [([97], .bool true)] true,
     .row [([98], .int 1), ([97], .null)] false,
     .row [([98], .int 2), ([98], .int 3)] true]).m_tbl.toList
    = [([97], ⟨[.bool true, .null]⟩), ([98], ⟨[.null, .int 3]⟩)] := by decide

/-! ## The order of a row's appends -/

theorem lastAppended_of_nodup {a : Appends} (hkeys : (a.map (·.1)).Nodup) {c : Bytes} {v : Value} :
    lastAppended c a = some v ↔ (c, v) ∈ a := by
  induction a with
  | nil => simp [lastAppended]
  | cons kv a ih =>
      obtain ⟨k, w⟩ := kv
      rw [List.map_cons, List.nodup_cons] at hkeys
      obtain ⟨hfresh, hrest⟩ := hkeys
      rw [lastAppended, List.mem_cons]
      by_cases hk : k = c
      · subst hk
        have hnone : lastAppended k a = none := by
          rwa [← Option.not_isSome_iff_eq_none, lastAppended_isSome]
        have hnot : (k, v) ∉ a := fun h => hfresh (List.mem_map_of_mem (f := (·.1)) h)
        simp [hnone, hnot, eq_comm]
      · have hne : (c, v) ≠ (k, w) := fun h => hk (congrArg Prod.fst h).symm
        simp [hk, hne, ih hrest]

theorem lastAppended_perm {a b : Appends} (hkeys : (a.map (·.1)).Nodup) (hab : a.Perm b)
    (c : Bytes) : lastAppended c a = lastAppended c b := by
  have hkeys' : (b.map (·.1)).Nodup := (hab.map (·.1)).nodup_iff.mp hkeys
  apply Option.ext
  intro v
  rw [lastAppended_of_nodup hkeys, lastAppended_of_nodup hkeys', hab.mem_iff]

theorem ext_getElem? {t t' : ClickTable} (hcolumns : ∀ c : Bytes, t.m_tbl[c]? = t'.m_tbl[c]?)
    (hcount : t.m_rowCount = t'.m_rowCount) : t = t' := by
  cases t
  cases t'
  simp only at hcolumns hcount
  obtain rfl := Std.ExtTreeMap.ext_getElem? hcolumns
  obtain rfl := hcount
  rfl

/-- A row that appends once to each of its columns may do so in any order. -/
theorem row_perm (t : ClickTable) {a b : Appends} (hkeys : (a.map (·.1)).Nodup) (hab : a.Perm b)
    (ok : Bool) : t.row a ok = t.row b ok := by
  have heq : t.appendAll a = t.appendAll b := by
    refine ext_getElem? (fun c => ?_) (by simp)
    rw [getElem?_appendAll, getElem?_appendAll, lastAppended_perm hkeys hab]
  rw [row, row, heq]

/-! ## Rejected rows -/

/-- **Rolling back a row.** At a row boundary a rejected row leaves the table exactly as
it was if and only if it appended to columns only that the table already had. -/
theorem row_false_eq_iff {t : ClickTable} (ht : t.Aligned) (a : Appends) :
    t.row a false = t ↔ ∀ c ∈ a.map (·.1), (t.m_tbl[c]?).isSome := by
  constructor
  · intro heq c hc
    have hrow := getElem?_row_false ht a c
    rw [heq, if_pos (.inr (lastAppended_isSome.mpr hc))] at hrow
    rw [hrow]
    rfl
  · intro hold
    refine ext_getElem? (fun c => ?_) (row_rowCount_false t a)
    cases hc : t.m_tbl[c]? with
    | some col => exact getElem?_row_false_of_some ht a hc
    | none =>
        have hnot : ¬ ((t.m_tbl[c]?).isSome ∨ (lastAppended c a).isSome) := by
          rintro (hsome | hlast)
          · rw [hc] at hsome
            cases hsome
          · have hsome := hold c (lastAppended_isSome.mp hlast)
            rw [hc] at hsome
            cases hsome
        rw [getElem?_row_false ht, if_neg hnot]

/-- A rejected row that appended to the one column there is. -/
theorem row_false_eq_known :
    (ClickTable.run {} [.row [([97], .bool true)] true]).row
        [([97], .int 1), ([97], .null)] false =
      ClickTable.run {} [.row [([97], .bool true)] true] :=
  (row_false_eq_iff (aligned_run aligned_empty _) _).mpr (by decide)

/-- A rejected row that appended to a new column leaves the column behind: the next
`save` writes it, with a null for every row. -/
theorem row_false_new_column :
    ((ClickTable.run {} [.row [([97], .bool true)] true]).row [([98], .int 1)] false).m_tbl.toList =
        [([97], ⟨[.bool true]⟩), ([98], ⟨[.null]⟩)] ∧
      (ClickTable.run {} [.row [([97], .bool true)] true]).row [([98], .int 1)] false ≠
        ClickTable.run {} [.row [([97], .bool true)] true] := by
  have hcolumns : ((ClickTable.run {} [.row [([97], .bool true)] true]).row
      [([98], .int 1)] false).m_tbl.toList =
        [([97], ⟨[.bool true]⟩), ([98], ⟨[.null]⟩)] := by decide
  refine ⟨hcolumns, fun heq => ?_⟩
  have hold : (ClickTable.run {} [.row [([97], .bool true)] true]).m_tbl.toList =
      [([97], ⟨[.bool true]⟩)] := by decide
  rw [heq, hold] at hcolumns
  cases hcolumns

end ClickTable

end FlexEtl
