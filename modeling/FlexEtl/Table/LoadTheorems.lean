/-
FlexEtl.Table.LoadTheorems — how `load` ends, on every sequence of bytes.

`load` returns the table of a file image that its bytes begin with, or runs
into undefined behaviour where a length overruns the buffer, or throws and
leaves the table empty (`load_cases`), and there is no other way. From that
come the exact condition under which a loaded table is well formed
(`wellLoaded_iff`), and, as a saved table is a file image and faults do not
depend on what follows, that a cut file is never taken for a whole one
(`selfDelimiting_iff`).
-/
import FlexEtl.Table.FileImage
import Mathlib.Data.List.Nodup

namespace FlexEtl

open Decoder

/-! ## Three ways to end -/

theorem loadView_initial (bytes : Bytes) : loadView.Inv { rest := bytes } :=
  ⟨Buffer.sound_empty, show (0 : Int) ≤ intMax by decide⟩

/-- A file that begins with an image is loaded up to the end of the image. -/
theorem load_of_text {f : FileImage} (hf : f.Valid) {bytes rest : Bytes}
    (h : bytes = f.text ++ rest) (fileName : String) :
    ClickTable.load {} fileName (some bytes) = .returned f.table ∧
      ∃ s, loadBody bytes.length {} { rest := bytes } = .ok f.table s ∧ s.rest = rest := by
  obtain ⟨s, hrun, -, hrest, -⟩ := (describes_loadBody (le_refl bytes.length)).accepts
    (loadView_initial bytes) le_rfl h ⟨f, hf, rfl, rfl, rfl⟩
  exact ⟨load_of_ok fileName hrun, s, hrun, hrest⟩

/-- A file with a length that overruns the buffer is undefined behaviour. -/
theorem load_of_fault {bytes : Bytes} (h : fileItems.Fault bytes 0) (fileName : String) :
    ∃ what, ClickTable.load {} fileName (some bytes) = .undefined what := by
  obtain ⟨e, s, hrun, what, rfl⟩ := (describes_loadBody (le_refl bytes.length)).faults
    (loadView_initial bytes) le_rfl h
  exact ⟨what, by simp only [ClickTable.load, hrun]⟩

/-- There is no other way: in particular the bytes of the file are fuel enough. -/
theorem load_cases (bytes : Bytes) (fileName : String) :
    (∃ f rest, f.Valid ∧ bytes = FileImage.text f ++ rest ∧
      ClickTable.load {} fileName (some bytes) = .returned f.table) ∨
    fileItems.Fault bytes 0 ∨
    ∃ what, ClickTable.load {} fileName (some bytes) = .threw what {} := by
  have hdesc := describes_loadBody (le_refl bytes.length)
  cases hrun : loadBody bytes.length {} { rest := bytes } with
  | ok t s =>
      obtain ⟨_, _, ⟨f, hf, rfl, rfl, rfl⟩, htext⟩ := hdesc.ok (loadView_initial bytes) le_rfl hrun
      exact .inl ⟨f, s.rest, hf, htext, load_of_ok fileName hrun⟩
  | error e s =>
      rcases hdesc.error (loadView_initial bytes) le_rfl hrun with ⟨what, rfl⟩ | ⟨-, hfault⟩
      · refine .inr (.inr ⟨s!"Error at load '{fileName}': {what}", ?_⟩)
        simp only [ClickTable.load, hrun]
        rfl
      · exact .inr (.inl hfault)

/-! ## The table of a file -/

namespace FileImage

/-- The columns of a file by the names that reach the table. -/
def names (f : FileImage) : List Bytes := f.columns.map fun col => cstring col.name

/-- The cells that the columns of one name have together. -/
def cellsOf (cols : List ColumnImage) (c : Bytes) : List Value :=
  cols.flatMap fun col => if cstring col.name = c then col.cells.map Image.value else []

theorem cellsOf_append_one (cols : List ColumnImage) (col : ColumnImage) (c : Bytes) :
    cellsOf (cols ++ [col]) c =
      cellsOf cols c ++ if cstring col.name = c then col.cells.map Image.value else [] := by
  simp [cellsOf]

theorem cellsOf_eq_nil {cols : List ColumnImage} {c : Bytes}
    (h : c ∉ cols.map fun col => cstring col.name) : cellsOf cols c = [] := by
  refine List.flatMap_eq_nil_iff.mpr fun col hcol => if_neg ?_
  rintro rfl
  exact h (List.mem_map_of_mem (f := fun col => cstring col.name) hcol)

theorem getElem?_addColumns (cols : List ColumnImage) (c : Bytes) :
    (cols.foldl ClickTable.addColumn {}).m_tbl[c]? =
      if c ∈ cols.map (fun col => cstring col.name) then some ⟨cellsOf cols c⟩ else none := by
  induction cols using List.reverseRecOn with
  | nil => simp
  | append_singleton cols col ih =>
      rw [List.foldl_append, List.foldl_cons, List.foldl_nil, ClickTable.addColumn,
        Std.ExtTreeMap.getElem?_insert, cellsOf_append_one]
      by_cases hc : cstring col.name = c
      · subst hc
        have hold : ((cols.foldl ClickTable.addColumn {}).m_tbl[cstring col.name]?.getD {}).data =
            cellsOf cols (cstring col.name) := by
          rw [ih]
          split
          · rfl
          · rename_i hnew
            exact (cellsOf_eq_nil hnew).symm
        rw [if_pos (by simp), hold]
        simp
      · have hne : ¬ compare (cstring col.name) c = .eq := by simpa using hc
        have hmem : c ∈ (cols ++ [col]).map (fun col => cstring col.name) ↔
            c ∈ cols.map fun col => cstring col.name := by
          simp [show ¬ c = cstring col.name from fun h => hc h.symm]
        rw [if_neg hne, ih, if_neg hc, List.append_nil]
        simp only [hmem]

/-- Each column of the file adds as many cells as there are rows. -/
theorem length_cellsOf {cols : List ColumnImage} {rows : Nat}
    (h : ∀ col ∈ cols, col.cells.length = rows) (c : Bytes) :
    (cellsOf cols c).length = (cols.map fun col => cstring col.name).count c * rows := by
  induction cols with
  | nil => simp [cellsOf]
  | cons col cols ih =>
      obtain ⟨hcol, hcols⟩ := List.forall_mem_cons.mp h
      have hrest := ih hcols
      unfold cellsOf at hrest ⊢
      rw [List.flatMap_cons, List.length_append, hrest, List.map_cons, List.count_cons]
      by_cases hc : cstring col.name = c
      · rw [if_pos hc, List.length_map, hcol, if_pos (beq_iff_eq.mpr hc)]
        ring
      · rw [if_neg hc, if_neg (fun h => hc (beq_iff_eq.mp h))]
        simp

/-- The columns of the table hold its rows when no name comes twice, or there are none. -/
theorem aligned_table_iff {f : FileImage} (hf : f.Valid) (hrows : 0 ≤ f.rowCount) :
    f.table.Aligned ↔ f.rowCount = 0 ∨ f.names.Nodup := by
  obtain ⟨-, ⟨-, hmax⟩, -, hcolumns⟩ := hf
  have hcells : ∀ col ∈ f.columns, col.cells.length = f.rowCount.toNat :=
    fun col hcol => (hcolumns col hcol).2.2.1
  have hcount : f.table.rowCount = f.rowCount.toNat := toSizeT_of_nonneg hrows hmax
  have hsize : f.table.Aligned ↔
      ∀ c ∈ f.names, f.names.count c * f.rowCount.toNat = f.rowCount.toNat := by
    constructor
    · intro haligned c hc
      have hcol := haligned c ⟨cellsOf f.columns c⟩ ((getElem?_addColumns f.columns c).trans (if_pos hc))
      rw [hcount, ClickColumn.size, length_cellsOf hcells] at hcol
      exact hcol
    · intro h c col hcol
      have hcol' : (f.columns.foldl ClickTable.addColumn {}).m_tbl[c]? = some col := hcol
      rw [getElem?_addColumns] at hcol'
      split at hcol'
      · rename_i hc
        cases hcol'
        rw [hcount, ClickColumn.size, length_cellsOf hcells]
        exact h c hc
      · cases hcol'
  rw [hsize]
  constructor
  · intro h
    by_cases hzero : f.rowCount = 0
    · exact .inl hzero
    · refine .inr (List.nodup_iff_count_eq_one.mpr fun c hc => ?_)
      have hpos : 0 < f.rowCount.toNat := by omega
      exact Nat.eq_of_mul_eq_mul_right hpos ((h c hc).trans (Nat.one_mul _).symm)
  · rintro (hzero | hnodup) c hc
    · rw [hzero]
      rfl
    · rw [List.count_eq_one_of_mem hnodup hc, Nat.one_mul]

end FileImage

/-! ## Well-formed tables -/

/-- The row count in the header of a file. -/
def headerRowCount (bytes : Bytes) : Int := LittleEndian.toInt ((bytes.drop 12).take 4)

theorem headerRowCount_text {f : FileImage} (hf : f.Valid) (rest : Bytes) :
    headerRowCount (f.text ++ rest) = f.rowCount := by
  obtain ⟨-, ⟨hlow, hhigh⟩, -⟩ := hf
  have hfields : (f.text ++ rest).drop 12 = intBytes f.rowCount ++
      (f.columns.flatMap (columnItems f.rowCount).text ++ rest) := by
    have hlen : (intBytes KEY ++ (intBytes MASK ++ intBytes f.columnCount)).length = 12 := by
      simp [intBytes]
    have hsplit : f.text ++ rest = (intBytes KEY ++ (intBytes MASK ++ intBytes f.columnCount)) ++
        (intBytes f.rowCount ++ (f.columns.flatMap (columnItems f.rowCount).text ++ rest)) := by
      simp [FileImage.text, FileImage.body]
    rw [hsplit, List.drop_left' hlen]
  have hlen : (intBytes f.rowCount).length = 4 := LittleEndian.length_ofInt 4 _
  rw [headerRowCount, hfields, List.take_left' hlen, toInt_intBytes hlow hhigh]

/-- `load` throws and leaves the table empty, or it leaves one whose columns all hold as
many cells as the header has counted, which is not negative. -/
def WellLoaded (fileName : String) (bytes : Bytes) : Prop :=
  (∃ what, ClickTable.load {} fileName (some bytes) = .threw what {}) ∨
  ∃ t, ClickTable.load {} fileName (some bytes) = .returned t ∧ t.Aligned ∧
    (t.rowCount : Int) = headerRowCount bytes

/-- **Well-formed tables.** A file is loaded well exactly when no length in it overruns the
buffer and, should it begin with a whole file image, the row count of that is not negative
and is zero or no two of its names are the same to a `char *`. -/
theorem wellLoaded_iff (fileName : String) (bytes : Bytes) :
    WellLoaded fileName bytes ↔ ¬ fileItems.Fault bytes 0 ∧
      ∀ f rest, FileImage.Valid f → bytes = f.text ++ rest →
        0 ≤ f.rowCount ∧ (f.rowCount = 0 ∨ f.names.Nodup) := by
  have himage : ∀ f rest, FileImage.Valid f → bytes = f.text ++ rest →
      (WellLoaded fileName bytes ↔ 0 ≤ f.rowCount ∧ (f.rowCount = 0 ∨ f.names.Nodup)) := by
    intro f rest hf htext
    obtain ⟨hload, -⟩ := load_of_text hf htext fileName
    have hheader : headerRowCount bytes = f.rowCount := by rw [htext, headerRowCount_text hf]
    constructor
    · rintro (⟨what, hthrow⟩ | ⟨t, hreturn, haligned, hcount⟩)
      · rw [hload] at hthrow
        cases hthrow
      · rw [hload] at hreturn
        cases hreturn
        have hrows : 0 ≤ f.rowCount := by omega
        exact ⟨hrows, (FileImage.aligned_table_iff hf hrows).mp haligned⟩
    · rintro ⟨hrows, hnames⟩
      refine .inr ⟨f.table, hload, (FileImage.aligned_table_iff hf hrows).mpr hnames, ?_⟩
      have hcount : f.table.rowCount = f.rowCount.toNat := toSizeT_of_nonneg hrows hf.2.1.2
      omega
  constructor
  · intro hwell
    refine ⟨fun hfault => ?_, fun f rest hf htext => (himage f rest hf htext).mp hwell⟩
    obtain ⟨what, hload⟩ := load_of_fault hfault fileName
    rcases hwell with ⟨what', hthrow⟩ | ⟨t, hreturn, -⟩
    · rw [hload] at hthrow
      cases hthrow
    · rw [hload] at hreturn
      cases hreturn
  · rintro ⟨hnot, hshape⟩
    rcases load_cases bytes fileName with ⟨f, rest, hf, htext, -⟩ | hfault | hthrow
    · exact (himage f rest hf htext).mpr (hshape f rest hf htext)
    · exact absurd hfault hnot
    · exact .inl hthrow

/-- The row count of a returned table. -/
def LoadResult.rowCount? : LoadResult → Option Nat
  | .returned t => some t.rowCount
  | _ => none

/-- A file without columns that counts `-1` rows. -/
def negativeFile : Bytes := intBytes KEY ++ (intBytes MASK ++ (intBytes 0 ++ intBytes (-1)))

/-- A file of one row with two columns `a`, each holding a null. -/
def doubledFile : Bytes :=
  intBytes KEY ++ (intBytes MASK ++ (intBytes 2 ++ (intBytes 1 ++
    ((intBytes 1 ++ [97] ++ intBytes 0) ++ (intBytes 1 ++ [97] ++ intBytes 0)))))

/-- Both files are loaded: the first as a table of `2^64 - 1` rows, the second as one of a
row whose column has two cells. -/
theorem malformed_files :
    (ClickTable.load {} "t.cdb" (some negativeFile)).rowCount? = some (2 ^ 64 - 1) ∧
      ¬ WellLoaded "t.cdb" negativeFile ∧
      (ClickTable.load {} "t.cdb" (some doubledFile)).rowCount? = some 1 ∧
      (ClickTable.load {} "t.cdb" (some doubledFile)).columns = [([97], ⟨[.null, .null]⟩)] ∧
      ¬ WellLoaded "t.cdb" doubledFile := by
  have hnegative : (ClickTable.load {} "t.cdb" (some negativeFile)).rowCount? =
      some (2 ^ 64 - 1) := by decide +kernel
  have hheader : headerRowCount negativeFile = -1 := by decide +kernel
  have hrows : (ClickTable.load {} "t.cdb" (some doubledFile)).rowCount? = some 1 := by
    decide +kernel
  have hcolumns : (ClickTable.load {} "t.cdb" (some doubledFile)).columns =
      [([97], ⟨[.null, .null]⟩)] := by decide +kernel
  refine ⟨hnegative, ?_, hrows, hcolumns, ?_⟩
  · rintro (⟨what, hthrow⟩ | ⟨t, hreturn, -, hcount⟩)
    · rw [hthrow] at hnegative
      cases hnegative
    · rw [hheader] at hcount
      omega
  · rintro (⟨what, hthrow⟩ | ⟨t, hreturn, haligned, -⟩)
    · rw [hthrow] at hrows
      cases hrows
    · rw [hreturn] at hrows hcolumns
      have hcol : t.m_tbl[([97] : Bytes)]? = some ⟨[.null, .null]⟩ := by
        refine Std.ExtTreeMap.mem_toList_iff_getElem?_eq_some.mp ?_
        rw [show t.m_tbl.toList = [([97], ⟨[.null, .null]⟩)] from hcolumns]
        exact List.mem_singleton_self _
      have hsize := haligned _ _ hcol
      rw [Option.some.inj hrows] at hsize
      cases hsize

/-! ## Faults and what follows them -/

theorem Overruns.mono {room : Nat} {n : Int} {left left' : Nat} (h : Overruns room n left)
    (hle : left ≤ left') : Overruns room n left' := by
  unfold Overruns at h ⊢
  omega

/-- Faults of a kind of item do not depend on where the input ends. -/
def FaultsEarly {γ : Type} (S : Items UInt8 γ) : Prop :=
  ∀ inp mark more, S.Fault inp mark → S.Fault (inp ++ more) mark

theorem faultsEarly_chars : FaultsEarly charsItems := by
  rintro _ mark more ⟨n, hn, rest, rfl, hover⟩
  exact ⟨n, hn, rest ++ more, by simp, hover.mono (by simp)⟩

theorem faultsEarly_value : FaultsEarly valueItems := by
  rintro _ mark more ⟨pre, r, hstop, rest, rfl, hfault⟩
  exact ⟨pre, r, hstop, rest ++ more, by simp, faultsEarly_chars _ _ more hfault⟩

theorem FaultsEarly.list {γ : Type} {S : Items UInt8 γ} (hS : FaultsEarly S) (n : Nat) :
    FaultsEarly (S.list n) := by
  rintro _ mark more ⟨xs, hlen, hxs, rest, rfl, hfault⟩
  exact ⟨xs, hlen, hxs, rest ++ more, by simp, hS _ _ more hfault⟩

theorem faultsEarly_column (rowCount : Int) : FaultsEarly (columnItems rowCount) := by
  rintro _ mark more (hfault | ⟨name, hname, rest, rfl, hfault⟩)
  · exact .inl (faultsEarly_chars _ _ more hfault)
  · exact .inr ⟨name, hname, rest ++ more, by simp, faultsEarly_value.list _ _ _ more hfault⟩

theorem faultsEarly_file : FaultsEarly fileItems := by
  rintro _ mark more ⟨cc, rc, hcc, hrc, rest, rfl, hfault⟩
  exact ⟨cc, rc, hcc, hrc, rest ++ more, by simp,
    (faultsEarly_column rc).list _ _ _ more hfault⟩

/-! ## The image of a table -/

/-- The spelling that `storeValue` writes. -/
def Value.image : Value → Image
  | .null => .null
  | .str s => .str s
  | .int i => .int i.toUInt64
  | .uint u => .uint u
  | .double d => .double d
  | .bool b => .bool (if b then 1 else 0)
  | .array xs => .array xs.length (imageAll xs)
where
  imageAll : List Value → List Image
    | [] => []
    | x :: xs => x.image :: imageAll xs

theorem Value.imageAll_eq (xs : List Value) : Value.image.imageAll xs = xs.map Value.image := by
  induction xs with
  | nil => rfl
  | cons x xs ih => rw [Value.image.imageAll, ih, List.map_cons]

/-- A value whose lengths and counts fit in an `int`. -/
abbrev Value.Fits (v : Value) : Prop := v.Every (fun s => FitsInt s.length) FitsInt

theorem flatten_storeChars {s : Bytes} (h : FitsInt s.length) :
    (storeChars s).flatten = charsItems.text s := by
  simp [storeChars, toCInt_of_le h, toSizeT_natCast h, charsItems]

/-- `storeValue` writes the text of the image. -/
theorem text_image (v : Value) : v.Fits → v.image.text = (storeValue v).flatten := by
  induction v using Value.inductOn with
  | str s =>
      intro h
      rw [storeValue, List.flatten_cons, flatten_storeChars (Value.every_str.mp h)]
      rfl
  | array xs ih =>
      intro h
      obtain ⟨hlen, hxs⟩ := Value.every_array.mp h
      rw [storeValue, List.flatten_cons, List.flatten_cons, storeList_eq, toCInt_of_le hlen,
        Value.image, Image.text, Image.textAll_eq, Value.imageAll_eq, List.flatMap_map]
      congr 2
      exact List.flatMap_congr fun x hx => ih x hx (hxs x hx)
  | null => exact fun _ => rfl
  | int i => exact fun _ => rfl
  | uint u => exact fun _ => rfl
  | double d => exact fun _ => rfl
  | bool b => exact fun _ => by cases b <;> rfl

/-- A name or a string that is shorter than `INT_MAX`. -/
def ShortString (s : Bytes) : Prop := (s.length : Int) < intMax

/-- No string in the value is `INT_MAX` bytes long. -/
abbrev Value.Short (v : Value) : Prop := v.Every ShortString fun _ => True

theorem valid_image (v : Value) : v.Fits → (v.image.Valid ↔ v.Short) := by
  induction v using Value.inductOn with
  | str s => exact fun _ => Iff.rfl
  | array xs ih =>
      intro h
      obtain ⟨hlen, hxs⟩ := Value.every_array.mp h
      rw [Value.image, Image.Valid, Image.validAll_iff, Value.imageAll_eq, Value.Short,
        Value.every_array]
      have hcount : InInt xs.length ∧ (xs.map Value.image).length = (xs.length : Int).toNat :=
        ⟨⟨by omega, hlen⟩, by simp⟩
      simp only [hcount, true_and, List.forall_mem_map]
      exact forall₂_congr fun x hx => ih x hx (hxs x hx)
  | null => exact fun _ => Iff.rfl
  | int i => exact fun _ => Iff.rfl
  | uint u => exact fun _ => Iff.rfl
  | double d => exact fun _ => Iff.rfl
  | bool b => exact fun _ => Iff.rfl

/-! ### Strings that are too long -/

/-- Reading a list of items faults at the first one that is not valid, if that does. -/
theorem listFault_of_invalid {γ : Type} {S : Items UInt8 γ} {xs : List γ}
    (hbad : ∀ x ∈ xs, ¬ S.Valid x → ∀ rest mark, S.Fault (S.text x ++ rest) mark)
    (h : ∃ x ∈ xs, ¬ S.Valid x) (rest : Bytes) (mark : Nat) :
    (S.list xs.length).Fault (xs.flatMap S.text ++ rest) mark := by
  induction xs generalizing mark with
  | nil =>
      obtain ⟨x, hx, -⟩ := h
      cases hx
  | cons x xs ih =>
      by_cases hvalid : S.Valid x
      · have hrest : ∃ y ∈ xs, ¬ S.Valid y := by
          obtain ⟨y, hy, hnot⟩ := h
          rcases List.mem_cons.mp hy with rfl | hy
          · exact absurd hvalid hnot
          · exact ⟨y, hy, hnot⟩
        obtain ⟨ys, hlen, hys, rest', hsplit, hfault⟩ :=
          ih (fun y hy => hbad y (List.mem_cons_of_mem _ hy)) hrest (max mark (S.room x))
        refine ⟨x :: ys, by simpa using hlen, by simpa using ⟨hvalid, hys⟩, rest', ?_, ?_⟩
        · rw [List.flatMap_cons, List.append_assoc, hsplit, List.flatMap_cons, List.append_assoc]
        · rwa [Items.peak_cons, ← Nat.max_assoc]
      · refine ⟨[], by simp, by simp, S.text x ++ (xs.flatMap S.text ++ rest), by simp, ?_⟩
        rw [Items.peak_nil, Nat.max_zero]
        exact hbad x List.mem_cons_self hvalid _ mark

theorem charsFault_of_long {s : Bytes} (hfits : FitsInt s.length) (hlong : ¬ ShortString s)
    (rest : Bytes) (mark : Nat) : charsItems.Fault (charsItems.text s ++ rest) mark := by
  have hlen : (s.length : Int) = intMax := le_antisymm hfits (Int.not_lt.mp hlong)
  exact ⟨s.length, ⟨by omega, hfits⟩, s ++ rest, List.append_assoc _ _ _, .inl hlen⟩

theorem valueFault_of_invalid (v : Value) : v.Fits → ¬ v.image.Valid →
    ∀ rest mark, valueItems.Fault (v.image.text ++ rest) mark := by
  induction v using Value.inductOn with
  | str s =>
      intro h hnot rest mark
      refine value_faults.mpr (.inl ⟨_, List.append_assoc _ _ _, ?_⟩)
      exact charsFault_of_long (Value.every_str.mp h) hnot rest mark
  | array xs ih =>
      intro h hnot rest mark
      obtain ⟨hlen, hxs⟩ := Value.every_array.mp h
      have hcount : InInt xs.length := ⟨by omega, hlen⟩
      refine value_faults.mpr (.inr ⟨xs.length, hcount, (xs.map Value.image).flatMap Image.text ++ rest,
        ?_, ?_⟩)
      · rw [Value.image, Image.text, Image.textAll_eq, Value.imageAll_eq, List.append_assoc,
          List.append_assoc]
      · rw [Value.image, Image.Valid, Image.validAll_iff, Value.imageAll_eq] at hnot
        have hinvalid : ∃ x ∈ xs.map Value.image, ¬ x.Valid := by
          by_contra hall
          push Not at hall
          exact hnot ⟨⟨hcount, by simp⟩, hall⟩
        have hlist := @listFault_of_invalid _ valueItems (xs.map Value.image) ?_ hinvalid rest mark
        · rwa [List.length_map] at hlist
        · intro x hx hx'
          obtain ⟨y, hy, rfl⟩ := List.mem_map.mp hx
          exact ih y hy (hxs y hy) hx'
  | null => exact fun _ hnot => absurd trivial hnot
  | int i => exact fun _ hnot => absurd trivial hnot
  | uint u => exact fun _ hnot => absurd trivial hnot
  | double d => exact fun _ hnot => absurd trivial hnot
  | bool b => exact fun _ hnot => absurd trivial hnot

/-! ### Tables -/

/-- The spelling of a column. -/
def columnImage (e : Bytes × ClickColumn) : ColumnImage :=
  { name := e.1, cells := e.2.data.map Value.image }

namespace ClickTable

/-- The file that `save` writes. -/
def image (t : ClickTable) : FileImage where
  columnCount := t.m_tbl.size
  rowCount := t.m_rowCount
  columns := t.m_tbl.toList.map columnImage

/-- No column name and no string in a cell is `INT_MAX` bytes long. -/
def Short (t : ClickTable) : Prop :=
  ∀ (c : Bytes) (col : ClickColumn), t.m_tbl[c]? = some col →
    ShortString c ∧ ∀ v ∈ col.data, v.Short

theorem Fits.column {t : ClickTable} (hfits : t.Fits) {e : Bytes × ClickColumn}
    (he : e ∈ t.m_tbl.toList) : FitsInt e.1.length ∧ ∀ v ∈ e.2.data, v.Fits := by
  have hcol := Std.ExtTreeMap.mem_toList_iff_getElem?_eq_some.mp he
  exact ⟨hfits.names e.1 e.2 hcol, hfits.cells e.1 e.2 hcol⟩

/-- `save` writes the text of the image. -/
theorem text_tableImage {t : ClickTable} (hfits : t.Fits) : t.image.text = t.saved := by
  have hcolumns : t.image.columns.flatMap (columnItems t.image.rowCount).text =
      t.m_tbl.toList.flatMap fun entry => (storeColumn entry).flatten := by
    rw [image, List.flatMap_map]
    refine List.flatMap_congr fun e he => ?_
    obtain ⟨hname, hcells⟩ := hfits.column he
    have hdata : (e.2.data.map Value.image).flatMap Image.text =
        e.2.data.flatMap fun v => (storeValue v).flatten := by
      rw [List.flatMap_map]
      exact List.flatMap_congr fun v hv => text_image v (hcells v hv)
    rw [flatten_storeColumn, flatten_storeChars hname, ← hdata]
    rfl
  rw [saved_eq, toCInt_of_le hfits.columns, toCInt_of_le hfits.rows, FileImage.text, FileImage.body,
    hcolumns]
  rfl

theorem columnImage_valid {t : ClickTable} (ht : t.Aligned) (hfits : t.Fits)
    {e : Bytes × ClickColumn} (he : e ∈ t.m_tbl.toList) :
    (columnItems t.m_rowCount).Valid (columnImage e) ↔
      ShortString e.1 ∧ ∀ v ∈ e.2.data, v.Short := by
  have hsize : e.2.data.length = t.m_rowCount :=
    ht.size_eq (Std.ExtTreeMap.mem_toList_iff_getElem?_eq_some.mp he)
  have hlen : (e.2.data.map Value.image).length = (t.m_rowCount : Int).toNat := by simp [hsize]
  obtain ⟨-, hcells⟩ := hfits.column he
  constructor
  · rintro ⟨hname, -, -, himages⟩
    exact ⟨hname, fun v hv => (valid_image v (hcells v hv)).mp
      (himages _ (List.mem_map_of_mem hv))⟩
  · rintro ⟨hname, hshort⟩
    refine ⟨hname, Int.natCast_nonneg _, hlen, fun x hx => ?_⟩
    obtain ⟨v, hv, rfl⟩ := List.mem_map.mp hx
    exact (valid_image v (hcells v hv)).mpr (hshort v hv)

theorem columnFault_of_invalid {t : ClickTable} (ht : t.Aligned) (hfits : t.Fits)
    {e : Bytes × ClickColumn} (he : e ∈ t.m_tbl.toList)
    (hnot : ¬ (columnItems t.m_rowCount).Valid (columnImage e)) (rest : Bytes) (mark : Nat) :
    (columnItems t.m_rowCount).Fault
      ((columnItems t.m_rowCount).text (columnImage e) ++ rest) mark := by
  have hsize : e.2.data.length = t.m_rowCount :=
    ht.size_eq (Std.ExtTreeMap.mem_toList_iff_getElem?_eq_some.mp he)
  obtain ⟨hname, hcells⟩ := hfits.column he
  by_cases hshort : ShortString e.1
  · refine .inr ⟨e.1, hshort, (e.2.data.map Value.image).flatMap Image.text ++ rest,
      List.append_assoc _ _ _, ?_⟩
    have hinvalid : ∃ x ∈ e.2.data.map Value.image, ¬ x.Valid := by
      by_contra hall
      push Not at hall
      refine hnot ((columnImage_valid ht hfits he).mpr ⟨hshort, fun v hv => ?_⟩)
      exact (valid_image v (hcells v hv)).mp (hall _ (List.mem_map_of_mem hv))
    have hlist := @listFault_of_invalid _ valueItems (e.2.data.map Value.image) ?_ hinvalid rest
      (max mark (charsItems.room e.1))
    · rwa [List.length_map, hsize] at hlist
    · intro x hx hx'
      obtain ⟨v, hv, rfl⟩ := List.mem_map.mp hx
      exact valueFault_of_invalid v (hcells v hv) hx'
  · refine .inl ?_
    have hlong := charsFault_of_long hname hshort
      ((e.2.data.map Value.image).flatMap Image.text ++ rest) mark
    rwa [← List.append_assoc] at hlong

theorem image_counts {t : ClickTable} (hfits : t.Fits) :
    InInt t.image.columnCount ∧ InInt t.image.rowCount ∧
      t.image.columns.length = t.image.columnCount.toNat := by
  refine ⟨⟨?_, hfits.columns⟩, ⟨?_, hfits.rows⟩, ?_⟩
  · simp [image]
  · simp [image]
  · simp [image, Std.ExtTreeMap.length_toList]

/-- The image can be read when no name and no string is too long. -/
theorem image_valid {t : ClickTable} (ht : t.Aligned) (hfits : t.Fits) (hshort : t.Short) :
    t.image.Valid := by
  obtain ⟨hcolumns, hrows, hlen⟩ := image_counts hfits
  refine ⟨hcolumns, hrows, hlen, fun col hcol => ?_⟩
  obtain ⟨e, he, rfl⟩ := List.mem_map.mp hcol
  exact (columnImage_valid ht hfits he).mpr
    (hshort e.1 e.2 (Std.ExtTreeMap.mem_toList_iff_getElem?_eq_some.mp he))

/-- If one is too long, reading the file is undefined behaviour. -/
theorem fault_of_not_short {t : ClickTable} (ht : t.Aligned) (hfits : t.Fits)
    (hlong : ¬ t.Short) : fileItems.Fault t.saved 0 := by
  obtain ⟨hcolumns, hrows, hlen⟩ := image_counts hfits
  have hinvalid : ∃ col ∈ t.image.columns, ¬ (columnItems t.m_rowCount).Valid col := by
    by_contra hall
    push Not at hall
    refine hlong fun c col hcol => ?_
    have he := Std.ExtTreeMap.mem_toList_iff_getElem?_eq_some.mpr hcol
    exact (columnImage_valid ht hfits he).mp (hall _ (List.mem_map_of_mem he))
  have hlist := @listFault_of_invalid _ (columnItems t.m_rowCount) t.image.columns ?_ hinvalid [] 0
  · rw [hlen, List.append_nil] at hlist
    refine ⟨t.image.columnCount, t.m_rowCount, hcolumns, hrows, _, ?_, hlist⟩
    rw [← text_tableImage hfits]
    rfl
  · intro col hcol hnot
    obtain ⟨e, he, rfl⟩ := List.mem_map.mp hcol
    exact columnFault_of_invalid ht hfits he hnot

/-! ## Cut and extended files -/

/-- `load` throws on every file that is a part of the saved one from its beginning, and
stops at the end of the saved bytes whatever follows them. -/
def SelfDelimiting (t : ClickTable) (fileName : String) : Prop :=
  (∀ cut, cut <+: t.saved → cut ≠ t.saved →
    ∃ what, load {} fileName (some cut) = .threw what {}) ∧
  ∀ more, ∃ t', load {} fileName (some t.saved) = .returned t' ∧
    load {} fileName (some (t.saved ++ more)) = .returned t' ∧
    ∃ s, loadBody (t.saved ++ more).length {} { rest := t.saved ++ more } = .ok t' s ∧
      s.rest = more

/-- A part of a file that can be read whole is refused: it is no file itself, and no length
in it overruns the buffer. -/
theorem load_cut {f : FileImage} (hf : f.Valid) {cut : Bytes} (hcut : cut <+: f.text)
    (hne : cut ≠ f.text) (fileName : String) :
    ∃ what, load {} fileName (some cut) = .threw what {} := by
  obtain ⟨more, hmore⟩ := hcut
  obtain ⟨hload, s, hrun, hrest⟩ := load_of_text hf (List.append_nil f.text).symm fileName
  rcases load_cases cut fileName with ⟨f', rest, hf', htext, -⟩ | hfault | hthrow
  · -- both images would be read off the same bytes, and end at the same place
    obtain ⟨-, s', hrun', hrest'⟩ := load_of_text hf'
      (show f.text = f'.text ++ (rest ++ more) by rw [← hmore, htext, List.append_assoc]) fileName
    rw [hrun] at hrun'
    have hstate : s = s' := (EStateM.Result.ok.inj hrun').2
    rw [← hstate, hrest] at hrest'
    have hmore' : more = [] := (List.append_eq_nil_iff.mp hrest'.symm).2
    rw [hmore', List.append_nil] at hmore
    exact absurd hmore hne
  · have hfault' := faultsEarly_file cut 0 more hfault
    rw [hmore] at hfault'
    obtain ⟨what, hundef⟩ := load_of_fault hfault' fileName
    rw [hload] at hundef
    cases hundef
  · exact hthrow

/-- **Self-delimiting files.** For an aligned table whose lengths and counts fit in an `int`,
every cut of the saved file is refused, and nothing after it is read, exactly when no name
and no string is `INT_MAX` bytes long. -/
theorem selfDelimiting_iff {t : ClickTable} (ht : t.Aligned) (hfits : t.Fits) (fileName : String) :
    SelfDelimiting t fileName ↔ t.Short := by
  constructor
  · rintro ⟨-, hmore⟩
    by_contra hlong
    obtain ⟨t', hload, -⟩ := hmore []
    obtain ⟨what, hundef⟩ := load_of_fault (fault_of_not_short ht hfits hlong) fileName
    rw [hload] at hundef
    cases hundef
  · intro hshort
    have hf := image_valid ht hfits hshort
    have htext := text_tableImage hfits
    constructor
    · intro cut hcut hne
      rw [← htext] at hcut hne
      exact load_cut hf hcut hne fileName
    · intro more
      obtain ⟨hload, -⟩ := load_of_text hf
        (show t.saved = t.image.text ++ [] by rw [htext, List.append_nil]) fileName
      obtain ⟨hload', s, hrun, hrest⟩ := load_of_text hf
        (show t.saved ++ more = t.image.text ++ more by rw [htext]) fileName
      exact ⟨t.image.table, hload, hload', s, hrun, hrest⟩

/-- The file of a table with a string and an array. -/
theorem selfDelimiting_plainTable : SelfDelimiting plainTable "t.cdb" := by
  have haligned : plainTable.Aligned := aligned_run aligned_empty _
  refine (selfDelimiting_iff haligned fits_plainTable "t.cdb").mpr ?_
  unfold Short
  rw [forall_column_iff, toList_plainTable]
  simp [ShortString, intMax, Value.Every]

/-- A table without rows, with one column of that name. -/
def namedTable (name : Bytes) : ClickTable := { m_tbl := Std.ExtTreeMap.insert ∅ name {} }

theorem getElem?_namedTable {name c : Bytes} {col : ClickColumn}
    (h : (namedTable name).m_tbl[c]? = some col) : c = name ∧ col = {} := by
  rw [namedTable, Std.ExtTreeMap.getElem?_insert] at h
  split at h
  · rename_i hname
    have heq : name = c := by simpa using hname
    exact ⟨heq.symm, (Option.some.inj h).symm⟩
  · simp at h

/-- With a column name of `INT_MAX` bytes, the file is undefined behaviour. -/
theorem longName_not_selfDelimiting :
    (namedTable (List.replicate 2147483647 97)).Aligned ∧
      (namedTable (List.replicate 2147483647 97)).Fits ∧
      ¬ SelfDelimiting (namedTable (List.replicate 2147483647 97)) "t.cdb" := by
  have hlen : (List.replicate 2147483647 (97 : UInt8)).length = 2147483647 :=
    List.length_replicate
  generalize List.replicate 2147483647 (97 : UInt8) = name at hlen
  have haligned : (namedTable name).Aligned := by
    intro c col hcol
    obtain ⟨-, rfl⟩ := getElem?_namedTable hcol
    rfl
  have hfits : (namedTable name).Fits := by
    refine ⟨?_, ?_, fun c col hcol => ?_, fun c col hcol v hv => ?_⟩
    · simp [namedTable, FitsInt, intMax, Std.ExtTreeMap.size_insert]
    · simp [namedTable, FitsInt, intMax]
    · obtain ⟨rfl, -⟩ := getElem?_namedTable hcol
      simp [FitsInt, intMax, hlen]
    · obtain ⟨-, rfl⟩ := getElem?_namedTable hcol
      cases hv
  refine ⟨haligned, hfits, ?_⟩
  rintro ⟨-, hmore⟩
  have hlong : ¬ (namedTable name).Short := by
    intro hshort
    have hname := (hshort name {} (by simp [namedTable])).1
    simp [ShortString, intMax, hlen] at hname
  obtain ⟨t', hload, -⟩ := hmore []
  obtain ⟨what, hundef⟩ := load_of_fault (fault_of_not_short haligned hfits hlong) "t.cdb"
  rw [hload] at hundef
  cases hundef

end ClickTable

end FlexEtl
