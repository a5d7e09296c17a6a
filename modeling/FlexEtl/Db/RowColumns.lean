/-
FlexEtl.Db.RowColumns — columns that are made again by the name of their type.

For each row of an array `column2ClickColumn` makes a column by the name of the
item type, converts the element to it and appends it, if the names of the types
are the same. `column2ClickColumnByName` is that function, and the one of `Db.Column`
takes the item type itself. They agree on every type that a name is read as
(`column2ClickColumnByName_eq`), since the printed type converts like the type it
was printed from: the names and the codes of an enumeration have to belong to each
other one to one for this, as the map that is printed keeps one name for a code.
-/
import FlexEtl.Db.EnumCells
import FlexEtl.Db.TypeNameTheorems

namespace FlexEtl

open ExceptFold

/-! ## Enumerators that are kept -/

namespace EnumDef

/-- The text of the definition, with the enumerators in their order. -/
def declaration (d : EnumDef) : Bytes :=
  ascii (match d.width with | .enum8 => "Enum8" | .enum16 => "Enum16") ++ ascii "(" ++
    joinNames (d.items.map fun item => enumeratorName (item.2, item.1)) ++ ascii ")"

/-- The tokens of the definition. -/
theorem leaf_isNamed {d : EnumDef} (hne : d.items ≠ [])
    (hnames : ∀ item ∈ d.items, KeepsName item.1) :
    ∃ ts, d.leaf.IsNamed ts ∧ Spells ts d.declaration := by
  have henumerators : ∀ item ∈ d.items, ∃ ts, IsEnumerator item ts ∧
      Spells ts (enumeratorName (item.2, item.1)) := by
    intro item hitem
    have hfits := d.fits item hitem
    cases hwidth : d.width with
    | enum8 =>
        simp only [hwidth, EnumWidth.bits] at hfits
        exact spells_enumerator (hnames item hitem) (by omega) (by omega)
    | enum16 =>
        simp only [hwidth, EnumWidth.bits] at hfits
        exact spells_enumerator (hnames item hitem) (by omega) (by omega)
  obtain ⟨tss, htss, hspells⟩ := exists_forall₂ henumerators
  unfold leaf declaration
  cases d.width with
  | enum8 =>
      exact ⟨_, .enum8 hne htss, spells_call (by decide +kernel) (by decide +kernel) hspells⟩
  | enum16 =>
      exact ⟨_, .enum16 hne htss, spells_call (by decide +kernel) (by decide +kernel) hspells⟩

/-- A definition is read as it is exactly when its names are names for the parser: letters,
digits and underscores, without a digit in front. The empty name is one. -/
theorem typeByName_declaration_iff (d : EnumDef) (hne : d.items ≠ []) :
    typeByName d.declaration = .ok (some (.leaf d.leaf)) ↔
      ∀ item ∈ d.items, KeepsName item.1 := by
  constructor
  · intro h item hitem
    have hfrom := fromName_of_typeByName h
    unfold leaf at hfrom
    cases hwidth : d.width with
    | enum8 =>
        rw [hwidth] at hfrom
        exact (hfrom item hitem).1
    | enum16 =>
        rw [hwidth] at hfrom
        exact (hfrom item hitem).1
  · intro h
    obtain ⟨ts, hnamed, hspells⟩ := leaf_isNamed hne h
    exact typeByName_of_isNamed hspells.tokens_eq hnamed

/-- `Enum8('b' = 2, 'a' = 1)`. -/
def swappedEnum : EnumDef where
  width := .enum8
  items := [(ascii "b", 2), (ascii "a", 1)]
  fits := by decide

/-- `Enum16('a' = 1, 'b c' = 2)`. -/
def blankEnum : EnumDef where
  width := .enum16
  items := [(ascii "a", 1), (ascii "b c", 2)]
  fits := by decide

/-- Letters are kept, in the order in which they are written, and a blank is not. -/
theorem typeByName_swappedEnum :
    typeByName swappedEnum.declaration =
      .ok (some (.leaf (.enum8 [(ascii "b", 2), (ascii "a", 1)]))) ∧
    typeByName blankEnum.declaration ≠ .ok (some (.leaf blankEnum.leaf)) := by
  constructor
  · refine (swappedEnum.typeByName_declaration_iff (by simp [swappedEnum])).mpr fun item hitem => ?_
    rcases List.mem_pair.mp hitem with rfl | rfl
    · exact (by decide +kernel : KeepsName (ascii "b"))
    · exact (by decide +kernel : KeepsName (ascii "a"))
  · intro h
    have hnames := (blankEnum.typeByName_declaration_iff (by simp [blankEnum])).mp h
    have hblank : KeepsName (ascii "b c") := hnames (ascii "b c", 2) (by simp [blankEnum])
    exact absurd hblank (by decide +kernel)

end EnumDef

/-! ## Rows by name -/

/-- What `Append` takes over from a column of the same name. -/
def Column.recast : (t item : ChType) → Column t → Column item
  | .leaf _, .leaf _, cells => cells
  | .array t, .array item, col => (col.1, Column.recast t item col.2)
  | .nullable t, .nullable item, col => (Column.recast t item col.1, col.2)
  | _, item, _ => Column.create item

/-- `ColumnArray::AppendAsColumn` with its comparison of the type names. -/
def appendNamed (item t : ChType) (col : List Nat × Column item) (row : Column t) :
    Except Fault (List Nat × Column item) := do
  let name ← item.GetName
  let rowName ← t.GetName
  if name ≠ rowName then throw (.thrown "can't append column of type")
  else Column.appendAsColumn (Column.append item) col (some (Column.recast t item row))

/-- `column2ClickColumn`, whose rows are columns made by name. The fuel bounds the nesting. -/
def column2ClickColumnByName (libc : Libc) :
    Nat → (t : ChType) → Value → Column t → Except Fault (Column t)
  | 0, _, _, _ => .error .outOfFuel
  | _ + 1, .leaf l, inColumn, cells => column2ClickColumn libc (.leaf l) inColumn cells
  | fuel + 1, .array item, inColumn, col => do
      let columnName ← item.GetName
      let vec ← readVector inColumn
      vec.foldlM (fun (col : List Nat × Column item) el => do
        match ← typeByName columnName with
        | none => .error Column.nullColumn
        | some t =>
            let row ← column2ClickColumnByName libc fuel t el (Column.create t)
            appendNamed item t col row) col
  | fuel + 1, .nullable nested, inColumn, col => do
      let data ← column2ClickColumnByName libc fuel nested inColumn col.1
      let vec ← readVector inColumn
      pure (data, col.2 ++ vec.map Value.isNull)
  | _ + 1, .tuple _, _, _ => throw (.thrown "unsupported clickhouse type")

/-! ## The printed type converts alike -/

/-- Names and codes belong to each other one to one. -/
def OneToOne (items : List (Bytes × Int)) : Prop :=
  ∀ i ∈ items, ∀ j ∈ items, i.1 = j.1 ↔ i.2 = j.2

/-- A type whose cells do not change when it is printed. -/
def LeafType.SameCells : LeafType → Prop
  | .ipv4 => False
  | .enum8 items | .enum16 items => OneToOne items
  | _ => True

theorem mem_printedItems_of_oneToOne {items : List (Bytes × Int)} (h : OneToOne items)
    {name : Bytes} {code : Int} : (name, code) ∈ printedItems items ↔ (name, code) ∈ items := by
  constructor
  · exact mem_of_mem_printedItems
  · intro hmem
    have hcode : code ∈ valueToName items := by
      rw [valueToName_eq_ofList, Std.ExtTreeMap.mem_ofList]
      simpa using ⟨name, hmem⟩
    obtain ⟨other, hother⟩ := Option.isSome_iff_exists.mp
      (Std.ExtTreeMap.isSome_getElem?_iff_mem.mpr hcode)
    have hsame : name = other :=
      (h _ hmem _ (mem_of_valueToName hother)).mpr rfl
    exact mem_printedItems.mpr (hsame ▸ hother)

/-- The code of a name, where the names tell the enumerators apart. -/
theorem enumValue?_eq_some {items : List (Bytes × Int)} (h : OneToOne items) {name : Bytes}
    {code : Int} : enumValue? items name = some code ↔ (name, code) ∈ items := by
  have hfound : ∀ {n : Int}, enumValue? items name = some n → (name, n) ∈ items := by
    intro n hn
    obtain ⟨item, hfind, rfl⟩ := Option.map_eq_some_iff.mp hn
    have hname : item.1 = name := by simpa using List.find?_some hfind
    have hmem := List.mem_reverse.mp (List.mem_of_find?_eq_some hfind)
    rwa [← hname]
  constructor
  · exact hfound
  · intro hmem
    cases hvalue : enumValue? items name with
    | none =>
        have hnone := List.find?_eq_none.mp (Option.map_eq_none_iff.mp hvalue)
        exact absurd (beq_self_eq_true name) (hnone _ (List.mem_reverse.mpr hmem))
    | some n =>
        have hsame : n = code := (h _ (hfound hvalue) _ hmem).mp rfl
        rw [hsame]

theorem oneToOne_printedItems {items : List (Bytes × Int)} (h : OneToOne items) :
    OneToOne (printedItems items) := by
  intro i hi j hj
  exact h i (mem_of_mem_printedItems hi) j (mem_of_mem_printedItems hj)

theorem enumValue?_printedItems {items : List (Bytes × Int)} (h : OneToOne items)
    (name : Bytes) : enumValue? (printedItems items) name = enumValue? items name := by
  ext code
  rw [enumValue?_eq_some (oneToOne_printedItems h), enumValue?_eq_some h,
    mem_printedItems_of_oneToOne h]

theorem enumCell_printedItems {items : List (Bytes × Int)} (h : OneToOne items) (libc : Libc)
    (what : String) (wrap : Int → Int) (el : Value) :
    enumCell libc what wrap (printedItems items) el = enumCell libc what wrap items el := by
  unfold enumCell
  rw [enumValue?_printedItems h]

theorem appendCell_printed {l : LeafType} (h : l.SameCells) (libc : Libc) (el : Value) :
    appendCell libc l.printed el = appendCell libc l el := by
  cases l with
  | ipv4 => exact h.elim
  | enum8 items => simp only [LeafType.printed, appendCell, enumCell_printedItems h]
  | enum16 items => simp only [LeafType.printed, appendCell, enumCell_printedItems h]
  | decimal precision scale =>
      have hcell : ∀ n, decimalCell (printedPrecision precision) n = decimalCell precision n := by
        intro n
        unfold decimalCell printedPrecision
        split_ifs <;> first | rfl | omega
      simp only [LeafType.printed, appendCell, hcell]
  | _ => rfl

namespace Column

@[simp] theorem recast_leaf {l m : LeafType} (cells : Column (.leaf l)) :
    recast (.leaf l) (.leaf m) cells = cells := rfl

@[simp] theorem recast_array {t item : ChType} (col : Column (.array t)) :
    recast (.array t) (.array item) col = (col.1, recast t item col.2) := rfl

@[simp] theorem recast_nullable {t item : ChType} (col : Column (.nullable t)) :
    recast (.nullable t) (.nullable item) col = (recast t item col.1, col.2) := rfl

/-- A column of the printed type as one of the type. -/
abbrev unprint (t : ChType) : Column t.printed → Column t := recast t.printed t

theorem size_unprint (t : ChType) (col : Column t.printed) :
    size t (unprint t col) = size t.printed col := by
  cases t <;> rfl

theorem unprint_create (t : ChType) : unprint t (create t.printed) = create t := by
  induction t using ChType.inductOn with
  | leaf l => rfl
  | array item ih => exact congrArg (Prod.mk []) ih
  | nullable nested ih => exact congrArg (fun col => (col, ([] : List Bool))) ih
  | tuple items => rfl

theorem makeNullable_unprint (nested : ChType) (col : Option (Column nested.printed))
    (nulls : List Bool) :
    (makeNullable nested.printed col nulls).map (Option.map (unprint (.nullable nested))) =
      makeNullable nested (col.map (unprint nested)) nulls := by
  cases col with
  | none => rfl
  | some col =>
      simp only [makeNullable, Option.map_some, size_unprint]
      split_ifs <;> rfl

theorem slice_unprint (t : ChType) (col : Column t.printed) (start len : Nat) :
    (slice t.printed col start len).map (Option.map (unprint t)) =
      slice t (unprint t col) start len := by
  induction t using ChType.inductOn with
  | leaf l => rfl
  | array item _ => rfl
  | nullable nested ih =>
      obtain ⟨data, nulls⟩ := (col : Column nested.printed × List Bool)
      show (slice nested.printed data start len >>= _).map _ =
        (slice nested (unprint nested data) start len >>= _)
      rw [← ih data]
      cases slice nested.printed data start len with
      | error fault => rfl
      | ok s => exact makeNullable_unprint nested s ((nulls.drop start).take len)
  | tuple items => rfl

theorem getAsColumn_unprint (item : ChType) (col : Column (ChType.array item).printed) (n : Nat) :
    (@getAsColumn item.printed col n).map (Option.map (unprint item)) =
      @getAsColumn item (unprint (.array item) col) n :=
  slice_unprint item col.2 _ _

theorem appendCells_printed (l : LeafType) : appendCells l.printed = appendCells l := by
  cases l <;> rfl

/-- The way in which `append` is carried along. -/
def AppendsAlike (t : ChType) : Prop := ∀ col other : Column t.printed,
  (append t.printed col other).map (unprint t) = append t (unprint t col) (unprint t other)

theorem appendAsColumn_unprint {item : ChType} (hitem : AppendsAlike item)
    (col : Column (ChType.array item).printed) (row : Option (Column item.printed)) :
    (appendAsColumn (append item.printed) col row).map (unprint (.array item)) =
      appendAsColumn (append item) (unprint (.array item) col) (row.map (unprint item)) := by
  obtain ⟨ends, data⟩ := (col : List Nat × Column item.printed)
  cases row with
  | none => rfl
  | some row =>
      show (append item.printed data row >>= _).map _ =
        (append item (unprint item data) (unprint item row) >>= _)
      rw [← hitem data row, size_unprint]
      cases append item.printed data row <;> rfl

theorem append_unprint (t : ChType) : AppendsAlike t := by
  induction t using ChType.inductOn with
  | leaf l =>
      intro col other
      exact congrArg (fun join => Except.ok (join col other)) (appendCells_printed l)
  | array item ih =>
      intro col other
      refine map_foldlM (fun col i => ?_) (List.range _) col
      rw [← getAsColumn_unprint]
      cases @getAsColumn item.printed other i with
      | error fault => rfl
      | ok row => exact appendAsColumn_unprint ih col row
  | nullable nested ih =>
      intro col other
      obtain ⟨data, nulls⟩ := (col : Column nested.printed × List Bool)
      obtain ⟨otherData, otherNulls⟩ := (other : Column nested.printed × List Bool)
      show (append nested.printed data otherData >>= _).map _ =
        (append nested (unprint nested data) (unprint nested otherData) >>= _)
      rw [← ih data otherData]
      cases append nested.printed data otherData <;> rfl
  | tuple items => intro col other; rfl

end Column

/-- The elements get the same cells in a column of the printed type. -/
theorem column2ClickColumn_printed (libc : Libc) {t : ChType}
    (h : t.All LeafType.SameCells AnyItems) (inColumn : Value) (col : Column t.printed) :
    (column2ClickColumn libc t.printed inColumn col).map (Column.unprint t) =
      column2ClickColumn libc t inColumn (Column.unprint t col) := by
  induction t using ChType.inductOn generalizing inColumn with
  | leaf l =>
      have hcell := appendCell_printed h libc
      simp only [ChType.printed, column2ClickColumn, hcell]
      cases readVector inColumn with
      | error fault => rfl
      | ok vec =>
          refine map_foldlM (fun cells el => ?_) vec col
          cases appendCell libc l el <;> rfl
  | array item ih =>
      cases hvec : readVector inColumn with
      | error fault => simp only [ChType.printed, column2ClickColumn, hvec]; rfl
      | ok vec =>
          simp only [ChType.printed, column2ClickColumn, hvec]
          refine map_foldlM (fun col el => ?_) vec col
          have hrow := ih h el (Column.create item.printed)
          rw [Column.unprint_create] at hrow
          rw [← hrow]
          cases column2ClickColumn libc item.printed el (Column.create item.printed) with
          | error fault => rfl
          | ok row =>
              exact Column.appendAsColumn_unprint (Column.append_unprint item) col (some row)
  | nullable nested ih =>
      obtain ⟨data, nulls⟩ := (col : Column nested.printed × List Bool)
      have hdata := ih h inColumn data
      show (column2ClickColumn libc nested.printed inColumn data >>= _).map _ =
        (column2ClickColumn libc nested inColumn (Column.unprint nested data) >>= _)
      rw [← hdata]
      cases column2ClickColumn libc nested.printed inColumn data with
      | error fault => rfl
      | ok data =>
          show (readVector inColumn >>= _).map _ = (readVector inColumn >>= _)
          cases readVector inColumn <;> rfl
  | tuple items => rfl

/-! ## By name or by type -/

/-- What the server promises of a type, beside what the parser makes of its name: sizes of less
than 64 bits, enumerators with one code for each name, and no empty lists. -/
def LeafType.Declared (l : LeafType) : Prop :=
  l.Fits ∧ match l with
    | .enum8 items | .enum16 items => OneToOne items
    | _ => True

/-- Types that can be read back, and that convert alike when they are printed. -/
def LeafType.ReadBack (l : LeafType) : Prop := l.Readable ∧ l.SameCells

theorem LeafType.readBack_of_declared {l : LeafType} (hfrom : l.FromName) (h : l.Declared) :
    l.ReadBack := by
  refine ⟨LeafType.readable_of_fits hfrom h.1, ?_⟩
  cases l with
  | ipv4 => exact hfrom
  | enum8 items => exact h.2
  | enum16 items => exact h.2
  | _ => trivial

theorem LeafType.readBack_printed {l : LeafType} (h : l.ReadBack) : l.printed.ReadBack := by
  have hitems : ∀ {items : List (Bytes × Int)}, ReadableItems items →
      ReadableItems (printedItems items) := by
    intro items hitems
    exact ⟨printedItems_ne_nil hitems.1,
      fun item hitem => hitems.2 item (mem_of_mem_printedItems hitem)⟩
  obtain ⟨hreadable, hcells⟩ := h
  cases l with
  | ipv4 => exact hcells.elim
  | ipv6 => exact ⟨show 16 < 2 ^ 63 by decide, trivial⟩
  | enum8 items => exact ⟨hitems hreadable, oneToOne_printedItems hcells⟩
  | enum16 items => exact ⟨hitems hreadable, oneToOne_printedItems hcells⟩
  | _ => exact ⟨hreadable, hcells⟩

/-- How deep arrays and Nullable are nested. -/
def ChType.depth : ChType → Nat
  | .leaf _ | .tuple _ => 0
  | .array item => item.depth + 1
  | .nullable nested => nested.depth + 1

theorem ChType.depth_printed (t : ChType) : t.printed.depth = t.depth := by
  induction t using ChType.inductOn with
  | leaf l => rfl
  | array item ih => exact congrArg (· + 1) ih
  | nullable nested ih => exact congrArg (· + 1) ih
  | tuple items => rfl

mutual

/-- The types that are read back from the names are of the same kind. -/
theorem ChType.readBack_printed : ∀ {t : ChType}, t.All LeafType.ReadBack (· ≠ []) →
    t.printed.All LeafType.ReadBack (· ≠ [])
  | .leaf _, h => LeafType.readBack_printed h
  | .array item, h => ChType.readBack_printed (t := item) h
  | .nullable nested, h => ChType.readBack_printed (t := nested) h
  | .tuple items, h => by
      refine ⟨?_, allItems_printedAll h.2⟩
      cases items with
      | nil => exact h.1
      | cons item items => simp [printedAll]

theorem allItems_printedAll : ∀ {items : List ChType},
    AllItems LeafType.ReadBack (· ≠ []) items →
    AllItems LeafType.ReadBack (· ≠ []) (printedAll items)
  | [], _ => trivial
  | _ :: _, h => ⟨ChType.readBack_printed h.1, allItems_printedAll h.2⟩

end

theorem ChType.readable_of_readBack {t : ChType} (h : t.All LeafType.ReadBack (· ≠ [])) :
    t.Readable :=
  h.and_imp (fun _ hl _ => hl.1) (fun _ hne _ => hne) h

theorem ChType.sameCells_of_readBack {t : ChType} (h : t.All LeafType.ReadBack (· ≠ [])) :
    t.All LeafType.SameCells AnyItems :=
  h.and_imp (fun _ hl _ => hl.2) (fun _ _ _ => trivial) h

/-- The row made by name, appended. -/
theorem appendNamed_printed {item : ChType} {name : Bytes} (hname : item.GetName = .ok name)
    (col : List Nat × Column item) (row : Column item.printed) :
    appendNamed item item.printed col row =
      Column.appendAsColumn (Column.append item) col (some (Column.unprint item row)) := by
  have hprinted : item.printed.GetName = .ok name := by rw [item.getName_printed, hname]
  unfold appendNamed
  rw [hname, hprinted]
  show (if name ≠ name then _ else _) = _
  rw [if_neg (fun h => h rfl)]

/-- Rows that are columns made by name are rows that are columns of the item type. -/
theorem byName_of_readBack (libc : Libc) {t : ChType} (h : t.All LeafType.ReadBack (· ≠ []))
    {fuel : Nat} (hfuel : t.depth < fuel) (inColumn : Value) (col : Column t) :
    column2ClickColumnByName libc fuel t inColumn col =
      column2ClickColumn libc t inColumn col := by
  induction fuel generalizing t inColumn with
  | zero => omega
  | succ fuel ih =>
      cases t with
      | leaf l => rfl
      | tuple items => rfl
      | nullable nested =>
          rw [column2ClickColumnByName, column2ClickColumn,
            ih (t := nested) h (by simpa [ChType.depth] using hfuel)]
      | array item =>
          have hreadable := ChType.readable_of_readBack (t := item) h
          obtain ⟨name, hname⟩ := ChType.getName_ok hreadable
          have hread := typeByName_getName hreadable hname
          have hdepth : item.printed.depth < fuel := by
            rw [item.depth_printed]
            simpa [ChType.depth] using hfuel
          have hrow : ∀ el, column2ClickColumnByName libc fuel item.printed el
              (Column.create item.printed) =
                column2ClickColumn libc item.printed el (Column.create item.printed) :=
            fun el => ih (ChType.readBack_printed (t := item) h) hdepth el _
          rw [column2ClickColumnByName, column2ClickColumn, hname]
          show (readVector inColumn >>= _) = (readVector inColumn >>= _)
          congr 1
          funext vec
          congr 1
          funext col el
          have hcells := column2ClickColumn_printed libc
            (ChType.sameCells_of_readBack (t := item) h) el (Column.create item.printed)
          rw [Column.unprint_create] at hcells
          rw [hread, ← hcells]
          show (column2ClickColumnByName libc fuel item.printed el _ >>= _) = _
          rw [hrow]
          cases column2ClickColumn libc item.printed el (Column.create item.printed) with
          | error fault => rfl
          | ok row => exact appendNamed_printed hname col row

/-- `column2ClickColumn` does what it would do with the item types in the place of their
names, on every type that the parser makes of a name and the server declares. -/
theorem column2ClickColumnByName_eq {name : Bytes} {t : ChType}
    (h : typeByName name = .ok (some t)) (hdeclared : t.All LeafType.Declared (· ≠ []))
    (libc : Libc) {fuel : Nat} (hfuel : t.depth < fuel) (inColumn : Value) (col : Column t) :
    column2ClickColumnByName libc fuel t inColumn col =
      column2ClickColumn libc t inColumn col :=
  byName_of_readBack libc
    ((fromName_of_typeByName h).and_imp (fun _ => LeafType.readBack_of_declared)
      (fun _ _ hne => hne) hdeclared) hfuel inColumn col

/-- `Enum8('b' = 2, 'a' = 1)`, twice in an Array. -/
def enumRows : ChType := .array (.array (.leaf (.enum8 [(ascii "b", 2), (ascii "a", 1)])))

/-- The rows `[["b"],["a","b"]]` and `[[]]`. -/
theorem column2ClickColumnByName_enumRows :
    column2ClickColumnByName idleLibc 3 enumRows
      (.array [.array [.array [.str (ascii "b")], .array [.str (ascii "a"), .str (ascii "b")]],
        .array [.array []]]) (Column.create enumRows) =
      .ok (([2, 3] : List Nat),
        (([1, 3, 3] : List Nat), ([.int 2, .int 1, .int 2] : List Cell))) := by
  have hone : stol (ascii "1") = .ok 1 := by decide +kernel
  have htwo : stol (ascii "2") = .ok 2 := by decide +kernel
  have henum : LeafType.IsNamed (.enum8 [(ascii "b", 2), (ascii "a", 1)])
      (TypeParser.callTokens (ascii "Enum8")
        [[.name (ascii "b"), .number (ascii "2")], [.name (ascii "a"), .number (ascii "1")]]) :=
    .enum8 (by simp) (.cons ⟨_, _, htwo, by decide, by decide⟩
      (.cons ⟨_, _, hone, by decide, by decide⟩ .nil))
  have hnamed : enumRows.IsNamed _ := ⟨_, ⟨_, henum, rfl⟩, rfl⟩
  have htype := typeByName_of_isNamed (s := ascii "Array(Array(Enum8('b' = 2, 'a' = 1)))")
    (by decide +kernel) hnamed
  refine (column2ClickColumnByName_eq htype ⟨by simp [LeafType.Fits], ?_⟩ idleLibc
    (by decide) _ _).trans rfl
  simp [OneToOne, ascii]

end FlexEtl
