/-
FlexEtl.Db.ColumnTheorems — when a conversion misreads a value.

The conversion recurses on the column's type and, at each level, reads the
array of a value before anything is known about its tag. It is stopped by
the first element that throws, so which elements it reaches depends on which
elements before them convert: `Accepts` says which values convert, and
`TagSafe`, which uses it, that every value reached as an array is one.
`misread_iff` says the two descriptions of the code are exact.

The row of an element is converted before it is joined to the column, and
joining a row of arrays cuts each of them out of the row again. What is there
to cut is not what was converted: `Filled` says what a conversion leaves, and
`Joined` what is left of the rows that were joined, where Decimals are lost.
-/
import FlexEtl.Db.Column
import FlexEtl.Json.Json2Click
import FlexEtl.Lib.ExceptFold
import FlexEtl.Lib.Ragged
import FlexEtl.Table.CdbTheorems

namespace FlexEtl

open ExceptFold

/-! ## The values a column takes -/

/-- Enumerations take numbers, and the names they know. -/
def EnumFits (items : List (Bytes × Int)) : Value → Prop
  | .uint _ => True
  | .int _ => True
  | .str s => (enumValue? items s).isSome
  | _ => False

/-- The values that make a cell of a leaf type. -/
def CellFits : LeafType → Value → Prop
  | .enum8 items, el => EnumFits items el
  | .enum16 items, el => EnumFits items el
  | _, _ => True

/-- The elements of an array. -/
def vectorOf (v : Value) : List Value := (v.vector?).getD []

/-- The number of elements of an array. -/
def elements (v : Value) : Nat := (vectorOf v).length

/-- The client can cut a column of this type. -/
def Sliceable : ChType → Prop
  | .leaf _ => True
  | .array _ => False
  | .nullable nested => Sliceable nested
  | .tuple _ => False

/-- The scalars of the type are Decimals. -/
def HasDecimal : ChType → Prop
  | .leaf (.decimal _ _) => True
  | .leaf _ => False
  | .array item => HasDecimal item
  | .nullable nested => HasDecimal nested
  | .tuple _ => False

/-- The client can cut `n` rows out of a column of this type that rows were joined to: the
flags of Nullable Decimals are there, and the Decimals are not. -/
def Cuts : ChType → Nat → Prop
  | .leaf _, _ => True
  | .array _, _ => False
  | .nullable nested, n => Cuts nested n ∧ (n = 0 ∨ ¬ HasDecimal nested)
  | .tuple _, _ => False

/-- The client can join rows of this type to a column, once they hold the values. -/
def Joins : ChType → List Value → Prop
  | .leaf _, _ => True
  | .array item, xs => ∀ x ∈ xs, Cuts item (elements x)
  | .nullable nested, xs => Joins nested xs
  | .tuple _, _ => True

/-- The value converts to a column of this type. -/
def Accepts : ChType → Value → Prop
  | .leaf l, v => ∃ xs, v = .array xs ∧ ∀ x ∈ xs, CellFits l x
  | .array item, v =>
      ∃ xs, v = .array xs ∧ ∀ x ∈ xs, Accepts item x ∧ Joins item (vectorOf x)
  | .nullable nested, v => Accepts nested v
  | .tuple _, _ => False

/-- The value is an array where the type needs one, down to the first element that
does not convert. -/
def TagSafe : ChType → Value → Prop
  | .leaf _, v => ∃ xs, v = .array xs
  | .array item, v => ∃ xs, v = .array xs ∧ ∀ ys x zs, xs = ys ++ x :: zs →
      (∀ y ∈ ys, Accepts item y ∧ Joins item (vectorOf y)) → TagSafe item x
  | .nullable nested, v => TagSafe nested v
  | .tuple _, _ => True

theorem accepts_array {t : ChType} {v : Value} (h : Accepts t v) : ∃ xs, v = .array xs := by
  induction t using ChType.inductOn with
  | leaf l => obtain ⟨xs, hv, -⟩ := h; exact ⟨xs, hv⟩
  | array item _ => obtain ⟨xs, hv, -⟩ := h; exact ⟨xs, hv⟩
  | nullable nested ih => exact ih h
  | tuple items => exact h.elim

/-! ## Faults -/

/-- What the client's operations on columns fail with. -/
def ClientFault (f : Fault) : Prop := f = Column.nullColumn ∨ f = Column.unevenNulls

theorem clientFault_ne_misread {f : Fault} (h : ClientFault f) : f ≠ misread := by
  rcases h with rfl | rfl <;> decide

theorem readVector_of_not_array {v : Value} (h : ¬ ∃ xs, v = .array xs) :
    readVector v = .error misread := by
  cases v with
  | array xs => exact absurd ⟨xs, rfl⟩ h
  | _ => rfl

/-- A cell is appended when the value fits; otherwise an exception is thrown. -/
theorem appendCell_cases (libc : Libc) (l : LeafType) (el : Value) :
    (CellFits l el ∧ ∃ cell, appendCell libc l el = .ok cell) ∨
    (¬ CellFits l el ∧ ∃ what, appendCell libc l el = .error (.thrown what)) := by
  have henum : ∀ what wrap items, (EnumFits items el ∧
        ∃ cell, enumCell libc what wrap items el = .ok cell) ∨
      (¬ EnumFits items el ∧
        ∃ what', enumCell libc what wrap items el = .error (.thrown what')) := by
    intro what wrap items
    cases el with
    | uint u => exact .inl ⟨trivial, _, rfl⟩
    | int i => exact .inl ⟨trivial, _, rfl⟩
    | str s =>
        cases hs : enumValue? items s with
        | some n =>
            refine .inl ⟨by simp [EnumFits, hs], .int (wrap n), ?_⟩
            simp [enumCell, Value.type, Value.getString, hs]
        | none =>
            refine .inr ⟨by simp [EnumFits, hs], "map::at", ?_⟩
            simp [enumCell, Value.type, Value.getString, hs]
    | null => exact .inr ⟨id, what, rfl⟩
    | double d => exact .inr ⟨id, what, rfl⟩
    | array xs => exact .inr ⟨id, what, rfl⟩
    | bool b => exact .inr ⟨id, what, rfl⟩
  cases l with
  | enum8 items => exact henum "convert to Enum8 failed" (·.bmod (2 ^ 8)) items
  | enum16 items => exact henum "convert to Enum16 failed" (·.bmod (2 ^ 16)) items
  | decimal precision scale =>
      by_cases huint : el.type = .uint
      · refine .inl ⟨trivial, decimalCell precision (el.getUInt64 libc).toNat, ?_⟩
        simp only [appendCell, if_pos huint]
      · refine .inl ⟨trivial, decimalCell precision (el.getInt64 libc).toInt, ?_⟩
        simp only [appendCell, if_neg huint]
  | _ => exact .inl ⟨trivial, _, rfl⟩

/-! ## Rows of columns -/

/-- The column has `n` rows, on the level of the null flags and below. -/
def HasRows : (t : ChType) → Column t → Nat → Prop
  | .leaf _, cells, n => List.length (α := Cell) cells = n
  | .array _, col, n => List.length (α := Nat) col.1 = n
  | .nullable nested, col, n => List.length (α := Bool) col.2 = n ∧ HasRows nested col.1 n
  | .tuple _, _, _ => True

theorem hasRows_create (t : ChType) : HasRows t (Column.create t) 0 := by
  induction t using ChType.inductOn with
  | leaf l => exact rfl
  | array item _ => exact rfl
  | nullable nested ih => exact ⟨rfl, ih⟩
  | tuple items => trivial

/-- The rows that a column has of values that were joined to it. -/
def kept : ChType → List Value → Nat
  | .leaf (.decimal _ _), _ => 0
  | _, xs => xs.length

theorem kept_of_not_hasDecimal {t : ChType} (h : ¬ HasDecimal t) (xs : List Value) :
    kept t xs = xs.length := by
  cases t with
  | leaf l =>
      cases l with
      | decimal precision scale => exact absurd trivial h
      | _ => rfl
  | _ => rfl

theorem kept_nil (t : ChType) : kept t [] = 0 := by
  unfold kept
  split <;> rfl

/-- The column is what is left of the values when their rows are joined. -/
def Joined : (t : ChType) → List Value → Column t → Prop
  | .leaf l, xs, cells => List.length (α := Cell) cells = kept (.leaf l) xs
  | .array item, xs, col =>
      col.1 = Ragged.ends ((xs.map vectorOf).map (kept item)) ∧
        Joined item (xs.map vectorOf).flatten col.2
  | .nullable nested, xs, col => List.length (α := Bool) col.2 = xs.length ∧ Joined nested xs col.1
  | .tuple _, xs, _ => xs = []

/-- The column can have been converted from the values. Whether Decimals have their cells
is left open here: joining the column does not depend on it. -/
def Filled : (t : ChType) → List Value → Column t → Prop
  | .leaf l, xs, cells => ¬ HasDecimal (.leaf l) → List.length (α := Cell) cells = xs.length
  | .array item, xs, col =>
      col.1 = Ragged.ends ((xs.map vectorOf).map List.length) ∧
        Joined item (xs.map vectorOf).flatten col.2
  | .nullable nested, xs, col => List.length (α := Bool) col.2 = xs.length ∧ Filled nested xs col.1
  | .tuple _, xs, _ => xs = []

theorem flatten_append_one (xs : List Value) (y : Value) :
    ((xs ++ [y]).map vectorOf).flatten = (xs.map vectorOf).flatten ++ vectorOf y := by
  simp

theorem ends_append_one (rows : List Value → Nat) (xs : List Value) (y : Value) :
    Ragged.ends (((xs ++ [y]).map vectorOf).map rows) =
      Ragged.ends ((xs.map vectorOf).map rows) ++
        [((xs.map vectorOf).map rows).sum + rows (vectorOf y)] := by
  rw [← Ragged.ends_append_one]
  simp

theorem joined_create (t : ChType) : Joined t [] (Column.create t) := by
  induction t using ChType.inductOn with
  | leaf l => exact (kept_nil (.leaf l)).symm
  | array item ih => exact ⟨rfl, ih⟩
  | nullable nested ih => exact ⟨rfl, ih⟩
  | tuple items => exact rfl

theorem filled_create (t : ChType) : Filled t [] (Column.create t) := by
  induction t using ChType.inductOn with
  | leaf l => exact fun _ => rfl
  | array item _ => exact ⟨rfl, joined_create item⟩
  | nullable nested ih => exact ⟨rfl, ih⟩
  | tuple items => exact rfl

theorem filled_of_joined {t : ChType} (ht : Sliceable t) : ∀ {xs : List Value} {col : Column t},
    Joined t xs col → Filled t xs col := by
  induction t using ChType.inductOn with
  | leaf l => exact fun h hdecimal => h.trans (kept_of_not_hasDecimal hdecimal _)
  | array item _ => exact ht.elim
  | nullable nested ih => exact fun h => ⟨h.1, ih ht h.2⟩
  | tuple items => exact ht.elim

theorem size_of_joined {t : ChType} {xs : List Value} {col : Column t} (h : Joined t xs col) :
    Column.size t col = kept t xs := by
  cases t with
  | leaf l => exact h
  | array item =>
      show List.length (α := Nat) col.1 = xs.length
      rw [h.1]
      simp
  | nullable nested => exact h.1
  | tuple items =>
      obtain rfl : xs = [] := h
      rfl

theorem size_of_hasRows {t : ChType} {n : Nat} {col : Column t} (h : HasRows t col n)
    (ht : ∀ items, t ≠ .tuple items) : Column.size t col = n := by
  cases t with
  | leaf l => exact h
  | array item => exact h
  | nullable nested => exact h.1
  | tuple items => exact absurd rfl (ht items)

theorem sliceable_of_cuts {t : ChType} {n : Nat} (h : Cuts t n) : Sliceable t := by
  induction t using ChType.inductOn with
  | leaf l => trivial
  | array item _ => exact h.elim
  | nullable nested ih => exact ih h.1
  | tuple items => exact h.elim

theorem joins_of_sliceable {t : ChType} (ht : Sliceable t) (xs : List Value) : Joins t xs := by
  induction t using ChType.inductOn with
  | leaf l => trivial
  | array item _ => exact ht.elim
  | nullable nested ih => exact ih ht
  | tuple items => trivial

namespace Column

theorem makeNullable_error {nested : ChType} {col : Option (Column nested)} {nulls : List Bool}
    {f : Fault} (h : makeNullable nested col nulls = .error f) : ClientFault f := by
  cases col with
  | none => cases h; exact .inl rfl
  | some col =>
      unfold makeNullable at h
      dsimp only at h
      split at h
      · cases h
      · cases h; exact .inr rfl

theorem makeNullable_of_ne {nested : ChType} {s : Column nested} {nulls : List Bool}
    (h : size nested s ≠ nulls.length) :
    makeNullable nested (some s) nulls = .error unevenNulls :=
  if_neg h

theorem slice_error {t : ChType} : ∀ {col : Column t} {begin len : Nat} {f : Fault},
    slice t col begin len = .error f → ClientFault f := by
  induction t using ChType.inductOn with
  | leaf l => intro col begin len f h; cases h
  | array item _ => intro col begin len f h; cases h
  | nullable nested ih =>
      intro col begin len f h
      rw [slice] at h
      cases hs : slice nested col.1 begin len with
      | error f' => rw [hs] at h; cases h; exact ih hs
      | ok s => rw [hs] at h; exact makeNullable_error h
  | tuple items => intro col begin len f h; cases h

theorem length_take_drop {α β : Type} {xs : List α} {ys : List β} (h : xs.length = ys.length)
    (begin len : Nat) : ((xs.drop begin).take len).length = ((ys.drop begin).take len).length := by
  simp [h]

/-- The cells of a joined column are cut like the values, or there are none. -/
theorem slice_leaf {l : LeafType} {xs : List Value} {cells : List Cell}
    (h : Joined (.leaf l) xs cells) (begin len : Nat) :
    Joined (.leaf l) ((xs.drop begin).take len) ((cells.drop begin).take len) := by
  by_cases hdecimal : HasDecimal (.leaf l)
  · cases l with
    | decimal precision scale =>
        obtain rfl : cells = [] := List.eq_nil_of_length_eq_zero h
        show ((([] : List Cell).drop begin).take len).length = 0
        simp
    | _ => exact hdecimal.elim
  · change cells.length = kept (.leaf l) xs at h
    rw [kept_of_not_hasDecimal hdecimal] at h
    exact (length_take_drop h begin len).trans (kept_of_not_hasDecimal hdecimal _).symm

/-- Rows are cut out of a joined column with the values that are theirs. -/
theorem slice_of_cuts {t : ChType} : ∀ {xs : List Value} {col : Column t} {begin len : Nat},
    Joined t xs col → Cuts t ((xs.drop begin).take len).length →
    ∃ s, slice t col begin len = .ok (some s) ∧ Joined t ((xs.drop begin).take len) s := by
  induction t using ChType.inductOn with
  | leaf l => exact fun h _ => ⟨_, rfl, slice_leaf h _ _⟩
  | array item _ => exact fun _ hcuts => hcuts.elim
  | nullable nested ih =>
      intro xs col begin len h hcuts
      obtain ⟨s, hs, hjoined⟩ := ih h.2 hcuts.1
      have hnulls := length_take_drop (α := Bool) h.1 begin len
      have heven : size nested s = ((col.2.drop begin).take len).length := by
        rw [size_of_joined hjoined, hnulls]
        rcases hcuts.2 with hnone | hdecimal
        · rw [List.eq_nil_of_length_eq_zero hnone, kept_nil]
          rfl
        · exact kept_of_not_hasDecimal hdecimal _
      refine ⟨(s, (col.2.drop begin).take len), ?_, hnulls, hjoined⟩
      rw [slice, hs]
      exact if_pos heven
  | tuple items => exact fun _ hcuts => hcuts.elim

/-- Without their Decimals the flags of the rows are one too many for the constructor. -/
theorem size_of_hasDecimal {t : ChType} {xs : List Value} {s : Column t} {n : Nat}
    (hcuts : Cuts t n) (hdecimal : HasDecimal t) (h : Joined t xs s) (hn : n ≠ 0) :
    size t s = 0 := by
  cases t with
  | leaf l =>
      cases l with
      | decimal precision scale => exact h
      | _ => exact hdecimal.elim
  | array item => exact hcuts.elim
  | nullable nested =>
      rcases hcuts.2 with hzero | hnone
      · exact absurd hzero hn
      · exact absurd hdecimal hnone
  | tuple items => exact hcuts.elim

/-- Other rows are not cut out. -/
theorem slice_of_not_cuts {t : ChType} : ∀ {xs : List Value} {col : Column t} {begin len : Nat},
    Joined t xs col → ¬ Cuts t ((xs.drop begin).take len).length →
    ∀ s, slice t col begin len ≠ .ok (some s) := by
  induction t using ChType.inductOn with
  | leaf l => exact fun _ hnot => absurd trivial hnot
  | array item _ => intro xs col begin len _ _ s h; cases h
  | nullable nested ih =>
      intro xs col begin len h hnot s hslice
      by_cases hcuts : Cuts nested ((xs.drop begin).take len).length
      · obtain ⟨hn, hdecimal⟩ : ((xs.drop begin).take len).length ≠ 0 ∧ HasDecimal nested := by
          by_contra hor
          exact hnot ⟨hcuts, by tauto⟩
        obtain ⟨s', hs', hjoined⟩ := slice_of_cuts h.2 hcuts
        have hnulls := length_take_drop (α := Bool) h.1 begin len
        have hsize := size_of_hasDecimal hcuts hdecimal hjoined hn
        have huneven : size nested s' ≠ ((col.2.drop begin).take len).length := by
          rw [hsize, hnulls]
          exact fun heq => hn heq.symm
        rw [slice, hs'] at hslice
        cases (makeNullable_of_ne huneven).symm.trans hslice
      · rw [slice] at hslice
        cases hs : slice nested col.1 begin len with
        | error f => rw [hs] at hslice; cases hslice
        | ok s' =>
            cases s' with
            | none => rw [hs] at hslice; cases hslice
            | some s' => exact ih h.2 hcuts s' hs
  | tuple items => intro xs col begin len _ _ s h; cases h

/-- A row of an array column is read back with the elements of its value, if it can be cut
out. -/
theorem getAsColumn_filled {item : ChType} {ys : List Value} {col : List Nat × Column item}
    {i : Nat} (h : Filled (.array item) ys col) (hi : i < ys.length) :
    (Cuts item (elements ys[i]) →
      ∃ row, getAsColumn col i = .ok (some row) ∧ Joined item (vectorOf ys[i]) row) ∧
    (¬ Cuts item (elements ys[i]) → ∀ row, getAsColumn col i ≠ .ok (some row)) := by
  obtain ⟨ends, items⟩ := col
  obtain ⟨rfl, hitems⟩ : ends = _ ∧ _ := h
  have hlen : i < ((ys.map vectorOf).map List.length).length := by simpa using hi
  have hlen' : i < (ys.map vectorOf).length := by simpa using hi
  have hrow := Ragged.drop_take_flatten hlen'
  rw [List.getElem_map] at hrow
  unfold getAsColumn elements
  dsimp only
  rw [Ragged.begin_ends hlen, Ragged.getD_ends hlen, Ragged.sum_take_succ hlen,
    Nat.add_sub_cancel_left, List.getElem_map, List.getElem_map]
  constructor
  · intro hcuts
    have hslice := @slice_of_cuts item _ items (((ys.map vectorOf).map List.length).take i).sum
      (vectorOf ys[i]).length hitems
    rw [hrow] at hslice
    exact hslice hcuts
  · intro hnot
    have hslice := @slice_of_not_cuts item _ items
      (((ys.map vectorOf).map List.length).take i).sum (vectorOf ys[i]).length hitems
    rw [hrow] at hslice
    exact hslice hnot

/-- Appending fails through a null pointer or an exception of the client, and never
misreads. -/
theorem append_error {t : ChType} : ∀ {col other : Column t} {f : Fault},
    append t col other = .error f → ClientFault f := by
  induction t using ChType.inductOn with
  | leaf l => intro col other f h; cases h
  | array item ih =>
      intro col other f h
      obtain ⟨ys, i, zs, s', -, -, hstep⟩ := foldlM_eq_error.mp h
      cases hrow : @getAsColumn item other i with
      | error f' => rw [hrow] at hstep; cases hstep; exact slice_error hrow
      | ok row =>
          rw [hrow] at hstep
          cases row with
          | none => cases hstep; exact .inl rfl
          | some row =>
              change (append item s'.2 row >>= _) = _ at hstep
              cases happ : append item s'.2 row with
              | error f' => rw [happ] at hstep; cases hstep; exact ih happ
              | ok data => rw [happ] at hstep; cases hstep
  | nullable nested ih =>
      intro col other f h
      rw [append] at h
      cases happ : append nested col.1 other.1 with
      | error f' => rw [happ] at h; cases h; exact ih happ
      | ok data => rw [happ] at h; cases h
  | tuple items => intro col other f h; cases h

/-- The cells of two columns, or none. -/
theorem append_leaf {l : LeafType} {xs ys : List Value} {cells other : List Cell}
    (hcells : Joined (.leaf l) xs cells) (hother : Filled (.leaf l) ys other) :
    Joined (.leaf l) (xs ++ ys) (appendCells l cells other) := by
  by_cases hdecimal : HasDecimal (.leaf l)
  · cases l with
    | decimal precision scale => exact hcells
    | _ => exact hdecimal.elim
  · have hboth : appendCells l cells other = cells ++ other := by
      cases l with
      | decimal precision scale => exact absurd trivial hdecimal
      | _ => rfl
    have hlen : cells.length = kept (.leaf l) xs := hcells
    have hlen' : other.length = ys.length := hother hdecimal
    show (appendCells l cells other).length = kept (.leaf l) (xs ++ ys)
    rw [kept_of_not_hasDecimal hdecimal] at hlen ⊢
    rw [hboth, List.length_append, List.length_append, hlen, hlen']

/-- What `append` does with a column that was converted from `ys`. -/
def AppendsFilled (t : ChType) : Prop := ∀ {ys : List Value} {col other : Column t},
  Filled t ys other →
    (Joins t ys → ∃ c, append t col other = .ok c ∧
      ∀ xs, Joined t xs col → Joined t (xs ++ ys) c) ∧
    (¬ Joins t ys → ∃ f, append t col other = .error f)

/-- Appending an item column as one row. -/
theorem appendAsColumn_filled {item : ChType} (hitem : AppendsFilled item) {y : Value}
    {row : Column item} (hrow : Filled item (vectorOf y) row) (hjoins : Joins item (vectorOf y))
    (col : List Nat × Column item) :
    ∃ c, appendAsColumn (append item) col (some row) = .ok c ∧
      c.1 = col.1 ++ [col.1.getLast?.getD 0 + size item row] ∧
      ∀ xs, Joined item xs col.2 → Joined item (xs ++ vectorOf y) c.2 := by
  obtain ⟨data, hdata, hjoined⟩ := (@hitem _ col.2 _ hrow).1 hjoins
  refine ⟨(col.1 ++ [col.1.getLast?.getD 0 + size item row], data), ?_, rfl, hjoined⟩
  rw [appendAsColumn, hdata]
  rfl

/-- The rows of an array column are appended when each can be cut out. -/
theorem append_array_of_joins {item : ChType} (hitem : AppendsFilled item) {ys : List Value}
    (hjoins : Joins (.array item) ys) (col : Column (.array item)) {other : Column (.array item)}
    (hother : Filled (.array item) ys other) :
    ∃ c, append (.array item) col other = .ok c ∧
      ∀ xs, Joined (.array item) xs col → Joined (.array item) (xs ++ ys) c := by
  -- after `k` rows the column is what is left of the first `k` values
  have hrows : ∀ k, k ≤ ys.length → ∃ c, (List.range k).foldlM (fun col i => do
        let row ← @getAsColumn item other i
        appendAsColumn (append item) col row) col = Except.ok (ε := Fault) c ∧
      ∀ xs, Joined (.array item) xs col → Joined (.array item) (xs ++ ys.take k) c := by
    intro k
    induction k with
    | zero => exact fun _ => ⟨col, rfl, fun xs h => by simpa using h⟩
    | succ k ih =>
        intro hk
        have hcut : Cuts item (elements ys[k]) := hjoins _ (List.getElem_mem _)
        have hslice := sliceable_of_cuts hcut
        obtain ⟨c, hc, hjoined⟩ := ih (by omega)
        obtain ⟨row, hrow, hrow'⟩ := (getAsColumn_filled hother hk).1 hcut
        obtain ⟨c', hc', hends, hdata⟩ := appendAsColumn_filled hitem
          (filled_of_joined hslice hrow') (joins_of_sliceable hslice _) c
        refine ⟨c', ?_, fun xs h => ?_⟩
        · rw [List.range_succ, foldlM_append_one hc]
          show (@getAsColumn item other k >>= _) = _
          rw [hrow]
          exact hc'
        · rw [← List.take_append_getElem hk, ← List.append_assoc]
          obtain ⟨hstart, hitems⟩ := hjoined xs h
          refine ⟨?_, by rw [flatten_append_one]; exact hdata _ hitems⟩
          rw [hends, hstart, Ragged.getLast_ends, size_of_joined hrow', ends_append_one]
  obtain ⟨c, hc, hjoined⟩ := hrows ys.length le_rfl
  have hlen : List.length (α := Nat) other.1 = ys.length := by rw [hother.1]; simp
  rw [List.take_length] at hjoined
  exact ⟨c, by rw [append, hlen]; exact hc, hjoined⟩

/-- Otherwise the first that cannot be cut out stops it. -/
theorem append_array_of_not_joins {item : ChType} {ys : List Value}
    (hnot : ¬ Joins (.array item) ys) (col : Column (.array item))
    {other : Column (.array item)} (hother : Filled (.array item) ys other) :
    ∃ f, append (.array item) col other = .error f := by
  cases happ : append (.array item) col other with
  | error f => exact ⟨f, rfl⟩
  | ok c =>
      refine absurd (fun y hy => ?_) hnot
      obtain ⟨k, hk, rfl⟩ := List.getElem_of_mem hy
      by_contra hcut
      have hlen : List.length (α := Nat) other.1 = ys.length := by rw [hother.1]; simp
      rw [append, hlen] at happ
      have hall := foldlM_eq_ok (P := fun i => ∃ row, @getAsColumn item other i = .ok (some row))
        (fun s i s' hstep => by
          cases hrow : @getAsColumn item other i with
          | error f => rw [hrow] at hstep; cases hstep
          | ok row =>
              cases row with
              | none => rw [hrow] at hstep; cases hstep
              | some row => exact ⟨row, rfl⟩) _ happ
      obtain ⟨row, hrow⟩ := hall k (List.mem_range.mpr hk)
      exact (getAsColumn_filled hother hk).2 hcut row hrow

/-- Converted rows that join are appended, and no others are. -/
theorem append_filled (t : ChType) : AppendsFilled t := by
  induction t using ChType.inductOn with
  | leaf l =>
      intro ys col other hother
      exact ⟨fun _ => ⟨_, rfl, fun xs h => append_leaf h hother⟩, fun hnot => absurd trivial hnot⟩
  | array item ih =>
      intro ys col other hother
      exact ⟨fun hjoins => append_array_of_joins ih hjoins col hother,
        fun hnot => append_array_of_not_joins hnot col hother⟩
  | nullable nested ih =>
      intro ys col other hother
      obtain ⟨hjoin, hfail⟩ := @ih _ col.1 other.1 hother.2
      constructor
      · intro hjoins
        obtain ⟨c, hc, hjoined⟩ := hjoin hjoins
        refine ⟨(c, List.append (α := Bool) col.2 other.2), by rw [append, hc]; rfl, ?_⟩
        intro xs h
        refine ⟨?_, hjoined xs h.2⟩
        have hlen := @List.length_append Bool col.2 other.2
        rw [h.1, hother.1] at hlen
        exact hlen.trans List.length_append.symm
      · intro hnot
        obtain ⟨f, hf⟩ := hfail hnot
        exact ⟨f, by rw [append, hf]; rfl⟩
  | tuple items =>
      intro ys col other hother
      refine ⟨fun _ => ⟨(), rfl, fun xs h => ?_⟩, fun hnot => absurd trivial hnot⟩
      obtain rfl : ys = [] := hother
      obtain rfl : xs = [] := h
      rfl

end Column

/-! ## Conversions -/

/-- The body of the loop over an array: the row of one element is converted and
appended. -/
def appendRow (libc : Libc) (item : ChType) (col : List Nat × Column item) (el : Value) :
    Except Fault (List Nat × Column item) := do
  let row ← column2ClickColumn libc item el (Column.create item)
  Column.appendAsColumn (Column.append item) col (some row)

/-- A row is appended once it is converted. -/
theorem appendRow_ok {libc : Libc} {item : ChType} {col c : List Nat × Column item} {el : Value}
    (h : appendRow libc item col el = .ok c) :
    ∃ row, column2ClickColumn libc item el (Column.create item) = .ok row ∧
      Column.appendAsColumn (Column.append item) col (some row) = .ok c := by
  unfold appendRow at h
  cases hrow : column2ClickColumn libc item el (Column.create item) with
  | error f => rw [hrow] at h; cases h
  | ok row =>
      rw [hrow] at h
      exact ⟨row, rfl, h⟩

theorem column2ClickColumn_array (libc : Libc) (item : ChType) (xs : List Value)
    (col : Column (.array item)) :
    column2ClickColumn libc (.array item) (.array xs) col = xs.foldlM (appendRow libc item) col :=
  rfl

/-- One value appends one cell. -/
theorem column2ClickColumn_singleton (libc : Libc) (l : LeafType) (v : Value) (cells : List Cell) :
    column2ClickColumn libc (.leaf l) (.array [v]) cells =
      (appendCell libc l v).map fun cell => List.append cells [cell] := by
  show Except.bind (Except.bind (appendCell libc l v) _) _ = _
  cases appendCell libc l v with
  | error fault => rfl
  | ok cell => rfl

/-- Converting to a column of a type. -/
def Converts (libc : Libc) (t : ChType) : Prop := ∀ {v : Value} {col : Column t}, Accepts t v →
  ∃ c, column2ClickColumn libc t v col = .ok c ∧
    (∀ n, HasRows t col n → HasRows t c (n + elements v)) ∧
    ∀ xs, Filled t xs col → Filled t (xs ++ vectorOf v) c

theorem not_tuple_of_accepts {t : ChType} {v : Value} (h : Accepts t v) (items : List ChType) :
    t ≠ .tuple items := by
  rintro rfl
  exact h

theorem appendRow_of_accepts {libc : Libc} {item : ChType} (hitem : Converts libc item)
    {el : Value} (hacc : Accepts item el) (hjoins : Joins item (vectorOf el))
    (col : List Nat × Column item) :
    ∃ c, appendRow libc item col el = .ok c ∧ c.1.length = col.1.length + 1 ∧
      ∀ xs, Filled (.array item) xs col → Filled (.array item) (xs ++ [el]) c := by
  obtain ⟨row, hrow, hrows, hfilled⟩ := @hitem _ (Column.create item) hacc
  have hsize : Column.size item row = elements el := by
    have hn := size_of_hasRows (hrows 0 (hasRows_create item)) (not_tuple_of_accepts hacc)
    rwa [Nat.zero_add] at hn
  obtain ⟨c, hc, hends, hdata⟩ := Column.appendAsColumn_filled (Column.append_filled item)
    (hfilled [] (filled_create item)) hjoins col
  refine ⟨c, ?_, by rw [hends]; simp, fun xs h => ?_⟩
  · rw [appendRow, hrow]
    exact hc
  · refine ⟨?_, by rw [flatten_append_one]; exact hdata _ h.2⟩
    rw [hends, h.1, Ragged.getLast_ends, hsize, ends_append_one]
    rfl

theorem converts_leaf (libc : Libc) (l : LeafType) : Converts libc (.leaf l) := by
  rintro v col ⟨xs, rfl, hxs⟩
  have hstep : ∀ (ys : List Value) (cells : List Cell) (x : Value),
      cells.length = List.length (α := Cell) col + ys.length → CellFits l x →
      ∃ cells', (do let cell ← appendCell libc l x
                    pure (cells ++ [cell])) = Except.ok (ε := Fault) cells' ∧
        cells'.length = List.length (α := Cell) col + (ys ++ [x]).length := by
    intro ys cells x hlen hfit
    rcases appendCell_cases libc l x with ⟨-, cell, hcell⟩ | ⟨hnot, -⟩
    · refine ⟨cells ++ [cell], by rw [hcell]; rfl, ?_⟩
      simp only [List.length_append, List.length_singleton]
      omega
    · exact absurd hfit hnot
  obtain ⟨c, hc, hlen⟩ := foldlM_invariant (P := CellFits l)
    (I := fun ys (cells : List Cell) => cells.length = List.length (α := Cell) col + ys.length)
    (s := col) rfl hstep xs hxs
  refine ⟨c, hc, fun n hn => ?_, fun ys h hdecimal => ?_⟩
  · change List.length (α := Cell) col = n at hn
    rw [hn] at hlen
    exact hlen
  · rw [h hdecimal] at hlen
    exact hlen.trans List.length_append.symm

/-- Row by row, as each element is accepted and joins. -/
theorem converts_array {libc : Libc} {item : ChType} (ih : Converts libc item) :
    Converts libc (.array item) := by
  rintro v col ⟨xs, rfl, hxs⟩
  have hstep : ∀ (ys : List Value) (c : List Nat × Column item) (x : Value),
      (c.1.length = List.length (α := Nat) col.1 + ys.length ∧
        ∀ zs, Filled (.array item) zs col → Filled (.array item) (zs ++ ys) c) →
      Accepts item x ∧ Joins item (vectorOf x) →
      ∃ c', appendRow libc item c x = .ok c' ∧
        c'.1.length = List.length (α := Nat) col.1 + (ys ++ [x]).length ∧
        ∀ zs, Filled (.array item) zs col → Filled (.array item) (zs ++ (ys ++ [x])) c' := by
    rintro ys c x ⟨hlen, hfilled⟩ hx
    obtain ⟨c', hc', hlen', hfilled'⟩ := appendRow_of_accepts ih hx.1 hx.2 c
    refine ⟨c', hc', ?_, fun zs h => ?_⟩
    · simp only [List.length_append, List.length_singleton]
      omega
    · rw [← List.append_assoc]
      exact hfilled' _ (hfilled zs h)
  obtain ⟨c, hc, hlen, hfilled⟩ := foldlM_invariant
    (P := fun x => Accepts item x ∧ Joins item (vectorOf x))
    (I := fun ys (c : List Nat × Column item) =>
      c.1.length = List.length (α := Nat) col.1 + ys.length ∧
        ∀ zs, Filled (.array item) zs col → Filled (.array item) (zs ++ ys) c)
    (s := col) ⟨rfl, fun zs h => by rwa [List.append_nil]⟩ hstep xs hxs
  refine ⟨c, hc, fun n hn => ?_, hfilled⟩
  change List.length (α := Nat) col.1 = n at hn
  rw [hn] at hlen
  exact hlen

/-- The nested values, and a flag for each. -/
theorem converts_nullable {libc : Libc} {nested : ChType} (ih : Converts libc nested) :
    Converts libc (.nullable nested) := by
  intro v col hacc
  obtain ⟨xs, rfl⟩ := accepts_array (t := nested) hacc
  obtain ⟨data, hdata, hrows, hfilled⟩ := @ih _ col.1 hacc
  have hlen : ∀ n, List.length (α := Bool) col.2 = n →
      List.length (α := Bool) (List.append (α := Bool) col.2 (xs.map Value.isNull)) =
        n + xs.length := by
    rintro n rfl
    exact List.length_append.trans (by rw [List.length_map])
  refine ⟨(data, List.append (α := Bool) col.2 (xs.map Value.isNull)), ?_, ?_, ?_⟩
  · rw [column2ClickColumn, hdata]
    rfl
  · rintro n ⟨hn, hn'⟩
    exact ⟨hlen n hn, hrows n hn'⟩
  · rintro ys ⟨hys, hys'⟩
    exact ⟨(hlen _ hys).trans List.length_append.symm, hfilled ys hys'⟩

/-- The values that are accepted convert, each to one more row. -/
theorem convert_of_accepts (libc : Libc) (t : ChType) : Converts libc t := by
  induction t using ChType.inductOn with
  | leaf l => exact converts_leaf libc l
  | array item ih => exact converts_array ih
  | nullable nested ih => exact converts_nullable ih
  | tuple items => intro v col hacc; exact hacc.elim

/-- An element whose row was appended is one that is accepted and joins. -/
theorem accepts_of_appendRow {libc : Libc} {item : ChType}
    (hitem : ∀ {v : Value} {col c : Column item},
      column2ClickColumn libc item v col = .ok c → Accepts item v)
    {col c : List Nat × Column item} {el : Value} (h : appendRow libc item col el = .ok c) :
    Accepts item el ∧ Joins item (vectorOf el) := by
  obtain ⟨row, hrow, happend⟩ := appendRow_ok h
  have hacc := hitem hrow
  refine ⟨hacc, ?_⟩
  obtain ⟨row', hrow', -, hfilled⟩ := @convert_of_accepts libc item _ (Column.create item) hacc
  rw [hrow] at hrow'
  cases hrow'
  by_contra hnot
  obtain ⟨f, hfail⟩ :=
    (@Column.append_filled item _ col.2 _ (hfilled [] (filled_create item))).2 hnot
  change (Column.append item col.2 row >>= _) = _ at happend
  rw [hfail] at happend
  cases happend

/-- Only accepted values convert. -/
theorem accepts_of_convert (libc : Libc) (t : ChType) : ∀ {v : Value} {col c : Column t},
    column2ClickColumn libc t v col = .ok c → Accepts t v := by
  induction t using ChType.inductOn with
  | leaf l =>
      intro v col c h
      by_cases hv : ∃ xs, v = .array xs
      · obtain ⟨xs, rfl⟩ := hv
        refine ⟨xs, rfl, foldlM_eq_ok (fun s₁ x s₂ hstep => ?_) xs h⟩
        rcases appendCell_cases libc l x with ⟨hfit, -⟩ | ⟨-, what, hthrow⟩
        · exact hfit
        · rw [hthrow] at hstep; cases hstep
      · rw [column2ClickColumn, readVector_of_not_array hv] at h
        cases h
  | array item ih =>
      intro v col c h
      by_cases hv : ∃ xs, v = .array xs
      · obtain ⟨xs, rfl⟩ := hv
        rw [column2ClickColumn_array] at h
        exact ⟨xs, rfl, foldlM_eq_ok (fun s₁ x s₂ hstep => accepts_of_appendRow ih hstep) xs h⟩
      · rw [column2ClickColumn, readVector_of_not_array hv] at h
        cases h
  | nullable nested ih =>
      intro v col c h
      rw [column2ClickColumn] at h
      cases hdata : column2ClickColumn libc nested v col.1 with
      | error f => rw [hdata] at h; cases h
      | ok data => exact ih hdata
  | tuple items => intro v col c h; cases h

/-- A conversion to a fresh column leaves as many rows as there are elements. -/
theorem size_convert {libc : Libc} {t : ChType} {xs : List Value} {col : Column t}
    (h : column2ClickColumn libc t (.array xs) (Column.create t) = .ok col) :
    Column.size t col = xs.length := by
  have hacc := accepts_of_convert libc t h
  obtain ⟨col', hcol', hrows, -⟩ := @convert_of_accepts libc t _ (Column.create t) hacc
  rw [h] at hcol'
  cases hcol'
  have hsize := size_of_hasRows (hrows 0 (hasRows_create t)) (not_tuple_of_accepts hacc)
  rwa [Nat.zero_add] at hsize

theorem appendRow_misread {libc : Libc} {item : ChType} {col : List Nat × Column item}
    {el : Value} : appendRow libc item col el = .error misread ↔
      column2ClickColumn libc item el (Column.create item) = .error misread := by
  unfold appendRow
  cases hrow : column2ClickColumn libc item el (Column.create item) with
  | error f =>
      show (Except.error f = .error misread) ↔ _
      rw [Except.error.injEq, Except.error.injEq]
  | ok row =>
      refine ⟨fun h => ?_, fun h => by cases h⟩
      change (Column.append item col.2 row >>= _) = _ at h
      cases happ : Column.append item col.2 row with
      | ok data => rw [happ] at h; cases h
      | error f =>
          have hclient := Column.append_error happ
          rw [happ] at h
          exact absurd (Except.error.inj h) (clientFault_ne_misread hclient)

/-- **Tag safety.** The conversion of a value never reads the array of a value that is
not one exactly when the value is an array where the type needs one. -/
theorem column2ClickColumn_misread_iff (libc : Libc) (t : ChType) : ∀ (v : Value) (col : Column t),
    column2ClickColumn libc t v col ≠ .error misread ↔ TagSafe t v := by
  induction t using ChType.inductOn with
  | leaf l =>
      intro v col
      by_cases hv : ∃ xs, v = .array xs
      · refine ⟨fun _ => hv, fun _ h => ?_⟩
        obtain ⟨xs, rfl⟩ := hv
        obtain ⟨ys, x, zs, s', -, -, hstep⟩ := foldlM_eq_error.mp h
        rcases appendCell_cases libc l x with ⟨-, cell, hcell⟩ | ⟨-, what, hthrow⟩
        · rw [hcell] at hstep; cases hstep
        · rw [hthrow] at hstep; cases hstep
      · rw [column2ClickColumn, readVector_of_not_array hv]
        exact ⟨fun h => absurd rfl h, fun h => absurd h hv⟩
  | array item ih =>
      intro v col
      by_cases hv : ∃ xs, v = .array xs
      · obtain ⟨xs, rfl⟩ := hv
        refine Iff.trans (not_congr foldlM_eq_error) ⟨?_, ?_⟩
        · intro hnone
          refine ⟨xs, rfl, fun ys x zs hsplit hys => ?_⟩
          by_contra hunsafe
          have hacc : Accepts (.array item) (.array ys) := ⟨ys, rfl, hys⟩
          obtain ⟨s', hs', -⟩ := @convert_of_accepts libc (.array item) _ col hacc
          refine hnone ⟨ys, x, zs, s', hsplit, hs', appendRow_misread.mpr ?_⟩
          by_contra hsafe
          exact hunsafe ((ih x (Column.create item)).mp hsafe)
        · rintro ⟨xs', hxs', hsafe⟩ ⟨ys, x, zs, s', hsplit, hys, hstep⟩
          cases hxs'
          have hacc := foldlM_eq_ok
            (fun s₁ y s₂ h => accepts_of_appendRow (accepts_of_convert libc item) h) ys hys
          have hx := hsafe ys x zs hsplit hacc
          exact (ih x (Column.create item)).mpr hx (appendRow_misread.mp hstep)
      · rw [column2ClickColumn, readVector_of_not_array hv]
        refine ⟨fun h => absurd rfl h, fun h => ?_⟩
        obtain ⟨xs, hxs, -⟩ := h
        exact absurd ⟨xs, hxs⟩ hv
  | nullable nested ih =>
      intro v col
      show _ ↔ TagSafe nested v
      rw [← ih v col.1, column2ClickColumn]
      cases hdata : column2ClickColumn libc nested v col.1 with
      | error f =>
          show ¬ (Except.error f = .error misread) ↔ ¬ (Except.error f = .error misread)
          rw [Except.error.injEq, Except.error.injEq]
      | ok data =>
          obtain ⟨xs, rfl⟩ := accepts_array (accepts_of_convert libc nested hdata)
          exact ⟨fun _ h => (by cases h), fun _ h => (by cases h)⟩
  | tuple items => exact fun v col => ⟨fun _ => trivial, fun _ h => by cases h⟩

/-- The table of the lines `{"a":[1]}` and `{"b":1}`: the second has no `a`. -/
def paddedTable : ClickTable :=
  let arrayLine := Json.object [([97], .array [.scalar (.uint 1)])]
  let plainLine := Json.object [([98], .scalar (.uint 1))]
  ((({} : Json2Click).parseLine arrayLine.stream).1.parseLine plainLine.stream).1.m_table

/-- A C library for conversions that call none of it. -/
def idleLibc : Libc where
  scan_d _ := none
  scan_ld _ := none
  scan_lx _ := none
  scan_lf _ := none
  printDouble _ := []
  inet_addr _ := 0
  ntohl n := n
  strptime _ _ tm := tm
  mktime _ := 0
  timezone := 0
  time := 0
  indeterminateTm := {}
  doubleOfUInt64 _ := 0
  doubleOfInt64 _ := 0
  doubleToFloat _ := 0
  doubleToUInt64 _ := 0
  doubleToUInt32 _ := 0
  doubleToUInt16 _ := 0
  doubleToUInt8 _ := 0

/-- The cell that pads the missing member is read as an array when the file is sent
to a table where `a` is an `Array(Int32)`. -/
theorem paddedTable_misread :
    (ClickTable.load {} "t.cdb" (some paddedTable.saved)).columns =
      [([97], ⟨[.array [.uint 1], .null]⟩), ([98], ⟨[.null, .uint 1]⟩)] ∧
    column2ClickColumn idleLibc (.array (.leaf .int32)) (.array [.array [.uint 1], .null])
      (Column.create _) = .error misread := by
  exact ⟨by decide +kernel, rfl⟩

end FlexEtl
