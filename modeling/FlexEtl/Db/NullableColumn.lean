/-
FlexEtl.Db.NullableColumn — nulls in a Nullable column.

The conversion to `Nullable(T)` gives the whole list, nulls included, to the
conversion to `T` and adds the flags afterwards. Each element has a cell of
its own there, the one that it would have had alone (`slice_convert`), so the
cells of the other elements do not depend on the nulls; but a null has to
convert like the others, and an enumeration throws on it
(`acceptsNulls_iff`).
-/
import FlexEtl.Db.ColumnTheorems
import Mathlib.Data.List.Forall2

namespace FlexEtl

open ExceptFold

/-! ## One cell for each element -/

/-- A conversion to a leaf type appends the cells of the elements, in their order. -/
theorem convert_leaf {libc : Libc} {l : LeafType} {xs : List Value} {col c : List Cell}
    (h : column2ClickColumn libc (.leaf l) (.array xs) col = .ok c) :
    ∃ cells : List Cell, c = col ++ cells ∧
      List.Forall₂ (fun x cell => appendCell libc l x = .ok cell) xs cells := by
  refine foldlM_eq_ok_invariant
    (I := fun ys c => ∃ cells : List Cell, c = col ++ cells ∧
      List.Forall₂ (fun x cell => appendCell libc l x = .ok cell) ys cells)
    ⟨[], (List.append_nil col).symm, .nil⟩ ?_ xs h
  rintro ys _ x c' ⟨cells, rfl, hcells⟩ hstep
  cases hcell : appendCell libc l x with
  | error f => rw [hcell] at hstep; cases hstep
  | ok cell =>
      rw [hcell] at hstep
      cases hstep
      refine ⟨cells ++ [cell], List.append_assoc col cells [cell], ?_⟩
      exact List.rel_append hcells (.cons hcell .nil)

theorem getElem?_of_forall₂ {α β : Type} {R : α → β → Prop} {xs : List α} {ys : List β}
    (h : List.Forall₂ R xs ys) {i : Nat} {x : α} (hx : xs[i]? = some x) :
    ∃ y, ys[i]? = some y ∧ R x y := by
  induction h generalizing i with
  | nil => simp at hx
  | cons hhead _ ih =>
      cases i with
      | zero =>
          obtain rfl : _ = x := by simpa using hx
          exact ⟨_, rfl, hhead⟩
      | succ i => exact ih (by simpa using hx)

/-- The element of a list, as a list. -/
theorem take_drop_one {α : Type} {xs : List α} {i : Nat} {x : α} (hx : xs[i]? = some x) :
    (xs.drop i).take 1 = [x] := by
  obtain ⟨hi, rfl⟩ := List.getElem?_eq_some_iff.mp hx
  rw [List.drop_eq_getElem_cons hi]
  rfl

/-- Each element has the cell that it has when it is converted alone. -/
theorem slice_convert {libc : Libc} {t : ChType} (ht : Sliceable t) {xs : List Value} :
    ∀ {n : Nat} {col c : Column t}, HasRows t col n →
      column2ClickColumn libc t (.array xs) col = .ok c → ∀ {i : Nat} {x : Value},
      xs[i]? = some x → ∃ alone, column2ClickColumn libc t (.array [x]) (Column.create t) =
        .ok alone ∧ Column.slice t c (n + i) 1 = .ok (some alone) := by
  induction t using ChType.inductOn with
  | leaf l =>
      intro n col c hrows h i x hx
      change List.length (α := Cell) col = n at hrows
      obtain ⟨cells, rfl, hcells⟩ := convert_leaf h
      obtain ⟨cell, hcell, happend⟩ := getElem?_of_forall₂ hcells hx
      refine ⟨([cell] : List Cell), ?_, ?_⟩
      · exact (column2ClickColumn_singleton libc l x []).trans (by rw [happend]; rfl)
      · have hget : (List.append (α := Cell) col cells)[n + i]? = some cell := by
          have hright := @List.getElem?_append_right Cell col cells (n + i) (by omega)
          rw [show n + i - List.length (α := Cell) col = i by omega, hcell] at hright
          exact hright
        exact congrArg (fun cells => Except.ok (some cells)) (take_drop_one hget)
  | array item _ => exact ht.elim
  | nullable nested ih =>
      intro n col c hrows h i x hx
      obtain ⟨hflags, hnested⟩ := hrows
      rw [column2ClickColumn] at h
      cases hdata : column2ClickColumn libc nested (.array xs) col.1 with
      | error f => rw [hdata] at h; cases h
      | ok data =>
          rw [hdata] at h
          cases h
          obtain ⟨alone, halone, hslice⟩ := ih ht hnested hdata hx
          refine ⟨(alone, [x.isNull]), ?_, ?_⟩
          · rw [column2ClickColumn, Column.create, halone]
            rfl
          · have hget : (col.2 ++ xs.map Value.isNull)[n + i]? = some x.isNull := by
              rw [List.getElem?_append_right (by omega),
                show n + i - col.2.length = i by omega, List.getElem?_map, hx]
              rfl
            have hone := take_drop_one hget
            show (Column.slice nested data (n + i) 1 >>= _) = _
            rw [hslice]
            show Column.makeNullable nested (some alone) (((col.2 ++ _).drop (n + i)).take 1) = _
            rw [hone]
            exact if_pos (size_convert halone)
  | tuple items => exact ht.elim

/-! ## Nulls -/

/-- An enumeration, at any depth of Nullable. -/
def IsEnum : ChType → Prop
  | .leaf (.enum8 _) => True
  | .leaf (.enum16 _) => True
  | .nullable nested => IsEnum nested
  | _ => False

/-- A list converts when its elements do, each alone. -/
theorem accepts_iff {t : ChType} (ht : Sliceable t) (xs : List Value) :
    Accepts t (.array xs) ↔ ∀ x ∈ xs, Accepts t (.array [x]) := by
  induction t using ChType.inductOn with
  | leaf l =>
      constructor
      · rintro ⟨ys, hys, hfits⟩ x hx
        cases hys
        exact ⟨[x], rfl, by simpa using hfits x hx⟩
      · intro h
        refine ⟨xs, rfl, fun x hx => ?_⟩
        obtain ⟨ys, hys, hfits⟩ := h x hx
        cases hys
        exact hfits x (List.mem_singleton_self x)
  | array item _ => exact ht.elim
  | nullable nested ih => exact ih ht
  | tuple items => exact ht.elim

/-- All types but the enumerations take a null. -/
theorem accepts_null_iff {t : ChType} (ht : Sliceable t) :
    Accepts t (.array [.null]) ↔ ¬ IsEnum t := by
  induction t using ChType.inductOn with
  | leaf l => cases l <;> simp [Accepts, CellFits, EnumFits, IsEnum]
  | array item _ => exact ht.elim
  | nullable nested ih => exact ih ht
  | tuple items => exact ht.elim

/-- The conversion of the list to `Nullable(t)` succeeds, the flags are those of the nulls,
and each other cell is what converting its element to `t` gives. -/
def AcceptsNulls (libc : Libc) (t : ChType) (xs : List Value) : Prop :=
  ∃ data : Column t, column2ClickColumn libc (.nullable t) (.array xs)
      (Column.create (.nullable t)) = .ok (data, xs.map Value.isNull) ∧
    ∀ i x, xs[i]? = some x → x.isNull = false →
      ∃ alone, column2ClickColumn libc t (.array [x]) (Column.create t) = .ok alone ∧
        Column.slice t data i 1 = .ok (some alone)

theorem acceptsNulls_of_accepts {libc : Libc} {t : ChType} (ht : Sliceable t) {xs : List Value}
    (h : Accepts t (.array xs)) : AcceptsNulls libc t xs := by
  obtain ⟨data, hdata, -, -⟩ := @convert_of_accepts libc t _ (Column.create t) h
  refine ⟨data, ?_, fun i x hx _ => ?_⟩
  · rw [column2ClickColumn, Column.create, hdata]
    rfl
  · have hcell := slice_convert ht (hasRows_create t) hdata hx
    rwa [Nat.zero_add] at hcell

theorem accepts_of_acceptsNulls {libc : Libc} {t : ChType} {xs : List Value}
    (h : AcceptsNulls libc t xs) : Accepts t (.array xs) := by
  obtain ⟨data, hconvert, -⟩ := h
  exact accepts_of_convert libc (.nullable t) hconvert

/-- **Nullable columns.** For a type without arrays, and a list whose elements convert to it
except for the nulls: the list converts to the Nullable type, with the flags of its nulls and
the cells of the others, exactly when the type is no enumeration or there is no null. -/
theorem acceptsNulls_iff {libc : Libc} {t : ChType} (ht : Sliceable t) {xs : List Value}
    (hxs : ∀ x ∈ xs, x.isNull = false →
      ∃ alone, column2ClickColumn libc t (.array [x]) (Column.create t) = .ok alone) :
    AcceptsNulls libc t xs ↔ ¬ IsEnum t ∨ ∀ x ∈ xs, x.isNull = false := by
  constructor
  · intro h
    by_cases hnulls : ∀ x ∈ xs, x.isNull = false
    · exact .inr hnulls
    · push Not at hnulls
      obtain ⟨x, hx, hnull⟩ := hnulls
      obtain rfl : x = .null := by
        cases x with
        | null => rfl
        | _ => exact absurd rfl hnull
      have hall := (accepts_iff ht xs).mp (accepts_of_acceptsNulls h)
      exact .inl ((accepts_null_iff ht).mp (hall .null hx))
  · intro h
    refine acceptsNulls_of_accepts ht ((accepts_iff ht xs).mpr fun x hx => ?_)
    cases hnull : x.isNull with
    | false =>
        obtain ⟨alone, halone⟩ := hxs x hx hnull
        exact accepts_of_convert libc t halone
    | true =>
        obtain rfl : x = .null := by
          cases x with
          | null => rfl
          | _ => cases hnull
        refine (accepts_null_iff ht).mpr (h.resolve_right fun hnone => ?_)
        exact absurd (hnone .null hx) (by decide)

/-- A number and a null in a column of type `Nullable(Int32)`. -/
theorem acceptsNulls_int32 : AcceptsNulls idleLibc (.leaf .int32) [.int 1, .null] :=
  (@acceptsNulls_iff idleLibc (.leaf .int32) trivial [.int 1, .null] (fun x hx _ => by
    rcases List.mem_pair.mp hx with rfl | rfl
    · exact ⟨_, rfl⟩
    · exact ⟨_, rfl⟩)).mpr (.inl id)

/-- A number converts to the enumeration, and together with a null it does not. -/
theorem nullable_enum8_throws :
    (∃ alone, column2ClickColumn idleLibc (.leaf (.enum8 [([97], 1)])) (.array [.uint 1])
      (Column.create _) = .ok alone) ∧
    column2ClickColumn idleLibc (.nullable (.leaf (.enum8 [([97], 1)]))) (.array [.uint 1, .null])
      (Column.create _) = .error (.thrown "convert to Enum8 failed") ∧
    ¬ AcceptsNulls idleLibc (.leaf (.enum8 [([97], 1)])) [.uint 1, .null] := by
  refine ⟨⟨_, rfl⟩, rfl, ?_⟩
  rintro ⟨data, hconvert, -⟩
  cases hconvert

end FlexEtl
