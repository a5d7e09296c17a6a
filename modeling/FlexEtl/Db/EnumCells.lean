/-
FlexEtl.Db.EnumCells — the codes that an enumeration receives.

The client looks a name up in the definition and throws when it is not there.
A number it takes as it is, cut to the width of the code. So a name always
becomes a declared code (`appendCell_name`), and a number becomes the
declared code that it is only if it is one (`sendsDeclared_iff`).
-/
import FlexEtl.Db.NullableColumn

namespace FlexEtl

/-! ## Definitions of enumerations -/

/-- The bytes of a code. -/
inductive EnumWidth where
  | enum8
  | enum16
  deriving DecidableEq, Repr

def EnumWidth.bits : EnumWidth → Nat
  | .enum8 => 8
  | .enum16 => 16

/-- `Enum8(…)` or `Enum16(…)`: the names and their codes, which have the width. -/
structure EnumDef where
  width : EnumWidth
  items : List (Bytes × Int)
  fits : ∀ item ∈ items, -2 ^ (width.bits - 1) ≤ item.2 ∧ item.2 < 2 ^ (width.bits - 1)

namespace EnumDef

/-- The type of a column with this definition. -/
def leaf (d : EnumDef) : LeafType :=
  match d.width with
  | .enum8 => .enum8 d.items
  | .enum16 => .enum16 d.items

/-- `n` is one of the codes. -/
def Declares (d : EnumDef) (n : Int) : Prop := n ∈ d.items.map Prod.snd

theorem cellFits_leaf (d : EnumDef) (x : Value) : CellFits d.leaf x ↔ EnumFits d.items x := by
  unfold leaf
  cases d.width <;> rfl

/-- A declared code has the width, so cutting it leaves it. -/
theorem bmod_of_declares {d : EnumDef} {n : Int} (h : d.Declares n) :
    n.bmod (2 ^ d.width.bits) = n := by
  obtain ⟨item, hitem, rfl⟩ := List.mem_map.mp h
  have hfits := d.fits item hitem
  cases hwidth : d.width with
  | enum8 =>
      simp only [hwidth, EnumWidth.bits] at hfits ⊢
      exact Int.bmod_eq_of_le (by omega) (by omega)
  | enum16 =>
      simp only [hwidth, EnumWidth.bits] at hfits ⊢
      exact Int.bmod_eq_of_le (by omega) (by omega)

/-- What the client keeps for a name is a declared code. -/
theorem declares_of_enumValue {d : EnumDef} {name : Bytes} {n : Int}
    (h : enumValue? d.items name = some n) : d.Declares n := by
  unfold enumValue? at h
  obtain ⟨item, hfind, rfl⟩ := Option.map_eq_some_iff.mp h
  exact List.mem_map.mpr ⟨item, List.mem_reverse.mp (List.mem_of_find?_eq_some hfind), rfl⟩

end EnumDef

/-! ## The two ways to a code -/

/-- The number that a value is. -/
def Value.number? : Value → Option Int
  | .uint u => some u.toNat
  | .int i => some i.toInt
  | _ => none

/-- Codes of both widths are appended in one way. -/
theorem appendCell_leaf (libc : Libc) (d : EnumDef) (x : Value) :
    ∃ what, appendCell libc d.leaf x =
      enumCell libc what (·.bmod (2 ^ d.width.bits)) d.items x := by
  unfold EnumDef.leaf
  cases d.width with
  | enum8 => exact ⟨_, rfl⟩
  | enum16 => exact ⟨_, rfl⟩

/-- A number is cut to the width, whatever the definition says. -/
theorem appendCell_number (libc : Libc) (d : EnumDef) {x : Value} {m : Int}
    (hx : x.number? = some m) :
    appendCell libc d.leaf x = .ok (.int (m.bmod (2 ^ d.width.bits))) := by
  obtain ⟨what, happend⟩ := appendCell_leaf libc d x
  rw [happend]
  cases x with
  | uint u =>
      cases hx
      simp [enumCell, Value.type, Value.getUInt64]
  | int i =>
      cases hx
      simp [enumCell, Value.type, Value.getInt64, Value.getUInt64]
  | _ => cases hx

/-- Another value that is taken is a declared name, and becomes its code. -/
theorem appendCell_name {libc : Libc} {d : EnumDef} {x : Value} {cell : Cell}
    (hx : x.number? = none) (h : appendCell libc d.leaf x = .ok cell) :
    ∃ n, d.Declares n ∧ cell = .int n := by
  have hfits : EnumFits d.items x := by
    obtain ⟨hfits, -⟩ | ⟨-, what, hthrow⟩ := appendCell_cases libc d.leaf x
    · exact (d.cellFits_leaf x).mp hfits
    · rw [hthrow] at h
      cases h
  cases x with
  | str s =>
      obtain ⟨n, hn⟩ := Option.isSome_iff_exists.mp hfits
      have hdeclared := EnumDef.declares_of_enumValue hn
      obtain ⟨what, happend⟩ := appendCell_leaf libc d (.str s)
      have hcode : appendCell libc d.leaf (.str s) =
          .ok (.int (n.bmod (2 ^ d.width.bits))) := by
        rw [happend]
        simp [enumCell, Value.type, Value.getString, hn]
      rw [hcode, EnumDef.bmod_of_declares hdeclared] at h
      cases h
      exact ⟨n, hdeclared, rfl⟩
  | uint u => cases hx
  | int i => cases hx
  | _ => exact hfits.elim

/-! ## Columns -/

/-- When the list converts, each element appends a declared code, and a number the code
that it is. -/
def SendsDeclared (libc : Libc) (d : EnumDef) (xs : List Value) : Prop :=
  ∀ cells c : List Cell, column2ClickColumn libc (.leaf d.leaf) (.array xs) cells = .ok c →
    ∃ appended : List Cell, c = cells ++ appended ∧
      List.Forall₂ (fun x cell => ∃ n, d.Declares n ∧ cell = .int n ∧
        ∀ m, x.number? = some m → n = m) xs appended

/-- **Declared enumerators.** Only declared codes are sent, and no number as another code,
exactly when some element of the list is refused anyway, a name that is not declared or a
value of another kind, or every number in it is a declared code. -/
theorem sendsDeclared_iff (libc : Libc) (d : EnumDef) (xs : List Value) :
    SendsDeclared libc d xs ↔
      (∃ x ∈ xs, ¬ EnumFits d.items x) ∨
        ∀ x ∈ xs, ∀ m, x.number? = some m → d.Declares m := by
  constructor
  · intro h
    by_cases hfits : ∀ x ∈ xs, EnumFits d.items x
    · have haccepts : Accepts (.leaf d.leaf) (.array xs) :=
        ⟨xs, rfl, fun x hx => (d.cellFits_leaf x).mpr (hfits x hx)⟩
      obtain ⟨c, hc, -⟩ := @convert_of_accepts libc (.leaf d.leaf) _ ([] : List Cell) haccepts
      obtain ⟨appended, -, hcells⟩ := h [] c hc
      refine .inr fun x hx m hm => ?_
      obtain ⟨i, hi⟩ := List.mem_iff_getElem?.mp hx
      obtain ⟨cell, -, n, hn, -, hnumber⟩ := getElem?_of_forall₂ hcells hi
      rw [← hnumber m hm]
      exact hn
    · push Not at hfits
      exact .inl hfits
  · intro h cells c hc
    obtain ⟨xs', hxs', hfits⟩ := accepts_of_convert libc (.leaf d.leaf) hc
    cases hxs'
    have hnumbers : ∀ x ∈ xs, ∀ m, x.number? = some m → d.Declares m := by
      refine h.resolve_left ?_
      rintro ⟨x, hx, hnot⟩
      exact hnot ((d.cellFits_leaf x).mp (hfits x hx))
    obtain ⟨appended, happended, hcells⟩ := convert_leaf hc
    refine ⟨appended, happended, ?_⟩
    refine List.Forall₂.imp ?_ ((List.forall₂_and_left xs appended).mpr ⟨hnumbers, hcells⟩)
    rintro x cell ⟨hdeclared, hcell⟩
    cases hx : x.number? with
    | none =>
        obtain ⟨n, hn, rfl⟩ := appendCell_name hx hcell
        exact ⟨n, hn, rfl, by simp⟩
    | some m =>
        have hm := hdeclared m hx
        rw [appendCell_number libc d hx, EnumDef.bmod_of_declares hm] at hcell
        cases hcell
        exact ⟨m, hm, rfl, by simp⟩

/-- `Enum8('a' = 1)`. -/
def oneEnum : EnumDef where
  width := .enum8
  items := [([97], 1)]
  fits := by decide

/-- The number 2 is sent as the code 2, which no name has, and the number 257 as the code 1. -/
theorem sendsDeclared_fails :
    ¬ SendsDeclared idleLibc oneEnum [.uint 2] ∧ ¬ SendsDeclared idleLibc oneEnum [.uint 257] := by
  have hone : ∀ u : UInt64, (u.toNat : Int) ≠ 1 → ¬ SendsDeclared idleLibc oneEnum [.uint u] := by
    intro u hu h
    obtain ⟨appended, -, hcells⟩ := h [] _ rfl
    obtain ⟨cell, -, n, hn, -, hnumber⟩ := @getElem?_of_forall₂ _ _ _ _ _ hcells 0 _ rfl
    have hdeclared : n = 1 := by simpa [EnumDef.Declares, oneEnum] using hn
    exact hu ((hnumber _ rfl).symm.trans hdeclared)
  exact ⟨hone 2 (by decide), hone 257 (by decide)⟩

end FlexEtl
