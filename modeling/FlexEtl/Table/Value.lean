/-
FlexEtl.Table.Value — the tagged union of `clicktbl.h`.

The C++ `Value` is a `ClickType` tag beside a union. Here it is an inductive
type with one constructor per tag, so the payload a constructor carries is
the union member its tag selects. Reading `_vector` is the one access the
program makes without looking at the tag first (`column2ClickColumn`), so it
has its own partial reader `vector?`; every other access switches on the tag.

A `std::string` is a list of bytes: it may hold zero bytes, and `std::map`
orders it bytewise. An `int64_t` and a `uint64_t` keep their 64 bits, and a
`double` is its bit pattern, which is all that is stored and restored.
-/
import Mathlib.Data.List.Basic

namespace FlexEtl

/-- The contents of a `std::string`. -/
abbrev Bytes := List UInt8

/-! ## Tags -/

/-- `enum ClickType`. -/
inductive ClickType where
  | unknown
  | str
  | int
  | uint
  | double
  | array
  | bool
  deriving DecidableEq, Repr

/-- The enumerator's number, which is what `storeValue` writes. -/
def ClickType.code : ClickType → Nat
  | .unknown => 0
  | .str => 1
  | .int => 2
  | .uint => 3
  | .double => 4
  | .array => 5
  | .bool => 6

/-- The enumerator a number stands for, if it is one. -/
def ClickType.ofCode? : Nat → Option ClickType
  | 0 => some .unknown
  | 1 => some .str
  | 2 => some .int
  | 3 => some .uint
  | 4 => some .double
  | 5 => some .array
  | 6 => some .bool
  | _ => none

@[simp] theorem ClickType.ofCode?_code (t : ClickType) : ofCode? t.code = some t := by
  cases t <;> rfl

/-! ## Values -/

/-- `struct Value`: the null value is the default-constructed `Value()`. -/
inductive Value where
  | null
  | str (s : Bytes)
  | int (i : Int64)
  | uint (u : UInt64)
  | double (bits : UInt64)
  | array (xs : List Value)
  | bool (b : Bool)
  deriving Repr, Inhabited

namespace Value

/-- `Value::type`. -/
def type : Value → ClickType
  | null => .unknown
  | str _ => .str
  | int _ => .int
  | uint _ => .uint
  | double _ => .double
  | array _ => .array
  | bool _ => .bool

/-- `Value::isNull`. -/
def isNull (v : Value) : Bool := v.type == .unknown

/-- Reading the union member `_vector`: defined only under the tag `CT_ARRAY`. -/
def vector? : Value → Option (List Value)
  | array xs => some xs
  | _ => none

@[simp] theorem isNull_iff {v : Value} : v.isNull = true ↔ v = null := by
  cases v <;> simp [isNull, type]

@[simp] theorem vector?_array (xs : List Value) : (array xs).vector? = some xs := rfl

/-- Induction over a value: the elements of an array come with their hypotheses. -/
theorem inductOn {P : Value → Prop} (v : Value)
    (null : P .null) (str : ∀ s, P (.str s)) (int : ∀ i, P (.int i))
    (uint : ∀ u, P (.uint u)) (double : ∀ d, P (.double d)) (bool : ∀ b, P (.bool b))
    (array : ∀ xs, (∀ x ∈ xs, P x) → P (.array xs)) : P v :=
  @Value.rec P (fun xs => ∀ x ∈ xs, P x)
    null str int uint double (fun xs ih => array xs ih) bool
    (by simp) (fun _ _ hx hxs y hy => (List.mem_cons.mp hy).elim (· ▸ hx) (hxs y)) v

/-! ### Deciding equality -/

/-- Structural comparison, through the elements of an array. -/
def beq : Value → Value → Bool
  | null, null => true
  | str s, str t => s == t
  | int i, int j => i == j
  | uint i, uint j => i == j
  | double i, double j => i == j
  | bool a, bool b => a == b
  | array xs, array ys => beqList xs ys
  | _, _ => false
where
  beqList : List Value → List Value → Bool
    | [], [] => true
    | x :: xs, y :: ys => x.beq y && beqList xs ys
    | _, _ => false

theorem beqList_iff {xs ys : List Value} (h : ∀ x ∈ xs, ∀ w, x.beq w = true ↔ x = w) :
    beq.beqList xs ys = true ↔ xs = ys := by
  induction xs generalizing ys with
  | nil => cases ys <;> simp [beq.beqList]
  | cons x xs ih =>
      cases ys with
      | nil => simp [beq.beqList]
      | cons y ys =>
          simp only [beq.beqList, Bool.and_eq_true, List.cons.injEq]
          rw [h x (by simp), ih fun z hz => h z (by simp [hz])]

theorem beq_iff (v w : Value) : v.beq w = true ↔ v = w := by
  induction v using inductOn generalizing w with
  | array xs ih =>
      cases w with
      | array ys => simpa [beq] using beqList_iff ih
      | _ => simp [beq]
  | _ => cases w <;> simp [beq]

instance : DecidableEq Value := fun v w =>
  decidable_of_iff (v.beq w = true) (beq_iff v w)

/-! ### Strings and lengths inside a value -/

/-- Every string inside the value satisfies `S` and every array length `N`. -/
def Every (S : Bytes → Prop) (N : Nat → Prop) : Value → Prop
  | str s => S s
  | array xs => N xs.length ∧ everyList xs
  | _ => True
where
  everyList : List Value → Prop
    | [] => True
    | x :: xs => x.Every S N ∧ everyList xs

theorem everyList_iff {S : Bytes → Prop} {N : Nat → Prop} {xs : List Value} :
    Every.everyList S N xs ↔ ∀ x ∈ xs, x.Every S N := by
  induction xs with
  | nil => simp [Every.everyList]
  | cons x xs ih => simp [Every.everyList, ih]

@[simp] theorem every_array {S : Bytes → Prop} {N : Nat → Prop} {xs : List Value} :
    (array xs).Every S N ↔ N xs.length ∧ ∀ x ∈ xs, x.Every S N := by
  rw [Every, everyList_iff]

@[simp] theorem every_str {S : Bytes → Prop} {N : Nat → Prop} {s : Bytes} :
    (str s).Every S N ↔ S s := Iff.rfl

/-- The strings of one fact and the lengths of another. -/
theorem Every.combine {S S' : Bytes → Prop} {N N' : Nat → Prop} {v : Value}
    (h : v.Every S N) (h' : v.Every S' N') : v.Every S N' := by
  induction v using inductOn with
  | array xs ih =>
      obtain ⟨-, hxs⟩ := every_array.mp h
      obtain ⟨hn, hxs'⟩ := every_array.mp h'
      exact every_array.mpr ⟨hn, fun x hx => ih x hx (hxs x hx) (hxs' x hx)⟩
  | str s => exact h
  | _ => trivial

theorem Every.and {S S' : Bytes → Prop} {N N' : Nat → Prop} {v : Value}
    (h : v.Every S N) (h' : v.Every S' N') :
    v.Every (fun s => S s ∧ S' s) (fun n => N n ∧ N' n) := by
  induction v using inductOn with
  | array xs ih =>
      obtain ⟨hn, hxs⟩ := every_array.mp h
      obtain ⟨hn', hxs'⟩ := every_array.mp h'
      exact every_array.mpr ⟨⟨hn, hn'⟩, fun x hx => ih x hx (hxs x hx) (hxs' x hx)⟩
  | str s => exact ⟨h, h'⟩
  | _ => trivial

theorem Every.imp {S S' : Bytes → Prop} {N N' : Nat → Prop} {v : Value} (h : v.Every S N)
    (hS : ∀ s, S s → S' s) (hN : ∀ n, N n → N' n) : v.Every S' N' := by
  induction v using inductOn with
  | array xs ih =>
      obtain ⟨hn, hxs⟩ := every_array.mp h
      exact every_array.mpr ⟨hN _ hn, fun x hx => ih x hx (hxs x hx)⟩
  | str s => exact hS s h
  | _ => trivial

/-- How deep arrays nest: the recursion depth of `storeValue` and `restoreValue`. -/
def depth : Value → Nat
  | array xs => depthList xs + 1
  | _ => 0
where
  depthList : List Value → Nat
    | [] => 0
    | x :: xs => max x.depth (depthList xs)

theorem depth_lt_of_mem {x : Value} {xs : List Value} (h : x ∈ xs) :
    x.depth < (array xs).depth := by
  suffices x.depth ≤ depth.depthList xs by simpa [depth] using Nat.lt_succ_of_le this
  induction xs with
  | nil => simp at h
  | cons y ys ih =>
      rcases List.mem_cons.mp h with rfl | hy
      · exact Nat.le_max_left _ _
      · exact Nat.le_trans (ih hy) (Nat.le_max_right _ _)

end Value

end FlexEtl
