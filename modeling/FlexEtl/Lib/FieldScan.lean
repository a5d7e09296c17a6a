/-
FlexEtl.Lib.FieldScan — numbers scanned into the fields of a record.

A format is a list of items. A scan goes along a text, stores the number of
each item that matches in the item's field, and stops at the first mismatch,
so it stores into the fields of a prefix of the format (`stored_prefix`). The
other fields are what they were before. What is then read from the record is
a function of the text (`Determined`) only as far as it is read from the
fields stored: `determined_of_stored`, `not_determined`.
-/
import FlexEtl.Lib.Numeral
import Mathlib.Logic.Function.Basic

namespace FieldScan

open Numeral (Bytes isDigit digit? isSpace)

/-! ## Records -/

/-- The fields of a record: reading one, and writing one. -/
structure Fields (φ ν σ : Type) [DecidableEq φ] where
  get : σ → φ → ν
  set : σ → φ → ν → σ
  get_set : ∀ t f n, get (set t f n) = Function.update (get t) f n
  ext : ∀ t t', get t = get t' → t = t'

namespace Fields

variable {φ ν σ ρ : Type} [DecidableEq φ] (F : Fields φ ν σ)

/-- Several stores, one after the other. -/
def store (l : List (φ × ν)) (t : σ) : σ := l.foldl (fun t p => F.set t p.1 p.2) t

/-- A field that is not stored is what it was. -/
theorem get_store_of_not_mem {l : List (φ × ν)} {f : φ} (hf : f ∉ l.map Prod.fst) :
    ∀ t, F.get (F.store l t) f = F.get t f := by
  induction l with
  | nil => exact fun _ => rfl
  | cons p l ih =>
      intro t
      rw [List.map_cons, List.mem_cons, not_or] at hf
      have hrest := ih hf.2 (F.set t p.1 p.2)
      rw [F.get_set, Function.update_of_ne hf.1] at hrest
      exact hrest

/-- A field that is stored does not depend on what it was. -/
theorem get_store_of_mem {l : List (φ × ν)} {f : φ} (hf : f ∈ l.map Prod.fst) :
    ∀ t t', F.get (F.store l t) f = F.get (F.store l t') f := by
  induction l with
  | nil => simp at hf
  | cons p l ih =>
      intro t t'
      by_cases hlater : f ∈ l.map Prod.fst
      · exact ih hlater (F.set t p.1 p.2) (F.set t' p.1 p.2)
      · have hhead : f = p.1 := by simpa [hlater] using hf
        have hlast : ∀ t, F.get (F.store (p :: l) t) f = p.2 := by
          intro t
          have hrest := F.get_store_of_not_mem hlater (F.set t p.1 p.2)
          rw [F.get_set, hhead, Function.update_self] at hrest
          rw [hhead]
          exact hrest
        rw [hlast, hlast]

/-- A stored value is one of the values given. -/
theorem get_store_mem {l : List (φ × ν)} {f : φ} (hf : f ∈ l.map Prod.fst) :
    ∀ t, (f, F.get (F.store l t) f) ∈ l := by
  induction l with
  | nil => simp at hf
  | cons p l ih =>
      intro t
      by_cases hlater : f ∈ l.map Prod.fst
      · exact List.mem_cons_of_mem _ (ih hlater (F.set t p.1 p.2))
      · have hhead : f = p.1 := by simpa [hlater] using hf
        have hrest := F.get_store_of_not_mem hlater (F.set t p.1 p.2)
        rw [F.get_set, hhead, Function.update_self] at hrest
        have hvalue : F.get (F.store (p :: l) t) p.1 = p.2 := hrest
        rw [hhead, hvalue]
        exact List.mem_cons_self ..

/-- A store elsewhere can be made before or after. -/
theorem store_set {l : List (φ × ν)} {f : φ} (hf : f ∉ l.map Prod.fst) (t : σ) (n : ν) :
    F.store l (F.set t f n) = F.set (F.store l t) f n := by
  refine F.ext _ _ (funext fun g => ?_)
  rw [F.get_set]
  by_cases hg : g = f
  · rw [hg, Function.update_self, F.get_store_of_not_mem hf, F.get_set, Function.update_self]
  · rw [Function.update_of_ne hg]
    by_cases hmem : g ∈ l.map Prod.fst
    · exact F.get_store_of_mem hmem _ _
    · rw [F.get_store_of_not_mem hmem, F.get_store_of_not_mem hmem, F.get_set,
        Function.update_of_ne hg]

/-! ## What the stores determine -/

/-- What is read after the stores does not depend on the record that they are made in. -/
def Determined (l : List (φ × ν)) (read : σ → ρ) : Prop :=
  ∀ t t', read (F.store l t) = read (F.store l t')

/-- It is determined when it is read from the fields stored. -/
theorem determined_of_stored {l : List (φ × ν)} {read : σ → ρ}
    (hread : ∀ t t', (∀ f ∈ l.map Prod.fst, F.get t f = F.get t' f) → read t = read t') :
    F.Determined l read :=
  fun t t' => hread _ _ fun _ hf => F.get_store_of_mem hf t t'

/-- It is not when two values of a field that is not stored read differently. -/
theorem not_determined {l : List (φ × ν)} {read : σ → ρ} {f : φ} (hf : f ∉ l.map Prod.fst) {t : σ}
    {n n' : ν} (hne : read (F.set (F.store l t) f n) ≠ read (F.set (F.store l t) f n')) :
    ¬ F.Determined l read := by
  intro h
  have heq := h (F.set t f n) (F.set t f n')
  rw [F.store_set hf, F.store_set hf] at heq
  exact hne heq

end Fields

/-! ## Formats -/

/-- An item of a format: a number of at most `width` digits between `low` and `high`, of
which the distance from `base` is stored; white space; or a character. -/
inductive Item (φ : Type) where
  | number (field : φ) (base : Int) (width low high : Nat)
  | space
  | literal (c : UInt8)
  deriving DecidableEq, Repr

/-- The field that an item stores into. -/
def Item.field? {φ : Type} : Item φ → Option φ
  | .number f .. => some f
  | _ => none

/-- At most so many digits, as long as another one may still give a number in range. -/
def takeNumber (high : Nat) : Nat → Nat → Bytes → Nat × Bytes
  | width + 1, n, c :: s =>
      if n * 10 ≤ high ∧ isDigit 10 c = true then
        takeNumber high width (n * 10 + (digit? c).getD 0) s
      else (n, c :: s)
  | _, n, s => (n, s)

/-- A number in range, after white space. -/
def scanNumber (width low high : Nat) (s : Bytes) : Option (Nat × Bytes) :=
  match s.dropWhile isSpace with
  | [] => none
  | c :: rest =>
      if isDigit 10 c = true then
        let (n, rest) := takeNumber high width 0 (c :: rest)
        if low ≤ n ∧ n ≤ high then some (n, rest) else none
      else none

/-- What a scan stores, up to the first mismatch. -/
def stored {φ : Type} : List (Item φ) → Bytes → List (φ × Int)
  | [], _ => []
  | .number f base width low high :: fmt, s =>
      match scanNumber width low high s with
      | some (n, rest) => (f, n - base) :: stored fmt rest
      | none => []
  | .space :: fmt, s => stored fmt (s.dropWhile isSpace)
  | .literal c :: fmt, s =>
      match s with
      | [] => []
      | c' :: rest => if c' = c then stored fmt rest else []

section Formats

variable {φ : Type}

theorem range_of_scanNumber {width low high : Nat} {s rest : Bytes} {n : Nat}
    (h : scanNumber width low high s = some (n, rest)) : low ≤ n ∧ n ≤ high := by
  unfold scanNumber at h
  split at h
  · cases h
  · split at h
    · dsimp only at h
      split at h
      · rename_i hrange
        cases h
        exact hrange
      · cases h
    · cases h

/-- A scan stores into the fields of a prefix of the format. -/
theorem stored_prefix (fmt : List (Item φ)) :
    ∀ s, (stored fmt s).map Prod.fst <+: fmt.filterMap Item.field? := by
  induction fmt with
  | nil => exact fun _ => List.prefix_rfl
  | cons item fmt ih =>
      intro s
      cases item with
      | number f base width low high =>
          rw [stored]
          split
          · exact (List.prefix_cons_inj f).mpr (ih _)
          · exact List.nil_prefix
      | space => exact ih _
      | literal c =>
          cases s with
          | nil => exact List.nil_prefix
          | cons c' rest =>
              rw [stored]
              split
              · exact ih _
              · exact List.nil_prefix

/-- What holds of the numbers in range of each item holds of all that is stored. -/
theorem stored_forall {P : φ → Int → Prop} {fmt : List (Item φ)}
    (hfmt : ∀ f base width low high, .number f base width low high ∈ fmt →
      ∀ n : Nat, low ≤ n → n ≤ high → P f (n - base)) :
    ∀ s, ∀ p ∈ stored fmt s, P p.1 p.2 := by
  induction fmt with
  | nil => exact fun _ p hp => by cases hp
  | cons item fmt ih =>
      have hrest := ih fun f base width low high hmem =>
        hfmt f base width low high (List.mem_cons_of_mem _ hmem)
      intro s p hp
      cases item with
      | number f base width low high =>
          rw [stored] at hp
          split at hp
          · rename_i n rest hscan
            rcases List.mem_cons.mp hp with rfl | hp
            · obtain ⟨hlow, hhigh⟩ := range_of_scanNumber hscan
              exact hfmt f base width low high (List.mem_cons_self ..) n hlow hhigh
            · exact hrest _ p hp
          · cases hp
      | space => exact hrest _ p hp
      | literal c =>
          cases s with
          | nil => cases hp
          | cons c' rest =>
              rw [stored] at hp
              split at hp
              · exact hrest _ p hp
              · cases hp

end Formats

end FieldScan
