/-
FlexEtl.Lib.Ragged — rows of different lengths in one list.

A list of rows is kept as the flat list of its items and the list of the row
ends, the running sums of the row lengths. `ends_append_one` is how a row is
appended to that form, and `drop_take_flatten` how one is read back from it.
-/
import Mathlib.Algebra.BigOperators.Group.List.Lemmas
import Mathlib.Tactic.Ring

namespace Ragged

/-- The running sums of a list of lengths. -/
def ends (lens : List Nat) : List Nat :=
  (List.range lens.length).map fun i => (lens.take (i + 1)).sum

@[simp] theorem ends_nil : ends [] = [] := rfl

@[simp] theorem length_ends (lens : List Nat) : (ends lens).length = lens.length := by
  simp [ends]

/-- A row more is an end more: the sum so far and the length of the row. -/
theorem ends_append_one (lens : List Nat) (n : Nat) :
    ends (lens ++ [n]) = ends lens ++ [lens.sum + n] := by
  unfold ends
  rw [List.length_append, List.length_singleton, List.range_succ, List.map_append]
  congr 1
  · refine List.map_congr_left fun i hi => ?_
    have hi' : i + 1 ≤ lens.length := List.mem_range.mp hi
    rw [List.take_append_of_le_length hi']
  · simp

theorem getLast_ends (lens : List Nat) : (ends lens).getLast?.getD 0 = lens.sum := by
  rcases List.eq_nil_or_concat lens with rfl | ⟨init, last, rfl⟩
  · rfl
  · rw [List.concat_eq_append, ends_append_one]
    simp

theorem getD_ends {lens : List Nat} {i : Nat} (hi : i < lens.length) :
    (ends lens).getD i 0 = (lens.take (i + 1)).sum := by
  simp [ends, hi]

/-- Where row `i` begins. -/
theorem begin_ends {lens : List Nat} {i : Nat} (hi : i < lens.length) :
    (if i = 0 then 0 else (ends lens).getD (i - 1) 0) = (lens.take i).sum := by
  cases i with
  | zero => rfl
  | succ i => simpa using getD_ends (Nat.lt_of_succ_lt hi)

theorem sum_take_succ {lens : List Nat} {i : Nat} (hi : i < lens.length) :
    (lens.take (i + 1)).sum = (lens.take i).sum + lens[i] := by
  rw [List.take_add_one, List.getElem?_eq_getElem hi, Option.toList_some, List.sum_append]
  simp

/-- Row `i` lies in the flat list right after the rows before it. -/
theorem drop_take_flatten {α : Type} {rows : List (List α)} {i : Nat} (hi : i < rows.length) :
    (rows.flatten.drop ((rows.map List.length).take i).sum).take rows[i].length = rows[i] := by
  have hlen : i < (rows.map List.length).length := by simpa using hi
  have hrow := rows.drop_take_succ_flatten_eq_getElem i hi
  rw [sum_take_succ hlen, List.getElem_map, List.drop_take, Nat.add_sub_cancel_left] at hrow
  exact hrow

/-- Rows that are no longer than others, each than its own, are those others if there is
as much in them altogether. -/
theorem eq_of_flatten_eq {α : Type} {rows rows' : List (List α)}
    (hle : List.Forall₂ (fun row row' => row.length ≤ row'.length) rows rows')
    (heq : rows.flatten = rows'.flatten) : rows = rows' := by
  induction hle with
  | nil => rfl
  | @cons row row' rows rows' hrow hrows ih =>
      have hrest : rows.flatten.length ≤ rows'.flatten.length := by
        clear ih heq
        induction hrows with
        | nil => exact Nat.le_refl _
        | cons hle _ ih =>
            rw [List.flatten_cons, List.flatten_cons, List.length_append, List.length_append]
            exact Nat.add_le_add hle ih
      rw [List.flatten_cons, List.flatten_cons] at heq
      have hlen : row.length = row'.length := by
        have htotal := congrArg List.length heq
        rw [List.length_append, List.length_append] at htotal
        omega
      obtain ⟨rfl, htail⟩ := List.append_inj heq hlen
      rw [ih htail]

end Ragged
