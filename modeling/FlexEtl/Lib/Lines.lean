/-
FlexEtl.Lib.Lines — lists cut at a delimiter.

`line` takes a list up to its first delimiter, and with it. `lines` are all of
them, so they flatten to the list, and `fields` are the lines without their
delimiters: an empty one at the end is not there. `next` is a line that has to
fit into so many places, and `chunks` is what comes of taking one after the
other. They are the lines exactly when all lines fit (`chunks_eq_lines_iff`).
-/
import Mathlib.Data.List.Basic
import Mathlib.Data.List.TakeWhile

namespace Lines

variable {α : Type} [DecidableEq α]

/-! ## Lines -/

/-- The list up to its first delimiter, and what is left. -/
def line (d : α) : List α → List α × List α
  | [] => ([], [])
  | x :: s => if x = d then ([x], s) else (x :: (line d s).1, (line d s).2)

@[simp] theorem line_append (d : α) (s : List α) : (line d s).1 ++ (line d s).2 = s := by
  induction s with
  | nil => rfl
  | cons x s ih =>
      rw [line]
      split
      · rfl
      · simp [ih]

theorem line_ne_nil (d : α) {s : List α} (h : s ≠ []) : (line d s).1 ≠ [] := by
  cases s with
  | nil => exact absurd rfl h
  | cons x s =>
      rw [line]
      split <;> simp

theorem length_line_lt (d : α) {s : List α} (h : s ≠ []) : (line d s).2.length < s.length := by
  have hlen := congrArg List.length (line_append d s)
  have hpos := List.length_pos_of_ne_nil (line_ne_nil d h)
  rw [List.length_append] at hlen
  omega

/-- A line is complete, or it is the last one. -/
theorem line_ends (d : α) (s : List α) : (line d s).1.getLast? = some d ∨ (line d s).2 = [] := by
  induction s with
  | nil => exact .inr rfl
  | cons x s ih =>
      rw [line]
      split
      · rename_i h
        exact .inl (by rw [h]; rfl)
      · rcases ih with hlast | hrest
        · exact .inl (by simp [List.getLast?_cons, hlast])
        · exact .inr hrest

theorem line_of_not_mem {d : α} {s : List α} (h : d ∉ s) : line d s = (s, []) := by
  induction s with
  | nil => rfl
  | cons x s ih =>
      rw [List.mem_cons, not_or] at h
      rw [line, if_neg (Ne.symm h.1), ih h.2]

theorem line_delimited {d : α} {a : List α} (h : d ∉ a) (s : List α) :
    line d (a ++ d :: s) = (a ++ [d], s) := by
  induction a with
  | nil => simp [line]
  | cons x a ih =>
      rw [List.mem_cons, not_or] at h
      rw [List.cons_append, line, if_neg (Ne.symm h.1), ih h.2, List.cons_append]

/-- All lines, each with the delimiter that ends it. -/
def lines (d : α) (s : List α) : List (List α) :=
  if _h : s = [] then [] else (line d s).1 :: lines d (line d s).2
termination_by s.length
decreasing_by exact length_line_lt d _h

@[simp] theorem lines_nil (d : α) : lines d [] = [] := by
  rw [lines, dif_pos rfl]

theorem lines_of_ne_nil (d : α) {s : List α} (h : s ≠ []) :
    lines d s = (line d s).1 :: lines d (line d s).2 := by
  rw [lines, dif_neg h]

theorem lines_delimited {d : α} {a : List α} (h : d ∉ a) (s : List α) :
    lines d (a ++ d :: s) = (a ++ [d]) :: lines d s := by
  rw [lines_of_ne_nil d (by simp), line_delimited h]

theorem lines_of_not_mem {d : α} {s : List α} (h : d ∉ s) (hne : s ≠ []) : lines d s = [s] := by
  rw [lines_of_ne_nil d hne, line_of_not_mem h, lines_nil]

/-- The lines are the whole list. -/
theorem flatten_lines (d : α) (s : List α) : (lines d s).flatten = s := by
  induction s using lines.induct d with
  | case1 => simp
  | case2 s h ih => rw [lines_of_ne_nil d h, List.flatten_cons, ih, line_append]

/-- What stands between the delimiters. -/
def fields (d : α) (s : List α) : List (List α) := (lines d s).map (·.takeWhile (· ≠ d))

/-- Pieces with a delimiter between them. -/
def joined (d : α) (a : List α) : List (List α) → List α
  | [] => a
  | b :: bs => a ++ d :: joined d b bs

theorem all_ne_of_not_mem {d : α} {a : List α} (h : d ∉ a) :
    ∀ x ∈ a, decide (x ≠ d) = true := by
  intro x hx
  rw [decide_eq_true_eq]
  rintro rfl
  exact h hx

theorem takeWhile_delimited {d : α} {a : List α} (h : d ∉ a) (s : List α) :
    (a ++ d :: s).takeWhile (· ≠ d) = a := by
  rw [List.takeWhile_append_of_pos (all_ne_of_not_mem h),
    List.takeWhile_cons_of_neg (by simp), List.append_nil]

/-- The pieces come back, but for an empty one at the end. -/
theorem fields_joined {d : α} {a : List α} {bs : List (List α)} (h : ∀ b ∈ a :: bs, d ∉ b) :
    fields d (joined d a bs) = a :: bs ∨ fields d (joined d a bs) ++ [[]] = a :: bs := by
  induction bs generalizing a with
  | nil =>
      have ha : d ∉ a := h a (by simp)
      by_cases hempty : a = []
      · exact .inr (by simp [hempty, joined, fields])
      · refine .inl ?_
        rw [joined, fields, lines_of_not_mem ha hempty, List.map_singleton,
          List.takeWhile_eq_self_iff.mpr (all_ne_of_not_mem ha)]
  | cons b bs ih =>
      have ha : d ∉ a := h a (by simp)
      have hrest := ih (a := b) fun c hc => h c (List.mem_cons_of_mem a hc)
      have hfirst : fields d (joined d a (b :: bs)) = a :: fields d (joined d b bs) := by
        rw [joined, fields, lines_delimited ha, List.map_cons, takeWhile_delimited ha]
        rfl
      rw [hfirst]
      simpa using hrest

/-! ## Chunks -/

/-- The next line, as far as it fits into `n` places, and what is left. -/
def next (d : α) : Nat → List α → List α × List α
  | 0, s => ([], s)
  | _ + 1, [] => ([], [])
  | n + 1, x :: s => if x = d then ([x], s) else (x :: (next d n s).1, (next d n s).2)

theorem next_eq (d : α) (n : Nat) (s : List α) :
    next d n s = ((line d s).1.take n, (line d s).1.drop n ++ (line d s).2) := by
  induction n generalizing s with
  | zero => simp [next]
  | succ n ih =>
      cases s with
      | nil => rfl
      | cons x s =>
          rw [next, line]
          split
          · simp
          · simp [ih]

theorem next_of_le {d : α} {n : Nat} {s : List α} (h : (line d s).1.length ≤ n) :
    next d n s = line d s := by
  rw [next_eq, List.take_of_length_le h, List.drop_of_length_le h, List.nil_append]

@[simp] theorem next_append (d : α) (n : Nat) (s : List α) :
    (next d n s).1 ++ (next d n s).2 = s := by
  rw [next_eq, ← List.append_assoc, List.take_append_drop, line_append]

theorem length_next_le (d : α) (n : Nat) (s : List α) : (next d n s).1.length ≤ n := by
  rw [next_eq]
  exact List.length_take_le _ _

theorem next_ne_nil (d : α) {n : Nat} {s : List α} (hn : 0 < n) (h : s ≠ []) :
    (next d n s).1 ≠ [] := by
  have hpos := List.length_pos_of_ne_nil (line_ne_nil d h)
  rw [next_eq]
  refine List.ne_nil_of_length_pos ?_
  rw [List.length_take]
  omega

theorem length_next_lt (d : α) {n : Nat} {s : List α} (hn : 0 < n) (h : s ≠ []) :
    (next d n s).2.length < s.length := by
  have hlen := congrArg List.length (next_append d n s)
  have hpos := List.length_pos_of_ne_nil (next_ne_nil d hn h)
  rw [List.length_append] at hlen
  omega

/-- Where a chunk neither fills its places nor ends with a delimiter, the list is at its
end. -/
theorem next_rest_eq_nil {d : α} {n : Nat} {s : List α} (hlen : (next d n s).1.length < n)
    (hlast : (next d n s).1.getLast? ≠ some d) : (next d n s).2 = [] := by
  have hfits : (line d s).1.length ≤ n := by
    rw [next_eq, List.length_take] at hlen
    omega
  rw [next_of_le hfits] at hlast ⊢
  exact (line_ends d s).resolve_left hlast

/-- Chunk after chunk. -/
def chunks (d : α) (n : Nat) (s : List α) : List (List α) :=
  if _h : s = [] ∨ n = 0 then [] else (next d n s).1 :: chunks d n (next d n s).2
termination_by s.length
decreasing_by
  rw [not_or] at _h
  exact length_next_lt d (Nat.pos_of_ne_zero _h.2) _h.1

@[simp] theorem chunks_nil (d : α) (n : Nat) : chunks d n [] = [] := by
  rw [chunks, dif_pos (.inl rfl)]

theorem chunks_of_ne_nil (d : α) {n : Nat} {s : List α} (hn : 0 < n) (h : s ≠ []) :
    chunks d n s = (next d n s).1 :: chunks d n (next d n s).2 := by
  rw [chunks, dif_neg (by rw [not_or]; exact ⟨h, Nat.ne_of_gt hn⟩)]

theorem flatten_chunks (d : α) {n : Nat} (hn : 0 < n) (s : List α) :
    (chunks d n s).flatten = s := by
  induction s using chunks.induct d n with
  | case1 s h =>
      obtain rfl : s = [] := h.resolve_right (Nat.ne_of_gt hn)
      simp
  | case2 s h ih =>
      rw [not_or] at h
      rw [chunks_of_ne_nil d hn h.1, List.flatten_cons, ih, next_append]

theorem length_le_of_mem_chunks {d : α} {n : Nat} {s c : List α} (h : c ∈ chunks d n s) :
    c.length ≤ n := by
  induction s using chunks.induct d n with
  | case1 s hs =>
      rw [chunks, dif_pos hs] at h
      cases h
  | case2 s hs ih =>
      rw [chunks, dif_neg hs] at h
      rcases List.mem_cons.mp h with rfl | h
      · exact length_next_le d n s
      · exact ih h

theorem chunks_of_lines_le {d : α} {n : Nat} (hn : 0 < n) {s : List α}
    (h : ∀ l ∈ lines d s, l.length ≤ n) : chunks d n s = lines d s := by
  induction s using lines.induct d with
  | case1 => simp
  | case2 s hs ih =>
      rw [lines_of_ne_nil d hs] at h
      have hfirst := next_of_le (h _ List.mem_cons_self)
      rw [chunks_of_ne_nil d hn hs, lines_of_ne_nil d hs, hfirst,
        ih fun l hl => h l (List.mem_cons_of_mem _ hl)]

/-- The chunks are the lines exactly when every line fits. -/
theorem chunks_eq_lines_iff {d : α} {n : Nat} (hn : 0 < n) {s : List α} :
    chunks d n s = lines d s ↔ ∀ l ∈ lines d s, l.length ≤ n := by
  constructor
  · intro h l hl
    rw [← h] at hl
    exact length_le_of_mem_chunks hl
  · exact chunks_of_lines_le hn

end Lines
