/-
FlexEtl.Lib.Meter — amounts counted under names.

What is counted under a name stays pending there until a report takes it all.
The amounts are from any commutative monoid, so what is said here also holds for
machine words that wrap around. `Meter.conserved` is the law of a meter: what is
reported and what is pending are what has been counted. Anything that a
`Meter` simulates (`Machine.Reachable.simulation`) has it too.
-/
import Mathlib.Algebra.BigOperators.Group.List.Basic
import Mathlib.Logic.Function.Basic
import Mathlib.Logic.Relation

/-- What is pending under each name, and all that has been counted and reported. -/
structure Meter (ν M : Type) where
  pending : ν → M
  counted : List (ν × M)
  reported : List (ν × M)

namespace Meter

variable {ν M : Type} [DecidableEq ν] [AddCommMonoid M] {m m' : Meter ν M}

/-- The amounts under a name. -/
def total (name : ν) (entries : List (ν × M)) : M :=
  (entries.map fun e => if e.1 = name then e.2 else 0).sum

@[simp] theorem total_nil (name : ν) : total name ([] : List (ν × M)) = 0 := rfl

@[simp] theorem total_append (name : ν) (entries entries' : List (ν × M)) :
    total name (entries ++ entries') = total name entries + total name entries' := by
  simp [total]

@[simp] theorem total_singleton (name name' : ν) (n : M) :
    total name [(name', n)] = if name' = name then n else 0 := by
  simp [total]

/-- Count an amount. -/
def count (m : Meter ν M) (name : ν) (n : M) : Meter ν M where
  pending := Function.update m.pending name (m.pending name + n)
  counted := m.counted ++ [(name, n)]
  reported := m.reported

/-- Report all that is pending under a name. -/
def report (m : Meter ν M) (name : ν) : Meter ν M where
  pending := Function.update m.pending name 0
  counted := m.counted
  reported := m.reported ++ [(name, m.pending name)]

inductive Next : Meter ν M → Meter ν M → Prop where
  | count (m : Meter ν M) (name : ν) (n : M) : Next m (m.count name n)
  | report (m : Meter ν M) (name : ν) : Next m (m.report name)

/-- A meter that has not been used. -/
def Unused (m : Meter ν M) : Prop := (∀ name, m.pending name = 0) ∧ m.counted = [] ∧ m.reported = []

/-- Nothing is lost, and nothing is reported twice or under another name. -/
def Conserved (m : Meter ν M) : Prop :=
  ∀ name, total name m.reported + m.pending name = total name m.counted

theorem Unused.conserved (h : m.Unused) : m.Conserved := by
  obtain ⟨hpending, hcounted, hreported⟩ := h
  intro name
  simp [hpending name, hcounted, hreported]

theorem Next.conserved (hnext : Next m m') (h : m.Conserved) : m'.Conserved := by
  intro name
  have hname := h name
  cases hnext with
  | count name' n =>
      by_cases heq : name = name'
      · subst heq
        simp only [Meter.count, Function.update_self, total_append, total_singleton, if_true]
        rw [← add_assoc, hname]
      · have hne : name' ≠ name := fun h => heq h.symm
        simp only [Meter.count, Function.update_of_ne heq, total_append, total_singleton,
          if_neg hne]
        rw [hname, add_zero]
  | report name' =>
      by_cases heq : name = name'
      · subst heq
        simp only [Meter.report, Function.update_self, total_append, total_singleton, if_true]
        rw [add_zero, hname]
      · have hne : name' ≠ name := fun h => heq h.symm
        simp only [Meter.report, Function.update_of_ne heq, total_append, total_singleton,
          if_neg hne]
        rw [add_zero, hname]

theorem conserved (hbegin : m.Unused) (hrun : Relation.ReflTransGen Next m m') : m'.Conserved := by
  induction hrun with
  | refl => exact hbegin.conserved
  | tail _ hnext ih => exact hnext.conserved ih

end Meter
