/-
FlexEtl.Lib.ExceptFold — folds that may fail.

A fold in `Except` runs its steps from left to right and stops at the first
error: `foldlM_eq_error` splits the list there. `foldlM_invariant` carries a
relation between the elements consumed and the state along a fold whose
elements are all admissible, and `foldlM_eq_ok` says that only such a fold
succeeds. `map_foldlM` looks at the states of a fold through a view.
-/
import Mathlib.Data.List.Basic
import Mathlib.Data.List.Induction

namespace ExceptFold

variable {ε α β : Type} {step : β → α → Except ε β}

/-- One more element, after a fold that succeeded. -/
theorem foldlM_append_one {xs : List α} {s s' : β} (h : xs.foldlM step s = .ok s') (x : α) :
    (xs ++ [x]).foldlM step s = step s' x := by
  have hone : [x].foldlM step s' = step s' x := by
    cases hx : step s' x with
    | ok s'' => simp [hx]
    | error e => simp [hx]
  rw [List.foldlM_append, h]
  exact hone

/-- The last step of a fold that succeeds, after the others have. -/
theorem foldlM_append_one_eq_ok {xs : List α} {x : α} {s s'' : β}
    (h : (xs ++ [x]).foldlM step s = .ok s'') :
    ∃ s', xs.foldlM step s = .ok s' ∧ step s' x = .ok s'' := by
  cases hxs : xs.foldlM step s with
  | error e =>
      rw [List.foldlM_append, hxs] at h
      cases h
  | ok s' =>
      rw [foldlM_append_one hxs] at h
      exact ⟨s', rfl, h⟩

/-- A relation between consumed elements and state that every successful step keeps. -/
theorem foldlM_eq_ok_invariant {I : List α → β → Prop} {s : β} (hinit : I [] s)
    (hstep : ∀ ys s' x s'', I ys s' → step s' x = .ok s'' → I (ys ++ [x]) s'') :
    ∀ (xs : List α) {s' : β}, xs.foldlM step s = .ok s' → I xs s' := by
  intro xs
  induction xs using List.reverseRecOn with
  | nil =>
      intro s' h
      cases h
      exact hinit
  | append_singleton xs x ih =>
      intro s'' h
      obtain ⟨s', hs', hx⟩ := foldlM_append_one_eq_ok h
      exact hstep xs s' x s'' (ih hs') hx

/-- A fold fails with `e` when some step does, after steps that succeeded. -/
theorem foldlM_eq_error {xs : List α} {s : β} {e : ε} :
    xs.foldlM step s = .error e ↔
      ∃ ys x zs s', xs = ys ++ x :: zs ∧ ys.foldlM step s = .ok s' ∧ step s' x = .error e := by
  induction xs generalizing s with
  | nil =>
      constructor
      · intro h; cases h
      · rintro ⟨ys, x, zs, s', hsplit, -⟩
        simp at hsplit
  | cons a xs ih =>
      rw [List.foldlM_cons]
      cases ha : step s a with
      | error e' =>
          constructor
          · intro h
            obtain rfl : e' = e := by
              have h' : (Except.error e' : Except ε β) = .error e := h
              cases h'
              rfl
            exact ⟨[], a, xs, s, rfl, rfl, ha⟩
          · rintro ⟨ys, x, zs, s', hsplit, hys, hx⟩
            cases ys with
            | nil =>
                cases hys
                obtain ⟨rfl, rfl⟩ : a = x ∧ xs = zs := by simpa using hsplit
                rw [ha] at hx
                exact hx
            | cons y ys =>
                obtain ⟨rfl, -⟩ : a = y ∧ xs = ys ++ x :: zs := by simpa using hsplit
                rw [List.foldlM_cons, ha] at hys
                cases hys
      | ok s₁ =>
          show xs.foldlM step s₁ = .error e ↔ _
          rw [ih]
          constructor
          · rintro ⟨ys, x, zs, s', hsplit, hys, hx⟩
            refine ⟨a :: ys, x, zs, s', by rw [hsplit]; rfl, ?_, hx⟩
            rw [List.foldlM_cons, ha]
            exact hys
          · rintro ⟨ys, x, zs, s', hsplit, hys, hx⟩
            cases ys with
            | nil =>
                cases hys
                obtain ⟨rfl, -⟩ : a = x ∧ xs = zs := by simpa using hsplit
                rw [ha] at hx
                cases hx
            | cons y ys =>
                obtain ⟨rfl, hxs⟩ : a = y ∧ xs = ys ++ x :: zs := by simpa using hsplit
                rw [List.foldlM_cons, ha] at hys
                exact ⟨ys, x, zs, s', hxs, hys, hx⟩

/-- A relation between consumed elements and state, kept by every step on an
admissible element, makes the fold over admissible elements succeed. -/
theorem foldlM_invariant {P : α → Prop} {I : List α → β → Prop} {s : β} (hinit : I [] s)
    (hstep : ∀ ys s' x, I ys s' → P x → ∃ s'', step s' x = .ok s'' ∧ I (ys ++ [x]) s'') :
    ∀ xs : List α, (∀ x ∈ xs, P x) → ∃ s', xs.foldlM step s = .ok s' ∧ I xs s' := by
  intro xs
  induction xs using List.reverseRecOn with
  | nil => exact fun _ => ⟨s, rfl, hinit⟩
  | append_singleton xs x ih =>
      intro hxs
      obtain ⟨s', hs', hI⟩ := ih fun y hy => hxs y (by simp [hy])
      obtain ⟨s'', hs'', hI'⟩ := hstep xs s' x hI (hxs x (by simp))
      exact ⟨s'', by rw [foldlM_append_one hs', hs''], hI'⟩

/-- The converse: when every step that succeeds shows its element admissible, a fold
that succeeds shows all of them admissible. -/
theorem foldlM_eq_ok {P : α → Prop} {s s' : β}
    (hstep : ∀ s₁ x s₂, step s₁ x = .ok s₂ → P x) :
    ∀ xs : List α, xs.foldlM step s = .ok s' → ∀ x ∈ xs, P x := by
  intro xs
  induction xs generalizing s with
  | nil => simp
  | cons a xs ih =>
      intro h
      rw [List.foldlM_cons] at h
      cases ha : step s a with
      | error e => rw [ha] at h; cases h
      | ok s₁ =>
          rw [ha] at h
          intro x hx
          rcases List.mem_cons.mp hx with rfl | hx
          · exact hstep s x s₁ ha
          · exact ih h x hx

/-- A fold over states that are views of those of another fold. -/
theorem map_foldlM {γ : Type} {view : β → γ} {step' : γ → α → Except ε γ}
    (hstep : ∀ s x, (step s x).map view = step' (view s) x) (xs : List α) (s : β) :
    (xs.foldlM step s).map view = xs.foldlM step' (view s) := by
  induction xs generalizing s with
  | nil => rfl
  | cons x xs ih =>
      rw [List.foldlM_cons, List.foldlM_cons, ← hstep]
      cases hx : step s x with
      | error e => rfl
      | ok s' => exact ih s'

end ExceptFold
