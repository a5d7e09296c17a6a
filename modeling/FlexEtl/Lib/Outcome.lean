/-
FlexEtl.Lib.Outcome — the state that a program leaves behind.

In `EStateM` a program that throws keeps what it has changed, so a statement
about the state afterwards covers both ways in which a program ends. A bind is
taken apart once, in `bind_cases`; `after_foldlM_invariant` carries an invariant
along a fold, wherever the fold stops, and `after_foldlM` a preorder between
states.
-/
import Mathlib.Data.List.Basic

namespace Outcome

variable {ε σ α β : Type}

/-- The state after the program, whether it has returned or thrown. -/
def after (x : EStateM ε σ α) (s : σ) : σ :=
  match x s with
  | .ok _ s' => s'
  | .error _ s' => s'

theorem after_ok {x : EStateM ε σ α} {s s' : σ} {a : α} (h : x s = .ok a s') : after x s = s' := by
  rw [after, h]

theorem after_error {x : EStateM ε σ α} {s s' : σ} {e : ε} (h : x s = .error e s') :
    after x s = s' := by
  rw [after, h]

theorem after_get_bind (f : σ → EStateM ε σ β) (s : σ) : after (get >>= f) s = after (f s) s := rfl

theorem bind_of_ok {x : EStateM ε σ α} {f : α → EStateM ε σ β} {s s' : σ} {a : α}
    (h : x s = .ok a s') : (x >>= f) s = f a s' := by
  show EStateM.bind x f s = _
  rw [EStateM.bind, h]

theorem bind_of_error {x : EStateM ε σ α} {f : α → EStateM ε σ β} {s s' : σ} {e : ε}
    (h : x s = .error e s') : (x >>= f) s = .error e s' := by
  show EStateM.bind x f s = _
  rw [EStateM.bind, h]

/-- Programs that do the same go on in the same way. -/
theorem bind_congr_run {x y : EStateM ε σ α} {f : α → EStateM ε σ β} {s s' : σ}
    (h : x s = y s') : (x >>= f) s = (y >>= f) s' := by
  show EStateM.bind x f s = EStateM.bind y f s'
  rw [EStateM.bind, EStateM.bind, h]

/-- A bind stops in its first program, or goes on from the state after it. -/
theorem bind_cases (x : EStateM ε σ α) (f : α → EStateM ε σ β) (s : σ) :
    (∃ e s', x s = .error e s' ∧ (x >>= f) s = .error e s') ∨
    (∃ a s', x s = .ok a s' ∧ (x >>= f) s = f a s') := by
  cases hx : x s with
  | error e s' => exact .inl ⟨e, s', rfl, bind_of_error hx⟩
  | ok a s' => exact .inr ⟨a, s', rfl, bind_of_ok hx⟩

/-- The same, about the states alone. -/
theorem after_bind_cases (x : EStateM ε σ α) (f : α → EStateM ε σ β) (s : σ) :
    after (x >>= f) s = after x s ∨ ∃ a, after (x >>= f) s = after (f a) (after x s) := by
  rcases bind_cases x f s with ⟨e, s', hs, hbind⟩ | ⟨a, s', hs, hbind⟩
  · exact .inl (by rw [after_error hbind, after_error hs])
  · exact .inr ⟨a, by rw [after_ok hs, after, hbind, after]⟩

theorem after_bind_invariant {I : σ → Prop} {x : EStateM ε σ α} {f : α → EStateM ε σ β} {s : σ}
    (hx : I (after x s)) (hf : ∀ a s', I s' → I (after (f a) s')) : I (after (x >>= f) s) := by
  rcases after_bind_cases x f s with hstop | ⟨a, hgo⟩
  · rw [hstop]
    exact hx
  · rw [hgo]
    exact hf a _ hx

/-- What every turn of a fold keeps holds wherever the fold stops. -/
theorem after_foldlM_invariant {I : σ → Prop} {step : β → α → EStateM ε σ β} :
    ∀ {xs : List α}, (∀ a ∈ xs, ∀ b s, I s → I (after (step b a) s)) →
      ∀ (b : β) (s : σ), I s → I (after (xs.foldlM step b) s)
  | [], _, _, _, hI => hI
  | a :: xs, hstep, b, s, hI => by
      rw [List.foldlM_cons]
      refine after_bind_invariant (hstep a List.mem_cons_self b s hI) fun b' s' hI' => ?_
      exact after_foldlM_invariant (fun a ha => hstep a (List.mem_cons_of_mem _ ha)) b' s' hI'

theorem after_bind {R : σ → σ → Prop} (htrans : ∀ s s' s'', R s s' → R s' s'' → R s s'')
    {x : EStateM ε σ α} {f : α → EStateM ε σ β} (hx : ∀ s, R s (after x s))
    (hf : ∀ a s, R s (after (f a) s)) (s : σ) : R s (after (x >>= f) s) :=
  after_bind_invariant (hx s) fun a s' h => htrans s s' _ h (hf a s')

theorem after_foldlM {R : σ → σ → Prop} (hrefl : ∀ s, R s s)
    (htrans : ∀ s s' s'', R s s' → R s' s'' → R s s'') {step : β → α → EStateM ε σ β}
    (hstep : ∀ b a s, R s (after (step b a) s)) (xs : List α) (b : β) (s : σ) :
    R s (after (xs.foldlM step b) s) :=
  after_foldlM_invariant (fun a _ b' s' h => htrans s s' _ h (hstep b' a s')) b s (hrefl s)

/-- What every successful step of a fold keeps, a successful fold keeps. -/
theorem foldlM_ok {P : β → Prop} {step : β → α → EStateM ε σ β} :
    ∀ {xs : List α} {b b' : β} {s s' : σ},
      (∀ a ∈ xs, ∀ b s b' s', P b → step b a s = .ok b' s' → P b') → P b →
      xs.foldlM step b s = .ok b' s' → P b'
  | [], _, _, _, _, _, hP, h => by
      cases h
      exact hP
  | a :: xs, b, _, s, _, hstep, hP, h => by
      rw [List.foldlM_cons] at h
      rcases bind_cases (step b a) (fun b => xs.foldlM step b) s with
        ⟨e, s₁, -, hbind⟩ | ⟨b₁, s₁, hone, hbind⟩
      · rw [hbind] at h
        cases h
      · rw [hbind] at h
        exact foldlM_ok (fun a ha => hstep a (List.mem_cons_of_mem _ ha))
          (hstep a List.mem_cons_self b s b₁ s₁ hP hone) h

end Outcome
