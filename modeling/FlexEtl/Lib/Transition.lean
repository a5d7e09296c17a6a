/-
FlexEtl.Lib.Transition — machines with a partial step function.

An action is what happens next and what the world answers to it; where the
step function is `none` the machine does not go on. What the world is assumed
to answer is a relation `Allowed` between states and actions, so one machine
has several sets of runs. `Reachable.invariant` is the rule for invariants,
`Reachable.mono` passes to stronger assumptions, and `Reachable.simulation`
follows a run through a coarser transition system.
-/
import Mathlib.Logic.Relation

/-- The states a run may begin in, and the steps. -/
structure Machine (σ α : Type) where
  Init : σ → Prop
  step : σ → α → Option σ

namespace Machine

variable {σ α τ : Type} {m : Machine σ α} {Allowed Allowed' : σ → α → Prop}

/-- One step, by some action that is allowed. -/
def Steps (m : Machine σ α) (Allowed : σ → α → Prop) (s s' : σ) : Prop :=
  ∃ a, Allowed s a ∧ m.step s a = some s'

/-- The runs that begin well. -/
def starting (m : Machine σ α) (P : σ → Prop) : Machine σ α where
  Init s := m.Init s ∧ P s
  step := m.step

/-- The states of the runs. -/
def Reachable (m : Machine σ α) (Allowed : σ → α → Prop) (s : σ) : Prop :=
  ∃ s₀, m.Init s₀ ∧ Relation.ReflTransGen (m.Steps Allowed) s₀ s

theorem Reachable.init {s : σ} (h : m.Init s) : m.Reachable Allowed s := ⟨s, h, .refl⟩

theorem Reachable.next {s s' : σ} (h : m.Reachable Allowed s) {a : α} (ha : Allowed s a)
    (hs : m.step s a = some s') : m.Reachable Allowed s' := by
  obtain ⟨s₀, hinit, hrun⟩ := h
  exact ⟨s₀, hinit, hrun.tail ⟨a, ha, hs⟩⟩

/-- A run of actions that are allowed everywhere. -/
theorem Reachable.run {as : List α} (ha : ∀ a ∈ as, ∀ s, Allowed s a) : ∀ {s s' : σ},
    m.Reachable Allowed s → as.foldlM m.step s = some s' → m.Reachable Allowed s' := by
  induction as with
  | nil =>
      intro s s' h hrun
      cases hrun
      exact h
  | cons a as ih =>
      intro s s' h hrun
      rw [List.foldlM_cons] at hrun
      obtain ⟨s₁, hs₁, hrest⟩ := Option.bind_eq_some_iff.mp hrun
      exact ih (fun b hb => ha b (List.mem_cons_of_mem a hb))
        (h.next (ha a List.mem_cons_self s) hs₁) hrest

/-- What holds at the start and is kept by every step holds in every state reached. -/
theorem Reachable.invariant {I : σ → Prop} (hinit : ∀ s, m.Init s → I s)
    (hstep : ∀ s a s', I s → Allowed s a → m.step s a = some s' → I s') {s : σ}
    (h : m.Reachable Allowed s) : I s := by
  obtain ⟨s₀, h₀, hrun⟩ := h
  induction hrun with
  | refl => exact hinit s₀ h₀
  | tail _ hlast ih =>
      obtain ⟨a, ha, hs⟩ := hlast
      exact hstep _ a _ ih ha hs

theorem Reachable.mono (himp : ∀ s a, Allowed s a → Allowed' s a) {s : σ}
    (h : m.Reachable Allowed s) : m.Reachable Allowed' s := by
  obtain ⟨s₀, h₀, hrun⟩ := h
  have hsteps : ∀ s s', m.Steps Allowed s s' → m.Steps Allowed' s s' := by
    rintro s s' ⟨a, ha, hs⟩
    exact ⟨a, himp s a ha, hs⟩
  exact ⟨s₀, h₀, Relation.ReflTransGen.mono hsteps _ _ hrun⟩

/-- A relation that every step keeps, along steps of a coarser system, relates every
state reached to one that the coarser system reaches. -/
theorem Reachable.simulation {R : σ → τ → Prop} {Begin : τ → Prop} {Next : τ → τ → Prop}
    (hinit : ∀ s, m.Init s → ∃ t, Begin t ∧ R s t)
    (hstep : ∀ s a s' t, R s t → Allowed s a → m.step s a = some s' →
      ∃ t', Relation.ReflTransGen Next t t' ∧ R s' t') {s : σ} (h : m.Reachable Allowed s) :
    ∃ t₀ t, Begin t₀ ∧ Relation.ReflTransGen Next t₀ t ∧ R s t := by
  refine h.invariant (I := fun s => ∃ t₀ t, Begin t₀ ∧ Relation.ReflTransGen Next t₀ t ∧ R s t)
    ?_ ?_
  · intro s hs
    obtain ⟨t, ht, hR⟩ := hinit s hs
    exact ⟨t, t, ht, .refl, hR⟩
  · rintro s a s' ⟨t₀, t, hbegin, hrun, hR⟩ ha hs
    obtain ⟨t', hnext, hR'⟩ := hstep s a s' t hR ha hs
    exact ⟨t₀, t', hbegin, hrun.trans hnext, hR'⟩

end Machine
