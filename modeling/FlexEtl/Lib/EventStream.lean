/-
FlexEtl.Lib.EventStream — a stateful handler driven by a stream of events.

A callback either throws, or returns whether the stream should go on; `feed`
delivers a list of events to it. `Accepts` and `Refuses` are the two ways a
stream ends when no callback ever asks to stop, and they compose along `++`,
so the outcome of a nested structure is assembled from the outcomes of its
parts.
-/
import Mathlib.Data.List.Basic

namespace EventStream

variable {ε σ ι α β : Type}

/-! ## Running a callback -/

theorem get_bind (f : σ → EStateM ε σ β) (s : σ) : (get >>= f : EStateM ε σ β) s = f s s := rfl

theorem map_modify (g : σ → σ) (f : PUnit → β) (s : σ) :
    (f <$> modify g : EStateM ε σ β) s = .ok (f ⟨⟩) (g s) := rfl

theorem throw_bind (e : ε) (f : α → EStateM ε σ β) (s : σ) :
    (throw e >>= f : EStateM ε σ β) s = .error e s := rfl

theorem pure_run (a : α) (s : σ) : (pure a : EStateM ε σ α) s = .ok a s := rfl

/-! ## Delivering events -/

/-- Deliver the events in order, until a callback throws or returns false. -/
def feed (on : ι → EStateM ε σ Bool) : List ι → EStateM ε σ Bool
  | [] => pure true
  | e :: es => do
      if ← on e then feed on es else pure false

section

variable (on : ι → EStateM ε σ Bool)

/-- Every event is delivered, and the state goes from `s` to `s'`. -/
def Accepts (es : List ι) (s s' : σ) : Prop := feed on es s = .ok true s'

/-- Some callback throws. -/
def Refuses (es : List ι) (s : σ) : Prop := ∃ e s', feed on es s = .error e s'

variable {on}

theorem feed_cons (e : ι) (es : List ι) (s : σ) :
    feed on (e :: es) s =
      match on e s with
      | .ok true s' => feed on es s'
      | .ok false s' => .ok false s'
      | .error x s' => .error x s' := by
  show EStateM.bind (on e) _ s = _
  unfold EStateM.bind
  rcases on e s with ⟨_ | _, s'⟩ | ⟨x, s'⟩ <;> rfl

/-! ## Accepted streams -/

theorem Accepts.nil (s : σ) : Accepts on [] s s := rfl

theorem Accepts.cons {e : ι} {es : List ι} {s s₁ s₂ : σ} (he : on e s = .ok true s₁)
    (hes : Accepts on es s₁ s₂) : Accepts on (e :: es) s s₂ := by
  rw [Accepts, feed_cons, he]
  exact hes

theorem Accepts.singleton {e : ι} {s s' : σ} (he : on e s = .ok true s') :
    Accepts on [e] s s' :=
  Accepts.cons he (Accepts.nil s')

theorem Accepts.append {es fs : List ι} {s s₁ s₂ : σ} (hes : Accepts on es s s₁)
    (hfs : Accepts on fs s₁ s₂) : Accepts on (es ++ fs) s s₂ := by
  induction es generalizing s with
  | nil => cases hes; exact hfs
  | cons e es ih =>
      rw [Accepts, feed_cons] at hes
      rw [List.cons_append, Accepts, feed_cons]
      split at hes
      · exact ih hes
      · cases hes
      · cases hes

theorem Accepts.of_cons {e : ι} {es : List ι} {s s' : σ} (h : Accepts on (e :: es) s s') :
    ∃ s₁, on e s = .ok true s₁ ∧ Accepts on es s₁ s' := by
  rw [Accepts, feed_cons] at h
  split at h
  · rename_i s₁ he
    exact ⟨s₁, he, h⟩
  · cases h
  · cases h

theorem Accepts.of_append {es fs : List ι} {s s' : σ} (h : Accepts on (es ++ fs) s s') :
    ∃ s₁, Accepts on es s s₁ ∧ Accepts on fs s₁ s' := by
  induction es generalizing s with
  | nil => exact ⟨s, Accepts.nil s, h⟩
  | cons e es ih =>
      obtain ⟨s₁, he, hrest⟩ := Accepts.of_cons h
      obtain ⟨s₂, hes, hfs⟩ := ih hrest
      exact ⟨s₂, Accepts.cons he hes, hfs⟩

/-- A stream leads to one state only. -/
theorem Accepts.unique {es : List ι} {s s₁ s₂ : σ} (h₁ : Accepts on es s s₁)
    (h₂ : Accepts on es s s₂) : s₁ = s₂ := by
  have h : (EStateM.Result.ok true s₁ : EStateM.Result ε σ Bool) = .ok true s₂ := h₁.symm.trans h₂
  cases h
  rfl

/-! ## Refused streams -/

theorem Refuses.head {e : ι} {x : ε} {s s' : σ} (he : on e s = .error x s') (es : List ι) :
    Refuses on (e :: es) s :=
  ⟨x, s', by rw [feed_cons, he]⟩

theorem Refuses.tail {e : ι} {es : List ι} {s s₁ : σ} (he : on e s = .ok true s₁)
    (hes : Refuses on es s₁) : Refuses on (e :: es) s := by
  obtain ⟨x, s', h⟩ := hes
  exact ⟨x, s', by rw [feed_cons, he]; exact h⟩

theorem Accepts.refuses {es fs : List ι} {s s₁ : σ} (hes : Accepts on es s s₁)
    (hfs : Refuses on fs s₁) : Refuses on (es ++ fs) s := by
  induction es generalizing s with
  | nil => cases hes; exact hfs
  | cons e es ih =>
      rw [Accepts, feed_cons] at hes
      split at hes
      · exact Refuses.tail ‹_› (ih hes)
      · cases hes
      · cases hes

theorem Refuses.append {es : List ι} {s : σ} (hes : Refuses on es s) (fs : List ι) :
    Refuses on (es ++ fs) s := by
  induction es generalizing s with
  | nil => obtain ⟨x, s', h⟩ := hes; cases h
  | cons e es ih =>
      obtain ⟨x, s', h⟩ := hes
      rw [feed_cons] at h
      split at h
      · exact Refuses.tail ‹_› (ih ⟨x, s', h⟩)
      · cases h
      · exact Refuses.head ‹_› (es ++ fs)

theorem Accepts.not_refuses {es : List ι} {s s' : σ} (h : Accepts on es s s') :
    ¬ Refuses on es s := by
  rintro ⟨x, s₁, hx⟩
  have : (EStateM.Result.ok true s' : EStateM.Result ε σ Bool) = .error x s₁ := h.symm.trans hx
  cases this

end

end EventStream
