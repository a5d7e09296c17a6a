/-
FlexEtl.Lib.Calls — how often a decoder is called.

A decoder that recurses on what it reads can be told to do a great deal of it.
`Counted` keeps a number of calls beside the state. `Pays size k q p` says that
`q` is `p` with its calls counted, and that every call but the last one is paid
for: it takes at least `k` off the size of the state. The rules compose along
`bind` and a counted loop, whatever the count.

`Alike` relates decoders that take the same turns on every input, whatever
they make of it.
-/
import FlexEtl.Lib.Decoder

namespace Decoder

variable {ε σ α β : Type}

/-! ## What is taken -/

/-- Whenever it returns, the decoder has taken at least `k` off the size of the state. -/
def Takes (size : σ → Nat) (k : Nat) (p : EStateM ε σ α) : Prop :=
  ∀ s a s', p s = .ok a s' → size s' + k ≤ size s

namespace Takes

variable {size : σ → Nat} {k m : Nat}

theorem mono {p : EStateM ε σ α} (h : Takes size k p) (hle : m ≤ k) : Takes size m p := by
  intro s a s' hrun
  have htaken := h s a s' hrun
  omega

theorem map {p : EStateM ε σ α} (h : Takes size k p) (g : α → β) :
    Takes size k (p >>= fun a => pure (g a)) := by
  intro s b s' hrun
  change EStateM.bind p _ s = _ at hrun
  cases hp : p s with
  | error e s₁ => simp [EStateM.bind, hp] at hrun
  | ok a s₁ =>
      rw [EStateM.bind, hp] at hrun
      cases hrun
      exact h s a _ hp

end Takes

/-! ## Decoders that end alike -/

/-- From the same state, both return, with results that are related, or both throw the same,
and they leave the same state. -/
def Alike (R : α → β → Prop) (p : EStateM ε σ α) (q : EStateM ε σ β) : Prop :=
  ∀ s, (∃ a b s', p s = .ok a s' ∧ q s = .ok b s' ∧ R a b) ∨
    ∃ e s', p s = .error e s' ∧ q s = .error e s'

namespace Alike

variable {α' β' : Type} {R : α → β → Prop} {R' : α' → β' → Prop}

theorem refl (p : EStateM ε σ α) : Alike (· = ·) p p := by
  intro s
  cases hp : p s with
  | ok a s' => exact .inl ⟨a, a, s', rfl, rfl, rfl⟩
  | error e s' => exact .inr ⟨e, s', rfl, rfl⟩

theorem pure {a : α} {b : β} (h : R a b) :
    Alike R (Pure.pure a : EStateM ε σ α) (Pure.pure b : EStateM ε σ β) :=
  fun s => .inl ⟨a, b, s, rfl, rfl, h⟩

theorem throw (e : ε) :
    Alike R (MonadExcept.throw e : EStateM ε σ α) (MonadExcept.throw e : EStateM ε σ β) :=
  fun s => .inr ⟨e, s, rfl, rfl⟩

theorem bind {p : EStateM ε σ α} {q : EStateM ε σ β} {f : α → EStateM ε σ α'}
    {g : β → EStateM ε σ β'} (hpq : Alike R p q) (hfg : ∀ a b, R a b → Alike R' (f a) (g b)) :
    Alike R' (p >>= f) (q >>= g) := by
  intro s
  show (∃ a b s', EStateM.bind p f s = _ ∧ EStateM.bind q g s = _ ∧ _) ∨
    ∃ e s', EStateM.bind p f s = _ ∧ EStateM.bind q g s = _
  rcases hpq s with ⟨a, b, s', hp, hq, hab⟩ | ⟨e, s', hp, hq⟩
  · simp only [EStateM.bind, hp, hq]
    exact hfg a b hab s'
  · simp only [EStateM.bind, hp, hq]
    exact .inr ⟨e, s', rfl, rfl⟩

theorem iter {step : α → EStateM ε σ α} {step' : β → EStateM ε σ β}
    (hstep : ∀ a b, R a b → Alike R (step a) (step' b)) :
    ∀ (n : Nat) (a : α) (b : β), R a b →
      Alike R (Decoder.iter step n a) (Decoder.iter step' n b)
  | 0, _, _, h => Alike.pure h
  | n + 1, a, b, h => (hstep a b h).bind fun a' b' h' => iter hstep n a' b' h'

end Alike

/-! ## Counting -/

/-- Decoders that count calls. -/
abbrev Counted (ε σ α : Type) := EStateM ε (σ × Nat) α

namespace Counted

/-- One more call. -/
def call : Counted ε σ Unit := modify fun s => (s.1, s.2 + 1)

/-- A decoder that makes no call. -/
def lift (p : EStateM ε σ α) : Counted ε σ α := fun s =>
  match p s.1 with
  | .ok a s' => .ok a (s', s.2)
  | .error e s' => .error e (s', s.2)

/-- An outcome without the count. -/
def forget : EStateM.Result ε (σ × Nat) α → EStateM.Result ε σ α
  | .ok a s => .ok a s.1
  | .error e s => .error e s.1

end Counted

open Counted

/-- `q` counts the calls of `p`, and each call but the last takes `k` off the size. -/
structure Pays (size : σ → Nat) (k : Nat) (q : Counted ε σ α) (p : EStateM ε σ α) : Prop where
  forget : ∀ s c, forget (q (s, c)) = p s
  ok : ∀ {s c a s' c'}, q (s, c) = .ok a (s', c') → k * c' + size s' ≤ k * c + size s
  error : ∀ {s c e s' c'}, q (s, c) = .error e (s', c') → k * c' ≤ k * c + size s + k

namespace Pays

variable {size : σ → Nat} {k : Nat}

theorem lift {p : EStateM ε σ α} (h : Takes size 0 p) : Pays size k (lift p) p where
  forget s c := by
    unfold Counted.lift
    cases p s <;> simp [Counted.forget]
  ok {s c a s' c'} hrun := by
    unfold Counted.lift at hrun
    cases hp : p s with
    | error e s₁ => simp [hp] at hrun
    | ok a₁ s₁ =>
        obtain ⟨rfl, rfl, rfl⟩ : a₁ = a ∧ s₁ = s' ∧ c = c' := by simpa [hp] using hrun
        have htaken := h s _ _ hp
        omega
  error {s c e s' c'} hrun := by
    unfold Counted.lift at hrun
    cases hp : p s with
    | ok a₁ s₁ => simp [hp] at hrun
    | error e₁ s₁ =>
        obtain ⟨-, -, rfl⟩ : e₁ = e ∧ s₁ = s' ∧ c = c' := by simpa [hp] using hrun
        omega

theorem pure (a : α) : Pays size k (Pure.pure a : Counted ε σ α) (Pure.pure a) where
  forget _ _ := rfl
  ok hrun := by
    cases hrun
    exact Nat.le_refl _
  error hrun := by cases hrun

theorem throw (e : ε) : Pays size k (MonadExcept.throw e : Counted ε σ α) (MonadExcept.throw e) where
  forget _ _ := rfl
  ok hrun := by cases hrun
  error hrun := by
    cases hrun
    omega

theorem bind {q : Counted ε σ α} {p : EStateM ε σ α} {g : α → Counted ε σ β}
    {f : α → EStateM ε σ β} (hq : Pays size k q p) (hg : ∀ a, Pays size k (g a) (f a)) :
    Pays size k (q >>= g) (p >>= f) where
  forget s c := by
    have hforget := hq.forget s c
    show Counted.forget (EStateM.bind q g (s, c)) = EStateM.bind p f s
    cases hrun : q (s, c) with
    | error e s' =>
        rw [hrun] at hforget
        simp [EStateM.bind, hrun, ← hforget, Counted.forget]
    | ok a s' =>
        rw [hrun] at hforget
        simp [EStateM.bind, hrun, ← hforget, Counted.forget, ← (hg a).forget s'.1 s'.2]
  ok {s c b s' c'} hrun := by
    change EStateM.bind q g (s, c) = _ at hrun
    cases hfirst : q (s, c) with
    | error e s₁ => simp [EStateM.bind, hfirst] at hrun
    | ok a s₁ =>
        rw [EStateM.bind, hfirst] at hrun
        have hpaid := hq.ok hfirst
        have hrest := (hg a).ok hrun
        omega
  error {s c e s' c'} hrun := by
    change EStateM.bind q g (s, c) = _ at hrun
    cases hfirst : q (s, c) with
    | error e₁ s₁ =>
        rw [EStateM.bind, hfirst] at hrun
        cases hrun
        exact hq.error hfirst
    | ok a s₁ =>
        rw [EStateM.bind, hfirst] at hrun
        have hpaid := hq.ok hfirst
        have hrest := (hg a).error hrun
        omega

/-- A call pays for itself by what it takes first. -/
theorem call {p : EStateM ε σ α} {g : α → Counted ε σ β} {f : α → EStateM ε σ β}
    (hp : Takes size k p) (hg : ∀ a, Pays size k (g a) (f a)) :
    Pays size k (do Counted.call; let a ← Counted.lift p; g a) (p >>= f) where
  forget s c := ((lift (hp.mono (Nat.zero_le k))).bind hg).forget s (c + 1)
  ok {s c b s' c'} hrun := by
    change EStateM.bind (Counted.lift p) g (s, c + 1) = _ at hrun
    cases hfirst : p s with
    | error e s₁ => simp [EStateM.bind, Counted.lift, hfirst] at hrun
    | ok a s₁ =>
        simp only [EStateM.bind, Counted.lift, hfirst] at hrun
        have htaken := hp s a s₁ hfirst
        have hrest := (hg a).ok hrun
        rw [Nat.mul_add, Nat.mul_one] at hrest
        omega
  error {s c e s' c'} hrun := by
    change EStateM.bind (Counted.lift p) g (s, c + 1) = _ at hrun
    cases hfirst : p s with
    | error e₁ s₁ =>
        simp only [EStateM.bind, Counted.lift, hfirst] at hrun
        cases hrun
        rw [Nat.mul_add, Nat.mul_one]
        omega
    | ok a s₁ =>
        simp only [EStateM.bind, Counted.lift, hfirst] at hrun
        have htaken := hp s a s₁ hfirst
        have hrest := (hg a).error hrun
        rw [Nat.mul_add, Nat.mul_one] at hrest
        omega

/-- A call that throws at once is the last one. -/
theorem call_throw (e : ε) :
    Pays size k (do Counted.call; MonadExcept.throw e : Counted ε σ α) (MonadExcept.throw e) where
  forget _ _ := rfl
  ok hrun := by cases hrun
  error {s c e s' c'} hrun := by
    cases hrun
    show k * (c + 1) ≤ _
    rw [Nat.mul_add, Nat.mul_one]
    omega

theorem iter {stepC : β → Counted ε σ β} {step : β → EStateM ε σ β}
    (hstep : ∀ acc, Pays size k (stepC acc) (step acc)) :
    ∀ (n : Nat) (acc : β), Pays size k (Decoder.iter stepC n acc) (Decoder.iter step n acc)
  | 0, acc => pure acc
  | n + 1, acc => (hstep acc).bind fun acc' => iter hstep n acc'

end Pays

end Decoder
