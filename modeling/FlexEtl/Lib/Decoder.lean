/-
FlexEtl.Lib.Decoder — decoders that consume an input stream, and what it
means for one to invert an encoding.

A decoder is an `EStateM` action over a state `σ` that holds the unread input
(`input`) and whatever else the decoder keeps, for instance a scratch buffer
with an invariant `Inv`. `Reads p enc a` says that `p`, started before the
symbols `enc`, consumes exactly those and returns `a`, whatever follows them.
The rules compose along `pure`, `bind` and a counted loop, so the round trip
of a compound format is assembled from the round trips of its fields.

`Yields p P` is the other half: whatever the input, a value that `p` returns
satisfies `P`.
-/
import Mathlib.Data.List.Basic

namespace Decoder

variable {ε σ α β ι : Type}

/-- Run `step` exactly `n` times on an accumulator: a counted loop. -/
def iter (step : β → EStateM ε σ β) : Nat → β → EStateM ε σ β
  | 0, acc => pure acc
  | n + 1, acc => step acc >>= iter step n

/-! ## Reading back an encoding -/

section Reads

variable (input : σ → List ι) (Inv : σ → Prop)

/-- `p` consumes exactly `enc`, keeps the invariant and returns `a`. -/
def Reads (p : EStateM ε σ α) (enc : List ι) (a : α) : Prop :=
  ∀ s rest, Inv s → input s = enc ++ rest →
    ∃ s', p s = .ok a s' ∧ Inv s' ∧ input s' = rest

variable {input Inv}

theorem Reads.pure (a : α) : Reads input Inv (pure a : EStateM ε σ α) [] a := by
  intro s rest hs h
  exact ⟨s, rfl, hs, by simpa using h⟩

theorem Reads.bind {p : EStateM ε σ α} {f : α → EStateM ε σ β} {e₁ e₂ : List ι} {a : α}
    {b : β} (hp : Reads input Inv p e₁ a) (hf : Reads input Inv (f a) e₂ b) :
    Reads input Inv (p >>= f) (e₁ ++ e₂) b := by
  intro s rest hs h
  obtain ⟨s₁, hp₁, hs₁, h₁⟩ := hp s (e₂ ++ rest) hs (by simpa using h)
  obtain ⟨s₂, hf₂, hs₂, h₂⟩ := hf s₁ rest hs₁ h₁
  refine ⟨s₂, ?_, hs₂, h₂⟩
  show EStateM.bind p f s = _
  simp [EStateM.bind, hp₁, hf₂]

theorem Reads.congr {p : EStateM ε σ α} {e₁ e₂ : List ι} {a b : α}
    (hp : Reads input Inv p e₁ a) (he : e₁ = e₂) (ha : a = b) : Reads input Inv p e₂ b := by
  subst he; subst ha; exact hp

/-- A last step that only rearranges the value consumes nothing. -/
theorem Reads.map {p : EStateM ε σ α} {e : List ι} {a : α} (g : α → β)
    (hp : Reads input Inv p e a) : Reads input Inv (p >>= fun x => Pure.pure (g x)) e (g a) :=
  (hp.bind (Reads.pure (g a))).congr (List.append_nil e) rfl

/-- A counted loop reads back the concatenated encodings of a list, when its
body takes the accumulator for the elements so far to the one for one more. -/
theorem Reads.iter {γ : Type} {step : β → EStateM ε σ β} {enc : γ → List ι} (acc : List γ → β)
    (xs : List γ)
    (hstep : ∀ (ys : List γ) (x : γ) (zs : List γ), xs = ys ++ x :: zs →
      Reads input Inv (step (acc ys)) (enc x) (acc (ys ++ [x]))) :
    Reads input Inv (Decoder.iter step xs.length (acc [])) (xs.flatMap enc) (acc xs) := by
  suffices h : ∀ zs ys, xs = ys ++ zs →
      Reads input Inv (Decoder.iter step zs.length (acc ys)) (zs.flatMap enc) (acc xs) from
    h xs [] rfl
  intro zs
  induction zs with
  | nil =>
      intro ys h
      obtain rfl : xs = ys := by simpa using h
      exact Reads.pure (acc xs)
  | cons x zs ih =>
      intro ys h
      rw [List.flatMap_cons]
      exact (hstep ys x zs h).bind (ih (ys ++ [x]) (by simpa using h))

end Reads

/-! ## What a decoder can return -/

section Yields

variable (Inv : σ → Prop)

/-- Whatever the input, a returned value satisfies `P` and the invariant stays. -/
def Yields (p : EStateM ε σ α) (P : α → Prop) : Prop :=
  ∀ s a s', Inv s → p s = .ok a s' → Inv s' ∧ P a

variable {Inv}

theorem Yields.pure {P : α → Prop} {a : α} (h : P a) :
    Yields Inv (pure a : EStateM ε σ α) P := by
  intro s b s' hs hb
  cases hb
  exact ⟨hs, h⟩

theorem Yields.throw {P : α → Prop} {e : ε} :
    Yields Inv (MonadExcept.throw e : EStateM ε σ α) P := by
  intro s b s' _ hb
  cases hb

theorem Yields.bind {p : EStateM ε σ α} {f : α → EStateM ε σ β} {P : α → Prop} {Q : β → Prop}
    (hp : Yields Inv p P) (hf : ∀ a, P a → Yields Inv (f a) Q) : Yields Inv (p >>= f) Q := by
  intro s b s' hs hb
  change EStateM.bind p f s = _ at hb
  cases hps : p s with
  | ok a s₁ =>
      obtain ⟨hs₁, ha⟩ := hp s a s₁ hs hps
      rw [EStateM.bind, hps] at hb
      exact hf a ha s₁ b s' hs₁ hb
  | error e s₁ => simp [EStateM.bind, hps] at hb

theorem Yields.mono {p : EStateM ε σ α} {P Q : α → Prop} (hp : Yields Inv p P)
    (hPQ : ∀ a, P a → Q a) : Yields Inv p Q := by
  intro s a s' hs h
  exact (hp s a s' hs h).imp_right (hPQ a)

theorem Yields.iter {step : β → EStateM ε σ β} {P : β → Prop}
    (hstep : ∀ acc, P acc → Yields Inv (step acc) P) :
    ∀ (n : Nat) (acc : β), P acc → Yields Inv (Decoder.iter step n acc) P
  | 0, _, h => Yields.pure h
  | n + 1, acc, h => (hstep acc h).bind fun acc' h' => Yields.iter hstep n acc' h'

end Yields

end Decoder
