/-
FlexEtl.Lib.Traced — decoders that note what they pass.

A `Traced` decoder has an outcome and a list of notes. `Traces q p` says that
the outcome is that of the plain decoder `p`, so the notes are all that is
new. `Notes B q s` says that the run from `s` makes a note of the kind `B`.
The rules for it follow the structure of the decoder: after a bind, the note
comes from the first part, or from the second in a state that the first part
returns in; in a counted loop, from some round.
-/
import FlexEtl.Lib.Language

namespace Decoder

variable {ε σ ω ι α β γ : Type}

/-- The outcome, and the notes that were made. -/
def Traced (ε σ ω α : Type) := σ → EStateM.Result ε σ α × List ω

namespace Traced

protected def pure (a : α) : Traced ε σ ω α := fun s => (.ok a s, [])

def throw (e : ε) : Traced ε σ ω α := fun s => (.error e s, [])

protected def bind (q : Traced ε σ ω α) (g : α → Traced ε σ ω β) : Traced ε σ ω β := fun s =>
  match q s with
  | (.ok a s', notes) => ((g a s').1, notes ++ (g a s').2)
  | (.error e s', notes) => (.error e s', notes)

instance : Monad (Traced ε σ ω) where
  pure := Traced.pure
  bind := Traced.bind

instance : LawfulMonad (Traced ε σ ω) := by
  refine LawfulMonad.mk' (Traced ε σ ω) ?_ (fun _ _ => rfl) ?_
  · intro α q
    funext s
    show Traced.bind q Traced.pure s = q s
    unfold Traced.bind Traced.pure
    obtain ⟨r, notes⟩ := q s
    cases r <;> simp
  · intro α β γ q g h
    funext s
    show Traced.bind (Traced.bind q g) h s = Traced.bind q (fun a => Traced.bind (g a) h) s
    unfold Traced.bind
    obtain ⟨r, notes⟩ := q s
    cases r with
    | error e s' => rfl
    | ok a s' =>
        dsimp only
        obtain ⟨r', notes'⟩ := g a s'
        cases r' <;> simp

/-- A decoder that makes no note. -/
def lift (p : EStateM ε σ α) : Traced ε σ ω α := fun s => (p s, [])

/-- A decoder that makes a note of the state it starts in. -/
def noting (note : σ → ω) (p : EStateM ε σ α) : Traced ε σ ω α := fun s => (p s, [note s])

/-- Run `step` exactly `n` times on an accumulator. -/
def iter (step : β → Traced ε σ ω β) : Nat → β → Traced ε σ ω β
  | 0, acc => pure acc
  | n + 1, acc => step acc >>= iter step n

end Traced

open Traced

/-! ## Outcomes -/

/-- Apart from its notes, `q` is `p`. -/
def Traces (q : Traced ε σ ω α) (p : EStateM ε σ α) : Prop := ∀ s, (q s).1 = p s

namespace Traces

theorem pure (a : α) : Traces (Pure.pure a : Traced ε σ ω α) (Pure.pure a) := fun _ => rfl

theorem throw (e : ε) : Traces (Traced.throw e : Traced ε σ ω α) (MonadExcept.throw e) :=
  fun _ => rfl

theorem lift (p : EStateM ε σ α) : Traces (Traced.lift p : Traced ε σ ω α) p := fun _ => rfl

theorem noting (note : σ → ω) (p : EStateM ε σ α) : Traces (Traced.noting note p) p := fun _ => rfl

theorem bind {q : Traced ε σ ω α} {p : EStateM ε σ α} {g : α → Traced ε σ ω β}
    {f : α → EStateM ε σ β} (hq : Traces q p) (hg : ∀ a, Traces (g a) (f a)) :
    Traces (q >>= g) (p >>= f) := by
  intro s
  have houtcome := hq s
  show (Traced.bind q g s).1 = EStateM.bind p f s
  unfold Traced.bind EStateM.bind
  rcases hrun : q s with ⟨a | e, notes⟩
  · rw [hrun] at houtcome
    simp only [← houtcome]
    exact hg _ _
  · rw [hrun] at houtcome
    simp only [← houtcome]

theorem iter {stepT : β → Traced ε σ ω β} {step : β → EStateM ε σ β}
    (hstep : ∀ acc, Traces (stepT acc) (step acc)) :
    ∀ (n : Nat) (acc : β), Traces (Traced.iter stepT n acc) (Decoder.iter step n acc)
  | 0, acc => pure acc
  | n + 1, acc => (hstep acc).bind fun acc' => iter hstep n acc'

end Traces

/-! ## Notes -/

/-- The run from `s` makes a note of the kind `B`. -/
def Notes (B : ω → Prop) (q : Traced ε σ ω α) (s : σ) : Prop := ∃ w ∈ (q s).2, B w

section Notes

variable {B : ω → Prop} {s : σ}

@[simp] theorem not_notes_pure (a : α) : ¬ Notes B (pure a : Traced ε σ ω α) s := by
  rintro ⟨w, hw, -⟩
  cases hw

@[simp] theorem not_notes_throw (e : ε) : ¬ Notes B (Traced.throw e : Traced ε σ ω α) s := by
  rintro ⟨w, hw, -⟩
  cases hw

@[simp] theorem not_notes_lift (p : EStateM ε σ α) :
    ¬ Notes B (Traced.lift p : Traced ε σ ω α) s := by
  rintro ⟨w, hw, -⟩
  cases hw

@[simp] theorem notes_noting (note : σ → ω) (p : EStateM ε σ α) :
    Notes B (Traced.noting note p) s ↔ B (note s) := by
  simp [Notes, Traced.noting]

theorem notes_bind {q : Traced ε σ ω α} {p : EStateM ε σ α} (hq : Traces q p)
    {g : α → Traced ε σ ω β} :
    Notes B (q >>= g) s ↔ Notes B q s ∨ ∃ a s', p s = .ok a s' ∧ Notes B (g a) s' := by
  have houtcome := hq s
  show (∃ w ∈ (Traced.bind q g s).2, B w) ↔ _
  unfold Traced.bind Notes
  rcases hrun : q s with ⟨a | e, notes⟩
  · rw [hrun] at houtcome
    simp only [← houtcome, List.mem_append, or_and_right, exists_or]
    refine or_congr_right ⟨fun h => ⟨_, _, rfl, h⟩, ?_⟩
    rintro ⟨a', s', heq, h⟩
    cases heq
    exact h
  · rw [hrun] at houtcome
    simp [← houtcome]

/-- Where the first part makes no note. -/
theorem notes_lift_bind {p : EStateM ε σ α} {g : α → Traced ε σ ω β} :
    Notes B (Traced.lift p >>= g) s ↔ ∃ a s', p s = .ok a s' ∧ Notes B (g a) s' := by
  rw [notes_bind (Traces.lift p)]
  simp

/-- Where the second part makes no note. -/
theorem notes_bind_pure {q : Traced ε σ ω α} {p : EStateM ε σ α} (hq : Traces q p) {g : α → β} :
    Notes B (q >>= fun a => pure (g a)) s ↔ Notes B q s := by
  rw [notes_bind hq]
  simp

theorem notes_iter {stepT : β → Traced ε σ ω β} {step : β → EStateM ε σ β}
    (hstep : ∀ acc, Traces (stepT acc) (step acc)) :
    ∀ (n : Nat) (acc : β) (s : σ), Notes B (Traced.iter stepT n acc) s ↔
      ∃ k < n, ∃ acc' s', Decoder.iter step k acc s = .ok acc' s' ∧ Notes B (stepT acc') s'
  | 0, acc, s => by
      simp [Traced.iter]
  | n + 1, acc, s => by
      have hrest := notes_iter hstep n
      rw [Traced.iter, notes_bind (hstep acc)]
      constructor
      · rintro (hnow | ⟨a, s₁, hrun, hlater⟩)
        · exact ⟨0, Nat.succ_pos n, acc, s, rfl, hnow⟩
        · obtain ⟨k, hk, acc', s', hiter, hnotes⟩ := (hrest a s₁).mp hlater
          refine ⟨k + 1, Nat.succ_lt_succ hk, acc', s', ?_, hnotes⟩
          show EStateM.bind (step acc) (Decoder.iter step k) s = _
          rw [EStateM.bind, hrun]
          exact hiter
      · rintro ⟨k, hk, acc', s', hiter, hnotes⟩
        cases k with
        | zero =>
            cases hiter
            exact .inl hnotes
        | succ k =>
            change EStateM.bind (step acc) (Decoder.iter step k) s = _ at hiter
            cases hrun : step acc s with
            | error e s₁ => simp [EStateM.bind, hrun] at hiter
            | ok a s₁ =>
                rw [EStateM.bind, hrun] at hiter
                exact .inr ⟨a, s₁, rfl,
                  (hrest a s₁).mpr ⟨k, Nat.lt_of_succ_lt_succ hk, acc', s', hiter, hnotes⟩⟩

end Notes

/-! ## Notes after what is read -/

/-- Fewer than `n` items stand in front of an input of the kind `D`. -/
def Items.Before (S : Items ι γ) (n : Nat) (D : List ι → Prop) (inp : List ι) : Prop :=
  ∃ xs : List γ, xs.length < n ∧ (∀ x ∈ xs, S.Valid x) ∧
    ∃ rest, inp = xs.flatMap S.text ++ rest ∧ D rest

/-- A decoder of items returns somewhere with `C` when an item stands at the beginning of the
input, with what `C` is there on the rest. -/
theorem Describes.exists_ok {V : View ε σ ι} {n : Nat} {p : EStateM ε σ α} {S : Items ι γ}
    {f : γ → α} (h : Describes V n p (S.one f)) {s : σ} (hs : V.Inv s)
    (hlen : (V.input s).length ≤ n) {C : α → σ → Prop} {D : γ → List ι → Prop}
    (hD : ∀ x s', S.Valid x → V.Inv s' → V.input s = S.text x ++ V.input s' →
      (C (f x) s' ↔ D x (V.input s'))) :
    (∃ a s', p s = .ok a s' ∧ C a s') ↔
      ∃ x, S.Valid x ∧ ∃ rest, V.input s = S.text x ++ rest ∧ D x rest := by
  constructor
  · rintro ⟨a, s', hrun, hC⟩
    obtain ⟨_, _, ⟨x, hx, rfl, rfl, -⟩, hinput, hs', -⟩ := h.state hs hlen hrun
    exact ⟨x, hx, V.input s', hinput, (hD x s' hx hs' hinput).mp hC⟩
  · rintro ⟨x, hx, rest, hinput, hrest⟩
    obtain ⟨s', hrun, hs', rfl, -⟩ := h.accepts hs hlen hinput ⟨x, hx, rfl, rfl, rfl⟩
    exact ⟨f x, s', hrun, (hD x s' hx hs' hinput).mpr hrest⟩

/-- A counted loop that reads items makes a note in some round, after the items of the rounds
before. -/
theorem notes_iter_items {V : View ε σ ι} {n : Nat} {S : Items ι γ}
    {stepT : β → Traced ε σ ω β} {step : β → EStateM ε σ β} {a : List γ → β}
    (htraces : ∀ b, Traces (stepT b) (step b))
    (hstep : ∀ ys, Describes V n (step (a ys)) (S.one fun x => a (ys ++ [x])))
    {B : ω → Prop} {D : List ι → Prop}
    (hD : ∀ ys s, V.Inv s → (V.input s).length ≤ n →
      (Notes B (stepT (a ys)) s ↔ D (V.input s)))
    {s : σ} (hs : V.Inv s) (hlen : (V.input s).length ≤ n) (m : Nat) :
    Notes B (Traced.iter stepT m (a [])) s ↔ S.Before m D (V.input s) := by
  have hround : ∀ k, (∃ b s', Decoder.iter step k (a []) s = .ok b s' ∧ Notes B (stepT b) s') ↔
      ∃ xs, (S.list k).Valid xs ∧ ∃ rest, V.input s = (S.list k).text xs ++ rest ∧ D rest := by
    intro k
    have hloop := Describes.iter hstep k []
    refine hloop.exists_ok hs hlen (D := fun _ rest => D rest) fun xs s' _ hs' hinput => ?_
    rw [hinput, List.length_append] at hlen
    exact hD xs s' hs' (by omega)
  rw [notes_iter htraces]
  constructor
  · rintro ⟨k, hk, hnotes⟩
    obtain ⟨xs, ⟨rfl, hxs⟩, rest, hinput, hrest⟩ := (hround k).mp hnotes
    exact ⟨xs, hk, hxs, rest, hinput, hrest⟩
  · rintro ⟨xs, hk, hxs, rest, hinput, hrest⟩
    exact ⟨xs.length, hk, (hround xs.length).mpr ⟨xs, ⟨rfl, hxs⟩, rest, hinput, hrest⟩⟩

end Decoder
