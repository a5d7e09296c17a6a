/-
FlexEtl.Lib.Scanner — scanners that look one symbol ahead.

A scanner is an `EStateM` action over the symbols to come. `Scans n C p G` says
what it accepts: in front of a rest that stops `C`, it takes exactly the texts
of `G`, with their values. The side condition of `bind` is that what the second
part reads stops the first. `Runs` is about all inputs: what a scanner returns,
and the errors it can end with.

`scanLoop` is `while (test(peek())) { … take() … }`, as a recursion over the
symbols.
-/
import FlexEtl.Lib.Outcome

namespace Decoder

variable {ε ι α β γ : Type}

/-! ## Where a scanner stops -/

/-- The input ends, or goes on with a symbol outside `C`. -/
def Stops (C : ι → Prop) (inp : List ι) : Prop := ∀ c ∈ inp.head?, ¬ C c

section Stops

variable {C D : ι → Prop} {s : List ι}

@[simp] theorem stops_nil : Stops C ([] : List ι) := by
  simp [Stops]

@[simp] theorem stops_cons {c : ι} : Stops C (c :: s) ↔ ¬ C c := by
  simp [Stops]

@[simp] theorem stops_false : Stops (fun _ => False) s := by
  simp [Stops]

theorem Stops.mono (h : Stops D s) (hCD : ∀ c, C c → D c) : Stops C s :=
  fun c hc hC => h c hc (hCD c hC)

end Stops

/-! ## Runs of an action -/

section Runs

variable {σ : Type} {p : EStateM ε σ α} {f : α → EStateM ε σ β} {s r : σ} {b : β}

theorem bind_eq_ok : (p >>= f) s = .ok b r ↔ ∃ a s', p s = .ok a s' ∧ f a s' = .ok b r := by
  show EStateM.bind p f s = _ ↔ _
  unfold EStateM.bind
  cases p s with
  | ok a s' =>
      constructor
      · exact fun h => ⟨a, s', rfl, h⟩
      · rintro ⟨a', s₁, heq, h⟩
        cases heq
        exact h
  | error e s' => simp

theorem pure_eq_ok {a b : α} : (pure a : EStateM ε σ α) s = .ok b r ↔ b = a ∧ r = s := by
  show EStateM.Result.ok a s = .ok b r ↔ _
  simp [eq_comm]

theorem throw_ne_ok {e : ε} {b : α} : (throw e : EStateM ε σ α) s ≠ .ok b r := by
  intro h
  cases h

end Runs

/-! ## Accepted texts -/

/-- In front of a rest that stops `C`, the scanner takes the texts of `G`. A scanner that
recurses on fuel does so where fewer than `n` symbols are to come. -/
structure Scans (n : Nat) (C : ι → Prop) (p : EStateM ε (List ι) α) (G : α → List ι → Prop) :
    Prop where
  sound : ∀ {s a r}, Stops C r → p s = .ok a r → ∃ t, G a t ∧ s = t ++ r
  complete : ∀ {a t r}, G a t → Stops C r → (t ++ r).length < n → p (t ++ r) = .ok a r

namespace Scans

variable {n m : Nat} {C D : ι → Prop} {p : EStateM ε (List ι) α} {f : α → EStateM ε (List ι) β}
  {G H : α → List ι → Prop} {K : α → β → List ι → Prop}

theorem pure (a : α) :
    Scans n C (Pure.pure a : EStateM ε (List ι) α) fun b t => b = a ∧ t = [] where
  sound := by
    intro s b r _ h
    obtain ⟨rfl, rfl⟩ := pure_eq_ok.mp h
    exact ⟨[], ⟨rfl, rfl⟩, rfl⟩
  complete := by
    rintro b t r ⟨rfl, rfl⟩ _ _
    rfl

/-- What the second part reads, or what follows it, stops the first. -/
theorem bind (hp : Scans n C p G) (hf : ∀ a, Scans n D (f a) (K a))
    (hstop : ∀ a b t u, K a b t → Stops D u → Stops C (t ++ u)) :
    Scans n D (p >>= f) fun b t => ∃ a t₁ t₂, G a t₁ ∧ K a b t₂ ∧ t = t₁ ++ t₂ where
  sound := by
    intro s b r hr h
    obtain ⟨a, s', hrun, hrest⟩ := bind_eq_ok.mp h
    obtain ⟨t₂, hK, rfl⟩ := (hf a).sound hr hrest
    obtain ⟨t₁, hG, rfl⟩ := hp.sound (hstop a b t₂ r hK hr) hrun
    exact ⟨t₁ ++ t₂, ⟨a, t₁, t₂, hG, hK, rfl⟩, (List.append_assoc _ _ _).symm⟩
  complete := by
    rintro b t r ⟨a, t₁, t₂, hG, hK, rfl⟩ hr hlen
    rw [List.append_assoc] at hlen ⊢
    rw [Outcome.bind_of_ok (hp.complete hG (hstop a b t₂ r hK hr) hlen)]
    refine (hf a).complete hK hr ?_
    rw [List.length_append] at hlen
    omega

theorem congr (hp : Scans n C p G) (h : ∀ a t, G a t ↔ H a t) : Scans n C p H where
  sound hr hrun := by
    obtain ⟨t, hG, heq⟩ := hp.sound hr hrun
    exact ⟨t, (h _ _).mp hG, heq⟩
  complete hH := hp.complete ((h _ _).mpr hH)

end Scans

/-! ## Runs on any input -/

/-- Where fewer than `n` symbols are to come, the scanner leaves no more of them, what it
returns satisfies `P`, and an error it ends with is an `E`. -/
structure Runs (n : Nat) (p : EStateM ε (List ι) α) (E : ε → Prop) (P : α → Prop) : Prop where
  ok : ∀ {s a r}, s.length < n → p s = .ok a r → r.length ≤ s.length ∧ P a
  error : ∀ {s e r}, s.length < n → p s = .error e r → E e

namespace Runs

variable {n m : Nat} {E : ε → Prop} {P P' : α → Prop} {Q : β → Prop}
  {p q : EStateM ε (List ι) α} {f : α → EStateM ε (List ι) β}

theorem pure {a : α} (h : P a) : Runs n (Pure.pure a : EStateM ε (List ι) α) E P where
  ok := by
    intro s b r _ hrun
    obtain ⟨rfl, rfl⟩ := pure_eq_ok.mp hrun
    exact ⟨Nat.le_refl _, h⟩
  error := by
    intro s e r _ hrun
    cases hrun

theorem throw {e : ε} (h : E e) : Runs n (MonadExcept.throw e : EStateM ε (List ι) α) E P where
  ok _ hrun := absurd hrun throw_ne_ok
  error := by
    intro s e r _ hrun
    cases hrun
    exact h

theorem bind (hp : Runs n p E P) (hf : ∀ a, P a → Runs n (f a) E Q) : Runs n (p >>= f) E Q where
  ok := by
    intro s b r hlen hrun
    obtain ⟨a, s', hrun, hrest⟩ := bind_eq_ok.mp hrun
    obtain ⟨hle, ha⟩ := hp.ok hlen hrun
    obtain ⟨hle', hb⟩ := (hf a ha).ok (Nat.lt_of_le_of_lt hle hlen) hrest
    exact ⟨Nat.le_trans hle' hle, hb⟩
  error := by
    intro s e r hlen hrun
    cases hfirst : p s with
    | ok a s' =>
        rw [Outcome.bind_of_ok hfirst] at hrun
        obtain ⟨hle, ha⟩ := hp.ok hlen hfirst
        exact (hf a ha).error (Nat.lt_of_le_of_lt hle hlen) hrun
    | error e' s' =>
        rw [Outcome.bind_of_error hfirst] at hrun
        cases hrun
        exact hp.error hlen hfirst

theorem mono (hp : Runs n p E P) (h : ∀ a, P a → P' a) : Runs n p E P' where
  ok hlen hrun := (hp.ok hlen hrun).imp_right (h _)
  error := hp.error

theorem imp_error {E' : ε → Prop} (hp : Runs n p E P) (h : ∀ e, E e → E' e) : Runs n p E' P where
  ok := hp.ok
  error hlen hrun := h _ (hp.error hlen hrun)

theorem ite {b : Prop} [Decidable b] (hp : b → Runs n p E P) (hq : ¬ b → Runs n q E P) :
    Runs n (if b then p else q) E P := by
  split
  · exact hp ‹_›
  · exact hq ‹_›

end Runs

/-! ## Loops over the symbols -/

/-- What a loop does with the next symbol. -/
inductive Turn (ε β : Type) where
  /-- Take it and go on. -/
  | take (b : β)
  /-- Take it and leave. -/
  | last (b : β)
  /-- Leave it there. -/
  | stop (b : β)
  /-- Take it and fail. -/
  | fail (e : ε)

/-- What a turn goes on with is a `P`, what it leaves the loop with is a `Q`, and what it fails
with is an `E`. -/
def Turn.Leads (E : ε → Prop) (P Q : β → Prop) : Turn ε β → Prop
  | take b => P b
  | last b | stop b => Q b
  | fail e => E e

/-- A turn that neither goes on with nor leaves with anything but a `P`. -/
def Turn.Keeps (E : ε → Prop) (P : β → Prop) (t : Turn ε β) : Prop := t.Leads E P P

/-- A loop that takes symbols as long as `turn` says so. -/
def scanLoop (turn : β → ι → Turn ε β) : β → EStateM ε (List ι) β
  | b, [] => .ok b []
  | b, c :: s =>
      match turn b c with
      | .take b' => scanLoop turn b' s
      | .last b' => .ok b' s
      | .stop b' => .ok b' (c :: s)
      | .fail e => .error e s

section

variable {C : ι → Prop} {turn : β → ι → Turn ε β}

@[simp] theorem scanLoop_nil (b : β) : scanLoop turn b [] = .ok b [] := rfl

theorem scanLoop_take {b b' : β} {c : ι} (h : turn b c = .take b') (s : List ι) :
    scanLoop turn b (c :: s) = scanLoop turn b' s := by
  simp [scanLoop, h]

theorem scanLoop_last {b b' : β} {c : ι} (h : turn b c = .last b') (s : List ι) :
    scanLoop turn b (c :: s) = .ok b' s := by
  simp [scanLoop, h]

theorem scanLoop_stop {b b' : β} {c : ι} (h : turn b c = .stop b') (s : List ι) :
    scanLoop turn b (c :: s) = .ok b' (c :: s) := by
  simp [scanLoop, h]

theorem scanLoop_fail {b : β} {c : ι} {e : ε} (h : turn b c = .fail e) (s : List ι) :
    scanLoop turn b (c :: s) = .error e s := by
  simp [scanLoop, h]

/-- In front of a rest that stops `C` nothing is taken. -/
theorem scanLoop_stops (hC : ∀ b c, ¬ C c → turn b c = .stop b) (b : β) {s : List ι}
    (hs : Stops C s) : scanLoop turn b s = .ok b s := by
  cases s with
  | nil => rfl
  | cons c s => exact scanLoop_stop (hC b c (stops_cons.mp hs)) s

/-- A loop that keeps count of the symbols it has taken. -/
theorem Runs.scanLoop_count {n : Nat} {E : ε → Prop} {P : Nat → β → Prop} {Q : β → Prop}
    (hturn : ∀ k b c, k + 1 < n → P k b → (turn b c).Leads E (P (k + 1)) Q)
    (hend : ∀ k b, k < n → P k b → Q b) {b : β} (hb : P 0 b) :
    Runs n (Decoder.scanLoop turn b) E Q := by
  suffices h : ∀ (s : List ι) (k : Nat) (b : β), k + s.length < n → P k b →
      (∀ a r, Decoder.scanLoop turn b s = .ok a r → r.length ≤ s.length ∧ Q a) ∧
        ∀ e r, Decoder.scanLoop turn b s = .error e r → E e from
    { ok := fun {s a r} hlen hrun => (h s 0 b (by omega) hb).1 a r hrun
      error := fun {s e r} hlen hrun => (h s 0 b (by omega) hb).2 e r hrun }
  intro s
  induction s with
  | nil =>
      intro k b hlen hb
      refine ⟨fun a r h => ?_, fun e r h => ?_⟩
      · cases h
        exact ⟨Nat.le_refl _, hend k _ hlen hb⟩
      · cases h
  | cons c s ih =>
      intro k b hlen hb
      rw [List.length_cons] at hlen
      have hnext := hturn k b c (by omega) hb
      simp only [Decoder.scanLoop, List.length_cons]
      cases hcase : turn b c with
      | take b' =>
          rw [hcase] at hnext
          obtain ⟨hok, herror⟩ := ih (k + 1) b' (by omega) hnext
          exact ⟨fun a r h => (hok a r h).imp_left Nat.le_succ_of_le, herror⟩
      | last b' =>
          rw [hcase] at hnext
          refine ⟨fun a r h => ?_, fun e r h => ?_⟩
          · cases h
            exact ⟨Nat.le_succ _, hnext⟩
          · cases h
      | stop b' =>
          rw [hcase] at hnext
          refine ⟨fun a r h => ?_, fun e r h => ?_⟩
          · cases h
            exact ⟨Nat.le_refl _, hnext⟩
          · cases h
      | fail e =>
          rw [hcase] at hnext
          refine ⟨fun a r h => ?_, fun e r h => ?_⟩
          · cases h
          · cases h
            exact hnext

/-- A loop keeps what every turn keeps. -/
theorem Runs.scanLoop {n : Nat} {E : ε → Prop} {P : β → Prop}
    (hturn : ∀ b c, P b → (turn b c).Keeps E P) {b : β} (hb : P b) :
    Runs n (Decoder.scanLoop turn b) E P :=
  Runs.scanLoop_count (P := fun _ => P) (fun _ b c _ h => hturn b c h) (fun _ _ _ h => h) hb

end

end Decoder
