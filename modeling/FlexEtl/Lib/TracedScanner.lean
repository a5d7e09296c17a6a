/-
FlexEtl.Lib.TracedScanner — scanners that note what they find.

`Scans` and `Runs` of the scanners, for `Traced` ones. The notes of a text are
part of the language (`Traced.Scans`), and a run that fails has notes as well,
so `Traced.Runs` says what they can be on either way out.
-/
import FlexEtl.Lib.Scanner
import FlexEtl.Lib.Traced

namespace Decoder

namespace Traced

variable {ε σ ι ω α β : Type}

/-! ## Outcomes of a sequence -/

section Outcomes

variable {q : Traced ε σ ω α} {g : α → Traced ε σ ω β} {s r : σ} {w : List ω}

theorem bind_of_ok {a : α} {s' : σ} {w₁ : List ω} (h : q s = (.ok a s', w₁)) :
    (q >>= g) s = ((g a s').1, w₁ ++ (g a s').2) := by
  show Traced.bind q g s = _
  unfold Traced.bind
  rw [h]

theorem bind_of_error {e : ε} {s' : σ} {w₁ : List ω} (h : q s = (.error e s', w₁)) :
    (q >>= g) s = (.error e s', w₁) := by
  show Traced.bind q g s = _
  unfold Traced.bind
  rw [h]

theorem bind_eq_ok {b : β} : (q >>= g) s = (.ok b r, w) ↔
    ∃ a s' w₁ w₂, q s = (.ok a s', w₁) ∧ g a s' = (.ok b r, w₂) ∧ w = w₁ ++ w₂ := by
  constructor
  · intro h
    rcases hq : q s with ⟨⟨a, s'⟩ | ⟨e', s'⟩, w₁⟩
    · rw [bind_of_ok hq] at h
      obtain ⟨hrun, hw⟩ := Prod.mk.inj h
      exact ⟨a, s', w₁, _, rfl, Prod.ext hrun rfl, hw.symm⟩
    · rw [bind_of_error hq] at h
      cases h
  · rintro ⟨a, s', w₁, w₂, hq, hrest, rfl⟩
    rw [bind_of_ok hq, hrest]

theorem bind_eq_error {e : ε} (h : (q >>= g) s = (.error e r, w)) : q s = (.error e r, w) ∨
    ∃ a s' w₁ w₂, q s = (.ok a s', w₁) ∧ g a s' = (.error e r, w₂) ∧ w = w₁ ++ w₂ := by
  rcases hq : q s with ⟨⟨a, s'⟩ | ⟨e', s'⟩, w₁⟩
  · rw [bind_of_ok hq] at h
    obtain ⟨hrun, hw⟩ := Prod.mk.inj h
    exact .inr ⟨a, s', w₁, _, rfl, Prod.ext hrun rfl, hw.symm⟩
  · rw [bind_of_error hq] at h
    cases h
    exact .inl rfl

theorem pure_eq_ok {a b : α} : (pure a : Traced ε σ ω α) s = (.ok b r, w) ↔
    b = a ∧ r = s ∧ w = [] := by
  show (EStateM.Result.ok a s, []) = (EStateM.Result.ok b r, w) ↔ _
  simp [eq_comm, and_assoc]

theorem lift_eq_ok {p : EStateM ε σ α} {a : α} :
    (lift p : Traced ε σ ω α) s = (.ok a r, w) ↔ p s = .ok a r ∧ w = [] := by
  simp [lift, eq_comm]

theorem lift_eq_error {p : EStateM ε σ α} {e : ε} :
    (lift p : Traced ε σ ω α) s = (.error e r, w) ↔ p s = .error e r ∧ w = [] := by
  simp [lift, eq_comm]

/-- A note of its own. -/
def note (e : ω) : Traced ε σ ω Unit := noting (fun _ => e) (pure ())

theorem note_run (e : ω) (s : σ) : (note e : Traced ε σ ω Unit) s = (.ok () s, [e]) := rfl

theorem lift_bind_run {p : EStateM ε σ α} {a : α} {s' : σ} (h : p s = .ok a s') :
    (lift p >>= g) s = g a s' := by
  rw [bind_of_ok (lift_eq_ok.mpr ⟨h, rfl⟩)]
  rfl

end Outcomes

/-! ## Accepted texts -/

/-- In front of a rest that stops `C`, the scanner takes the texts of `L`, with their notes. -/
structure Scans (n : Nat) (C : ι → Prop) (p : Traced ε (List ι) ω Unit)
    (L : List ω → List ι → Prop) : Prop where
  sound : ∀ {s r w}, Stops C r → p s = (.ok () r, w) → ∃ t, L w t ∧ s = t ++ r
  complete : ∀ {w t r}, L w t → Stops C r → (t ++ r).length < n → p (t ++ r) = (.ok () r, w)

namespace Scans

variable {n m : Nat} {C D : ι → Prop} {q q' : Traced ε (List ι) ω Unit}
  {L L' : List ω → List ι → Prop}

theorem note (e : ω) :
    Scans n C (Traced.note e : Traced ε (List ι) ω Unit) fun w t => w = [e] ∧ t = [] where
  sound := by
    intro s r w _ h
    rw [note_run] at h
    cases h
    exact ⟨[], ⟨rfl, rfl⟩, rfl⟩
  complete := by
    rintro w t r ⟨rfl, rfl⟩ _ _
    rfl

theorem pure : Scans n C (Pure.pure () : Traced ε (List ι) ω Unit) fun w t => w = [] ∧ t = [] where
  sound := by
    intro s r w _ h
    obtain ⟨-, rfl, rfl⟩ := pure_eq_ok.mp h
    exact ⟨[], ⟨rfl, rfl⟩, rfl⟩
  complete := by
    rintro w t r ⟨rfl, rfl⟩ _ _
    rfl

theorem throw (e : ε) :
    Scans n C (Traced.throw e : Traced ε (List ι) ω Unit) fun _ _ => False where
  sound _ h := by cases h
  complete h := h.elim

theorem bind (hq : Scans n C q L) (hq' : Scans n D q' L')
    (hstop : ∀ w t u, L' w t → Stops D u → Stops C (t ++ u)) :
    Scans n D (q >>= fun _ => q') fun w t =>
      ∃ w₁ w₂ t₁ t₂, L w₁ t₁ ∧ L' w₂ t₂ ∧ w = w₁ ++ w₂ ∧ t = t₁ ++ t₂ where
  sound := by
    intro s r w hr h
    obtain ⟨⟨⟩, s', w₁, w₂, hrun, hrest, rfl⟩ := bind_eq_ok.mp h
    obtain ⟨t₂, hL', rfl⟩ := hq'.sound hr hrest
    obtain ⟨t₁, hL, rfl⟩ := hq.sound (hstop w₂ t₂ r hL' hr) hrun
    exact ⟨t₁ ++ t₂, ⟨w₁, w₂, t₁, t₂, hL, hL', rfl, rfl⟩, (List.append_assoc _ _ _).symm⟩
  complete := by
    rintro w t r ⟨w₁, w₂, t₁, t₂, hL, hL', rfl, rfl⟩ hr hlen
    rw [List.append_assoc] at hlen ⊢
    rw [bind_of_ok (hq.complete hL (hstop w₂ t₂ r hL' hr) hlen)]
    rw [List.length_append] at hlen
    rw [hq'.complete hL' hr (by omega)]

/-- A scanner that notes nothing, and what it leads to. -/
theorem lift_bind {p : EStateM ε (List ι) α} {G : α → List ι → Prop}
    {g : α → Traced ε (List ι) ω Unit} {K : α → List ω → List ι → Prop}
    (hp : Decoder.Scans n C p G) (hg : ∀ a, Scans n D (g a) (K a))
    (hstop : ∀ a w t u, K a w t → Stops D u → Stops C (t ++ u)) :
    Scans n D (lift p >>= g) fun w t => ∃ a t₁ t₂, G a t₁ ∧ K a w t₂ ∧ t = t₁ ++ t₂ where
  sound := by
    intro s r w hr h
    obtain ⟨a, s', w₁, w₂, hrun, hrest, rfl⟩ := bind_eq_ok.mp h
    obtain ⟨hfirst, rfl⟩ := lift_eq_ok.mp hrun
    obtain ⟨t₂, hK, rfl⟩ := (hg a).sound hr hrest
    obtain ⟨t₁, hG, rfl⟩ := hp.sound (hstop a w₂ t₂ r hK hr) hfirst
    exact ⟨t₁ ++ t₂, ⟨a, t₁, t₂, hG, hK, rfl⟩, (List.append_assoc _ _ _).symm⟩
  complete := by
    rintro w t r ⟨a, t₁, t₂, hG, hK, rfl⟩ hr hlen
    rw [List.append_assoc] at hlen ⊢
    rw [lift_bind_run (hp.complete hG (hstop a w t₂ r hK hr) hlen)]
    refine (hg a).complete hK hr ?_
    rw [List.length_append] at hlen
    omega

theorem note_bind {e : ω} (hq : Scans n C q L) :
    Scans n C (Traced.note e >>= fun _ => q) fun w t => ∃ w', L w' t ∧ w = e :: w' where
  sound := by
    intro s r w hr h
    obtain ⟨⟨⟩, s', w₁, w₂, hnote, hrest, rfl⟩ := bind_eq_ok.mp h
    cases hnote
    obtain ⟨t, hL, rfl⟩ := hq.sound hr hrest
    exact ⟨t, ⟨w₂, hL, rfl⟩, rfl⟩
  complete := by
    rintro w t r ⟨w', hL, rfl⟩ hr hlen
    rw [bind_of_ok (note_run e _), hq.complete hL hr hlen]
    rfl

theorem congr (hq : Scans n C q L) (h : ∀ w t, L w t ↔ L' w t) : Scans n C q L' where
  sound hr hrun := by
    obtain ⟨t, hL, heq⟩ := hq.sound hr hrun
    exact ⟨t, (h _ _).mp hL, heq⟩
  complete hL' := hq.complete ((h _ _).mpr hL')

theorem of_le (hq : Scans n C q L) (hmn : m ≤ n) : Scans m C q L where
  sound := hq.sound
  complete hL hr hlen := hq.complete hL hr (Nat.lt_of_lt_of_le hlen hmn)

end Scans

/-! ## Runs on any input -/

/-- Where fewer than `n` symbols are to come: the notes of a run that returns are a `P`, those
of one that fails are a `Q`, and it fails with an `E`. -/
structure Runs (n : Nat) (p : Traced ε (List ι) ω α) (E : ε → Prop) (P : List ω → Prop)
    (Q : List ω → Prop) : Prop where
  ok : ∀ {s a r w}, s.length < n → p s = (.ok a r, w) → r.length ≤ s.length ∧ P w
  error : ∀ {s e r w}, s.length < n → p s = (.error e r, w) → E e ∧ Q w

namespace Runs

variable {n m : Nat} {E : ε → Prop} {P P₁ P₂ Q Q₁ Q₂ : List ω → Prop}
  {q : Traced ε (List ι) ω α} {g : α → Traced ε (List ι) ω β}

theorem note {e : ω} (h : P [e]) : Runs n (Traced.note e : Traced ε (List ι) ω Unit) E P Q where
  ok := by
    intro s a r w _ hrun
    cases hrun
    exact ⟨Nat.le_refl _, h⟩
  error := by
    intro s e r w _ hrun
    cases hrun

theorem pure {a : α} (h : P []) : Runs n (Pure.pure a : Traced ε (List ι) ω α) E P Q where
  ok := by
    intro s b r w _ hrun
    cases hrun
    exact ⟨Nat.le_refl _, h⟩
  error := by
    intro s e r w _ hrun
    cases hrun

theorem throw {e : ε} (he : E e) (h : Q []) :
    Runs n (Traced.throw e : Traced ε (List ι) ω α) E P Q where
  ok _ hrun := by cases hrun
  error := by
    intro s e r w _ hrun
    cases hrun
    exact ⟨he, h⟩

theorem bind (hq : Runs n q E P₁ Q₁) (hg : ∀ a, Runs n (g a) E P₂ Q₂)
    (hP : ∀ w₁ w₂, P₁ w₁ → P₂ w₂ → P (w₁ ++ w₂)) (hQ₁ : ∀ w, Q₁ w → Q w)
    (hQ : ∀ w₁ w₂, P₁ w₁ → Q₂ w₂ → Q (w₁ ++ w₂)) : Runs n (q >>= g) E P Q where
  ok := by
    intro s b r w hlen h
    obtain ⟨a, s', w₁, w₂, hrun, hrest, rfl⟩ := bind_eq_ok.mp h
    obtain ⟨hle, h₁⟩ := hq.ok hlen hrun
    obtain ⟨hle', h₂⟩ := (hg a).ok (Nat.lt_of_le_of_lt hle hlen) hrest
    exact ⟨Nat.le_trans hle' hle, hP w₁ w₂ h₁ h₂⟩
  error := by
    intro s e r w hlen h
    rcases bind_eq_error h with hrun | ⟨a, s', w₁, w₂, hrun, hrest, rfl⟩
    · exact (hq.error hlen hrun).imp_right (hQ₁ w)
    · obtain ⟨hle, h₁⟩ := hq.ok hlen hrun
      obtain ⟨he, h₂⟩ := (hg a).error (Nat.lt_of_le_of_lt hle hlen) hrest
      exact ⟨he, hQ w₁ w₂ h₁ h₂⟩

theorem lift_bind {p : EStateM ε (List ι) α} {A : α → Prop} (hp : Decoder.Runs n p E A)
    (hg : ∀ a, A a → Runs n (g a) E P Q) (hQ : Q []) : Runs n (lift p >>= g) E P Q where
  ok := by
    intro s b r w hlen h
    obtain ⟨a, s', w₁, w₂, hrun, hrest, rfl⟩ := bind_eq_ok.mp h
    obtain ⟨hfirst, rfl⟩ := lift_eq_ok.mp hrun
    obtain ⟨hle, ha⟩ := hp.ok hlen hfirst
    obtain ⟨hle', h₂⟩ := (hg a ha).ok (Nat.lt_of_le_of_lt hle hlen) hrest
    exact ⟨Nat.le_trans hle' hle, h₂⟩
  error := by
    intro s e r w hlen h
    rcases bind_eq_error h with hrun | ⟨a, s', w₁, w₂, hrun, hrest, rfl⟩
    · obtain ⟨hfirst, rfl⟩ := lift_eq_error.mp hrun
      exact ⟨hp.error hlen hfirst, hQ⟩
    · obtain ⟨hfirst, rfl⟩ := lift_eq_ok.mp hrun
      obtain ⟨hle, ha⟩ := hp.ok hlen hfirst
      exact (hg a ha).error (Nat.lt_of_le_of_lt hle hlen) hrest

theorem mono (hq : Runs n q E P₁ Q₁) (hP : ∀ w, P₁ w → P w) (hQ : ∀ w, Q₁ w → Q w) :
    Runs n q E P Q where
  ok hlen hrun := (hq.ok hlen hrun).imp_right (hP _)
  error hlen hrun := (hq.error hlen hrun).imp_right (hQ _)

theorem of_le (hq : Runs n q E P Q) (hmn : m ≤ n) : Runs m q E P Q where
  ok hlen := hq.ok (Nat.lt_of_lt_of_le hlen hmn)
  error hlen := hq.error (Nat.lt_of_lt_of_le hlen hmn)

end Runs

end Traced

end Decoder
