/-
FlexEtl.Lib.Language — everything that a decoder does with arbitrary input.

A `Language` says which symbols a decoder accepts, with what result, and on
which inputs it runs into undefined behaviour; on all others it throws. The
decoder may keep a high-water mark beside its input, such as the size of a
scratch buffer that only grows: an accepted encoding raises the mark to at
least some level, and a fault may depend on where the mark stands.

`Describes V n p L` says that `p` does what `L` says on inputs of at most `n`
symbols. The bound is for decoders that recurse on fuel. A decoder that reads
one `Items` and goes on has the language `andThen` (`Describes.bind`), and a
counted loop that reads an item in each round reads the lists of such items
(`Describes.iter`).
-/
import FlexEtl.Lib.Decoder

namespace Decoder

variable {ε σ ι α β γ : Type}

/-! ## Languages -/

/-- What is accepted, with the result and the level it raises the mark to, and what
faults under a mark. -/
structure Language (ι α : Type) where
  accepts : List ι → α → Nat → Prop
  faults : List ι → Nat → Prop

namespace Language

/-- Nothing is read. -/
def pure (a : α) : Language ι α where
  accepts enc b r := enc = [] ∧ b = a ∧ r = 0
  faults _ _ := False

/-- Everything is refused. -/
def fail : Language ι α where
  accepts _ _ _ := False
  faults _ _ := False

/-- Two languages of one meaning. -/
structure Equiv (L M : Language ι α) : Prop where
  accepts : ∀ enc a r, L.accepts enc a r ↔ M.accepts enc a r
  faults : ∀ inp mark, L.faults inp mark ↔ M.faults inp mark

end Language

/-- A kind of item: which there are, how they are written, how far they raise the mark,
and the inputs in front of which reading one faults. -/
structure Items (ι γ : Type) where
  Valid : γ → Prop
  text : γ → List ι
  room : γ → Nat
  Fault : List ι → Nat → Prop

namespace Items

/-- One item, as which `f` is returned. -/
def one (S : Items ι γ) (f : γ → β) : Language ι β where
  accepts enc b r := ∃ x, S.Valid x ∧ enc = S.text x ∧ b = f x ∧ r = S.room x
  faults := S.Fault

/-- One item, and after it what it calls for. -/
def andThen (S : Items ι γ) (M : γ → Language ι β) : Language ι β where
  accepts enc b r := ∃ x, S.Valid x ∧ ∃ e r', (M x).accepts e b r' ∧
    enc = S.text x ++ e ∧ r = max (S.room x) r'
  faults inp mark := S.Fault inp mark ∨
    ∃ x, S.Valid x ∧ ∃ rest, inp = S.text x ++ rest ∧ (M x).faults rest (max mark (S.room x))

/-- The highest room of some items. -/
def peak (S : Items ι γ) (xs : List γ) : Nat := (xs.map S.room).foldr max 0

@[simp] theorem peak_nil (S : Items ι γ) : S.peak [] = 0 := rfl

@[simp] theorem peak_cons (S : Items ι γ) (x : γ) (xs : List γ) :
    S.peak (x :: xs) = max (S.room x) (S.peak xs) := rfl

/-- The lists of `n` items. -/
def list (S : Items ι γ) (n : Nat) : Items ι (List γ) where
  Valid xs := xs.length = n ∧ ∀ x ∈ xs, S.Valid x
  text xs := xs.flatMap S.text
  room := S.peak
  Fault inp mark := ∃ xs, xs.length < n ∧ (∀ x ∈ xs, S.Valid x) ∧
    ∃ rest, inp = xs.flatMap S.text ++ rest ∧ S.Fault rest (max mark (S.peak xs))

theorem list_zero (S : Items ι γ) (f : List γ → β) :
    (Language.pure (f [])).Equiv ((S.list 0).one f) where
  accepts enc b r := by
    constructor
    · rintro ⟨rfl, rfl, rfl⟩
      exact ⟨[], ⟨rfl, by simp⟩, rfl, rfl, rfl⟩
    · rintro ⟨xs, ⟨hlen, -⟩, rfl, rfl, rfl⟩
      obtain rfl := List.length_eq_zero_iff.mp hlen
      exact ⟨rfl, rfl, rfl⟩
  faults inp mark := by
    constructor
    · exact False.elim
    · rintro ⟨xs, hlen, -⟩
      exact absurd hlen (Nat.not_lt_zero _)

theorem list_succ (S : Items ι γ) (n : Nat) (f : List γ → β) :
    (S.andThen fun x => (S.list n).one fun xs => f (x :: xs)).Equiv ((S.list (n + 1)).one f) where
  accepts enc b r := by
    constructor
    · rintro ⟨x, hx, _, _, ⟨xs, ⟨hlen, hxs⟩, rfl, rfl, rfl⟩, rfl, rfl⟩
      refine ⟨x :: xs, ⟨by simp [hlen], ?_⟩, rfl, rfl, rfl⟩
      simpa using ⟨hx, hxs⟩
    · rintro ⟨xs, ⟨hlen, hxs⟩, rfl, rfl, rfl⟩
      obtain ⟨x, xs, rfl⟩ := List.exists_cons_of_length_eq_add_one hlen
      obtain ⟨hx, hxs⟩ := List.forall_mem_cons.mp hxs
      refine ⟨x, hx, _, _, ⟨xs, ⟨by simpa using hlen, hxs⟩, rfl, rfl, rfl⟩, rfl, rfl⟩
  faults inp mark := by
    constructor
    · rintro (hfault | ⟨x, hx, _, rfl, xs, hlen, hxs, rest, rfl, hfault⟩)
      · exact ⟨[], by simp, by simp, inp, rfl, by rwa [peak_nil, Nat.max_zero]⟩
      · refine ⟨x :: xs, by simpa using hlen, by simpa using ⟨hx, hxs⟩, rest, by simp, ?_⟩
        rwa [peak_cons, ← Nat.max_assoc]
    · rintro ⟨xs, hlen, hxs, rest, rfl, hfault⟩
      cases xs with
      | nil =>
          rw [peak_nil, Nat.max_zero] at hfault
          exact .inl hfault
      | cons x xs =>
          obtain ⟨hx, hxs⟩ := List.forall_mem_cons.mp hxs
          rw [peak_cons, ← Nat.max_assoc] at hfault
          refine .inr ⟨x, hx, xs.flatMap S.text ++ rest, by simp, ?_⟩
          exact ⟨xs, by simpa using hlen, hxs, rest, rfl, hfault⟩

end Items

/-! ## Decoders of a language -/

/-- How the state of a decoder is looked at, and which errors are exceptions and which
stand for undefined behaviour. -/
structure View (ε σ ι : Type) where
  input : σ → List ι
  mark : σ → Nat
  Inv : σ → Prop
  Thrown : ε → Prop
  Undefined : ε → Prop

/-- On inputs of at most `n` symbols, `p` is a decoder of the language. -/
structure Describes (V : View ε σ ι) (n : Nat) (p : EStateM ε σ α) (L : Language ι α) : Prop where
  ok : ∀ {s s' a}, V.Inv s → (V.input s).length ≤ n → p s = .ok a s' →
    ∃ enc r, L.accepts enc a r ∧ V.input s = enc ++ V.input s'
  error : ∀ {s s' e}, V.Inv s → (V.input s).length ≤ n → p s = .error e s' →
    V.Thrown e ∨ V.Undefined e ∧ L.faults (V.input s) (V.mark s)
  accepts : ∀ {s enc rest a r}, V.Inv s → (V.input s).length ≤ n → V.input s = enc ++ rest →
    L.accepts enc a r →
      ∃ s', p s = .ok a s' ∧ V.Inv s' ∧ V.input s' = rest ∧ V.mark s' = max (V.mark s) r
  faults : ∀ {s}, V.Inv s → (V.input s).length ≤ n → L.faults (V.input s) (V.mark s) →
    ∃ e s', p s = .error e s' ∧ V.Undefined e

namespace Describes

variable {V : View ε σ ι} {n : Nat}

theorem mono {p : EStateM ε σ α} {L : Language ι α} (h : Describes V n p L) {m : Nat}
    (hm : m ≤ n) : Describes V m p L where
  ok hs hlen := h.ok hs (Nat.le_trans hlen hm)
  error hs hlen := h.error hs (Nat.le_trans hlen hm)
  accepts hs hlen := h.accepts hs (Nat.le_trans hlen hm)
  faults hs hlen := h.faults hs (Nat.le_trans hlen hm)

theorem congr {p : EStateM ε σ α} {L M : Language ι α} (h : Describes V n p L)
    (hLM : L.Equiv M) : Describes V n p M where
  ok hs hlen hrun := by
    obtain ⟨enc, r, hacc, hinput⟩ := h.ok hs hlen hrun
    exact ⟨enc, r, (hLM.accepts _ _ _).mp hacc, hinput⟩
  error hs hlen hrun := (h.error hs hlen hrun).imp_right
    (And.imp_right (hLM.faults _ _).mp)
  accepts hs hlen hinput hacc := h.accepts hs hlen hinput ((hLM.accepts _ _ _).mpr hacc)
  faults hs hlen hfault := h.faults hs hlen ((hLM.faults _ _).mpr hfault)

theorem pure (a : α) : Describes V n (Pure.pure a : EStateM ε σ α) (.pure a) where
  ok {s s' b} _ _ hrun := by
    cases hrun
    exact ⟨[], 0, ⟨rfl, rfl, rfl⟩, rfl⟩
  error _ _ hrun := by cases hrun
  accepts {s enc rest b r} hs _ hinput hacc := by
    obtain ⟨rfl, rfl, rfl⟩ := hacc
    exact ⟨s, rfl, hs, hinput, by simp⟩
  faults _ _ hfault := hfault.elim

theorem throw {e : ε} (he : V.Thrown e) :
    Describes V n (MonadExcept.throw e : EStateM ε σ α) .fail where
  ok _ _ hrun := by cases hrun
  error _ _ hrun := by
    cases hrun
    exact .inl he
  accepts _ _ _ hacc := hacc.elim
  faults _ _ hfault := hfault.elim

/-- The state after an accepted encoding. -/
theorem state {p : EStateM ε σ α} {L : Language ι α} (h : Describes V n p L) {s s' : σ} {a : α}
    (hs : V.Inv s) (hlen : (V.input s).length ≤ n) (hrun : p s = .ok a s') :
    ∃ enc r, L.accepts enc a r ∧ V.input s = enc ++ V.input s' ∧ V.Inv s' ∧
      V.mark s' = max (V.mark s) r := by
  obtain ⟨enc, r, hacc, hinput⟩ := h.ok hs hlen hrun
  obtain ⟨s₁, hrun₁, hs₁, -, hmark⟩ := h.accepts hs hlen hinput hacc
  rw [hrun] at hrun₁
  cases hrun₁
  exact ⟨enc, r, hacc, hinput, hs₁, hmark⟩

/-- One item of at least `k` symbols, and then what it calls for. -/
theorem bind {p : EStateM ε σ α} {S : Items ι γ} {f : γ → α} {g : α → EStateM ε σ β}
    {M : γ → Language ι β} (k : Nat) (hp : Describes V n p (S.one f))
    (hk : ∀ x, S.Valid x → k ≤ (S.text x).length)
    (hg : k ≤ n → ∀ x, S.Valid x → Describes V (n - k) (g (f x)) (M x)) :
    Describes V n (p >>= g) (S.andThen M) := by
  have hrest : ∀ {s rest x}, (V.input s).length ≤ n → V.input s = S.text x ++ rest →
      S.Valid x → k ≤ n ∧ rest.length ≤ n - k := by
    intro s rest x hlen hinput hx
    have htext := hk x hx
    rw [hinput, List.length_append] at hlen
    omega
  have herror : ∀ {s s' e}, p s = .error e s' → (p >>= g) s = .error e s' := by
    intro s s' e hps
    show EStateM.bind p g s = _
    rw [EStateM.bind, hps]
  have hok : ∀ {s s' a}, p s = .ok a s' → (p >>= g) s = g a s' := by
    intro s s' a hps
    show EStateM.bind p g s = _
    rw [EStateM.bind, hps]
  constructor
  case ok =>
    intro s s'' b hs hlen hrun
    cases hps : p s with
    | error e s' => rw [herror hps] at hrun; cases hrun
    | ok a s' =>
        rw [hok hps] at hrun
        obtain ⟨_, _, ⟨x, hx, rfl, rfl, rfl⟩, hinput, hs', -⟩ := hp.state hs hlen hps
        obtain ⟨hkn, hlen'⟩ := hrest hlen hinput hx
        obtain ⟨e, r, hacc, hinput'⟩ := (hg hkn x hx).ok hs' hlen' hrun
        exact ⟨S.text x ++ e, max (S.room x) r, ⟨x, hx, e, r, hacc, rfl, rfl⟩,
          by rw [hinput, hinput', List.append_assoc]⟩
  case error =>
    intro s s'' e hs hlen hrun
    cases hps : p s with
    | error e' s' =>
        rw [herror hps] at hrun
        cases hrun
        exact (hp.error hs hlen hps).imp_right (And.imp_right .inl)
    | ok a s' =>
        rw [hok hps] at hrun
        obtain ⟨_, _, ⟨x, hx, rfl, rfl, rfl⟩, hinput, hs', hmark⟩ := hp.state hs hlen hps
        obtain ⟨hkn, hlen'⟩ := hrest hlen hinput hx
        rcases (hg hkn x hx).error hs' hlen' hrun with hthrown | ⟨hundef, hfault⟩
        · exact .inl hthrown
        · rw [hmark] at hfault
          exact .inr ⟨hundef, .inr ⟨x, hx, V.input s', hinput, hfault⟩⟩
  case accepts =>
    rintro s _ rest b _ hs hlen hinput ⟨x, hx, e, r, hacc, rfl, rfl⟩
    rw [List.append_assoc] at hinput
    obtain ⟨s₁, hps, hs₁, hinput₁, hmark₁⟩ :=
      hp.accepts hs hlen hinput ⟨x, hx, rfl, rfl, rfl⟩
    obtain ⟨hkn, hlen'⟩ := hrest hlen hinput hx
    rw [← hinput₁] at hlen'
    obtain ⟨s₂, hgs, hs₂, hinput₂, hmark₂⟩ := (hg hkn x hx).accepts hs₁ hlen' hinput₁ hacc
    exact ⟨s₂, by rw [hok hps, hgs], hs₂, hinput₂, by rw [hmark₂, hmark₁, Nat.max_assoc]⟩
  case faults =>
    rintro s hs hlen (hfault | ⟨x, hx, rest, hinput, hfault⟩)
    · obtain ⟨e, s', hps, he⟩ := hp.faults hs hlen hfault
      exact ⟨e, s', herror hps, he⟩
    · obtain ⟨s₁, hps, hs₁, hinput₁, hmark₁⟩ :=
        hp.accepts hs hlen hinput ⟨x, hx, rfl, rfl, rfl⟩
      obtain ⟨hkn, hlen'⟩ := hrest hlen hinput hx
      rw [← hinput₁] at hlen' hfault
      rw [← hmark₁] at hfault
      obtain ⟨e, s', hgs, he⟩ := (hg hkn x hx).faults hs₁ hlen' hfault
      exact ⟨e, s', by rw [hok hps, hgs], he⟩

/-- A bind that does not count what the item takes. -/
theorem bind_zero {p : EStateM ε σ α} {S : Items ι γ} {f : γ → α} {g : α → EStateM ε σ β}
    {M : γ → Language ι β} (hp : Describes V n p (S.one f))
    (hg : ∀ x, S.Valid x → Describes V n (g (f x)) (M x)) :
    Describes V n (p >>= g) (S.andThen M) :=
  hp.bind 0 (fun _ _ => Nat.zero_le _) fun _ => hg

/-- A last step that only rearranges the item. -/
theorem map {p : EStateM ε σ α} {S : Items ι γ} {f : γ → α} (h : Describes V n p (S.one f))
    (g : α → β) : Describes V n (p >>= fun a => Pure.pure (g a)) (S.one fun x => g (f x)) := by
  refine (h.bind_zero fun x _ => Describes.pure (g (f x))).congr
    ⟨fun enc b r => ?_, fun inp mark => ?_⟩
  · constructor
    · rintro ⟨x, hx, _, _, ⟨rfl, rfl, rfl⟩, rfl, rfl⟩
      exact ⟨x, hx, by simp, rfl, by simp⟩
    · rintro ⟨x, hx, rfl, rfl, rfl⟩
      exact ⟨x, hx, [], 0, ⟨rfl, rfl, rfl⟩, by simp, by simp⟩
  · constructor
    · rintro (hfault | ⟨_, _, _, _, hnot⟩)
      · exact hfault
      · exact hnot.elim
    · exact .inl

/-- A counted loop whose body reads one item into the accumulator. -/
theorem iter {S : Items ι γ} {step : β → EStateM ε σ β} {acc : List γ → β}
    (hstep : ∀ ys, Describes V n (step (acc ys)) (S.one fun x => acc (ys ++ [x]))) :
    ∀ (m : Nat) (ys : List γ),
      Describes V n (Decoder.iter step m (acc ys)) ((S.list m).one fun xs => acc (ys ++ xs))
  | 0, ys => by
      have h := (Describes.pure (V := V) (n := n) (acc (ys ++ []))).congr
        (S.list_zero fun xs => acc (ys ++ xs))
      rwa [List.append_nil] at h
  | m + 1, ys => by
      refine ((hstep ys).bind_zero fun x _ => ?_).congr
        (S.list_succ m fun xs => acc (ys ++ xs))
      have hrest := Describes.iter hstep m (ys ++ [x])
      simpa only [List.append_assoc, List.singleton_append] using hrest

end Describes

end Decoder
