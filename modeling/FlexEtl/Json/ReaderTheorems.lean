/-
FlexEtl.Json.ReaderTheorems — what the handler is given.

The reader reports no error exactly for the texts of the grammar, and then the
handler has been given the events of the value (`parse_eq_iff`). With an error
it has been given a beginning of the events of some value (`parse_prefix`). The
two loops are treated for any scanner of values, so the theorems about values
are inductions on the nesting that the fuel allows.
-/
import FlexEtl.Json.NumberScalar
import FlexEtl.Table.CdbTheorems

namespace FlexEtl

namespace Reader

open Decoder

variable {n : Nat} {fl : Doubles}

/-! ## Beginnings of texts -/

/-- The text begins with a byte of this kind. -/
def Begins (P : UInt8 → Prop) (t : Bytes) : Prop := ∃ c t', t = c :: t' ∧ P c

theorem Begins.append {P : UInt8 → Prop} {t : Bytes} (h : Begins P t) (u : Bytes) :
    Begins P (t ++ u) := by
  obtain ⟨c, t', rfl, hc⟩ := h
  exact ⟨c, t' ++ u, rfl, hc⟩

theorem Begins.stops {P C : UInt8 → Prop} {t : Bytes} (h : Begins P t)
    (hPC : ∀ c, P c → ¬ C c) (u : Bytes) : Stops C (t ++ u) := by
  obtain ⟨c, t', rfl, hc⟩ := h
  exact stops_cons.mpr (hPC c hc)

/-- White space, or what follows it. -/
theorem blank_begins {P : UInt8 → Prop} {b t : Bytes} (hb : Blank b) (ht : Begins P t) :
    Begins (fun c => isBlank c = true ∨ P c) (b ++ t) := by
  cases b with
  | nil =>
      obtain ⟨c, t', rfl, hc⟩ := ht
      exact ⟨c, t', rfl, .inr hc⟩
  | cons c b => exact ⟨c, b ++ t, rfl, .inl (hb c (List.mem_cons_self))⟩

/-- No value begins like this byte. -/
def NoValue (c : UInt8) : Prop := isBlank c = true ∨ c = 0x5D ∨ c = 0

theorem NoValue.not_blank {c : UInt8} (h : ¬ NoValue c) : isBlank c = false :=
  Bool.eq_false_iff.mpr fun hb => h (.inl hb)

/-- What stands behind a value: white space, a comma or a bracket. -/
def AfterValue (c : UInt8) : Prop := isBlank c = true ∨ c = 0x2C ∨ c = 0x5D ∨ c = 0x7D

theorem AfterValue.not_number {c : UInt8} (h : AfterValue c) : ¬ IsNumberByte c := by
  have hall : ∀ i : Fin 256, (isBlank (UInt8.ofFin i) = true ∨ UInt8.ofFin i = 0x2C ∨
      UInt8.ofFin i = 0x5D ∨ UInt8.ofFin i = 0x7D) →
      ¬ (isDigit (UInt8.ofFin i) = true ∨ UInt8.ofFin i = 0x2B ∨ UInt8.ofFin i = 0x2D ∨
        UInt8.ofFin i = 0x2E ∨ UInt8.ofFin i = 0x45 ∨ UInt8.ofFin i = 0x65) := by
    decide +kernel
  exact hall c.toFin h

/-- A byte with which a number can begin. -/
def NumberHead (c : UInt8) : Prop := c = 0x2D ∨ isDigit c = true

/-- No other value begins with it. -/
theorem NumberHead.ne {c : UInt8} (h : NumberHead c) {d : UInt8}
    (hd : (d = 0x2D || isDigit d) = false) : c ≠ d := by
  rintro rfl
  rcases h with rfl | h
  · cases hd
  · simp [h] at hd

theorem parts_begins {p : Parts} (hp : p.Valid) : Begins NumberHead p.text := by
  have hint : Begins NumberHead p.int := by
    have hds := hp.int
    generalize p.int = ds at hds
    cases hds with
    | zero => exact ⟨_, _, rfl, .inr rfl⟩
    | digits hlow hhigh hds => exact ⟨_, _, rfl, .inr (Number.isDigit_of_range hlow hhigh)⟩
  unfold Parts.text signText
  split
  · exact ⟨_, _, rfl, .inl rfl⟩
  · exact hint.append _

theorem spellsString_begins {v t : Bytes} (h : SpellsString v t) : Begins (· = 0x22) t := by
  obtain ⟨body, -, rfl⟩ := h
  exact ⟨_, _, rfl, rfl⟩

theorem spells_begins {j : Json} {t : Bytes} (h : j.Spells fl t) :
    Begins (fun c => ¬ NoValue c) t := by
  cases h with
  | scalar h =>
      cases h with
      | null | true | false => exact ⟨_, _, rfl, by simp [NoValue, isBlank]⟩
      | string h =>
          obtain ⟨c, t', rfl, rfl⟩ := spellsString_begins h
          exact ⟨_, _, rfl, by simp [NoValue, isBlank]⟩
      | number hp hs =>
          obtain ⟨c, t', htext, hc⟩ := parts_begins hp
          refine ⟨c, t', htext, ?_⟩
          have hall : ∀ i : Fin 256, UInt8.ofFin i = 0x2D ∨ isDigit (UInt8.ofFin i) = true →
              ¬ (isBlank (UInt8.ofFin i) = true ∨ UInt8.ofFin i = 0x5D ∨ UInt8.ofFin i = 0) := by
            decide +kernel
          exact hall c.toFin hc
  | emptyArray | array | emptyObject | object => exact ⟨_, _, rfl, by simp [NoValue, isBlank]⟩

/-! ## Choices -/

/-- `if (Consume(is, c)) … else …` -/
theorem scans_consume {c : UInt8} {D : UInt8 → Prop} {p q : ReaderM Unit}
    {L L' : List Event → Bytes → Prop} (hp : Traced.Scans (n - 1) D p L)
    (hq : Traced.Scans n D q L') (hstop : ∀ w t, L' w t → Begins (· ≠ c) t) :
    Traced.Scans n D (Traced.lift (consume c) >>= fun b => if b = true then p else q)
      fun w t => (∃ t', L w t' ∧ t = c :: t') ∨ L' w t where
  sound := by
    intro s r w hr h
    obtain ⟨b, s', w₁, w₂, hfirst, hrest, rfl⟩ := Traced.bind_eq_ok.mp h
    obtain ⟨hconsume, rfl⟩ := Traced.lift_eq_ok.mp hfirst
    rcases consume_eq_ok hconsume with ⟨rfl, rfl⟩ | ⟨rfl, rfl, -⟩
    · obtain ⟨t, hL, rfl⟩ := hp.sound hr hrest
      exact ⟨c :: t, .inl ⟨t, hL, rfl⟩, rfl⟩
    · obtain ⟨t, hL, hs⟩ := hq.sound hr hrest
      exact ⟨t, .inr hL, hs⟩
  complete := by
    rintro w t r (⟨t', hL, rfl⟩ | hL) hr hlen
    · rw [List.cons_append, Traced.lift_bind_run (consume_of_head c _)]
      exact hp.complete hL hr (by simp at hlen ⊢; omega)
    · have hne := (hstop w t hL).stops (C := (· = c)) (fun _ h => h) r
      rw [Traced.lift_bind_run (consume_of_stops hne)]
      exact hq.complete hL hr hlen

theorem scans_failWith {C : UInt8 → Prop} (code : ParseErrorCode) :
    Traced.Scans n C (failWith code) fun _ _ => False :=
  Traced.Scans.throw _

/-- The end of an array or an object. -/
theorem scans_close {c : UInt8} {code : ParseErrorCode} {e : Event} :
    Traced.Scans n Any
      (Traced.lift (consume c) >>= fun b => if b = true then call e else failWith code)
      fun w t => w = [e] ∧ t = [c] :=
  (scans_consume (Traced.Scans.note e) (scans_failWith code) (fun _ _ h => h.elim)).congr
    fun w t => by simp

/-! ## Strings and words -/

theorem parseString_cons (event : Bytes → Event) (c : UInt8) (s : Bytes) :
    parseString event (c :: s) =
      (Traced.lift (stringLoop (s.length + 1) []) >>= fun str => call (event str)) s := rfl

theorem parseString_eq_ok {event : Bytes → Event} {s r : Bytes} {w : List Event} :
    parseString event (0x22 :: s) = (.ok () r, w) ↔
      ∃ v t, SpellsString v t ∧ 0x22 :: s = t ++ r ∧ w = [event v] := by
  constructor
  · intro h
    obtain ⟨v, s', w₁, w₂, hfirst, hrest, rfl⟩ := Traced.bind_eq_ok.mp h
    obtain ⟨hstring, rfl⟩ := Traced.lift_eq_ok.mp hfirst
    cases hrest
    obtain ⟨t, hv, hs⟩ := parseStringToStream_eq_ok.mp hstring
    exact ⟨v, t, hv, hs, rfl⟩
  · rintro ⟨v, t, hv, hs, rfl⟩
    exact Traced.lift_bind_run (parseStringToStream_eq_ok.mpr ⟨t, hv, hs⟩)

theorem word_eq_ok {word s r : Bytes} :
    (word.foldr (fun c rest => consume c <&&> rest) (pure true)) s = .ok true r ↔
      s = word ++ r := by
  induction word generalizing s with
  | nil => exact Decoder.pure_eq_ok.trans (by simp [eq_comm])
  | cons c word ih =>
      refine Decoder.bind_eq_ok.trans ?_
      constructor
      · rintro ⟨b, s', hfirst, hrest⟩
        rcases consume_eq_ok hfirst with ⟨rfl, rfl⟩ | ⟨rfl, rfl, -⟩
        · rw [ih.mp hrest]
          rfl
        · cases hrest
      · rintro rfl
        exact ⟨true, _, consume_of_head c _, ih.mpr rfl⟩

theorem parseWord_eq_ok {word s r : Bytes} {x : Scalar} {c : UInt8} {w : List Event} :
    parseWord word x (c :: s) = (.ok () r, w) ↔ s = word ++ r ∧ w = [.scalar x] := by
  have hstart : parseWord word x (c :: s) =
      (Traced.lift (word.foldr (fun c rest => consume c <&&> rest) (pure true)) >>= fun b =>
        if b = true then call (.scalar x) else failWith .valueInvalid) s := rfl
  rw [hstart, Traced.bind_eq_ok]
  constructor
  · rintro ⟨b, s', w₁, w₂, hfirst, hrest, rfl⟩
    obtain ⟨hword, rfl⟩ := Traced.lift_eq_ok.mp hfirst
    cases b with
    | false => cases hrest
    | true =>
        cases hrest
        exact ⟨word_eq_ok.mp hword, rfl⟩
  · rintro ⟨rfl, rfl⟩
    exact ⟨true, r, [], [.scalar x], Traced.lift_eq_ok.mpr ⟨word_eq_ok.mpr rfl, rfl⟩, rfl, rfl⟩

/-! ## Items with commas between them -/

section Items

variable {α : Type} {item : ReaderM Unit} {close : UInt8} {code : ParseErrorCode}
  {finish : Nat → Event} {ev : α → List Event} {M : α → Bytes → Prop}

/-- The loop that those of `ParseArray` and `ParseObject` are. -/
def itemLoop (item : ReaderM Unit) (close : UInt8) (code : ParseErrorCode) (finish : Nat → Event) :
    Nat → Nat → ReaderM Unit
  | 0, _ => Traced.throw .outOfFuel
  | fuel + 1, count => do
      item
      Traced.lift skipWhitespace
      if ← Traced.lift (consume 0x2C) then
        Traced.lift skipWhitespace
        itemLoop item close code finish fuel (count + 1)
      else if ← Traced.lift (consume close) then call (finish (count + 1))
      else failWith code

/-- The items that the loop has still to read, and what closes it. -/
def Rest (M : α → Bytes → Prop) (ev : α → List Event) (close : UInt8) (finish : Nat → Event)
    (count : Nat) (w : List Event) (t : Bytes) : Prop :=
  ∃ xs u, SpellsItems M xs u ∧ t = u ++ [close] ∧
    w = xs.flatMap ev ++ [finish (count + xs.length)]

/-- What stands behind an item. -/
def Tail (M : α → Bytes → Prop) (ev : α → List Event) (close : UInt8) (finish : Nat → Event)
    (count : Nat) (w : List Event) (t : Bytes) : Prop :=
  ∃ b t', Blank b ∧ t = b ++ t' ∧
    ((∃ c u, Blank c ∧ Rest M ev close finish (count + 1) w u ∧ t' = 0x2C :: (c ++ u)) ∨
      w = [finish (count + 1)] ∧ t' = [close])

theorem spellsItems_begins {P : UInt8 → Prop} (hM : ∀ x t, M x t → Begins P t) {xs : List α}
    {t : Bytes} (h : SpellsItems M xs t) : Begins P t := by
  cases h with
  | last hx hb => exact (hM _ _ hx).append _
  | cons hx hb hc hxs => exact (hM _ _ hx).append _

theorem tail_begins {count : Nat} {w : List Event} {t : Bytes}
    (h : Tail M ev close finish count w t) :
    Begins (fun c => isBlank c = true ∨ c = 0x2C ∨ c = close) t := by
  obtain ⟨b, t', hb, rfl, ht⟩ := h
  refine blank_begins hb ?_
  rcases ht with ⟨c, u, -, -, rfl⟩ | ⟨-, rfl⟩
  · exact ⟨_, _, rfl, .inl rfl⟩
  · exact ⟨_, _, rfl, .inr rfl⟩

/-- An item and its tail are the rest of the loop. -/
theorem rest_iff {count : Nat} {w : List Event} {t : Bytes} :
    (∃ w₁ w₂ t₁ t₂, (∃ x, M x t₁ ∧ w₁ = ev x) ∧ Tail M ev close finish count w₂ t₂ ∧
      w = w₁ ++ w₂ ∧ t = t₁ ++ t₂) ↔ Rest M ev close finish count w t := by
  constructor
  · rintro ⟨_, w₂, t₁, _, ⟨x, hx, rfl⟩, ⟨b, t', hb, rfl, htail⟩, rfl, rfl⟩
    rcases htail with ⟨c, _, hc, ⟨xs, u, hxs, rfl, rfl⟩, rfl⟩ | ⟨rfl, rfl⟩
    · refine ⟨x :: xs, _, .cons hx hb hc hxs, by simp, ?_⟩
      simp [Nat.add_assoc, Nat.add_comm 1]
    · exact ⟨[x], _, .last hx hb, by simp, by simp⟩
  · rintro ⟨xs, u, hxs, rfl, rfl⟩
    cases hxs with
    | @last x t b hx hb =>
        refine ⟨ev x, _, t, b ++ [close], ⟨x, hx, rfl⟩, ⟨b, [close], hb, rfl, .inr ⟨rfl, rfl⟩⟩,
          ?_, ?_⟩
        · simp
        · simp
    | @cons x xs t b c u hx hb hc hxs =>
        refine ⟨ev x, _, t, b ++ 0x2C :: (c ++ (u ++ [close])), ⟨x, hx, rfl⟩,
          ⟨b, _, hb, rfl, .inl ⟨c, _, hc, ⟨xs, u, hxs, rfl, rfl⟩, rfl⟩⟩, ?_, ?_⟩
        · simp [Nat.add_assoc, Nat.add_comm 1]
        · simp

/-- The loop reads what is left of the items. -/
theorem scans_itemLoop {C : UInt8 → Prop}
    (hitem : Traced.Scans n C item fun w t => ∃ x, M x t ∧ w = ev x)
    (hM : ∀ x t, M x t → Begins (isBlank · = false) t)
    (hclose : isBlank close = false) (hcomma : close ≠ 0x2C)
    (hC : ∀ c, isBlank c = true ∨ c = 0x2C ∨ c = close → ¬ C c) {fuel : Nat} (hfuel : fuel ≤ n)
    (count : Nat) : Traced.Scans fuel Any (itemLoop item close code finish fuel count)
      (Rest M ev close finish count) := by
  induction fuel generalizing count with
  | zero =>
      exact { sound := fun _ h => by cases h
              complete := fun _ _ h => absurd h (Nat.not_lt_zero _) }
  | succ fuel ih =>
      have hnext := Traced.Scans.lift_bind (scans_skipWhitespace fuel)
        (fun _ => ih (Nat.le_of_succ_le hfuel) (count + 1)) (by
          rintro - w t u ⟨xs, v, hxs, rfl, -⟩ -
          exact ((spellsItems_begins hM hxs).append _).stops (by simp) u)
      have hchoice := scans_consume (n := fuel + 1) (c := 0x2C) hnext
        (@scans_close (fuel + 1) close code (finish (count + 1))) (by
          rintro w t ⟨-, rfl⟩
          exact ⟨_, _, rfl, hcomma⟩)
      have htail : Traced.Scans (fuel + 1) Any _ (Tail M ev close finish count) :=
        (Traced.Scans.lift_bind (scans_skipWhitespace _) (fun _ => hchoice) (by
          rintro - w t u (⟨t', -, rfl⟩ | ⟨-, rfl⟩) -
          · exact stops_cons.mpr (by decide)
          · exact stops_cons.mpr (by simp [hclose]))).congr (by
          intro w t
          constructor
          · rintro ⟨-, b, t', hb, ⟨-, ⟨-, c, u, hc, hrest, rfl⟩, rfl⟩ | hend, rfl⟩
            · exact ⟨b, _, hb, rfl, .inl ⟨c, u, hc, hrest, rfl⟩⟩
            · exact ⟨b, _, hb, rfl, .inr hend⟩
          · rintro ⟨b, t', hb, rfl, ⟨c, u, hc, hrest, rfl⟩ | hend⟩
            · exact ⟨(), b, _, hb, .inl ⟨_, ⟨(), c, u, hc, hrest, rfl⟩, rfl⟩, rfl⟩
            · exact ⟨(), b, t', hb, .inr hend, rfl⟩)
      exact ((hitem.of_le hfuel).bind htail fun w t u ht _ =>
        (tail_begins ht).stops hC u).congr fun w t => rest_iff

/-- `ParseArray` and `ParseObject` behind the bracket. -/
def bracketed (item : ReaderM Unit) (start : Event) (close : UInt8) (code : ParseErrorCode)
    (finish : Nat → Event) (fuel : Nat) : ReaderM Unit := do
  call start
  Traced.lift skipWhitespace
  if ← Traced.lift (consume close) then call (finish 0)
  else itemLoop item close code finish fuel 0

/-- Nothing but white space, or the items. -/
def Inside (M : α → Bytes → Prop) (ev : α → List Event) (start : Event) (close : UInt8)
    (finish : Nat → Event) (w : List Event) (t : Bytes) : Prop :=
  ∃ b xs u, Blank b ∧ (xs = [] ∧ u = [] ∨ SpellsItems M xs u) ∧ t = b ++ (u ++ [close]) ∧
    w = start :: (xs.flatMap ev ++ [finish xs.length])

theorem scans_bracketed {C : UInt8 → Prop} {start : Event}
    (hitem : Traced.Scans n C item fun w t => ∃ x, M x t ∧ w = ev x)
    (hM : ∀ x t, M x t → Begins (fun c => isBlank c = false ∧ c ≠ close) t)
    (hclose : isBlank close = false) (hcomma : close ≠ 0x2C)
    (hC : ∀ c, isBlank c = true ∨ c = 0x2C ∨ c = close → ¬ C c) :
    Traced.Scans n Any (bracketed item start close code finish n)
      (Inside M ev start close finish) := by
  have hitems : Traced.Scans n Any (itemLoop item close code finish n 0) _ :=
    scans_itemLoop hitem (fun x t h => by
      obtain ⟨c, t', rfl, hc⟩ := hM x t h
      exact ⟨c, t', rfl, hc.1⟩) hclose hcomma hC (Nat.le_refl _) 0
  have hchoice := scans_consume (c := close) (Traced.Scans.note (n := n - 1) (finish 0)) hitems (by
    rintro w t ⟨xs, u, hxs, rfl, -⟩
    obtain ⟨c, t', rfl, hc⟩ := spellsItems_begins hM hxs
    exact ⟨c, _, rfl, hc.2⟩)
  refine (Traced.Scans.note_bind (e := start) (Traced.Scans.lift_bind
    (scans_skipWhitespace n) (fun _ => hchoice) ?_)).congr fun w t => ?_
  · rintro - w t u (⟨t', -, rfl⟩ | ⟨xs, v, hxs, rfl, -⟩) -
    · exact stops_cons.mpr (by simp [hclose])
    · exact ((spellsItems_begins hM hxs).append _).stops (fun c hc => by simp [hc.1]) u
  · constructor
    · rintro ⟨w', ⟨-, b, t', hb, ⟨t'', ⟨rfl, rfl⟩, rfl⟩ | ⟨xs, u, hxs, rfl, rfl⟩, rfl⟩, rfl⟩
      · exact ⟨b, [], [], hb, .inl ⟨rfl, rfl⟩, rfl, rfl⟩
      · exact ⟨b, xs, u, hb, .inr hxs, rfl, by simp⟩
    · rintro ⟨b, xs, u, hb, ⟨rfl, rfl⟩ | hxs, rfl, rfl⟩
      · exact ⟨_, ⟨(), b, _, hb, .inl ⟨[], ⟨rfl, rfl⟩, rfl⟩, rfl⟩, rfl⟩
      · exact ⟨_, ⟨(), b, _, hb, .inr ⟨xs, u, hxs, rfl, rfl⟩, rfl⟩, by simp⟩

end Items

/-! ## Arrays and objects -/

theorem eventsArray_eq (xs : List Json) : Json.events.eventsArray xs = xs.flatMap Json.events := by
  induction xs with
  | nil => rfl
  | cons x xs ih => rw [Json.events.eventsArray, ih, List.flatMap_cons]

/-- The events of a member. -/
def memberEvents (m : Bytes × Json) : List Event := .key m.1 :: m.2.events

theorem eventsObject_eq (ms : List (Bytes × Json)) :
    Json.events.eventsObject ms = ms.flatMap memberEvents := by
  induction ms with
  | nil => rfl
  | cons m ms ih =>
      obtain ⟨k, v⟩ := m
      rw [Json.events.eventsObject, ih, List.flatMap_cons]
      rfl

theorem arrayLoop_eq (parseValue : ReaderM Unit) (fuel k : Nat) : arrayLoop parseValue fuel k =
    itemLoop parseValue 0x5D .arrayMissCommaOrSquareBracket .endArray fuel k := by
  induction fuel generalizing k with
  | zero => rfl
  | succ fuel ih =>
      simp only [arrayLoop, itemLoop, ih]

/-- A key, where it is due. -/
def parseKey : ReaderM Unit := do
  if (← Traced.lift peek) = 0x22 then parseString .key else failWith .objectMissName

/-- A key and its value. -/
def parseMember (parseValue : ReaderM Unit) : ReaderM Unit := do
  parseKey
  Traced.lift skipWhitespace
  if ← Traced.lift (consume 0x3A) then
    Traced.lift skipWhitespace
    parseValue
  else failWith .objectMissColon

theorem scans_parseKey :
    Traced.Scans n Any parseKey fun w t => ∃ k, SpellsString k t ∧ w = [.key k] where
  sound := by
    intro s r w _ h
    cases s with
    | nil => cases h
    | cons c s =>
        rw [parseKey, Traced.lift_bind_run (peek_cons c s)] at h
        by_cases hc : c = 0x22
        · subst hc
          rw [if_pos rfl] at h
          obtain ⟨k, t, hk, hs, rfl⟩ := parseString_eq_ok.mp h
          exact ⟨t, ⟨k, hk, rfl⟩, hs⟩
        · rw [if_neg hc] at h
          cases h
  complete := by
    rintro w t r ⟨k, hk, rfl⟩ _ _
    obtain ⟨c, t', rfl, rfl⟩ := spellsString_begins hk
    rw [List.cons_append, parseKey, Traced.lift_bind_run (peek_cons 0x22 _), if_pos rfl]
    exact parseString_eq_ok.mpr ⟨k, _, hk, rfl, rfl⟩

theorem failWith_bind (code : ParseErrorCode) (f : Unit → ReaderM Unit) :
    (failWith code >>= f) = failWith code := rfl

theorem objectLoop_eq (parseValue : ReaderM Unit) (fuel k : Nat) : objectLoop parseValue fuel k =
    itemLoop (parseMember parseValue) 0x7D .objectMissCommaOrCurlyBracket .endObject fuel k := by
  induction fuel generalizing k with
  | zero => rfl
  | succ fuel ih =>
      simp only [objectLoop, itemLoop, parseMember, parseKey, ih, bind_assoc]
      congr 1
      funext c
      by_cases hc : c = 0x22
      · simp only [if_pos hc]
        congr 1
        funext _
        congr 1
        funext _
        congr 1
        funext b
        by_cases hb : b = true
        · simp only [if_pos hb, bind_assoc]
        · simp only [if_neg hb, failWith_bind]
      · simp only [if_neg hc, failWith_bind]

theorem scans_parseMember {R : Json → Bytes → Prop} {parseValue : ReaderM Unit}
    (hvalue : Traced.Scans n IsNumberByte parseValue fun w t => ∃ j, R j t ∧ w = j.events)
    (hR : ∀ j t, R j t → Begins (fun c => ¬ NoValue c) t) :
    Traced.Scans n IsNumberByte (parseMember parseValue) fun w t =>
      ∃ m, SpellsMember R m t ∧ w = memberEvents m := by
  have hcolon := scans_consume (c := 0x3A) (Traced.Scans.lift_bind (scans_skipWhitespace (n - 1))
    (fun _ => hvalue.of_le (Nat.sub_le n 1)) (by
      rintro - w t u ⟨j, hj, rfl⟩ -
      exact (hR j t hj).stops (fun c hc hb => hc (.inl hb)) u))
    (scans_failWith (n := n) .objectMissColon) (fun _ _ h => h.elim)
  have hafter := Traced.Scans.lift_bind (scans_skipWhitespace n) (fun _ => hcolon) (by
    rintro - w t u (⟨t', -, rfl⟩ | h) -
    · exact stops_cons.mpr (by decide)
    · exact h.elim)
  refine (scans_parseKey.bind hafter fun _ _ _ _ _ => stops_false).congr fun w t => ?_
  constructor
  · rintro ⟨_, w₂, t₁, _, ⟨k, hk, rfl⟩,
      ⟨-, a, _, ha, ⟨_, ⟨-, b, u, hb, ⟨j, hj, rfl⟩, rfl⟩, rfl⟩ | h, rfl⟩, rfl, rfl⟩
    · exact ⟨(k, j), .intro hk ha hb hj, rfl⟩
    · exact h.elim
  · rintro ⟨_, hm, rfl⟩
    cases hm with
    | @intro k t a b u v hk ha hb hv =>
        exact ⟨[.key k], v.events, t, _, ⟨k, hk, rfl⟩,
          ⟨(), a, _, ha, .inl ⟨_, ⟨(), b, u, hb, ⟨v, hv, rfl⟩, rfl⟩, rfl⟩, rfl⟩, rfl, rfl⟩

theorem spellsMember_begins {R : Json → Bytes → Prop} {m : Bytes × Json} {t : Bytes}
    (h : SpellsMember R m t) : Begins (· = 0x22) t := by
  cases h with
  | intro hk => exact (spellsString_begins hk).append _

/-! ## Values -/

theorem parseArray_cons (parseValue : ReaderM Unit) (fuel : Nat) (c : UInt8) (s : Bytes) :
    parseArray parseValue fuel (c :: s) = bracketed parseValue .startArray 0x5D
      .arrayMissCommaOrSquareBracket .endArray fuel s := by
  simp only [bracketed, ← arrayLoop_eq]
  rfl

theorem parseObject_cons (parseValue : ReaderM Unit) (fuel : Nat) (c : UInt8) (s : Bytes) :
    parseObject parseValue fuel (c :: s) = bracketed (parseMember parseValue) .startObject 0x7D
      .objectMissCommaOrCurlyBracket .endObject fuel s := by
  simp only [bracketed, ← objectLoop_eq]
  rfl

theorem parseValue_nil (fuel : Nat) :
    parseValue fl (fuel + 1) [] = (.error (.error .valueInvalid) [], []) := rfl

/-- What `ParseValue` does by the next byte. -/
theorem parseValue_cons (fuel : Nat) (c : UInt8) (s : Bytes) : parseValue fl (fuel + 1) (c :: s) =
    if c = 0x6E then parseNull (c :: s)
    else if c = 0x74 then parseTrue (c :: s)
    else if c = 0x66 then parseFalse (c :: s)
    else if c = 0x22 then parseString (fun str => .scalar (.string str)) (c :: s)
    else if c = 0x7B then parseObject (parseValue fl fuel) fuel (c :: s)
    else if c = 0x5B then parseArray (parseValue fl fuel) fuel (c :: s)
    else (Traced.lift (parseNumber fl) >>= fun x => call (.scalar x)) (c :: s) := by
  rw [parseValue, Traced.lift_bind_run (peek_cons c s)]
  split_ifs <;> rfl

theorem inside_array {t : Bytes} {w : List Event} :
    Inside (Json.Spells fl) Json.events .startArray 0x5D .endArray w t ↔
      ∃ xs, (Json.array xs).Spells fl (0x5B :: t) ∧ w = (Json.array xs).events := by
  constructor
  · rintro ⟨b, xs, u, hb, hxs, rfl, rfl⟩
    refine ⟨xs, ?_, by rw [Json.events, eventsArray_eq]⟩
    rcases hxs with ⟨rfl, rfl⟩ | hxs
    · exact .emptyArray hb
    · exact .array hb hxs
  · rintro ⟨xs, h, rfl⟩
    rw [Json.events, eventsArray_eq]
    cases h with
    | emptyArray hb => exact ⟨_, [], [], hb, .inl ⟨rfl, rfl⟩, rfl, rfl⟩
    | array hb hxs => exact ⟨_, xs, _, hb, .inr hxs, rfl, rfl⟩

theorem inside_object {t : Bytes} {w : List Event} :
    Inside (SpellsMember (Json.Spells fl)) memberEvents .startObject 0x7D .endObject w t ↔
      ∃ ms, (Json.object ms).Spells fl (0x7B :: t) ∧ w = (Json.object ms).events := by
  constructor
  · rintro ⟨b, ms, u, hb, hms, rfl, rfl⟩
    refine ⟨ms, ?_, by rw [Json.events, eventsObject_eq]⟩
    rcases hms with ⟨rfl, rfl⟩ | hms
    · exact .emptyObject hb
    · exact .object hb hms
  · rintro ⟨ms, h, rfl⟩
    rw [Json.events, eventsObject_eq]
    cases h with
    | emptyObject hb => exact ⟨_, [], [], hb, .inl ⟨rfl, rfl⟩, rfl, rfl⟩
    | object hb hms => exact ⟨_, ms, _, hb, .inr hms, rfl, rfl⟩

/-- A scanner of values, with so much fuel. -/
def ScansValue (fl : Doubles) (fuel : Nat) : Prop :=
  Traced.Scans fuel IsNumberByte (parseValue fl fuel) fun w t =>
    ∃ j : Json, j.Spells fl t ∧ w = j.events

theorem scans_array {fuel : Nat} (h : ScansValue fl fuel) : Traced.Scans fuel Any
    (bracketed (parseValue fl fuel) .startArray 0x5D .arrayMissCommaOrSquareBracket .endArray fuel)
    (Inside (Json.Spells fl) Json.events .startArray 0x5D .endArray) := by
  refine scans_bracketed h (fun j t hj => ?_) rfl (by decide) fun c hc => ?_
  · obtain ⟨c, t', rfl, hc⟩ := spells_begins hj
    exact ⟨c, t', rfl, NoValue.not_blank hc, fun heq => hc (.inr (.inl heq))⟩
  · exact AfterValue.not_number (by rcases hc with hc | rfl | rfl <;> simp [AfterValue, *])

theorem scans_object {fuel : Nat} (h : ScansValue fl fuel) : Traced.Scans fuel Any
    (bracketed (parseMember (parseValue fl fuel)) .startObject 0x7D .objectMissCommaOrCurlyBracket
      .endObject fuel)
    (Inside (SpellsMember (Json.Spells fl)) memberEvents .startObject 0x7D .endObject) := by
  have hmember := scans_parseMember h fun j t hj => spells_begins hj
  refine scans_bracketed hmember (fun m t hm => ?_) rfl (by decide) fun c hc => ?_
  · obtain ⟨c, t', rfl, rfl⟩ := spellsMember_begins hm
    exact ⟨_, t', rfl, rfl, by decide⟩
  · exact AfterValue.not_number (by rcases hc with hc | rfl | rfl <;> simp [AfterValue, *])

theorem parseValue_sound {fuel : Nat} (ih : ScansValue fl fuel) {s r : Bytes} {w : List Event}
    (hr : Stops IsNumberByte r) (h : parseValue fl (fuel + 1) s = (.ok () r, w)) :
    ∃ t, (∃ j : Json, j.Spells fl t ∧ w = j.events) ∧ s = t ++ r := by
  cases s with
  | nil =>
      rw [parseValue_nil] at h
      cases h
  | cons c s =>
      rw [parseValue_cons] at h
      split_ifs at h with hn ht hf hq ho ha
      · obtain ⟨rfl, rfl⟩ := parseWord_eq_ok.mp h
        exact ⟨_, ⟨_, .scalar .null, rfl⟩, by simp [hn]⟩
      · obtain ⟨rfl, rfl⟩ := parseWord_eq_ok.mp h
        exact ⟨_, ⟨_, .scalar .true, rfl⟩, by simp [ht]⟩
      · obtain ⟨rfl, rfl⟩ := parseWord_eq_ok.mp h
        exact ⟨_, ⟨_, .scalar .false, rfl⟩, by simp [hf]⟩
      · subst hq
        obtain ⟨v, t, hv, hs, rfl⟩ := parseString_eq_ok.mp h
        exact ⟨t, ⟨_, .scalar (.string hv), rfl⟩, hs⟩
      · rw [parseObject_cons] at h
        obtain ⟨t, ht, rfl⟩ := (scans_object ih).sound stops_false h
        obtain ⟨ms, hms, rfl⟩ := inside_object.mp ht
        exact ⟨_, ⟨_, hms, rfl⟩, by simp [ho]⟩
      · rw [parseArray_cons] at h
        obtain ⟨t, ht, rfl⟩ := (scans_array ih).sound stops_false h
        obtain ⟨xs, hxs, rfl⟩ := inside_array.mp ht
        exact ⟨_, ⟨_, hxs, rfl⟩, by simp [ha]⟩
      · obtain ⟨x, s', w₁, w₂, hfirst, hrest, rfl⟩ := Traced.bind_eq_ok.mp h
        obtain ⟨hnumber, rfl⟩ := Traced.lift_eq_ok.mp hfirst
        cases hrest
        obtain ⟨p, hp, hscalar, hs⟩ := (parseNumber_eq_ok hr).mp hnumber
        exact ⟨p.text, ⟨_, .scalar (.number hp hscalar), rfl⟩, hs⟩

theorem parseValue_scalar {s : Scalar} {t r : Bytes} (h : s.Spells fl t)
    (hr : Stops IsNumberByte r) (fuel : Nat) :
    parseValue fl (fuel + 1) (t ++ r) = (.ok () r, (Json.scalar s).events) := by
  cases h with
  | null | true | false =>
      rw [List.cons_append, parseValue_cons]
      exact parseWord_eq_ok.mpr ⟨rfl, rfl⟩
  | @string v t hv =>
      obtain ⟨c, t', rfl, rfl⟩ := spellsString_begins hv
      rw [List.cons_append, parseValue_cons]
      exact parseString_eq_ok.mpr ⟨v, _, hv, rfl, rfl⟩
  | @number x p hp hscalar =>
      obtain ⟨c, t', htext, hc⟩ := parts_begins hp
      have hrun := (parseNumber_eq_ok hr).mpr ⟨p, hp, hscalar, rfl⟩
      rw [htext, List.cons_append] at hrun ⊢
      rw [parseValue_cons, if_neg (hc.ne rfl), if_neg (hc.ne rfl), if_neg (hc.ne rfl),
        if_neg (hc.ne rfl), if_neg (hc.ne rfl), if_neg (hc.ne rfl), Traced.lift_bind_run hrun]
      rfl

theorem parseValue_array {fuel : Nat} (ih : ScansValue fl fuel) {xs : List Json} {t r : Bytes}
    (h : (Json.array xs).Spells fl (0x5B :: t)) (hlen : (t ++ r).length < fuel) :
    parseValue fl (fuel + 1) (0x5B :: t ++ r) = (.ok () r, (Json.array xs).events) := by
  rw [List.cons_append, parseValue_cons]
  exact (parseArray_cons _ _ _ _).trans
    ((scans_array ih).complete (inside_array.mpr ⟨xs, h, rfl⟩) stops_false hlen)

theorem parseValue_object {fuel : Nat} (ih : ScansValue fl fuel) {ms : List (Bytes × Json)}
    {t r : Bytes} (h : (Json.object ms).Spells fl (0x7B :: t)) (hlen : (t ++ r).length < fuel) :
    parseValue fl (fuel + 1) (0x7B :: t ++ r) = (.ok () r, (Json.object ms).events) := by
  rw [List.cons_append, parseValue_cons]
  exact (parseObject_cons _ _ _ _).trans
    ((scans_object ih).complete (inside_object.mpr ⟨ms, h, rfl⟩) stops_false hlen)

theorem parseValue_complete {fuel : Nat} (ih : ScansValue fl fuel) {j : Json} {t r : Bytes}
    (hj : j.Spells fl t) (hr : Stops IsNumberByte r) (hlen : (t ++ r).length < fuel + 1) :
    parseValue fl (fuel + 1) (t ++ r) = (.ok () r, j.events) := by
  cases hj with
  | scalar h => exact parseValue_scalar h hr fuel
  | emptyArray hb => exact parseValue_array ih (.emptyArray hb) (Nat.lt_of_succ_lt_succ hlen)
  | array hb hxs => exact parseValue_array ih (.array hb hxs) (Nat.lt_of_succ_lt_succ hlen)
  | emptyObject hb => exact parseValue_object ih (.emptyObject hb) (Nat.lt_of_succ_lt_succ hlen)
  | object hb hms => exact parseValue_object ih (.object hb hms) (Nat.lt_of_succ_lt_succ hlen)

/-- The values are read as the grammar has them. -/
theorem scans_parseValue (fuel : Nat) : ScansValue fl fuel := by
  induction fuel with
  | zero =>
      exact { sound := fun _ h => by cases h
              complete := fun _ _ h => absurd h (Nat.not_lt_zero _) }
  | succ fuel ih =>
      refine { sound := fun hr h => parseValue_sound ih hr h, complete := ?_ }
      rintro w t r ⟨j, hj, rfl⟩ hr hlen
      exact parseValue_complete ih hj hr hlen

/-! ## Documents -/

theorem peek_eq_zero {s : Bytes} (hs : (0 : UInt8) ∉ s) : s.headD 0 = 0 ↔ s = [] := by
  cases s with
  | nil => simp
  | cons c s =>
      have hc : c ≠ 0 := by
        rintro rfl
        exact hs List.mem_cons_self
      simp [hc]

/-- Where nothing is left but white space, no number goes on. -/
theorem stops_of_ended {s : Bytes} (h : (s.dropWhile isBlank).headD 0 = 0) :
    Stops IsNumberByte s := by
  cases s with
  | nil => exact stops_nil
  | cons c s =>
      refine stops_cons.mpr ?_
      by_cases hc : isBlank c = true
      · exact AfterValue.not_number (.inl hc)
      · rw [List.dropWhile_cons_of_neg hc] at h
        obtain rfl : c = 0 := h
        unfold IsNumberByte
        decide

theorem peek_run (s : Bytes) : peek s = .ok (s.headD 0) s := rfl

/-- What stands in front of a text, and what the reader has left of it. -/
theorem parseDocument_run (fuel : Nat) (text : Bytes) : parseDocument fl fuel text =
    if (text.dropWhile isBlank).headD 0 = 0 then
      (.error (.error .documentEmpty) (text.dropWhile isBlank), [])
    else (parseValue fl fuel >>= fun _ => Traced.lift skipWhitespace >>= fun _ =>
      Traced.lift peek >>= fun c => if c = 0 then pure () else failWith .documentRootNotSingular)
        (text.dropWhile isBlank) := by
  rw [parseDocument, Traced.lift_bind_run (skipWhitespace_eq text),
    Traced.lift_bind_run (peek_run _)]
  split <;> rfl

/-- A text without a zero byte is read to its end exactly when it is that of a document. -/
theorem parseDocument_eq_ok {fuel : Nat} {text r : Bytes} {w : List Event}
    (hzero : (0 : UInt8) ∉ text) (hfuel : text.length < fuel) :
    parseDocument fl fuel text = (.ok () r, w) ↔
      r = [] ∧ ∃ j : Json, j.SpellsDocument fl text ∧ w = j.events := by
  have hdrop : ∀ {s : Bytes}, (0 : UInt8) ∉ s → (0 : UInt8) ∉ s.dropWhile isBlank :=
    fun hs hmem => hs ((List.dropWhile_suffix isBlank).subset hmem)
  rw [parseDocument_run]
  constructor
  · intro h
    split at h
    · cases h
    · obtain ⟨⟨⟩, s₁, w₁, w₂, hvalue, hrest, rfl⟩ := Traced.bind_eq_ok.mp h
      rw [Traced.lift_bind_run (skipWhitespace_eq s₁), Traced.lift_bind_run (peek_run _)] at hrest
      split at hrest
      · rename_i hend
        obtain ⟨u, ⟨j, hj, rfl⟩, hs⟩ :=
          (scans_parseValue fuel).sound (stops_of_ended hend) hvalue
        have hrest₁ : (0 : UInt8) ∉ s₁ := fun hmem =>
          hdrop hzero (hs ▸ List.mem_append_right u hmem)
        have hnil := (peek_eq_zero (hdrop hrest₁)).mp hend
        cases hrest
        refine ⟨hnil, j, ⟨text.takeWhile isBlank, u, s₁, ?_, hj, ?_, ?_⟩, by simp⟩
        · exact fun c hc => List.mem_takeWhile_imp hc
        · simpa [Blank] using hnil
        · rw [← hs, List.takeWhile_append_dropWhile]
      · cases hrest
  · rintro ⟨rfl, j, ⟨a, u, b, ha, hj, hb, rfl⟩, rfl⟩
    obtain ⟨c, u', rfl, hc⟩ := spells_begins hj
    have hblank : ∀ {b : Bytes}, Blank b → b.dropWhile isBlank = [] := fun hb => by
      simpa [Blank] using hb
    have hfront : (a ++ (c :: u' ++ b)).dropWhile isBlank = c :: u' ++ b := by
      rw [List.dropWhile_append_of_pos ha, List.cons_append,
        List.dropWhile_cons_of_neg (by simp [NoValue.not_blank hc])]
    have hend : (b.dropWhile isBlank).headD 0 = 0 := by
      rw [hblank hb]
      rfl
    rw [hfront, if_neg (show (c :: u' ++ b).headD 0 ≠ 0 from fun h => hc (.inr (.inr h)))]
    have hvalue := (scans_parseValue fuel).complete ⟨j, hj, rfl⟩ (stops_of_ended hend)
      (Nat.lt_of_le_of_lt (by simp) hfuel)
    rw [Traced.bind_of_ok hvalue, Traced.lift_bind_run (skipWhitespace_eq b), hblank hb]
    exact Prod.ext rfl (List.append_nil _)

/-- The text of a document gives the handler its events. -/
theorem parse_of_document {buffer : Bytes} {j : Json} (h : j.SpellsDocument fl (cstring buffer)) :
    parse fl buffer = j.stream := by
  have hrun := (parseDocument_eq_ok (not_mem_cstring buffer) (Nat.lt_succ_self _)).mpr
    ⟨rfl, j, h, rfl⟩
  unfold parse
  dsimp only
  rw [hrun]
  rfl

/-- Where the reader reports no error, it has read a document. -/
theorem document_of_parse {buffer : Bytes} (h : (parse fl buffer).isError = false) :
    ∃ j : Json, j.SpellsDocument fl (cstring buffer) ∧ parse fl buffer = j.stream := by
  cases hrun : parseDocument fl ((cstring buffer).length + 1) (cstring buffer) with
  | mk outcome w =>
      unfold parse at h
      dsimp only at h
      rw [hrun] at h
      cases outcome with
      | ok a r =>
          obtain ⟨rfl, j, hj, rfl⟩ :=
            (parseDocument_eq_ok (not_mem_cstring buffer) (Nat.lt_succ_self _)).mp hrun
          exact ⟨j, hj, parse_of_document hj⟩
      | error e r => cases h

/-- The reader reports no error exactly for the texts of documents, and then the handler has
been given the events of the document. -/
theorem parse_eq_iff (buffer : Bytes) (events : List Event) :
    parse fl buffer = { events, isError := false } ↔
      ∃ j : Json, j.SpellsDocument fl (cstring buffer) ∧ events = j.events := by
  constructor
  · intro h
    obtain ⟨j, hj, hparse⟩ := document_of_parse (congrArg ParseStream.isError h)
    exact ⟨j, hj, congrArg ParseStream.events (h.symm.trans hparse)⟩
  · rintro ⟨j, hj, rfl⟩
    exact parse_of_document hj

/-! ## Texts with an error -/

/-- The events of a value, and their beginnings. -/
def IsEvents (w : List Event) : Prop := ∃ j : Json, w = j.events

def IsPrefix (w : List Event) : Prop := ∃ j : Json, w <+: j.events

section Errors

variable {α : Type} {item : ReaderM Unit} {close : UInt8} {code : ParseErrorCode}
  {finish : Nat → Event} {ev : α → List Event} {P Q : List Event → Prop} {p q : ReaderM Unit}

theorem runs_failWith (hQ : Q []) : Traced.Runs n (failWith code) IsError P Q :=
  Traced.Runs.throw ⟨code, rfl⟩ hQ

theorem runs_ifConsume {c : UInt8} (hp : Traced.Runs (n - 1) p IsError P Q)
    (hq : Traced.Runs n q IsError P Q) :
    Traced.Runs n (Traced.lift (consume c) >>= fun b => if b = true then p else q) IsError P Q where
  ok := by
    intro s a r w hlen h
    obtain ⟨b, s', w₁, w₂, hfirst, hrest, rfl⟩ := Traced.bind_eq_ok.mp h
    obtain ⟨hconsume, rfl⟩ := Traced.lift_eq_ok.mp hfirst
    rcases consume_eq_ok hconsume with ⟨rfl, rfl⟩ | ⟨rfl, rfl, -⟩
    · rw [List.length_cons] at hlen ⊢
      exact (hp.ok (by omega) hrest).imp_left Nat.le_succ_of_le
    · exact hq.ok hlen hrest
  error := by
    intro s e r w hlen h
    rcases Traced.bind_eq_error h with hrun | ⟨b, s', w₁, w₂, hfirst, hrest, rfl⟩
    · obtain ⟨hconsume, -⟩ := Traced.lift_eq_error.mp hrun
      cases s with
      | nil => cases hconsume
      | cons d s =>
          simp only [consume] at hconsume
          split at hconsume <;> cases hconsume
    · obtain ⟨hconsume, rfl⟩ := Traced.lift_eq_ok.mp hfirst
      rcases consume_eq_ok hconsume with ⟨rfl, rfl⟩ | ⟨rfl, rfl, -⟩
      · rw [List.length_cons] at hlen
        exact hp.error (by omega) hrest
      · exact hq.error hlen hrest

theorem runs_whitespace (hp : Traced.Runs n p IsError P Q) (hQ : Q []) :
    Traced.Runs n (Traced.lift skipWhitespace >>= fun _ => p) IsError P Q :=
  Traced.Runs.lift_bind runs_skipWhitespace (fun _ _ => hp) hQ

/-- A loop that fails has reported items, and the beginning of one more. -/
theorem runs_itemLoop (hitem : Traced.Runs n item IsError (fun w => ∃ x, w = ev x)
      fun w => ∃ x, w <+: ev x) {fuel : Nat} (hfuel : fuel ≤ n) (count : Nat) :
    Traced.Runs fuel (itemLoop item close code finish fuel count) IsError
      (fun w => ∃ xs : List α, w = xs.flatMap ev ++ [finish (count + xs.length)])
      fun w => ∃ xs : List α, w <+: xs.flatMap ev := by
  induction fuel generalizing count with
  | zero =>
      exact { ok := fun h => absurd h (Nat.not_lt_zero _)
              error := fun h => absurd h (Nat.not_lt_zero _) }
  | succ fuel ih =>
      have hend : Traced.Runs (fuel + 1) (Traced.lift (consume close) >>= fun b =>
          if b = true then call (finish (count + 1)) else failWith code) IsError
          (fun w => ∃ xs : List α, w = xs.flatMap ev ++ [finish (count + 1 + xs.length)])
          fun w => ∃ xs : List α, w <+: xs.flatMap ev :=
        runs_ifConsume (Traced.Runs.note ⟨[], rfl⟩) (runs_failWith ⟨[], List.nil_prefix⟩)
      have hchoice := runs_ifConsume (n := fuel + 1) (c := 0x2C)
        (runs_whitespace (ih (Nat.le_of_succ_le hfuel) (count + 1)) ⟨[], List.nil_prefix⟩) hend
      refine (hitem.of_le hfuel).bind
        (fun _ => runs_whitespace hchoice ⟨[], List.nil_prefix⟩) ?_ ?_ ?_
      · rintro _ _ ⟨x, rfl⟩ ⟨xs, rfl⟩
        exact ⟨x :: xs, by simp [Nat.add_assoc, Nat.add_comm 1]⟩
      · rintro w ⟨x, hw⟩
        exact ⟨[x], by simpa using hw⟩
      · rintro _ w ⟨x, rfl⟩ ⟨xs, hw⟩
        refine ⟨x :: xs, ?_⟩
        rw [List.flatMap_cons]
        exact (List.prefix_append_right_inj _).mpr hw

theorem runs_bracketed {start : Event} (hitem : Traced.Runs n item IsError (fun w => ∃ x, w = ev x)
      fun w => ∃ x, w <+: ev x) :
    Traced.Runs n (bracketed item start close code finish n) IsError
      (fun w => ∃ xs : List α, w = start :: (xs.flatMap ev ++ [finish xs.length]))
      fun w => ∃ xs : List α, w <+: start :: xs.flatMap ev := by
  have hloop : Traced.Runs n (itemLoop item close code finish n 0) IsError _ _ :=
    runs_itemLoop hitem (Nat.le_refl n) 0
  have hchoice := runs_ifConsume (c := close) (Traced.Runs.note (n := n - 1) (e := finish 0)
    (P := fun w => ∃ xs : List α, w = xs.flatMap ev ++ [finish (0 + xs.length)]) ⟨[], rfl⟩) hloop
  have hstart : Traced.Runs n (call start) IsError (· = [start]) (· = []) :=
    Traced.Runs.note rfl
  refine hstart.bind (fun _ => runs_whitespace hchoice ⟨[], List.nil_prefix⟩) ?_ ?_ ?_
  · rintro _ _ rfl ⟨xs, rfl⟩
    exact ⟨xs, by simp⟩
  · rintro _ rfl
    exact ⟨[], List.nil_prefix⟩
  · rintro _ w rfl ⟨xs, hw⟩
    exact ⟨xs, List.cons_prefix_cons.mpr ⟨rfl, hw⟩⟩

end Errors

theorem parseString_runs {event : Bytes → Event} {c : UInt8} {s : Bytes} :
    (∀ {a r w}, parseString event (c :: s) = (.ok a r, w) → r.length ≤ s.length ∧
      ∃ v, w = [event v]) ∧
    ∀ {e r w}, parseString event (c :: s) = (.error e r, w) → IsError e ∧ w = [] := by
  have hruns : Traced.Runs (s.length + 1)
      (Traced.lift (stringLoop (s.length + 1) []) >>= fun str => call (event str)) IsError
      (fun w => ∃ v, w = [event v]) (· = []) :=
    Traced.Runs.lift_bind runs_stringLoop (fun v _ => Traced.Runs.note ⟨v, rfl⟩) rfl
  rw [parseString_cons]
  exact ⟨hruns.ok (Nat.lt_succ_self _), hruns.error (Nat.lt_succ_self _)⟩

theorem runs_word (word : Bytes) :
    Runs n (word.foldr (fun c rest => consume c <&&> rest) (pure true)) IsError fun _ => True := by
  induction word with
  | nil => exact Runs.pure trivial
  | cons c word ih =>
      refine (runs_consume c).bind fun b _ => ?_
      cases b with
      | false => exact Runs.pure trivial
      | true => exact ih

theorem parseWord_runs {word : Bytes} {x : Scalar} {c : UInt8} {s : Bytes} :
    (∀ {a r w}, parseWord word x (c :: s) = (.ok a r, w) → r.length ≤ s.length ∧
      w = [.scalar x]) ∧
    ∀ {e r w}, parseWord word x (c :: s) = (.error e r, w) → IsError e ∧ w = [] := by
  have hruns : Traced.Runs (s.length + 1)
      (Traced.lift (word.foldr (fun c rest => consume c <&&> rest) (pure true)) >>= fun b =>
        if b = true then call (.scalar x) else failWith .valueInvalid) IsError
      (· = [Event.scalar x]) (· = []) := by
    refine Traced.Runs.lift_bind (runs_word word) (fun b _ => ?_) rfl
    cases b with
    | false => exact runs_failWith rfl
    | true => exact Traced.Runs.note rfl
  exact ⟨hruns.ok (Nat.lt_succ_self _), hruns.error (Nat.lt_succ_self _)⟩

theorem runs_parseKey : Traced.Runs n parseKey IsError (fun w => ∃ k, w = [.key k]) (· = []) where
  ok := by
    intro s a r w _ h
    cases s with
    | nil => cases h
    | cons c s =>
        rw [parseKey, Traced.lift_bind_run (peek_cons c s)] at h
        split at h
        · exact (parseString_runs.1 h).imp_left Nat.le_succ_of_le
        · cases h
  error := by
    intro s e r w _ h
    cases s with
    | nil =>
        cases h
        exact ⟨⟨_, rfl⟩, rfl⟩
    | cons c s =>
        rw [parseKey, Traced.lift_bind_run (peek_cons c s)] at h
        split at h
        · exact parseString_runs.2 h
        · cases h
          exact ⟨⟨_, rfl⟩, rfl⟩

theorem runs_parseMember {parseValue : ReaderM Unit}
    (hvalue : Traced.Runs n parseValue IsError IsEvents IsPrefix) :
    Traced.Runs n (parseMember parseValue) IsError (fun w => ∃ m, w = memberEvents m)
      fun w => ∃ m, w <+: memberEvents m := by
  have hempty : IsPrefix [] := ⟨.scalar .null, List.nil_prefix⟩
  have hfail : Traced.Runs n (failWith .objectMissColon) IsError IsEvents IsPrefix :=
    runs_failWith hempty
  have hcolon := runs_ifConsume (c := 0x3A)
    (runs_whitespace (hvalue.of_le (Nat.sub_le n 1)) hempty) hfail
  refine runs_parseKey.bind (fun _ => runs_whitespace hcolon hempty) ?_ ?_ ?_
  · rintro _ _ ⟨k, rfl⟩ ⟨j, rfl⟩
    exact ⟨(k, j), rfl⟩
  · rintro _ rfl
    exact ⟨([], .scalar .null), List.nil_prefix⟩
  · rintro _ w ⟨k, rfl⟩ ⟨j, hw⟩
    exact ⟨(k, j), List.cons_prefix_cons.mpr ⟨rfl, hw⟩⟩

theorem runs_array {fuel : Nat}
    (h : Traced.Runs fuel (parseValue fl fuel) IsError IsEvents IsPrefix) :
    Traced.Runs fuel (bracketed (parseValue fl fuel) .startArray 0x5D
      .arrayMissCommaOrSquareBracket .endArray fuel) IsError IsEvents IsPrefix := by
  refine (runs_bracketed h).mono ?_ ?_
  · rintro _ ⟨xs, rfl⟩
    exact ⟨.array xs, by rw [Json.events, eventsArray_eq]⟩
  · rintro w ⟨xs, hw⟩
    refine ⟨.array xs, hw.trans ?_⟩
    rw [Json.events, eventsArray_eq]
    exact ⟨_, rfl⟩

theorem runs_object {fuel : Nat}
    (h : Traced.Runs fuel (parseValue fl fuel) IsError IsEvents IsPrefix) :
    Traced.Runs fuel (bracketed (parseMember (parseValue fl fuel)) .startObject 0x7D
      .objectMissCommaOrCurlyBracket .endObject fuel) IsError IsEvents IsPrefix := by
  refine (runs_bracketed (runs_parseMember h)).mono ?_ ?_
  · rintro _ ⟨ms, rfl⟩
    exact ⟨.object ms, by rw [Json.events, eventsObject_eq]⟩
  · rintro w ⟨ms, hw⟩
    refine ⟨.object ms, hw.trans ?_⟩
    rw [Json.events, eventsObject_eq]
    exact ⟨_, rfl⟩

/-- With enough fuel a value is read, or there is an error behind the beginning of one. -/
theorem runs_parseValue {fuel : Nat} (hfuel : fuel ≤ 2 ^ 26) :
    Traced.Runs fuel (parseValue fl fuel) IsError IsEvents IsPrefix := by
  have hempty : IsPrefix [] := ⟨.scalar .null, List.nil_prefix⟩
  have hnumber : ∀ {n}, n ≤ 2 ^ 26 → Traced.Runs n
      (Traced.lift (parseNumber fl) >>= fun x => call (.scalar x)) IsError IsEvents IsPrefix :=
    fun hn => Traced.Runs.lift_bind (runs_parseNumber hn)
      (fun x _ => Traced.Runs.note ⟨.scalar x, rfl⟩) hempty
  induction fuel with
  | zero =>
      exact { ok := fun h => absurd h (Nat.not_lt_zero _)
              error := fun h => absurd h (Nat.not_lt_zero _) }
  | succ fuel ih =>
      have ih := ih (Nat.le_of_succ_le hfuel)
      refine { ok := ?_, error := ?_ }
      · intro s a r w hlen h
        cases s with
        | nil =>
            rw [parseValue_nil] at h
            cases h
        | cons c s =>
            have hword : ∀ {word x}, parseWord word x (c :: s) = (.ok a r, w) →
                r.length ≤ (c :: s).length ∧ IsEvents w := fun h =>
              ⟨Nat.le_succ_of_le (parseWord_runs.1 h).1, .scalar _, (parseWord_runs.1 h).2⟩
            rw [parseValue_cons] at h
            split_ifs at h
            · exact hword h
            · exact hword h
            · exact hword h
            · obtain ⟨hle, v, rfl⟩ := parseString_runs.1 h
              exact ⟨Nat.le_succ_of_le hle, .scalar (.string v), rfl⟩
            · rw [parseObject_cons] at h
              exact ((runs_object ih).ok (Nat.lt_of_succ_lt_succ hlen) h).imp_left
                Nat.le_succ_of_le
            · rw [parseArray_cons] at h
              exact ((runs_array ih).ok (Nat.lt_of_succ_lt_succ hlen) h).imp_left
                Nat.le_succ_of_le
            · exact (hnumber hfuel).ok hlen h
      · intro s e r w hlen h
        cases s with
        | nil =>
            rw [parseValue_nil] at h
            cases h
            exact ⟨⟨_, rfl⟩, hempty⟩
        | cons c s =>
            have hword : ∀ {word x}, parseWord word x (c :: s) = (.error e r, w) →
                IsError e ∧ IsPrefix w := by
              intro word x h
              obtain ⟨he, rfl⟩ := parseWord_runs.2 h
              exact ⟨he, hempty⟩
            rw [parseValue_cons] at h
            split_ifs at h
            · exact hword h
            · exact hword h
            · exact hword h
            · obtain ⟨he, rfl⟩ := parseString_runs.2 h
              exact ⟨he, hempty⟩
            · rw [parseObject_cons] at h
              exact (runs_object ih).error (Nat.lt_of_succ_lt_succ hlen) h
            · rw [parseArray_cons] at h
              exact (runs_array ih).error (Nat.lt_of_succ_lt_succ hlen) h
            · exact (hnumber hfuel).error hlen h

/-- The reader ends with an error in the text at worst, behind the beginning of a document. -/
theorem runs_parseDocument {fuel : Nat} (hfuel : fuel ≤ 2 ^ 26) :
    Traced.Runs fuel (parseDocument fl fuel) IsError IsEvents IsPrefix := by
  have hempty : IsPrefix [] := ⟨.scalar .null, List.nil_prefix⟩
  refine runs_whitespace (Traced.Runs.lift_bind runs_peek (fun c _ => ?_) hempty) hempty
  split
  · exact runs_failWith hempty
  · have hend : Traced.Runs fuel (Traced.lift skipWhitespace >>= fun _ => Traced.lift peek >>=
        fun c => if c = 0 then pure () else failWith .documentRootNotSingular) IsError
          (· = []) (· = []) := by
      refine runs_whitespace (Traced.Runs.lift_bind runs_peek (fun c _ => ?_) rfl) rfl
      split
      · exact Traced.Runs.pure rfl
      · exact runs_failWith rfl
    refine (runs_parseValue hfuel).bind (fun _ => hend)
      (fun w₁ w₂ h₁ h₂ => ?_) (fun _ h => h) (fun w₁ w₂ h₁ h₂ => ?_)
    · rw [h₂, List.append_nil]
      exact h₁
    · obtain ⟨j, rfl⟩ := h₁
      rw [h₂, List.append_nil]
      exact ⟨j, List.prefix_refl _⟩

/-- Whatever the bytes of a text that `fgets` can give, the reader ends with its end or with one
of its error codes, and the handler has been given a beginning of the events of some document. -/
theorem parse_prefix {buffer : Bytes} (hlen : (cstring buffer).length < 65536) :
    (∀ e r w, parseDocument fl ((cstring buffer).length + 1) (cstring buffer) = (.error e r, w) →
      IsError e) ∧ IsPrefix (parse fl buffer).events := by
  have hruns := @runs_parseDocument fl ((cstring buffer).length + 1) (by omega)
  refine ⟨fun e r w h => (hruns.error (Nat.lt_succ_self _) h).1, ?_⟩
  unfold parse
  dsimp only
  split
  · rename_i r w h
    obtain ⟨-, j, rfl⟩ := hruns.ok (Nat.lt_succ_self _) h
    exact ⟨j, List.prefix_refl _⟩
  · rename_i e r w h
    exact (hruns.error (Nat.lt_succ_self _) h).2

/-- `[1,}`: the array and its first element have been reported before the error. -/
theorem parse_prefix_openArray :
    (parse .machine [0x5B, 0x31, 0x2C, 0x7D]).events = [.startArray, .scalar (.uint 1)] ∧
      IsPrefix [.startArray, .scalar (.uint 1)] := by
  have hlen : (cstring [0x5B, 0x31, 0x2C, 0x7D]).length < 65536 := by decide
  have hevents : IsPrefix (parse .machine [0x5B, 0x31, 0x2C, 0x7D]).events :=
    And.right ( parse_prefix hlen)
  exact ⟨rfl, hevents⟩

end Reader

end FlexEtl
