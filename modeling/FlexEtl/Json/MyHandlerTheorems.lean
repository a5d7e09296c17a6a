/-
FlexEtl.Json.MyHandlerTheorems — what the handler does with a document.

Whether the handler throws depends on two bits only: a key waits for its
value, and an array is being filled. `Flags` is that abstraction, `scan` runs
it over a document, and `follows_scanRoot` says the handler throws on exactly
the documents the scan refuses. The proof is by induction over the document,
one level at a time: below the first object level nothing but an array has an
effect (`accepts_deep`), at the first level the flags decide
(`follows_scanValue`), outside it scalars are ignored (`follows_scanRoot`).

What an accepted object leaves in the table is then read off level by level
as well (`table_of_members`).
-/
import FlexEtl.Json.MyHandler
import FlexEtl.Table.ClickTableTheorems

namespace FlexEtl

open EventStream

/-! ## Values of documents -/

/-- The `Value` a scalar callback converts to. -/
def Scalar.value : Scalar → Value
  | .null => .null
  | .bool b => .bool b
  | .int i => .int i.toInt64
  | .uint u => .uint u.toUInt64
  | .int64 i => .int i
  | .uint64 u => .uint u
  | .double d => .double d
  | .string s => .str s

namespace MyHandler

@[simp] theorem on_scalar (s : Scalar) : on (.scalar s) = append s.value := by
  cases s <;> rfl

/-! ## One callback at a time -/

section Callbacks

variable {h : MyHandler}

theorem append_eq (v : Value) (h : MyHandler) :
    append v h =
      if h.m_objectCounter = 1 then
        if h.m_fillArray then .ok true { h with m_arrayData := h.m_arrayData ++ [v] }
        else if h.m_key = [] then .error "Error at parse json" h
        else .ok true { h with m_table := h.m_table.append h.m_key v, m_key := [] }
      else .ok true h := by
  unfold append checkKey
  by_cases hc : h.m_objectCounter = 1
  · by_cases hf : h.m_fillArray = true
    · simp [get_bind, map_modify, hc, hf]
    · by_cases hk : h.m_key = []
      · simp [get_bind, throw_bind, hc, hf, hk]
      · simp [get_bind, map_modify, hc, hf, hk]
  · simp [get_bind, pure_run, hc]

/-- Away from the first object level a value is ignored. -/
theorem append_of_ne (hc : h.m_objectCounter ≠ 1) (v : Value) : append v h = .ok true h := by
  rw [append_eq, if_neg hc]

theorem append_fill (hc : h.m_objectCounter = 1) (hf : h.m_fillArray = true) (v : Value) :
    append v h = .ok true { h with m_arrayData := h.m_arrayData ++ [v] } := by
  rw [append_eq, if_pos hc, if_pos hf]

theorem append_cell (hc : h.m_objectCounter = 1) (hf : h.m_fillArray = false)
    (hk : h.m_key ≠ []) (v : Value) :
    append v h = .ok true { h with m_table := h.m_table.append h.m_key v, m_key := [] } := by
  rw [append_eq, if_pos hc, if_neg (by simp [hf]), if_neg hk]

theorem append_noKey (hc : h.m_objectCounter = 1) (hf : h.m_fillArray = false)
    (hk : h.m_key = []) (v : Value) : append v h = .error "Error at parse json" h := by
  rw [append_eq, if_pos hc, if_neg (by simp [hf]), if_pos hk]

theorem on_startObject :
    on .startObject h = .ok true { h with m_objectCounter := h.m_objectCounter + 1 } := rfl

theorem on_endObject (n : Nat) :
    on (.endObject n) h = .ok true { h with m_objectCounter := h.m_objectCounter - 1 } := rfl

theorem on_startArray : on .startArray h = .ok true { h with m_fillArray := true } := rfl

theorem on_endArray (n : Nat) (h : MyHandler) :
    on (.endArray n) h =
      match append (.array h.m_arrayData) { h with m_fillArray := false } with
      | .ok res h' => .ok res { h' with m_arrayData := [] }
      | .error e h' => .error e h' := by
  show EStateM.bind (append (.array h.m_arrayData)) _ { h with m_fillArray := false } = _
  unfold EStateM.bind
  rcases append (.array h.m_arrayData) { h with m_fillArray := false } with ⟨res, h'⟩ | ⟨e, h'⟩
  · rfl
  · rfl

theorem on_key_eq (k : Bytes) (h : MyHandler) :
    on (.key k) h =
      if 1 < h.m_objectCounter then .ok true h
      else if h.m_key = [] then .ok true { h with m_key := k }
      else .error "Error at parse json" h := by
  unfold on key checkKey
  by_cases hc : 1 < h.m_objectCounter
  · simp [get_bind, pure_run, hc]
  · by_cases hk : h.m_key = []
    · simp [get_bind, map_modify, hc, hk]
    · simp [get_bind, throw_bind, hc, hk]

end Callbacks

/-! ## The table is only appended to -/

/-- A result without its state. -/
def outcome (r : Except String Bool) (h : MyHandler) : EStateM.Result String MyHandler Bool :=
  match r with
  | .ok b => .ok b h
  | .error e => .error e h

/-- `append` looks at no table: on each it makes the same appends. -/
theorem append_table (v : Value) (h : MyHandler) :
    ∃ (r : Except String Bool) (h' : MyHandler) (a : ClickTable.Appends), ∀ t : ClickTable,
      append v { h with m_table := t } = outcome r { h' with m_table := t.appendAll a } := by
  by_cases hc : h.m_objectCounter = 1
  · by_cases hf : h.m_fillArray = true
    · exact ⟨.ok true, { h with m_arrayData := h.m_arrayData ++ [v] }, [], fun t =>
        append_fill (by exact hc) (by exact hf) v⟩
    · have hff : h.m_fillArray = false := by simpa using hf
      by_cases hk : h.m_key = []
      · exact ⟨.error "Error at parse json", h, [], fun t =>
          append_noKey (by exact hc) (by exact hff) (by exact hk) v⟩
      · exact ⟨.ok true, { h with m_key := [] }, [(h.m_key, v)], fun t =>
          append_cell (by exact hc) (by exact hff) (by exact hk) v⟩
  · exact ⟨.ok true, h, [], fun t => append_of_ne (by exact hc) v⟩

theorem on_table (e : Event) (h : MyHandler) :
    ∃ (r : Except String Bool) (h' : MyHandler) (a : ClickTable.Appends), ∀ t : ClickTable,
      on e { h with m_table := t } = outcome r { h' with m_table := t.appendAll a } := by
  cases e with
  | scalar s =>
      rw [on_scalar]
      exact append_table s.value h
  | startObject =>
      exact ⟨.ok true, { h with m_objectCounter := h.m_objectCounter + 1 }, [], fun _ => rfl⟩
  | endObject n =>
      exact ⟨.ok true, { h with m_objectCounter := h.m_objectCounter - 1 }, [], fun _ => rfl⟩
  | startArray => exact ⟨.ok true, { h with m_fillArray := true }, [], fun _ => rfl⟩
  | key k =>
      by_cases hc : 1 < h.m_objectCounter
      · exact ⟨.ok true, h, [], fun t => by rw [on_key_eq, if_pos (by exact hc)]; rfl⟩
      · by_cases hk : h.m_key = []
        · exact ⟨.ok true, { h with m_key := k }, [], fun t => by
            rw [on_key_eq, if_neg (by exact hc), if_pos (by exact hk)]; rfl⟩
        · exact ⟨.error "Error at parse json", h, [], fun t => by
            rw [on_key_eq, if_neg (by exact hc), if_neg (by exact hk)]; rfl⟩
  | endArray n =>
      obtain ⟨r, h', a, happ⟩ := append_table (.array h.m_arrayData) { h with m_fillArray := false }
      cases r with
      | ok b =>
          refine ⟨.ok b, { h' with m_arrayData := [] }, a, fun t => ?_⟩
          have ht := happ t
          dsimp only at ht
          rw [on_endArray, ht]
          rfl
      | error x =>
          refine ⟨.error x, h', a, fun t => ?_⟩
          have ht := happ t
          dsimp only at ht
          rw [on_endArray, ht]
          rfl

/-- A stream makes the same appends to every table. -/
theorem feed_table (es : List Event) : ∀ h : MyHandler,
    ∃ (r : Except String Bool) (h' : MyHandler) (a : ClickTable.Appends), ∀ t : ClickTable,
    feed on es { h with m_table := t } = outcome r { h' with m_table := t.appendAll a } := by
  induction es with
  | nil => exact fun h => ⟨.ok true, h, [], fun _ => rfl⟩
  | cons e es ih =>
      intro h
      obtain ⟨r, h₁, a, he⟩ := on_table e h
      rcases r with x | (_ | _)
      · exact ⟨.error x, h₁, a, fun t => by rw [feed_cons, he]; rfl⟩
      · exact ⟨.ok false, h₁, a, fun t => by rw [feed_cons, he]; rfl⟩
      · obtain ⟨r, h₂, b, hes⟩ := ih h₁
        refine ⟨r, h₂, a ++ b, fun t => ?_⟩
        rw [feed_cons, he, ClickTable.appendAll_append]
        exact hes (t.appendAll a)

/-! ## Below the first object level -/

/-- What an ignored array does all the same: the flag and the elements go. -/
def dropArray (h : MyHandler) : MyHandler :=
  { h with m_fillArray := false, m_arrayData := [] }

/-- The effect of a value that is ignored. -/
def skip (h : MyHandler) (array : Bool) : MyHandler := if array then h.dropArray else h

@[simp] theorem skip_objectCounter (h : MyHandler) (b : Bool) :
    (h.skip b).m_objectCounter = h.m_objectCounter := by
  cases b <;> rfl

@[simp] theorem skip_key (h : MyHandler) (b : Bool) : (h.skip b).m_key = h.m_key := by
  cases b <;> rfl

@[simp] theorem skip_table (h : MyHandler) (b : Bool) : (h.skip b).m_table = h.m_table := by
  cases b <;> rfl

theorem skip_skip (h : MyHandler) (a b : Bool) : (h.skip a).skip b = h.skip (a || b) := by
  cases a <;> cases b <;> rfl

/-- Under an array the flag is set, and the end of the array drops it again. -/
theorem dropArray_skip (h : MyHandler) (b : Bool) :
    (({ h with m_fillArray := true } : MyHandler).skip b).dropArray = h.dropArray := by
  cases b <;> rfl

theorem on_endArray_of_ne {h : MyHandler} (hc : h.m_objectCounter ≠ 1) (n : Nat) :
    on (.endArray n) h = .ok true h.dropArray := by
  rw [on_endArray, append_of_ne (by exact hc)]
  rfl

/-- The elements of an array, when each of them only has its ignored effect. -/
theorem accepts_elements {xs : List Json} {c : Int}
    (hxs : ∀ x ∈ xs, ∀ h : MyHandler, h.m_objectCounter = c →
      Accepts on x.events h (h.skip x.hasArray)) :
    ∀ h : MyHandler, h.m_objectCounter = c →
      ∃ b, Accepts on (Json.events.eventsArray xs) h (h.skip b) := by
  induction xs with
  | nil => exact fun h _ => ⟨false, Accepts.nil h⟩
  | cons x xs ih =>
      intro h hc
      have hx := hxs x (by simp) h hc
      obtain ⟨b, hb⟩ := ih (fun y hy => hxs y (by simp [hy])) (h.skip x.hasArray)
        (by simpa using hc)
      rw [skip_skip] at hb
      exact ⟨x.hasArray || b, hx.append hb⟩

/-- The members of an object below the first level: their keys are ignored. -/
theorem accepts_members {ms : List (Bytes × Json)} {c : Int} (hc1 : 1 < c)
    (hms : ∀ m ∈ ms, ∀ h : MyHandler, h.m_objectCounter = c →
      Accepts on m.2.events h (h.skip m.2.hasArray)) :
    ∀ h : MyHandler, h.m_objectCounter = c →
      Accepts on (Json.events.eventsObject ms) h (h.skip (Json.hasArray.hasArrayMembers ms)) := by
  induction ms with
  | nil => exact fun h _ => Accepts.nil h
  | cons m ms ih =>
      obtain ⟨k, v⟩ := m
      intro h hc
      have hkey : on (.key k) h = .ok true h := by rw [on_key_eq, if_pos (by omega)]
      have hv := hms (k, v) (by simp) h hc
      have hrest := ih (fun n hn => hms n (by simp [hn])) (h.skip v.hasArray) (by simpa using hc)
      rw [skip_skip] at hrest
      exact Accepts.cons hkey (hv.append hrest)

/-- An object opened at level `c` ends at level `c` with its ignored effect. -/
theorem accepts_object {ms : List (Bytes × Json)} {c : Int} (hc1 : 0 < c)
    (hms : ∀ m ∈ ms, ∀ h : MyHandler, h.m_objectCounter = c + 1 →
      Accepts on m.2.events h (h.skip m.2.hasArray))
    (h : MyHandler) (hc : h.m_objectCounter = c) :
    Accepts on (Json.object ms).events h (h.skip (Json.object ms).hasArray) := by
  have hopen := accepts_members (by omega) hms { h with m_objectCounter := h.m_objectCounter + 1 }
    (by simp [hc])
  refine Accepts.cons on_startObject (hopen.append (Accepts.singleton ?_))
  rw [on_endObject]
  cases hb : Json.hasArray.hasArrayMembers ms with
  | true => simp [skip, dropArray, Json.hasArray, hb]
  | false => simp [skip, Json.hasArray, hb]

theorem accepts_scalar (s : Scalar) {h : MyHandler} (hc : h.m_objectCounter ≠ 1) :
    Accepts on (Json.scalar s).events h (h.skip (Json.scalar s).hasArray) := by
  refine Accepts.singleton ?_
  rw [on_scalar]
  exact append_of_ne hc s.value

theorem accepts_array {xs : List Json} {c : Int} (hc1 : c ≠ 1)
    (hxs : ∀ x ∈ xs, ∀ h : MyHandler, h.m_objectCounter = c →
      Accepts on x.events h (h.skip x.hasArray))
    (h : MyHandler) (hc : h.m_objectCounter = c) :
    Accepts on (Json.array xs).events h (h.skip (Json.array xs).hasArray) := by
  obtain ⟨b, hb⟩ := accepts_elements hxs { h with m_fillArray := true } (by exact hc)
  refine Accepts.cons on_startArray (hb.append (Accepts.singleton ?_))
  rw [on_endArray_of_ne (by simpa [hc] using hc1), dropArray_skip]
  rfl

/-- Below the first object level only arrays have an effect, and it is `skip`. -/
theorem accepts_deep (j : Json) : ∀ c : Int, 1 < c → ∀ h : MyHandler, h.m_objectCounter = c →
    Accepts on j.events h (h.skip j.hasArray) := by
  induction j using Json.inductOn with
  | scalar s => exact fun c hc1 h hc => accepts_scalar s (by omega)
  | array xs ih => exact fun c hc1 => accepts_array (by omega) fun x hx => ih x hx c hc1
  | object ms ih =>
      intro c hc1 h hc
      exact accepts_object (by omega) (fun m hm => ih m hm (c + 1) (by omega)) h hc

/-- So an object that is a member's value, or an element of one, is taken whole. -/
theorem accepts_inner (ms : List (Bytes × Json)) (h : MyHandler) (hc : h.m_objectCounter = 1) :
    Accepts on (Json.object ms).events h (h.skip (Json.object ms).hasArray) :=
  accepts_object (by omega) (fun m _ => accepts_deep m.2 (1 + 1) (by omega)) h hc

/-- Outside every object as well, where no object is opened. -/
theorem accepts_bare (j : Json) (hfree : j.objectFree = true) :
    ∀ h : MyHandler, h.m_objectCounter = 0 → Accepts on j.events h (h.skip j.hasArray) := by
  induction j using Json.inductOn with
  | scalar s => exact fun h hc => accepts_scalar s (by omega)
  | array xs ih =>
      exact accepts_array (by decide) fun x hx => ih x hx (Json.objectFree_array.mp hfree x hx)
  | object ms _ => simp at hfree

end MyHandler

/-! ## The scan of a document -/

/-- The two bits of the handler's state that decide whether a callback throws. -/
@[ext] structure Flags where
  /-- a non-empty key waits for its value -/
  pending : Bool := false
  /-- an array is being filled -/
  fill : Bool := false
  deriving DecidableEq, Repr

namespace Json

/-- A value at the first object level. A scalar in an array goes to the array,
any other value takes the waiting key; an object takes nothing, but the end of
an array inside it ends the array around it as well. -/
def scanValue (f : Flags) : Json → Option Flags
  | scalar _ => if f.fill then some f else if f.pending then some {} else none
  | object ms => some { f with fill := f.fill && !(object ms).hasArray }
  | array xs =>
      (scanElements { f with fill := true } xs).bind fun g => if g.pending then some {} else none
where
  scanElements (f : Flags) : List Json → Option Flags
    | [] => some f
    | x :: xs => (x.scanValue f).bind fun g => scanElements g xs

/-- The members of an object at the first level: no key may be waiting. -/
def scanMembers (f : Flags) : List (Bytes × Json) → Option Flags
  | [] => some f
  | (k, v) :: ms =>
      if f.pending then none
      else (v.scanValue { f with pending := !k.isEmpty }).bind fun g => scanMembers g ms

/-- A value outside every object: scalars are ignored. -/
def scanRoot (f : Flags) : Json → Option Flags
  | scalar _ => some f
  | object ms => scanMembers f ms
  | array xs => (scanElements { f with fill := true } xs).map fun g => { g with fill := false }
where
  scanElements (f : Flags) : List Json → Option Flags
    | [] => some f
    | x :: xs => (x.scanRoot f).bind fun g => scanElements g xs

/-- The scan of the whole document fails. -/
def refused (j : Json) : Bool := (j.scanRoot {}).isNone

end Json

namespace MyHandler

def flags (h : MyHandler) : Flags :=
  { pending := !h.m_key.isEmpty, fill := h.m_fillArray }

/-- The handler goes the way of a scan: it throws if the scan fails, and otherwise
ends at the object level it started at with the flags of the scan. -/
def Follows (es : List Event) (h : MyHandler) : Option Flags → Prop
  | some f => ∃ h', Accepts on es h h' ∧ h'.m_objectCounter = h.m_objectCounter ∧ h'.flags = f
  | none => Refuses on es h

theorem Follows.nil (h : MyHandler) : Follows [] h (some h.flags) :=
  ⟨h, Accepts.nil h, rfl, rfl⟩

theorem Follows.append {es fs : List Event} {h : MyHandler} {f? : Option Flags}
    {g : Flags → Option Flags} (hes : Follows es h f?)
    (hfs : ∀ h' : MyHandler, h'.m_objectCounter = h.m_objectCounter → Follows fs h' (g h'.flags)) :
    Follows (es ++ fs) h (f?.bind g) := by
  cases f? with
  | none => exact Refuses.append hes fs
  | some f =>
      obtain ⟨h', hacc, hc, rfl⟩ := hes
      have hrest := hfs h' hc
      rw [Option.bind_some]
      cases hg : g h'.flags with
      | none => rw [hg] at hrest; exact hacc.refuses hrest
      | some f' =>
          rw [hg] at hrest
          obtain ⟨h'', hacc', hc', hf'⟩ := hrest
          exact ⟨h'', hacc.append hacc', hc'.trans hc, hf'⟩

/-- One callback in front that does not throw. -/
theorem Follows.cons {e : Event} {es : List Event} {h h₁ : MyHandler} {f? : Option Flags}
    (he : on e h = .ok true h₁) (hc : h₁.m_objectCounter = h.m_objectCounter)
    (hes : Follows es h₁ f?) : Follows (e :: es) h f? := by
  cases f? with
  | none => exact Refuses.tail he hes
  | some f =>
      obtain ⟨h', hacc, hc', hf⟩ := hes
      exact ⟨h', Accepts.cons he hacc, hc'.trans hc, hf⟩

theorem Follows.throws {e : Event} {x : String} {h h₁ : MyHandler} (he : on e h = .error x h₁)
    (es : List Event) : Follows (e :: es) h none :=
  Refuses.head he es

theorem Follows.singleton {e : Event} {h h₁ : MyHandler} (he : on e h = .ok true h₁)
    (hc : h₁.m_objectCounter = h.m_objectCounter) : Follows [e] h (some h₁.flags) :=
  Follows.cons he hc (Follows.nil h₁)

theorem flags_skip (h : MyHandler) (b : Bool) :
    (h.skip b).flags = { h.flags with fill := h.flags.fill && !b } := by
  cases b with
  | true => simp [skip, dropArray, flags]
  | false => simp [skip, flags]

theorem pending_flags {h : MyHandler} : h.flags.pending = true ↔ h.m_key ≠ [] := by
  simp [flags]

/-! ### At the first object level -/

/-- A value that is complete: it goes to the array, to its key, or nowhere. -/
theorem follows_append {h : MyHandler} (hc : h.m_objectCounter = 1) {e : Event} {v : Value}
    (he : on e h = append v h) :
    Follows [e] h
      (if h.flags.fill then some h.flags else if h.flags.pending then some {} else none) := by
  by_cases hf : h.m_fillArray = true
  · rw [append_fill hc hf v] at he
    have hfill : h.flags.fill = true := hf
    rw [hfill]
    have hpush := Follows.singleton he rfl
    exact hpush
  · have hff : h.m_fillArray = false := by simpa using hf
    have hfill : h.flags.fill = false := hff
    rw [hfill]
    by_cases hk : h.m_key = []
    · rw [append_noKey hc hff hk v] at he
      have hpend : h.flags.pending = false := by simp [flags, hk]
      rw [hpend]
      exact Follows.throws he []
    · rw [append_cell hc hff hk v] at he
      rw [pending_flags.mpr hk]
      have := Follows.singleton he rfl
      simpa [flags, hff] using this

theorem follows_endArray {h : MyHandler} (hc : h.m_objectCounter = 1) (n : Nat) :
    Follows [.endArray n] h (if h.flags.pending then some {} else none) := by
  by_cases hk : h.m_key = []
  · have hpend : h.flags.pending = false := by simp [flags, hk]
    rw [hpend]
    have he : on (.endArray n) h = .error "Error at parse json" { h with m_fillArray := false } := by
      rw [on_endArray, append_noKey (by exact hc) rfl (by exact hk)]
    exact Follows.throws he []
  · rw [pending_flags.mpr hk]
    have he : on (.endArray n) h = .ok true
        { h with
          m_table := h.m_table.append h.m_key (.array h.m_arrayData), m_key := [],
          m_fillArray := false, m_arrayData := [] } := by
      rw [on_endArray, append_cell (by exact hc) rfl (by exact hk)]
    exact Follows.singleton he rfl

/-- A scan that goes from one element to the next follows the events of all of them, at
the object level at which the scan of one element does. -/
theorem follows_elements {level : Nat} {scan : Flags → Json → Option Flags}
    {scanElements : Flags → List Json → Option Flags}
    (hnil : ∀ f, scanElements f [] = some f)
    (hcons : ∀ f x xs, scanElements f (x :: xs) = (scan f x).bind fun g => scanElements g xs)
    {xs : List Json}
    (hxs : ∀ x ∈ xs, ∀ h : MyHandler, h.m_objectCounter = level →
      Follows x.events h (scan h.flags x)) :
    ∀ h : MyHandler, h.m_objectCounter = level →
      Follows (Json.events.eventsArray xs) h (scanElements h.flags xs) := by
  induction xs with
  | nil =>
      intro h _
      rw [hnil]
      exact Follows.nil h
  | cons x xs ih =>
      intro h hc
      rw [hcons]
      refine (hxs x (by simp) h hc).append fun h' hc' => ?_
      exact ih (fun y hy => hxs y (by simp [hy])) h' (hc'.trans hc)

theorem follows_scanElements {xs : List Json}
    (hxs : ∀ x ∈ xs, ∀ h : MyHandler, h.m_objectCounter = 1 →
      Follows x.events h (x.scanValue h.flags)) :
    ∀ h : MyHandler, h.m_objectCounter = 1 →
      Follows (Json.events.eventsArray xs) h (Json.scanValue.scanElements h.flags xs) :=
  follows_elements (fun _ => rfl) (fun _ _ _ => rfl) hxs

theorem follows_scanValue (j : Json) : ∀ h : MyHandler, h.m_objectCounter = 1 →
    Follows j.events h (j.scanValue h.flags) := by
  induction j using Json.inductOn with
  | scalar s =>
      intro h hc
      exact follows_append hc (v := s.value) (by rw [on_scalar])
  | array xs ih =>
      intro h hc
      refine Follows.cons on_startArray rfl ?_
      have hxs := follows_scanElements ih { h with m_fillArray := true } hc
      exact hxs.append fun h' hc' => follows_endArray (hc'.trans hc) xs.length
  | object ms _ =>
      intro h hc
      exact ⟨h.skip (Json.object ms).hasArray, accepts_inner ms h hc, by simp,
        flags_skip h (Json.object ms).hasArray⟩

theorem follows_scanMembers (ms : List (Bytes × Json)) : ∀ h : MyHandler, h.m_objectCounter = 1 →
    Follows (Json.events.eventsObject ms) h (Json.scanMembers h.flags ms) := by
  induction ms with
  | nil => exact fun h _ => Follows.nil h
  | cons m ms ih =>
      obtain ⟨k, v⟩ := m
      intro h hc
      by_cases hk : h.m_key = []
      · have hpend : h.flags.pending = false := by simp [flags, hk]
        have hkey : on (.key k) h = .ok true { h with m_key := k } := by
          rw [on_key_eq, if_neg (by omega), if_pos hk]
        simp only [Json.scanMembers, hpend, Bool.false_eq_true, if_false]
        refine Follows.cons hkey rfl ?_
        have hv := follows_scanValue v { h with m_key := k } hc
        exact hv.append fun h' hc' => ih h' (hc'.trans hc)
      · have hkey : on (.key k) h = .error "Error at parse json" h := by
          rw [on_key_eq, if_neg (by omega), if_neg hk]
        simp only [Json.scanMembers, pending_flags.mpr hk, if_true]
        exact Follows.throws hkey _

/-! ### Outside every object -/

/-- An object opened at level `0` is read at the first object level. -/
theorem follows_object (ms : List (Bytes × Json)) (h : MyHandler) (hc : h.m_objectCounter = 0) :
    Follows (Json.object ms).events h (Json.scanMembers h.flags ms) := by
  have hms := follows_scanMembers ms { h with m_objectCounter := h.m_objectCounter + 1 }
    (by simp [hc])
  change Follows _ _ (Json.scanMembers h.flags ms) at hms
  cases hscan : Json.scanMembers h.flags ms with
  | none =>
      rw [hscan] at hms
      exact Refuses.tail on_startObject (Refuses.append hms _)
  | some f =>
      rw [hscan] at hms
      obtain ⟨h', hacc, hc', hf⟩ := hms
      refine ⟨{ h' with m_objectCounter := h'.m_objectCounter - 1 }, ?_, ?_, hf⟩
      · exact Accepts.cons on_startObject (hacc.append (Accepts.singleton (on_endObject ms.length)))
      · simp [hc']

theorem follows_scanRootElements {xs : List Json}
    (hxs : ∀ x ∈ xs, ∀ h : MyHandler, h.m_objectCounter = 0 →
      Follows x.events h (x.scanRoot h.flags)) :
    ∀ h : MyHandler, h.m_objectCounter = 0 →
      Follows (Json.events.eventsArray xs) h (Json.scanRoot.scanElements h.flags xs) :=
  follows_elements (fun _ => rfl) (fun _ _ _ => rfl) hxs

theorem follows_scanRoot (j : Json) : ∀ h : MyHandler, h.m_objectCounter = 0 →
    Follows j.events h (j.scanRoot h.flags) := by
  induction j using Json.inductOn with
  | scalar s =>
      intro h hc
      refine Follows.singleton ?_ rfl
      rw [on_scalar]
      exact append_of_ne (by omega) s.value
  | array xs ih =>
      intro h hc
      refine Follows.cons on_startArray rfl ?_
      have hxs := follows_scanRootElements ih { h with m_fillArray := true } hc
      rw [Json.scanRoot, Option.map_eq_bind]
      refine hxs.append fun h' hc' => ?_
      exact Follows.singleton (on_endArray_of_ne (by rw [hc']; simp [hc]) xs.length) rfl
  | object ms _ => exact fun h hc => follows_object ms h hc

/-! ## What an accepted object appends -/

end MyHandler

namespace Json

def scalar? : Json → Option Value
  | scalar s => some s.value
  | _ => none

/-- The value a member appends under its key, if it appends one. -/
def cell? : Json → Option Value
  | scalar s => some s.value
  | array xs => some (.array (if xs.any hasArray then [] else xs.filterMap scalar?))
  | object _ => none

/-- The appends of an object's members. -/
def appends (ms : List (Bytes × Json)) : ClickTable.Appends :=
  ms.filterMap fun m => m.2.cell?.map (m.1, ·)

theorem scanValue_pending {j : Json} {f g : Flags} (h : j.scanValue f = some g)
    (hf : f.pending = false) : g.pending = false := by
  cases j with
  | scalar s =>
      simp only [scanValue, hf] at h
      split at h
      · cases h; exact hf
      · cases h
  | object ms => cases h; exact hf
  | array xs =>
      simp only [scanValue, Option.bind_eq_some_iff] at h
      obtain ⟨f', _, h⟩ := h
      split at h
      · cases h; rfl
      · cases h

theorem scanElements_pending {xs : List Json} {f g : Flags}
    (h : scanValue.scanElements f xs = some g) (hf : f.pending = false) : g.pending = false := by
  induction xs generalizing f with
  | nil => cases h; exact hf
  | cons x xs ih =>
      obtain ⟨f', hx, h⟩ := Option.bind_eq_some_iff.mp h
      exact ih h (scanValue_pending hx hf)

/-- An array leaves no key waiting. -/
theorem scanValue_array {xs : List Json} {f g : Flags} (h : (array xs).scanValue f = some g) :
    g = {} := by
  simp only [scanValue, Option.bind_eq_some_iff] at h
  obtain ⟨f', _, h⟩ := h
  split at h
  · cases h; rfl
  · cases h

end Json

namespace MyHandler

/-- An accepted stream that follows a scan shows that the scan succeeded. -/
theorem Follows.of_accepts {es : List Event} {h h' : MyHandler} {f? : Option Flags}
    (hf : Follows es h f?) (hacc : Accepts on es h h') :
    f? = some h'.flags ∧ h'.m_objectCounter = h.m_objectCounter := by
  cases f? with
  | none => exact absurd hf hacc.not_refuses
  | some f =>
      obtain ⟨h'', hacc', hc, rfl⟩ := hf
      rw [hacc.unique hacc']
      exact ⟨rfl, hc⟩

theorem flags_pending_false {h : MyHandler} : h.flags.pending = false ↔ h.m_key = [] := by
  simp [flags]

/-- With no key waiting, no element leaves one waiting. -/
theorem key_of_elements {xs : List Json} {h h' : MyHandler} (hc : h.m_objectCounter = 1)
    (hk : h.m_key = []) (hacc : Accepts on (Json.events.eventsArray xs) h h') : h'.m_key = [] := by
  have hf : Follows (Json.events.eventsArray xs) h (Json.scanValue.scanElements h.flags xs) :=
    follows_scanElements (fun x _ => follows_scanValue x) h hc
  have hscan := (hf.of_accepts hacc).1
  exact flags_pending_false.mp (Json.scanElements_pending hscan (flags_pending_false.mpr hk))

/-- The elements of an array, up to a point where the key still waits: none of
them has reached the table, and the handler holds the scalars among them, unless
an array has ended inside an object, which throws them away. -/
theorem elements_collected {xs : List Json} : ∀ {h h' : MyHandler}, h.m_objectCounter = 1 →
    (h.m_fillArray = false → h.m_arrayData = []) →
    Accepts on (Json.events.eventsArray xs) h h' → h'.m_key ≠ [] →
    h'.m_table = h.m_table ∧ h'.m_key = h.m_key ∧
      h'.m_arrayData =
        if h.m_fillArray && !xs.any Json.hasArray then
          h.m_arrayData ++ xs.filterMap Json.scalar?
        else [] := by
  induction xs with
  | nil =>
      intro h h' _ hempty hacc _
      cases hacc
      cases hf : h.m_fillArray with
      | true => simp
      | false => simp [hempty hf]
  | cons x xs ih =>
      intro h h' hc hempty hacc hk'
      obtain ⟨h₁, hx, hxs⟩ := Accepts.of_append hacc
      obtain ⟨hscan, hc₁⟩ := (follows_scanValue x h hc).of_accepts hx
      have hkey₁ : h₁.m_key ≠ [] := fun hk₁ =>
        hk' (key_of_elements (hc₁.trans hc) hk₁ hxs)
      cases x with
      | scalar s =>
          obtain ⟨h₂, he, hnil⟩ := Accepts.of_cons hx
          cases hnil
          rw [on_scalar] at he
          cases hf : h.m_fillArray with
          | true =>
              rw [append_fill hc hf] at he
              cases he
              have hpush := ih (h := { h with m_arrayData := h.m_arrayData ++ [s.value] }) hc
                (by simp [hf]) hxs hk'
              simpa [hf, Json.scalar?, Json.hasArray] using hpush
          | false =>
              exfalso
              rw [append_eq, if_pos hc, if_neg (by simp [hf])] at he
              split at he
              · cases he
              · cases he; exact hkey₁ rfl
      | array ys =>
          exfalso
          have hflags := Json.scanValue_array hscan
          exact hkey₁ (flags_pending_false.mp (by rw [hflags]))
      | object ms =>
          obtain rfl := hx.unique (accepts_inner ms h hc)
          cases hb : (Json.object ms).hasArray with
          | true =>
              rw [hb] at hxs
              have hdrop := ih (h := h.dropArray) hc (fun _ => rfl) hxs hk'
              simpa [dropArray, hb] using hdrop
          | false =>
              rw [hb] at hxs
              have hsame := ih hc hempty hxs hk'
              simpa [hb, List.filterMap_cons, Json.scalar?] using hsame

/-- One accepted member value, outside any array. -/
theorem value_appended {j : Json} {h h' : MyHandler} (hc : h.m_objectCounter = 1)
    (hf : h.m_fillArray = false) (hd : h.m_arrayData = []) (hacc : Accepts on j.events h h') :
    h'.m_fillArray = false ∧ h'.m_arrayData = [] ∧
      h'.m_table = h.m_table.appendAll (j.cell?.map (h.m_key, ·)).toList := by
  cases j with
  | scalar s =>
      obtain ⟨h₁, he, hnil⟩ := Accepts.of_cons hacc
      cases hnil
      rw [on_scalar, append_eq, if_pos hc, if_neg (by simp [hf])] at he
      split at he
      · cases he
      · cases he
        exact ⟨hf, hd, rfl⟩
  | object ms =>
      obtain rfl := hacc.unique (accepts_inner ms h hc)
      cases (Json.object ms).hasArray with
      | true => exact ⟨rfl, rfl, rfl⟩
      | false => exact ⟨hf, hd, rfl⟩
  | array xs =>
      obtain ⟨h₁, hstart, hrest⟩ := Accepts.of_cons hacc
      rw [on_startArray] at hstart
      cases hstart
      obtain ⟨h₂, hxs, hend⟩ := Accepts.of_append hrest
      obtain ⟨h₃, he, hnil⟩ := Accepts.of_cons hend
      cases hnil
      have hc₂ : h₂.m_objectCounter = 1 := by
        have hfol : Follows (Json.events.eventsArray xs) { h with m_fillArray := true }
            (Json.scanValue.scanElements { h.flags with fill := true } xs) :=
          follows_scanElements (fun x _ => follows_scanValue x) { h with m_fillArray := true } hc
        exact (hfol.of_accepts hxs).2.trans hc
      rw [on_endArray, append_eq, if_pos (by exact hc₂)] at he
      simp only [Bool.false_eq_true, if_false] at he
      by_cases hk : h₂.m_key = []
      · rw [if_pos hk] at he; cases he
      · rw [if_neg hk] at he
        cases he
        obtain ⟨htable, hkey, hdata⟩ := elements_collected (by exact hc) (by simp) hxs hk
        refine ⟨rfl, rfl, ?_⟩
        simp only [Bool.true_and, hd, List.nil_append] at hdata
        cases hb : xs.any Json.hasArray with
        | true => rw [hb] at hdata; simp only [Json.cell?, hb, htable, hkey, hdata]; rfl
        | false => rw [hb] at hdata; simp only [Json.cell?, hb, htable, hkey, hdata]; rfl

/-- The members of an accepted object append their cells in order. -/
theorem members_appended {ms : List (Bytes × Json)} : ∀ {h h' : MyHandler},
    h.m_objectCounter = 1 → h.m_fillArray = false → h.m_arrayData = [] →
    Accepts on (Json.events.eventsObject ms) h h' →
    h'.m_table = h.m_table.appendAll (Json.appends ms) := by
  induction ms with
  | nil => intro h h' _ _ _ hacc; cases hacc; rfl
  | cons m ms ih =>
      obtain ⟨k, v⟩ := m
      intro h h' hc hf hd hacc
      obtain ⟨h₁, hkey, hrest⟩ := Accepts.of_cons hacc
      rw [on_key_eq, if_neg (by omega)] at hkey
      split at hkey
      · cases hkey
        obtain ⟨h₂, hv, hms⟩ := Accepts.of_append hrest
        have hc₂ := ((follows_scanValue v { h with m_key := k } hc).of_accepts hv).2.trans hc
        obtain ⟨hf₂, hd₂, htable⟩ := value_appended (by exact hc) (by exact hf) (by exact hd) hv
        rw [ih hc₂ hf₂ hd₂ hms, htable, ← ClickTable.appendAll_append]
        cases hv : v.cell? with
        | none => simp [Json.appends, hv]
        | some w => simp [Json.appends, hv]
      · cases hkey

end MyHandler

/-! ## One line -/

/-- Parsing a line ends in the same way on every table, after the same appends. -/
theorem parse_table (line : ParseStream) :
    ∃ (o : ParseOutcome) (a : ClickTable.Appends), ∀ t, parse t line = (o, t.appendAll a) := by
  obtain ⟨r, h, a, hfeed⟩ := MyHandler.feed_table line.events { m_table := {} }
  rcases r with x | (_ | _)
  · exact ⟨.exception, a, fun t => by rw [parse, hfeed]; rfl⟩
  · exact ⟨.isError, a, fun t => by rw [parse, hfeed]; rfl⟩
  · exact ⟨if line.isError then .isError else .parsed, a, fun t => by rw [parse, hfeed]; rfl⟩

/-- A document is parsed, or a callback throws. -/
theorem parse_stream (t : ClickTable) (j : Json) :
    (parse t j.stream).1 = if j.refused then .exception else .parsed := by
  have hf := MyHandler.follows_scanRoot j { m_table := t } rfl
  unfold parse Json.refused
  change MyHandler.Follows _ _ (j.scanRoot {}) at hf
  cases hscan : j.scanRoot {} with
  | none =>
      rw [hscan] at hf
      obtain ⟨e, h', he⟩ := hf
      simp [Json.stream, he]
  | some f =>
      rw [hscan] at hf
      obtain ⟨h', hacc, -, -⟩ := hf
      rw [Accepts] at hacc
      simp [Json.stream, hacc]

/-- The table after an accepted object. -/
theorem parse_object (t : ClickTable) {ms : List (Bytes × Json)}
    (h : (Json.object ms).refused = false) :
    (parse t (Json.object ms).stream).2 = t.appendAll (Json.appends ms) := by
  have hf := MyHandler.follows_scanRoot (.object ms) { m_table := t } rfl
  change MyHandler.Follows _ _ ((Json.object ms).scanRoot {}) at hf
  unfold Json.refused at h
  cases hscan : (Json.object ms).scanRoot {} with
  | none => simp [hscan] at h
  | some f =>
      rw [hscan] at hf
      obtain ⟨h', hacc, -, -⟩ := hf
      obtain ⟨h₁, hstart, hrest⟩ := Accepts.of_cons hacc
      obtain ⟨h₂, hms, hend⟩ := Accepts.of_append hrest
      obtain ⟨h₃, he, hnil⟩ := Accepts.of_cons hend
      rw [MyHandler.on_startObject] at hstart
      rw [MyHandler.on_endObject] at he
      cases hstart; cases he; cases hnil
      have htable := MyHandler.members_appended rfl rfl rfl hms
      rw [Accepts] at hacc
      simp [parse, Json.stream, hacc, htable]

/-- A document without an object is parsed, and appends nothing. -/
theorem parse_bare (t : ClickTable) {j : Json} (hfree : j.objectFree = true) :
    parse t j.stream = (.parsed, t) := by
  have hacc := MyHandler.accepts_bare j hfree { m_table := t } rfl
  rw [Accepts] at hacc
  simp [parse, Json.stream, hacc]

end FlexEtl
