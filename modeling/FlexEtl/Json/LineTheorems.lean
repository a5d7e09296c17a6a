/-
FlexEtl.Json.LineTheorems — when a line is committed, and what its row holds.

Both results read `parseLine` through the scan: a line is committed exactly
when the scan does not refuse it (`parseLine_stream`), and the row of a
committed object is the last append under each name (`parseLine_object`).

For an object the scan comes down to conditions on its members
(`refused_object`): a nested object is refused only for the key that follows
it. On lines without nested objects these are non-empty keys and flat arrays
(`refused_of_objectFree`), and the row holds the document. On the other lines
it does not: the exact condition is `keepsLine_iff`.
-/
import FlexEtl.Json.MyHandlerTheorems
import FlexEtl.Json.Json2Click

namespace FlexEtl

open ClickTable

/-! ## Values of members -/

namespace Json

/-- The value of a document, where the row format has one: a value that holds an
object has none. -/
def value? : Json → Option Value
  | scalar s => some s.value
  | array xs => (valueAll? xs).map .array
  | object _ => none
where
  valueAll? : List Json → Option (List Value)
    | [] => some []
    | x :: xs => x.value?.bind fun v => (valueAll? xs).map (v :: ·)

/-- The value of the last member under a key. -/
def lastMember (c : Bytes) : List (Bytes × Json) → Option Json
  | [] => none
  | (k, v) :: ms => (lastMember c ms).or (if k = c then some v else none)

theorem lastMember_mem {c : Bytes} {ms : List (Bytes × Json)} {v : Json}
    (h : lastMember c ms = some v) : (c, v) ∈ ms := by
  induction ms with
  | nil => cases h
  | cons m ms ih =>
      obtain ⟨k, w⟩ := m
      cases hrest : lastMember c ms with
      | some u =>
          rw [lastMember, hrest] at h
          cases h
          exact List.mem_cons_of_mem _ (ih hrest)
      | none =>
          rw [lastMember, hrest] at h
          by_cases hk : k = c
          · subst hk
            obtain rfl : w = v := by simpa using h
            exact List.mem_cons_self
          · simp [hk] at h

theorem lastMember_isSome {c : Bytes} {ms : List (Bytes × Json)} (h : c ∈ ms.map (·.1)) :
    ∃ v, lastMember c ms = some v := by
  induction ms with
  | nil => simp at h
  | cons m ms ih =>
      obtain ⟨k, w⟩ := m
      cases hrest : lastMember c ms with
      | some u => exact ⟨u, by simp [lastMember, hrest]⟩
      | none =>
          rcases List.mem_cons.mp h with hk | hc
          · exact ⟨w, by simp [lastMember, hrest, show k = c from hk.symm]⟩
          · obtain ⟨v, hv⟩ := ih hc
            rw [hrest] at hv
            cases hv

/-- No append under a name that no member has. -/
theorem lastAppended_appends_none {c : Bytes} {ms : List (Bytes × Json)}
    (h : lastMember c ms = none) : lastAppended c (appends ms) = none := by
  rw [← Option.not_isSome_iff_eq_none, lastAppended_isSome]
  intro hc
  obtain ⟨kv, hkv, rfl⟩ := List.mem_map.mp hc
  obtain ⟨m, hm, hmv⟩ := List.mem_filterMap.mp hkv
  obtain ⟨x, -, rfl⟩ := Option.map_eq_some_iff.mp hmv
  obtain ⟨y, hy⟩ := lastMember_isSome (List.mem_map_of_mem (f := (·.1)) hm)
  rw [h] at hy
  cases hy

/-- When the last member under a key appends a value, no later append hides it. -/
theorem lastAppended_appends {c : Bytes} {ms : List (Bytes × Json)} {v : Json} {w : Value}
    (h : lastMember c ms = some v) (hw : v.cell? = some w) :
    lastAppended c (appends ms) = some w := by
  induction ms with
  | nil => cases h
  | cons m ms ih =>
      obtain ⟨k, u⟩ := m
      have happ : appends ((k, u) :: ms) = (u.cell?.map (k, ·)).toList ++ appends ms := by
        cases hu : u.cell? with
        | none => simp [appends, hu]
        | some x => simp [appends, hu]
      rw [happ]
      cases hrest : lastMember c ms with
      | some y =>
          rw [lastMember, hrest] at h
          cases h
          cases hu : u.cell? with
          | none => simpa [hu] using ih hrest
          | some x => simp [lastAppended, ih hrest]
      | none =>
          rw [lastMember, hrest] at h
          by_cases hk : k = c
          · obtain rfl : u = v := by simpa [hk] using h
            have hnone := lastAppended_appends_none hrest
            simp [hw, lastAppended, hnone, hk]
          · simp [hk] at h

/-! ### Values without objects -/

theorem flatAll_of_no_array {xs : List Json} (hfree : ∀ x ∈ xs, x.objectFree = true)
    (h : xs.any isArray = false) : flat.flatAll xs = true := by
  induction xs with
  | nil => rfl
  | cons x xs ih =>
      rw [List.any_cons, Bool.or_eq_false_iff] at h
      have hxs := ih (fun y hy => hfree y (by simp [hy])) h.2
      cases x with
      | scalar s => simpa [flat.flatAll, flat] using hxs
      | array ys => simp [isArray] at h
      | object ms => simp at hfree

/-- An array without objects is flat when none of its elements is an array. -/
theorem flat_array {xs : List Json} (hfree : ∀ x ∈ xs, x.objectFree = true) :
    (array xs).flat = !xs.any isArray := by
  cases h : xs.any isArray with
  | true => simp [flat, h]
  | false => simp only [flat, h, flatAll_of_no_array hfree h]; rfl

/-- The elements of a flat array without objects are its scalars. -/
theorem valueAll?_of_flat {xs : List Json} (hfree : ∀ x ∈ xs, x.objectFree = true)
    (h : xs.any isArray = false) :
    value?.valueAll? xs = some (xs.filterMap scalar?) ∧ xs.any hasArray = false := by
  induction xs with
  | nil => exact ⟨rfl, rfl⟩
  | cons x xs ih =>
      rw [List.any_cons, Bool.or_eq_false_iff] at h
      obtain ⟨hval, harr⟩ := ih (fun y hy => hfree y (by simp [hy])) h.2
      cases x with
      | scalar s =>
          refine ⟨?_, ?_⟩
          · simp [value?.valueAll?, value?, scalar?, hval]
          · rw [List.any_cons, harr]; rfl
      | array ys => simp [isArray] at h
      | object ms => simp at hfree

/-- A flat value without objects appends itself. -/
theorem cell?_of_flat {j : Json} (hfree : j.objectFree = true) (hflat : j.flat = true) :
    j.cell? = j.value? ∧ ∃ v, j.value? = some v := by
  cases j with
  | scalar s => exact ⟨rfl, s.value, rfl⟩
  | array xs =>
      have hxs := objectFree_array.mp hfree
      rw [flat_array hxs, Bool.not_eq_true'] at hflat
      obtain ⟨hval, harr⟩ := valueAll?_of_flat hxs hflat
      refine ⟨?_, .array (xs.filterMap scalar?), ?_⟩
      · simp only [cell?, harr, value?, hval]; rfl
      · simp only [value?, hval]; rfl
  | object ms => simp at hfree

theorem objectFree_of_value? (j : Json) : ∀ v, j.value? = some v → j.objectFree = true := by
  induction j using inductOn with
  | scalar s => exact fun _ _ => rfl
  | object ms _ => intro v h; cases h
  | array xs ih =>
      intro v h
      obtain ⟨vs, hvs, -⟩ := Option.map_eq_some_iff.mp h
      rw [objectFree_array]
      clear h
      induction xs generalizing vs with
      | nil => simp
      | cons x xs ihxs =>
          obtain ⟨w, hw, hrest⟩ := Option.bind_eq_some_iff.mp hvs
          obtain ⟨ws, hws, -⟩ := Option.map_eq_some_iff.mp hrest
          intro y hy
          rcases List.mem_cons.mp hy with rfl | hy
          · exact ih y (by simp) w hw
          · exact ihxs (fun z hz => ih z (by simp [hz])) ws hws y hy

/-! ### The scan of an object -/

/-- The elements of an array that reaches the row: none of them is an array, and
after one that holds an array there are only objects. -/
def Collected (xs : List Json) : Prop :=
  (∀ x ∈ xs, x.isArray = false) ∧
  xs.Pairwise fun x y => x.hasArray = true → y.isObject = true

/-- A member that the handler can take: an object always, as it ignores it. -/
def Taken : Bytes × Json → Prop
  | (k, scalar _) => k ≠ []
  | (k, array xs) => k ≠ [] ∧ Collected xs
  | (_, object _) => True

/-- Behind an array among the elements no key waits. -/
theorem not_pending_array {ys xs : List Json} {f : Flags} :
    ¬ ∃ g, scanValue.scanElements f (array ys :: xs) = some g ∧ g.pending = true := by
  rintro ⟨g, hg, hpend⟩
  obtain ⟨f', hy, hxs⟩ := Option.bind_eq_some_iff.mp hg
  rw [scanValue_array hy] at hxs
  rw [scanElements_pending hxs rfl] at hpend
  cases hpend

/-- Once an array has ended, the key waits on exactly as long as there are only
objects: any other element takes it. -/
theorem scanElements_objects {xs : List Json} :
    (∃ g, scanValue.scanElements { pending := true } xs = some g ∧ g.pending = true) ↔
      ∀ x ∈ xs, x.isObject = true := by
  induction xs with
  | nil => simp [scanValue.scanElements]
  | cons x xs ih =>
      cases x with
      | object ms =>
          simp only [scanValue.scanElements, scanValue, Option.bind_some, Bool.false_and, ih]
          simp [isObject]
      | scalar s =>
          constructor
          · rintro ⟨g, hg, hpend⟩
            have hrest : scanValue.scanElements {} xs = some g := hg
            rw [scanElements_pending hrest rfl] at hpend
            cases hpend
          · intro h
            cases h _ List.mem_cons_self
      | array ys =>
          refine iff_of_false not_pending_array ?_
          intro h
          cases h _ List.mem_cons_self

theorem collected_scalar {s : Scalar} {xs : List Json} :
    Collected (scalar s :: xs) ↔ Collected xs := by
  simp [Collected, isArray, hasArray]

theorem collected_object {ms : List (Bytes × Json)} {xs : List Json} :
    Collected (object ms :: xs) ↔
      if (object ms).hasArray then ∀ x ∈ xs, x.isObject = true else Collected xs := by
  cases harr : (object ms).hasArray with
  | false => simp [Collected, isArray, harr]
  | true =>
      simp only [Collected, List.pairwise_cons, harr, if_true, true_imp_iff]
      refine ⟨fun h => h.2.1, fun h => ⟨fun x hx => ?_, h, ?_⟩⟩
      · rcases List.mem_cons.mp hx with rfl | hx
        · rfl
        · exact isArray_of_isObject (h x hx)
      · exact List.pairwise_of_forall_mem_list fun _ _ y hy _ => h y hy

/-- The key still waits at the end of an array whose elements can be collected, and
of no other. -/
theorem scanElements_collected {xs : List Json} :
    (∃ g, scanValue.scanElements { pending := true, fill := true } xs = some g ∧
      g.pending = true) ↔ Collected xs := by
  induction xs with
  | nil => simp [scanValue.scanElements, Collected]
  | cons x xs ih =>
      cases x with
      | scalar s => rw [collected_scalar, ← ih]; rfl
      | object ms =>
          rw [collected_object]
          cases harr : (object ms).hasArray with
          | true =>
              simp only [scanValue.scanElements, scanValue, harr]
              exact scanElements_objects
          | false =>
              simp only [scanValue.scanElements, scanValue, harr]
              exact ih
      | array ys =>
          refine iff_of_false not_pending_array ?_
          intro h
          cases h.1 _ List.mem_cons_self

theorem scanValue_array_eq {xs : List Json} {f : Flags} :
    (array xs).scanValue f = some {} ↔
      ∃ g, scanValue.scanElements { f with fill := true } xs = some g ∧ g.pending = true := by
  simp [scanValue, Option.bind_eq_some_iff]

/-- What the scan makes of a member's value, once its key has been read. -/
theorem scanValue_member {k : Bytes} {v : Json} (hv : v.isObject = false) :
    v.scanValue { pending := !k.isEmpty } = some {} ↔ Taken (k, v) := by
  cases v with
  | object ms => cases hv
  | scalar s => cases k <;> simp [scanValue, Taken]
  | array xs =>
      rw [scanValue_array_eq]
      cases k with
      | nil =>
          constructor
          · rintro ⟨g, hg, hpend⟩
            rw [scanElements_pending hg rfl] at hpend
            cases hpend
          · exact fun h => absurd rfl h.1
      | cons b k =>
          rw [Taken, ← scanElements_collected]
          simp

theorem scanValue_eq_empty {v : Json} {p : Bool} {f : Flags} (hv : v.isObject = false)
    (h : v.scanValue { pending := p } = some f) : f = {} := by
  cases v with
  | object ms => cases hv
  | array xs => exact scanValue_array h
  | scalar s => exact ((by simpa [scanValue] using h) : p = true ∧ {} = f).2.symm

/-- The scan of the members of an object outside every array. -/
theorem scanMembers_isSome {ms : List (Bytes × Json)} :
    (scanMembers {} ms).isSome = true ↔
      (∀ m ∈ ms, Taken m) ∧ ∀ m ∈ ms.dropLast, m.2.isObject = true → m.1 = [] := by
  induction ms with
  | nil => simp [scanMembers]
  | cons m ms ih =>
      obtain ⟨k, v⟩ := m
      cases hv : v.isObject with
      | false =>
          have hrest : (scanMembers {} ((k, v) :: ms)).isSome = true ↔
              Taken (k, v) ∧ (scanMembers {} ms).isSome = true := by
            rw [← scanValue_member hv]
            simp only [scanMembers, Bool.false_eq_true, if_false]
            cases hscan : v.scanValue { pending := !k.isEmpty } with
            | none => simp
            | some f => simp [scanValue_eq_empty hv hscan]
          rw [hrest, ih]
          cases ms with
          | nil => simp
          | cons n ms => simp [hv, and_assoc]
      | true =>
          obtain ⟨ns, rfl⟩ := eq_object hv
          cases k with
          | nil =>
              have hrest : scanMembers {} (([], object ns) :: ms) = scanMembers {} ms := rfl
              rw [hrest, ih]
              cases ms with
              | nil => simp [Taken]
              | cons n ms => simp [Taken]
          | cons b k =>
              -- the key goes on waiting, so there may be no other
              cases ms with
              | nil => simp [scanMembers, scanValue, Taken]
              | cons n ms => simp [scanMembers, scanValue, isObject]

/-- **Which objects are refused.** An object is refused exactly when one of its members
cannot be taken, or when a member under a non-empty key whose value is an object is
not the last one. -/
theorem refused_object {ms : List (Bytes × Json)} :
    (object ms).refused = false ↔
      (∀ m ∈ ms, Taken m) ∧ ∀ m ∈ ms.dropLast, m.2.isObject = true → m.1 = [] := by
  rw [← scanMembers_isSome, refused, Option.isNone_eq_false_iff]
  rfl

/-- The lines that the scan refuses: objects for their members, scalars never. -/
def RefusedLine : Json → Prop
  | object ms => (∃ m ∈ ms, ¬ Taken m) ∨ ∃ m ∈ ms.dropLast, m.2.isObject = true ∧ m.1 ≠ []
  | scalar _ => False
  | array xs => (array xs).refused = true

theorem refusedLine_iff {j : Json} : RefusedLine j ↔ j.refused = true := by
  cases j with
  | scalar s => exact ⟨False.elim, fun h => by cases h⟩
  | array xs => exact Iff.rfl
  | object ms =>
      rw [← Bool.not_eq_false, refused_object, not_and_or]
      push Not
      rfl

theorem collected_of_objectFree {xs : List Json} (hfree : ∀ x ∈ xs, x.objectFree = true) :
    Collected xs ↔ (array xs).flat = true := by
  rw [flat_array hfree, Bool.not_eq_true']
  refine ⟨fun h => List.any_eq_false.mpr fun x hx => by simp [h.1 x hx], fun h => ⟨?_, ?_⟩⟩
  · exact fun x hx => by simpa using List.any_eq_false.mp h x hx
  · have hnone := List.any_eq_false.mp (valueAll?_of_flat hfree h).2
    exact List.pairwise_of_forall_mem_list fun x hx _ _ harr => absurd harr (hnone x hx)

theorem taken_of_objectFree {k : Bytes} {v : Json} (hfree : v.objectFree = true) :
    Taken (k, v) ↔ k ≠ [] ∧ v.flat = true := by
  cases v with
  | object ms => simp at hfree
  | scalar s => simp [Taken, flat]
  | array xs => rw [Taken, collected_of_objectFree (objectFree_array.mp hfree)]

theorem isObject_of_objectFree {v : Json} (hfree : v.objectFree = true) : v.isObject = false := by
  cases v with
  | object ms => simp at hfree
  | _ => rfl

/-- A line without nested objects is refused for an empty key or an array in an
array, and for nothing else. -/
theorem refused_of_objectFree {ms : List (Bytes × Json)}
    (hfree : ∀ m ∈ ms, m.2.objectFree = true) :
    (object ms).refused = false ↔ ∀ m ∈ ms, m.1 ≠ [] ∧ m.2.flat = true := by
  have hnone : ∀ m ∈ ms.dropLast, m.2.isObject = true → m.1 = [] := by
    intro m hm hobj
    rw [isObject_of_objectFree (hfree m (List.dropLast_subset ms hm))] at hobj
    cases hobj
  rw [refused_object, and_iff_left hnone]
  exact forall₂_congr fun m hm => taken_of_objectFree (hfree m hm)

end Json

/-! ## One call of `parseLine` -/

namespace Json2Click

/-- A line is the same row on every table, committed or not. -/
theorem parseLine_row (line : ParseStream) : ∃ a ok, ∀ st : Json2Click,
    (st.parseLine line).1.m_table = st.m_table.row a ok ∧ (st.parseLine line).2 = ok := by
  obtain ⟨o, a, hparse⟩ := parse_table line
  refine ⟨a, o == .parsed, fun st => ?_⟩
  unfold parseLine
  rw [hparse]
  cases o with
  | parsed => exact ⟨rfl, rfl⟩
  | isError => exact ⟨rfl, rfl⟩
  | exception => exact ⟨rfl, rfl⟩

theorem parseLine_errorJSON (line : ParseStream) (st : Json2Click) :
    (st.parseLine line).1.m_ErrorJSON =
      if (st.parseLine line).2 then st.m_ErrorJSON else st.m_ErrorJSON + 1 := by
  unfold parseLine
  rcases parse st.m_table line with ⟨_ | _ | _, table⟩ <;> rfl

/-- A document is committed when the scan accepts it. -/
theorem parseLine_stream (j : Json) (st : Json2Click) :
    (st.parseLine j.stream).2 = !j.refused := by
  have hp := parse_stream st.m_table j
  unfold parseLine
  cases hr : j.refused with
  | true =>
      rw [hr, if_pos rfl] at hp
      rcases hparse : parse st.m_table j.stream with ⟨o, table⟩
      rw [hparse] at hp
      obtain rfl : o = .exception := hp
      rfl
  | false =>
      rw [hr] at hp
      rcases hparse : parse st.m_table j.stream with ⟨o, table⟩
      rw [hparse] at hp
      obtain rfl : o = .parsed := hp
      rfl

/-- The row of a committed object. -/
theorem parseLine_object {ms : List (Bytes × Json)} (h : (Json.object ms).refused = false)
    (st : Json2Click) :
    (st.parseLine (Json.object ms).stream).1.m_table = st.m_table.row (Json.appends ms) true := by
  have hp := parse_stream st.m_table (.object ms)
  rw [h] at hp
  have ht := parse_object st.m_table h
  unfold parseLine
  rcases hparse : parse st.m_table (Json.object ms).stream with ⟨o, table⟩
  rw [hparse] at hp ht
  obtain rfl : o = .parsed := hp
  obtain rfl : table = st.m_table.appendAll (Json.appends ms) := ht
  rfl

/-- A line without an object is a row of nulls. -/
theorem parseLine_bare {j : Json} (hfree : j.objectFree = true) (st : Json2Click) :
    (st.parseLine j.stream).1.m_table = st.m_table.row [] true ∧
      (st.parseLine j.stream).2 = true := by
  unfold parseLine
  rw [parse_bare st.m_table hfree]
  exact ⟨rfl, rfl⟩

/-! ## Lines without nested objects -/

/-- The value of a member: an array is the list of its scalar elements. -/
def memberValue : Json → Value
  | .scalar s => s.value
  | .array xs => .array (xs.filterMap Json.scalar?)
  | .object _ => .null

/-- The row a line without nested objects stands for. -/
def lineRow (ms : List (Bytes × Json)) : Row := fun c =>
  ((Json.lastMember c ms).map memberValue).getD .null

theorem cell?_eq_memberValue {j : Json} (hfree : j.objectFree = true) (hflat : j.flat = true) :
    j.cell? = some (memberValue j) := by
  cases j with
  | scalar s => rfl
  | array xs =>
      have hxs := Json.objectFree_array.mp hfree
      rw [Json.flat_array hxs, Bool.not_eq_true'] at hflat
      have harr := (Json.valueAll?_of_flat hxs hflat).2
      simp only [Json.cell?, harr]
      rfl
  | object ms => simp at hfree

theorem rowValue_appends {ms : List (Bytes × Json)}
    (h : ∀ m ∈ ms, m.2.objectFree = true ∧ m.2.flat = true) :
    rowValue (Json.appends ms) = lineRow ms := by
  funext c
  unfold rowValue lineRow
  cases hlast : Json.lastMember c ms with
  | none => rw [Json.lastAppended_appends_none hlast]; rfl
  | some v =>
      obtain ⟨hfree, hflat⟩ := h (c, v) (Json.lastMember_mem hlast)
      rw [Json.lastAppended_appends hlast (cell?_eq_memberValue hfree hflat)]
      rfl

/-- **Object-free lines.** At a row boundary, a line that is an object without
nested objects is committed exactly when its keys are non-empty and none of its
arrays holds an array. Committed, it adds one row, in which every key has the
value of its last occurrence and every other column is null. Refused, it changes
neither the row count nor a column that was there. -/
theorem parseLine_objectFree (st : Json2Click) (ht : st.m_table.Aligned)
    (ms : List (Bytes × Json)) (hfree : ∀ m ∈ ms, m.2.objectFree = true) :
    ((st.parseLine (Json.object ms).stream).2 = true ↔
      ∀ m ∈ ms, m.1 ≠ [] ∧ m.2.flat = true) ∧
    ((st.parseLine (Json.object ms).stream).2 = true →
      (st.parseLine (Json.object ms).stream).1.m_table.rowCount = st.m_table.rowCount + 1 ∧
      (st.parseLine (Json.object ms).stream).1.m_table.rows = st.m_table.rows ++ [lineRow ms] ∧
      (∀ (c : Bytes) (col : ClickColumn),
        (st.parseLine (Json.object ms).stream).1.m_table.m_tbl[c]? = some col →
        col.data[st.m_table.rowCount]? = some (lineRow ms c)) ∧
      ∀ c ∈ ms.map (·.1),
        ((st.parseLine (Json.object ms).stream).1.m_table.m_tbl[c]?).isSome) ∧
    ((st.parseLine (Json.object ms).stream).2 = false →
      (st.parseLine (Json.object ms).stream).1.m_table.rowCount = st.m_table.rowCount ∧
      (st.parseLine (Json.object ms).stream).1.m_table.rows = st.m_table.rows ∧
      ∀ (c : Bytes) (col : ClickColumn), st.m_table.m_tbl[c]? = some col →
        (st.parseLine (Json.object ms).stream).1.m_table.m_tbl[c]? = some col) := by
  have hcommit := parseLine_stream (.object ms) st
  have hiff := Json.refused_of_objectFree hfree
  refine ⟨?_, ?_, ?_⟩
  · rw [hcommit, Bool.not_eq_true', hiff]
  · intro htrue
    have hacc : (Json.object ms).refused = false := by
      rwa [hcommit, Bool.not_eq_true'] at htrue
    have hms := hiff.mp hacc
    have hrow : rowValue (Json.appends ms) = lineRow ms :=
      rowValue_appends fun m hm => ⟨hfree m hm, (hms m hm).2⟩
    rw [parseLine_object hacc]
    refine ⟨row_rowCount_true _ _, ?_, ?_, ?_⟩
    · rw [rows_row_true ht, hrow]
    · intro c col hcol
      rw [getElem?_row_true ht] at hcol
      split at hcol
      · cases hcol
        have hlen : (st.m_table.kept c).length = st.m_table.m_rowCount := length_kept _ c
        rw [hrow, rowCount, ← hlen]
        simp
      · cases hcol
    · intro c hc
      obtain ⟨v, hv⟩ := Json.lastMember_isSome hc
      have hm := Json.lastMember_mem hv
      have hlast := Json.lastAppended_appends hv
        (cell?_eq_memberValue (hfree _ hm) (hms _ hm).2)
      rw [getElem?_row_true ht]
      simp [hlast]
  · intro hfalse
    obtain ⟨a, ok, hrow⟩ := parseLine_row (Json.object ms).stream
    obtain ⟨htable, hok⟩ := hrow st
    rw [hfalse] at hok
    rw [htable, ← hok]
    exact ⟨row_rowCount_false _ a, rows_row_false ht a,
      fun c col hc => getElem?_row_false_of_some ht a hc⟩

/-- The line `{"a":-1,"b":[null,true],"a":"x"}`. -/
def flatLine : List (Bytes × Json) :=
  [([97], .scalar (.int (-1))), ([98], .array [.scalar .null, .scalar (.bool true)]),
   ([97], .scalar (.string [120]))]

/-- The row of a line with a repeated key and an array. -/
theorem parseLine_flatLine :
    (({} : Json2Click).parseLine (Json.object flatLine).stream).1.m_table.rows =
        [lineRow flatLine] ∧
      lineRow flatLine [97] = .str [120] ∧
      lineRow flatLine [98] = .array [.null, .bool true] ∧
      lineRow flatLine [99] = .null := by
  have hfree : ∀ m ∈ flatLine, m.2.objectFree = true := by simp [flatLine]
  obtain ⟨hiff, hrow, -⟩ := parseLine_objectFree {} aligned_empty flatLine hfree
  have hflat : ∀ m ∈ flatLine, m.1 ≠ [] ∧ m.2.flat = true := by
    simp [flatLine, Json.flat, Json.flat.flatAll, Json.isArray]
  exact ⟨(hrow (hiff.mpr hflat)).2.1, rfl, rfl, rfl⟩

/-! ## Any line -/

/-- A member stands in a row under its key, without loss. -/
def Represented (row : Row) (m : Bytes × Json) : Prop := m.2.value? = some (row m.1)

/-- What a committed row should mean: the line is an object, and the members it has
to answer for stand in the row. A line that is not committed counts as an error. -/
def KeepsLine (answerFor : List (Bytes × Json) → Bytes × Json → Prop) (st : Json2Click)
    (j : Json) : Prop :=
  ((st.parseLine j.stream).2 = true →
    ∃ ms, j = .object ms ∧ ∀ m, answerFor ms m →
      Represented ((st.parseLine j.stream).1.m_table.cell st.m_table.rowCount) m) ∧
  ((st.parseLine j.stream).2 = false →
    (st.parseLine j.stream).1.m_ErrorJSON = st.m_ErrorJSON + 1)

/-- Every member. -/
def eachMember (ms : List (Bytes × Json)) (m : Bytes × Json) : Prop := m ∈ ms

/-- The last member under each key. -/
def eachLastMember (ms : List (Bytes × Json)) (m : Bytes × Json) : Prop :=
  Json.lastMember m.1 ms = some m.2

/-- In a committed object, the last member under a key stands in the row when it
holds no object. -/
theorem represented_lastMember {st : Json2Click} (ht : st.m_table.Aligned)
    {ms : List (Bytes × Json)} (hacc : (Json.object ms).refused = false) {c : Bytes} {v : Json}
    (hlast : Json.lastMember c ms = some v) (hfree : v.objectFree = true) :
    Represented ((st.parseLine (Json.object ms).stream).1.m_table.cell st.m_table.rowCount)
      (c, v) := by
  have htaken := (Json.refused_object.mp hacc).1 (c, v) (Json.lastMember_mem hlast)
  have hflat := ((Json.taken_of_objectFree hfree).mp htaken).2
  obtain ⟨hcell, w, hw⟩ := Json.cell?_of_flat hfree hflat
  have happ := Json.lastAppended_appends hlast (hcell.trans hw)
  rw [parseLine_object hacc]
  unfold Represented
  rw [hw, rowCount, cell_row_new ht, rowValue, happ]
  rfl

/-- **What a committed row holds.** At a row boundary a line keeps what it should
exactly when the scan refuses it, or it is an object whose values hold no object
and in which members of one key have one value. If a row has to answer for the
last member under each key only, it is enough that those hold no object. -/
theorem keepsLine_iff (st : Json2Click) (ht : st.m_table.Aligned) (j : Json) :
    (KeepsLine eachMember st j ↔
      j.RefusedLine ∨ ∃ ms, j = .object ms ∧ (∀ m ∈ ms, m.2.objectFree = true) ∧
        ∀ m ∈ ms, ∀ n ∈ ms, m.1 = n.1 → m.2.value? = n.2.value?) ∧
    (KeepsLine eachLastMember st j ↔
      j.RefusedLine ∨ ∃ ms, j = .object ms ∧
        ∀ c v, Json.lastMember c ms = some v → v.objectFree = true) := by
  rw [Json.refusedLine_iff]
  have hcommit := parseLine_stream j st
  have herror : (st.parseLine j.stream).2 = false →
      (st.parseLine j.stream).1.m_ErrorJSON = st.m_ErrorJSON + 1 := by
    intro hfalse
    rw [parseLine_errorJSON, hfalse]
    rfl
  cases hr : j.refused with
  | true =>
      have hnot : (st.parseLine j.stream).2 ≠ true := by simp [hcommit, hr]
      refine ⟨⟨fun _ => .inl rfl, fun _ => ?_⟩, ⟨fun _ => .inl rfl, fun _ => ?_⟩⟩
      · exact ⟨fun htrue => absurd htrue hnot, herror⟩
      · exact ⟨fun htrue => absurd htrue hnot, herror⟩
  | false =>
      have htrue : (st.parseLine j.stream).2 = true := by simp [hcommit, hr]
      refine ⟨⟨?_, ?_⟩, ⟨?_, ?_⟩⟩
      · intro hkeeps
        obtain ⟨ms, rfl, hms⟩ := hkeeps.1 htrue
        refine .inr ⟨ms, rfl, fun m hm => ?_, fun m hm n hn hkey => ?_⟩
        · exact Json.objectFree_of_value? m.2 _ (hms m hm)
        · have hm' := hms m hm
          have hn' := hms n hn
          unfold Represented at hm' hn'
          rw [hm', hn', hkey]
      · rintro (href | ⟨ms, rfl, hfree, hsame⟩)
        · cases href
        · refine ⟨fun _ => ⟨ms, rfl, fun m hm => ?_⟩, herror⟩
          obtain ⟨v, hv⟩ := Json.lastMember_isSome (List.mem_map_of_mem (f := (·.1)) hm)
          have hmem := Json.lastMember_mem hv
          have hrep := represented_lastMember ht hr hv (hfree _ hmem)
          unfold Represented at hrep ⊢
          rw [hsame m hm _ hmem rfl]
          exact hrep
      · intro hkeeps
        obtain ⟨ms, rfl, hms⟩ := hkeeps.1 htrue
        exact .inr ⟨ms, rfl, fun c v hv => Json.objectFree_of_value? v _ (hms (c, v) hv)⟩
      · rintro (href | ⟨ms, rfl, hfree⟩)
        · cases href
        · refine ⟨fun _ => ⟨ms, rfl, fun m hm => ?_⟩, herror⟩
          exact represented_lastMember ht hr hm (hfree m.1 m.2 hm)

/-- The condition on a line with an array, where it holds. -/
theorem keepsLine_arrayLine :
    KeepsLine eachMember {} (.object [([97], .array [.scalar (.int 1)])]) ∧
      KeepsLine eachLastMember {} (.object [([97], .array [.scalar (.int 1)])]) := by
  obtain ⟨heach, hlast⟩ := keepsLine_iff {} aligned_empty
    (.object [([97], .array [.scalar (.int 1)])])
  refine ⟨heach.mpr (.inr ⟨_, rfl, ?_, ?_⟩), hlast.mpr (.inr ⟨_, rfl, ?_⟩)⟩
  · simp
  · simp
  · intro c v hv
    have hm := Json.lastMember_mem hv
    simp only [List.mem_singleton, Prod.mk.injEq] at hm
    simp [hm.2]

/-- The line `{"a":1,"b":{"x":2}}`: its last member is missing in the row. -/
def nestedLine : Json :=
  .object [([97], .scalar (.uint 1)), ([98], .object [([120], .scalar (.uint 2))])]

/-- The line is committed, as a row that has nothing under its second key. -/
theorem nestedLine_loses_member :
    (({} : Json2Click).parseLine nestedLine.stream).2 = true ∧
      (({} : Json2Click).parseLine nestedLine.stream).1.m_table.m_tbl.toList =
        [([97], ⟨[.uint 1]⟩)] ∧
      ¬ KeepsLine eachMember {} nestedLine ∧ ¬ KeepsLine eachLastMember {} nestedLine := by
  have htrue : (({} : Json2Click).parseLine nestedLine.stream).2 = true := by decide +kernel
  refine ⟨htrue, by decide +kernel, fun hkeeps => ?_, fun hkeeps => ?_⟩
  · obtain ⟨ms, hms, hrep⟩ := hkeeps.1 htrue
    cases hms
    have hb := hrep ([98], .object [([120], .scalar (.uint 2))]) (by simp [eachMember])
    cases hb
  · obtain ⟨ms, hms, hrep⟩ := hkeeps.1 htrue
    cases hms
    have hb := hrep ([98], .object [([120], .scalar (.uint 2))])
      (by simp [eachLastMember, Json.lastMember])
    cases hb

end Json2Click

end FlexEtl
