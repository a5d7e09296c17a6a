/-
FlexEtl.Json.IngestTheorems — from the text of a file to its rows, and back from the save.

The reader, the loop over the lines and the worker are put together. Every text that `fgets`
hands over is taken as an `Entry`: an object, another document, or a line that is refused.
Saving by file, a file makes one save, whose table has the rows of its texts in their order,
and goes to the backups or to the failed files (`ingest_run`). Where every line is a row
without a zero byte in its strings, `Click2DB` loads that very table from the saved bytes: a
file of up to 2^31 - 2 bytes holds no string, array or column that an `int` could not count.
-/
import FlexEtl.Json.LineTheorems
import FlexEtl.Json.ReadLoopTheorems
import FlexEtl.Json.ReaderTheorems
import Mathlib.Algebra.Order.BigOperators.Group.List

namespace FlexEtl

open Reader

variable {fl : Doubles}

/-! ## What a text can hold -/

theorem length_encode_le (u : UInt32) : (encode u).length ≤ 4 := by
  unfold encode
  split_ifs <;> simp

theorem SpellsEscape.length_le {b e : Bytes} (h : SpellsEscape b e) :
    b.length ≤ e.length + 1 := by
  cases h with
  | char he => simp
  | codepoint hu hone =>
      have hlen := hu.length
      have hbytes := length_encode_le
      simp only [List.length_cons, hlen]
      exact Nat.le_trans (hbytes _) (by decide)
  | pair hu hhigh hv hlow =>
      refine Nat.le_trans (length_encode_le _) ?_
      simp only [List.length_cons, List.length_append, hu.length, hv.length]
      decide

theorem SpellsBody.length_le {v t : Bytes} (h : SpellsBody v t) : v.length ≤ t.length := by
  induction h with
  | nil => exact Nat.le_refl 0
  | plain _ _ _ _ ih => exact Nat.succ_le_succ ih
  | escape he _ ih =>
      have hle := he.length_le
      simp only [List.length_append, List.length_cons]
      omega

theorem SpellsString.length_le {v t : Bytes} (h : SpellsString v t) : v.length ≤ t.length := by
  obtain ⟨body, hbody, rfl⟩ := h
  have hle := hbody.length_le
  simp only [List.length_cons, List.length_append]
  omega

theorem SpellsItems.length_le {α : Type} {M : α → Bytes → Prop} {xs : List α} {t : Bytes}
    (h : SpellsItems M xs t) :
    xs.length ≤ t.length + 1 ∧ ∀ x ∈ xs, ∃ u, M x u ∧ u.length ≤ t.length := by
  induction h with
  | @last x t b hx hb => exact ⟨by simp, by simpa using ⟨t, hx, Nat.le_add_right _ _⟩⟩
  | @cons x xs t b c u hx hb hc hxs ih =>
      obtain ⟨hlen, hmem⟩ := ih
      have hsize : (t ++ (b ++ 0x2C :: (c ++ u))).length =
          t.length + (b.length + (c.length + u.length + 1)) := by simp
      rw [hsize]
      refine ⟨by rw [List.length_cons]; omega, List.forall_mem_cons.mpr ⟨⟨t, hx, by omega⟩, ?_⟩⟩
      intro y hy
      obtain ⟨w, hw, hle⟩ := hmem y hy
      exact ⟨w, hw, by omega⟩

/-- No string, and no count of elements, is longer than so much. -/
def Value.Within (n : Nat) (v : Value) : Prop := v.Every (·.length ≤ n) (· ≤ n)

theorem Parts.scalar_ne_string {p : Parts} {v : Bytes} : p.scalar fl ≠ some (.string v) := by
  have hinteger : ∀ minus n, integerScalar minus n ≠ some (.string v) := by
    intro minus n h
    unfold integerScalar at h
    split_ifs at h <;> cases h
  have hdouble : p.double fl ≠ some (.string v) := by
    intro h
    simp only [Parts.double, doubleScalar] at h
    split_ifs at h <;> cases h
  intro h
  unfold Parts.scalar at h
  split at h
  · rename_i heq
    exact hinteger _ _ (heq.trans h)
  · exact hdouble h

theorem Scalar.Spells.within {s : Scalar} {t : Bytes} (h : s.Spells fl t) :
    s.value.Within t.length := by
  cases h with
  | null => exact trivial
  | true => exact trivial
  | false => exact trivial
  | string h => exact Value.every_str.mpr h.length_le
  | number _ hs =>
      cases s with
      | string v => exact absurd hs Parts.scalar_ne_string
      | _ => exact trivial

theorem Value.Within.mono {n m : Nat} {v : Value} (h : v.Within n) (hle : n ≤ m) : v.Within m :=
  Value.Every.imp h (fun _ hs => Nat.le_trans hs hle) fun _ hk => Nat.le_trans hk hle

/-- What a member appends. -/
theorem Json.Spells.within_cell {j : Json} {t : Bytes} (h : j.Spells fl t) {v : Value}
    (hv : j.cell? = some v) : v.Within t.length := by
  have hitems : ∀ {xs : List Json} {u : Bytes}, xs.length ≤ u.length + 1 →
      (∀ x ∈ xs, ∃ w, x.Spells fl w ∧ w.length ≤ u.length) →
      (Value.array (xs.filterMap Json.scalar?)).Within (u.length + 1) := by
    intro xs u hlen hxs
    refine Value.every_array.mpr ⟨Nat.le_trans (List.length_filterMap_le _ _) hlen, ?_⟩
    intro v hv
    obtain ⟨x, hx, hscalar⟩ := List.mem_filterMap.mp hv
    obtain ⟨w, hw, hle⟩ := hxs x hx
    cases x with
    | scalar s =>
        cases hscalar
        cases hw with
        | scalar hs => exact hs.within.mono (Nat.le_succ_of_le hle)
    | array ys => cases hscalar
    | object ms => cases hscalar
  have hempty : ∀ n, (Value.array []).Within n := fun n =>
    Value.every_array.mpr ⟨Nat.zero_le n, by simp⟩
  cases h with
  | scalar h =>
      cases hv
      exact h.within
  | emptyArray hb =>
      cases hv
      exact hempty _
  | @array xs b u hb h =>
      cases hv
      split_ifs
      · exact hempty _
      · refine (hitems h.length_le.1 h.length_le.2).mono ?_
        simp only [List.length_cons, List.length_append]
        omega
  | emptyObject hb => cases hv
  | object hb h => cases hv

/-- What an object can append. -/
theorem appends_within {ms : List (Bytes × Json)} {t : Bytes}
    (h : (Json.object ms).SpellsDocument fl t) : (Json.appends ms).length < t.length ∧
      ∀ kv ∈ Json.appends ms, kv.1.length ≤ t.length ∧ kv.2.Within t.length := by
  obtain ⟨a, u, b, -, hspells, -, rfl⟩ := h
  suffices (Json.appends ms).length < u.length ∧
      ∀ kv ∈ Json.appends ms, kv.1.length ≤ u.length ∧ kv.2.Within u.length by
    have hle : u.length ≤ (a ++ (u ++ b)).length := by
      simp only [List.length_append]
      omega
    exact ⟨Nat.lt_of_lt_of_le this.1 hle, fun kv hkv => ⟨Nat.le_trans (this.2 kv hkv).1 hle,
      (this.2 kv hkv).2.mono hle⟩⟩
  cases hspells with
  | emptyObject hb => exact ⟨Nat.zero_lt_succ _, by simp [Json.appends]⟩
  | @object _ c w hb h =>
      obtain ⟨hlen, hmem⟩ := h.length_le
      have hle : w.length + 2 ≤ (0x7B :: (c ++ (w ++ [0x7D])) : Bytes).length := by
        simp only [List.length_cons, List.length_append]
        omega
      have happends : (Json.appends ms).length ≤ ms.length := List.length_filterMap_le _ _
      refine ⟨by omega, fun kv hkv => ?_⟩
      obtain ⟨m, hm, hcell⟩ := List.mem_filterMap.mp hkv
      obtain ⟨v, hv, rfl⟩ := Option.map_eq_some_iff.mp hcell
      obtain ⟨r, hr, hsize⟩ := hmem m hm
      cases hr with
      | @intro k x y z d j hk hy hz hj =>
          have hkey := hk.length_le
          have hvalue := hj.within_cell hv
          simp only [List.length_append, List.length_cons] at hsize
          exact ⟨by dsimp only; omega, hvalue.mono (by omega)⟩

/-! ## What a table can hold -/

namespace ClickTable

/-- Every name and every cell of the table satisfies a fact. -/
def Holds (P : Bytes → Prop) (Q : Value → Prop) (t : ClickTable) : Prop :=
  ∀ (c : Bytes) (col : ClickColumn), t.m_tbl[c]? = some col → P c ∧ ∀ v ∈ col.data, Q v

variable {P : Bytes → Prop} {Q : Value → Prop} {t : ClickTable}

theorem holds_empty : Holds P Q {} := by
  intro c col h
  simp at h

theorem lastAppended_mem {c : Bytes} {a : Appends} {v : Value} (h : lastAppended c a = some v) :
    (c, v) ∈ a := by
  induction a with
  | nil => cases h
  | cons kv a ih =>
      obtain ⟨k, w⟩ := kv
      rw [lastAppended] at h
      cases hrest : lastAppended c a with
      | some u =>
          rw [hrest] at h
          exact List.mem_cons_of_mem _ (ih (hrest.trans h))
      | none =>
          rw [hrest] at h
          by_cases hk : k = c
          · simp only [hk, if_true, Option.none_or, Option.some.injEq] at h
            rw [hk, h]
            exact List.mem_cons_self
          · simp [hk] at h

theorem Holds.row (h : t.Holds P Q) (ht : t.Aligned) (hnull : Q .null) {a : Appends}
    (ha : ∀ kv ∈ a, P kv.1 ∧ Q kv.2) : (t.row a true).Holds P Q := by
  intro c col hcol
  rw [getElem?_row_true ht] at hcol
  split at hcol
  · rename_i hsome
    cases hcol
    refine ⟨?_, fun v hv => ?_⟩
    · rcases hsome with hold | hnew
      · obtain ⟨col, hcol⟩ := Option.isSome_iff_exists.mp hold
        exact (h c col hcol).1
      · obtain ⟨v, hv⟩ := Option.isSome_iff_exists.mp hnew
        exact (ha _ (lastAppended_mem hv)).1
    · rcases List.mem_append.mp hv with hkept | hnew
      · cases hold : t.m_tbl[c]? with
        | some col =>
            rw [kept_of_some ht hold] at hkept
            exact (h c col hold).2 v hkept
        | none =>
            rw [kept_of_none hold] at hkept
            rw [(List.mem_replicate.mp hkept).2]
            exact hnull
      · rw [List.mem_singleton.mp hnew, rowValue]
        cases hlast : lastAppended c a with
        | none => exact hnull
        | some u => exact (ha _ (lastAppended_mem hlast)).2
  · cases hcol

theorem size_appendAll_le (a : Appends) : (t.appendAll a).m_tbl.size ≤ t.m_tbl.size + a.length := by
  induction a generalizing t with
  | nil => exact Nat.le_refl _
  | cons kv a ih =>
      have hstep : (t.append kv.1 kv.2).m_tbl.size ≤ t.m_tbl.size + 1 :=
        Std.ExtTreeMap.size_alter_le_size
      have hrest := @ih (t.append kv.1 kv.2)
      rw [appendAll_cons, List.length_cons]
      omega

theorem size_row_le (a : Appends) : (t.row a true).m_tbl.size ≤ t.m_tbl.size + a.length := by
  simpa [ClickTable.row, finishAppend] using size_appendAll_le a

end ClickTable

/-! ## Lines -/

namespace Json2Click

open ClickTable (Row rowValue)

/-- What becomes of a line: it is an object, another document of which the handler takes some
cells, or refused. -/
inductive Entry where
  | object (ms : List (Bytes × Json))
  | other (a : ClickTable.Appends)
  | refused

namespace Entry

/-- What is appended for the row of the line, if it makes one. -/
def appends? : Entry → Option ClickTable.Appends
  | object ms => some (Json.appends ms)
  | other a => some a
  | refused => none

def committed (e : Entry) : Bool := e.appends?.isSome

/-- No string that is appended has a zero byte in it, and nothing is taken but of an object. -/
def Storable : Entry → Prop
  | object ms => ∀ kv ∈ Json.appends ms, 0 ∉ kv.1 ∧ kv.2.Every (0 ∉ ·) fun _ => True
  | other a => a = []
  | refused => False

end Entry

/-- A text is taken as an entry. A document without an object is a row of nulls, and one that
only has objects in it the row that the handler makes of it on any table. -/
inductive TakenAs (fl : Doubles) (text : Bytes) : Entry → Prop
  | object {ms : List (Bytes × Json)} (htext : (Json.object ms).SpellsDocument fl text)
      (hkept : ¬ Json.RefusedLine (.object ms)) : TakenAs fl text (.object ms)
  | bare {j : Json} (htext : j.SpellsDocument fl text) (hfree : j.objectFree = true) :
      TakenAs fl text (.other [])
  | inner {j : Json} {a : ClickTable.Appends} (htext : j.SpellsDocument fl text)
      (hroot : j.isObject = false) (hfree : j.objectFree = false) (hkept : ¬ Json.RefusedLine j)
      (hrow : ∀ st : Json2Click, (st.parseLine j.stream).1.m_table = st.m_table.row a true) :
      TakenAs fl text (.other a)
  | refused (h : ∀ j : Json, j.SpellsDocument fl text → Json.RefusedLine j) :
      TakenAs fl text .refused

/-- A committed line had no error in its text. -/
theorem isError_of_parseLine {line : ParseStream} {st : Json2Click}
    (h : (st.parseLine line).2 = true) : line.isError = false := by
  unfold parseLine FlexEtl.parse at h
  cases hfeed : EventStream.feed MyHandler.on line.events { m_table := st.m_table } with
  | error e s => simp [hfeed] at h
  | ok b s =>
      cases b with
      | false => simp [hfeed] at h
      | true =>
          cases herror : line.isError with
          | false => rfl
          | true => simp [hfeed, herror] at h

/-- A line is committed exactly when it is the text of a document that the scan of the handler
does not refuse. -/
theorem parseLine_text (buffer : Bytes) (st : Json2Click) :
    (st.parseLine (Reader.parse fl buffer)).2 = true ↔
      ∃ j : Json, j.SpellsDocument fl (cstring buffer) ∧ j.refused = false := by
  constructor
  · intro h
    obtain ⟨j, hj, hparse⟩ := document_of_parse (isError_of_parseLine h)
    refine ⟨j, hj, ?_⟩
    rwa [hparse, parseLine_stream, Bool.not_eq_true'] at h
  · rintro ⟨j, hj, hrefused⟩
    rw [parse_of_document hj, parseLine_stream, hrefused]
    rfl

/-- What a document is taken as. -/
theorem takenAs_of_document {j : Json} {text : Bytes} (htext : j.SpellsDocument fl text)
    (hkept : ¬ Json.RefusedLine j) : ∃ e, TakenAs fl text e := by
  cases hfree : j.objectFree with
  | true => exact ⟨_, .bare htext hfree⟩
  | false =>
      cases hroot : j.isObject with
      | true =>
          obtain ⟨ms, rfl⟩ := Json.eq_object hroot
          exact ⟨_, .object htext hkept⟩
      | false =>
          obtain ⟨a, ok, hrow⟩ := parseLine_row j.stream
          obtain rfl : ok = true := by
            rw [← (hrow {}).2, parseLine_stream, Bool.not_eq_true', ← Bool.not_eq_true,
              ← Json.refusedLine_iff]
            exact hkept
          exact ⟨_, .inner htext hroot hfree hkept fun st => (hrow st).1⟩

/-- Every text is taken as something. -/
theorem exists_takenAs (fl : Doubles) (text : Bytes) : ∃ e, TakenAs fl text e := by
  by_cases h : ∃ j : Json, j.SpellsDocument fl text ∧ ¬ Json.RefusedLine j
  · obtain ⟨j, htext, hkept⟩ := h
    exact takenAs_of_document htext hkept
  · push Not at h
    exact ⟨_, .refused h⟩

theorem exists_entries (fl : Doubles) (texts : List Bytes) :
    ∃ es, List.Forall₂ (TakenAs fl) texts es := by
  induction texts with
  | nil => exact ⟨[], .nil⟩
  | cons text texts ih =>
      obtain ⟨e, he⟩ := exists_takenAs fl text
      obtain ⟨es, hes⟩ := ih
      exact ⟨e :: es, .cons he hes⟩

theorem parseLine_takenAs {buffer : Bytes} {e : Entry} (h : TakenAs fl (cstring buffer) e)
    (st : Json2Click) : (st.parseLine (Reader.parse fl buffer)).2 = e.committed ∧
      ∃ a, (st.parseLine (Reader.parse fl buffer)).1.m_table = st.m_table.row a e.committed ∧
        ∀ b, e.appends? = some b → a = b := by
  have hcommit : ∀ {j : Json}, ¬ Json.RefusedLine j → (st.parseLine j.stream).2 = true := by
    intro j hkept
    rw [parseLine_stream, Bool.not_eq_true', ← Bool.not_eq_true, ← Json.refusedLine_iff]
    exact hkept
  cases h with
  | @object ms htext hkept =>
      have hrefused := mt Json.refusedLine_iff.mpr hkept
      rw [parse_of_document htext]
      exact ⟨hcommit hkept, Json.appends ms, parseLine_object (by simpa using hrefused) st,
        fun _ h => Option.some.inj h⟩
  | bare htext hfree =>
      rw [parse_of_document htext]
      obtain ⟨htable, hok⟩ := parseLine_bare hfree st
      exact ⟨hok, [], htable, fun _ h => Option.some.inj h⟩
  | inner htext _ _ hkept hrow =>
      rw [parse_of_document htext]
      exact ⟨hcommit hkept, _, hrow st, fun _ h => Option.some.inj h⟩
  | refused h =>
      have hfalse : (st.parseLine (Reader.parse fl buffer)).2 = false := by
        rw [← Bool.not_eq_true, parseLine_text]
        rintro ⟨j, hj, hrefused⟩
        rw [Json.refusedLine_iff.mp (h j hj)] at hrefused
        cases hrefused
      obtain ⟨a, ok, hrow⟩ := parseLine_row (Reader.parse fl buffer)
      obtain ⟨htable, hok⟩ := hrow st
      rw [hfalse] at hok
      refine ⟨hfalse, a, by rw [htable, ← hok]; rfl, fun _ h => ?_⟩
      cases h

/-- The row of an object without nested objects has the values of its members. -/
theorem rowValue_object {ms : List (Bytes × Json)} (hfree : ∀ m ∈ ms, m.2.objectFree = true)
    (hkept : ¬ Json.RefusedLine (.object ms)) : rowValue (Json.appends ms) = lineRow ms := by
  rw [Json.refusedLine_iff, Bool.not_eq_true, Json.refused_of_objectFree hfree] at hkept
  exact rowValue_appends fun m hm => ⟨hfree m hm, (hkept m hm).2⟩

/-! ## The loop over the lines -/

/-- The rows of some lines. -/
def rowsOf (es : List Entry) : List Row := es.filterMap fun e => e.appends?.map rowValue

/-- Names and cells that `save` and `load` keep, in a file of so many bytes. -/
def Kept (n : Nat) : ClickTable → Prop :=
  ClickTable.Holds (fun c => 0 ∉ c ∧ c.length ≤ n)
    fun v => v.Every (fun s => 0 ∉ s ∧ s.length ≤ n) fun k => True ∧ k ≤ n

/-- What the loop over the lines of a file has done, when it has read them as `es`, with `k`
bytes of `n`. -/
structure Ingested (w₀ : Worker) (es : List Entry) (n k : Nat) (wf : Worker × FileState) :
    Prop where
  aligned : wf.1.node.m_table.Aligned
  rows : wf.1.node.m_table.rows = rowsOf es
  saves : wf.1.saves = w₀.saves
  moves : wf.1.moves = w₀.moves
  ok : wf.2.bOk = es.all Entry.committed
  kept : (∀ e ∈ es, e.Storable) → Kept n wf.1.node.m_table
  small : (∀ e ∈ es, e.Storable) →
    wf.1.node.m_table.m_tbl.size ≤ k ∧ wf.1.node.m_table.rowCount ≤ k

section Lines

variable {cfg : Config} {file : Nat} {w₀ : Worker} {es : List Entry} {n k : Nat}

theorem ingested_init {w₀ : Worker} (h : w₀.node.m_table = {}) : Ingested w₀ [] n 0 (w₀, {}) where
  aligned := by
    rw [h]
    exact ClickTable.aligned_empty
  rows := by
    rw [h]
    rfl
  saves := rfl
  moves := rfl
  ok := rfl
  kept _ := by
    rw [h]
    exact ClickTable.holds_empty
  small _ := by
    rw [h]
    exact ⟨Nat.le_refl 0, Nat.le_refl 0⟩

/-- What a line that can be stored appends. -/
theorem TakenAs.appends_kept {text : Bytes} {e : Entry} (h : TakenAs fl text e)
    (hstore : e.Storable) (hle : text.length ≤ n) : ∃ a, e.appends? = some a ∧
      a.length ≤ text.length ∧ 0 < text.length ∧
      ∀ kv ∈ a, (0 ∉ kv.1 ∧ kv.1.length ≤ n) ∧
        kv.2.Every (fun s => 0 ∉ s ∧ s.length ≤ n) fun k => True ∧ k ≤ n := by
  have hpos : ∀ {j : Json}, j.SpellsDocument fl text → 0 < text.length := by
    rintro j ⟨a, u, b, -, hu, -, rfl⟩
    obtain ⟨c, u, rfl, -⟩ := spells_begins hu
    simp only [List.length_append, List.length_cons]
    omega
  cases h with
  | @object ms htext hkept =>
      obtain ⟨hlen, hwithin⟩ := appends_within htext
      refine ⟨_, rfl, hlen.le, hpos htext, fun kv hkv => ?_⟩
      obtain ⟨hkey, hvalue⟩ := hwithin kv hkv
      obtain ⟨hkey', hvalue'⟩ := hstore kv hkv
      exact ⟨⟨hkey', Nat.le_trans hkey hle⟩, hvalue'.and (hvalue.mono hle)⟩
  | bare htext hfree => exact ⟨[], rfl, Nat.zero_le _, hpos htext, by simp⟩
  | inner htext _ _ _ _ =>
      obtain rfl := hstore
      exact ⟨[], rfl, Nat.zero_le _, hpos htext, by simp⟩
  | refused h => exact hstore.elim

theorem Ingested.line (hblock : cfg.m_blockSize = 0) {wf : Worker × FileState}
    (h : Ingested w₀ es n k wf) {text : Bytes} (hzero : 0 ∉ text)
    {e : Entry} (he : TakenAs fl text e) (hlen : text.length ≤ n)
    {l : LineInput} (hl : l.stream = Reader.parse fl text) :
    Ingested w₀ (es ++ [e]) n (k + text.length) (Worker.readLine cfg file wf l) := by
  obtain ⟨w, f⟩ := wf
  obtain ⟨hok, a, htable, happends⟩ :=
    parseLine_takenAs ((cstring_of_plain hzero).symm ▸ he) w.node
  rw [← hl] at hok htable
  have hline : (Worker.readLine cfg file (w, f) l).1.node = (w.node.parseLine l.stream).1 ∧
      (Worker.readLine cfg file (w, f) l).1.saves = w.saves ∧
      (Worker.readLine cfg file (w, f) l).1.moves = w.moves ∧
      (Worker.readLine cfg file (w, f) l).2.bOk = (f.bOk && (w.node.parseLine l.stream).2) := by
    simp [Worker.readLine, hblock]
  obtain ⟨hnode, hsaves, hmoves, hbOk⟩ := hline
  have hstorable : (∀ e' ∈ es ++ [e], e'.Storable) → (∀ e' ∈ es, e'.Storable) ∧ e.Storable :=
    fun h => ⟨fun e' he' => h e' (List.mem_append_left _ he'), h e (by simp)⟩
  refine { aligned := ?_, rows := ?_, saves := hsaves.trans h.saves
           moves := hmoves.trans h.moves, ok := ?_, kept := ?_, small := ?_ }
  · rw [hnode, htable]
    exact ClickTable.aligned_row h.aligned a _
  · have hrows : rowsOf (es ++ [e]) = rowsOf es ++ (e.appends?.map rowValue).toList := by
      cases happ : e.appends? <;> simp [rowsOf, happ]
    rw [hnode, htable, hrows, ← h.rows]
    cases happ : e.appends? with
    | none =>
        have hfalse : e.committed = false := by simp [Entry.committed, happ]
        rw [hfalse]
        exact (ClickTable.rows_row_false h.aligned a).trans (List.append_nil _).symm
    | some b =>
        have htrue : e.committed = true := by simp [Entry.committed, happ]
        rw [htrue, ← happends b happ]
        exact ClickTable.rows_row_true h.aligned a
  · rw [hbOk, hok, h.ok, List.all_append]
    simp
  · intro hall
    obtain ⟨hes, hstore⟩ := hstorable hall
    obtain ⟨b, happ, -, -, hcells⟩ := he.appends_kept hstore hlen
    obtain rfl := happends b happ
    have htrue : e.committed = true := by simp [Entry.committed, happ]
    rw [hnode, htable, htrue]
    exact ClickTable.Holds.row (h.kept hes) h.aligned trivial hcells
  · intro hall
    obtain ⟨hes, hstore⟩ := hstorable hall
    obtain ⟨b, happ, hcount, hpos, -⟩ := he.appends_kept hstore hlen
    obtain rfl := happends b happ
    have htrue : e.committed = true := by simp [Entry.committed, happ]
    obtain ⟨hsize, hrowCount⟩ := h.small hes
    have happended := @ClickTable.size_row_le w.node.m_table a
    rw [hnode, htable, htrue]
    refine ⟨Nat.le_trans happended (by dsimp only at hsize; omega), ?_⟩
    show (w.node.m_table.row a true).m_rowCount ≤ _
    rw [ClickTable.row_rowCount_true]
    change w.node.m_table.m_rowCount ≤ k at hrowCount
    omega

theorem Ingested.lines (hblock : cfg.m_blockSize = 0) {env : LoopEnv}
    (henv : env.Parse = Reader.parse fl) {buffers : List Bytes} {es' : List Entry}
    (hes : List.Forall₂ (TakenAs fl) (buffers.map cstring) es')
    (hlen : ∀ b ∈ buffers, (cstring b).length ≤ n) (i : Nat) {wf : Worker × FileState}
    (h : Ingested w₀ es n k wf) :
    Ingested w₀ (es ++ es') n (k + (buffers.map fun b => (cstring b).length).sum)
      ((lineInputs env i buffers).foldl (Worker.readLine cfg file) wf) := by
  induction buffers generalizing es es' k i wf with
  | nil =>
      cases hes
      simpa [lineInputs] using h
  | cons b buffers ih =>
      obtain ⟨hb, hlen⟩ := List.forall_mem_cons.mp hlen
      cases hes with
      | @cons _ e _ es' he hes =>
          let l : LineInput :=
            { stream := env.Parse (cstring b), length := (cstring b).length, dump := env.dump i }
          have hfirst : Ingested w₀ (es ++ [e]) n (k + (cstring b).length)
              (Worker.readLine cfg file wf l) :=
            h.line hblock (not_mem_cstring b) he hb (congrFun henv (cstring b))
          have hrest := ih hes hlen (i + 1) hfirst
          rw [List.append_assoc, List.singleton_append] at hrest
          rw [List.map_cons, List.sum_cons, ← Nat.add_assoc]
          exact hrest

end Lines

/-! ## Files -/

/-- A file that is read to its end, and what its texts are taken as. -/
structure Visit where
  inp : QueuedFile
  content : Bytes
  entries : List Entry

/-- The round opens the file. -/
structure Visit.Of (fl : Doubles) (t : StreamTick) (v : Visit) : Prop where
  opens : t.Opens v.inp v.content .endOfFile
  reader : v.inp.env.Parse = Reader.parse fl
  texts : List.Forall₂ (TakenAs fl) (textsOf v.content) v.entries

/-- Where the file goes. -/
def Visit.toPath (cfg : Config) (v : Visit) : String :=
  if v.entries.all Entry.committed && v.inp.saveOk then cfg.m_backupDir else cfg.m_failedDir

/-- What is saved of the file, and what `Click2DB` makes of it. -/
structure Visit.Saved (cfg : Config) (v : Visit) (call : SaveCall) : Prop where
  fileName : call.fileName = joinPath cfg.m_outputDir v.inp.fileName.filename ++ ".cdb"
  ok : call.ok = v.inp.saveOk
  rows : call.table.rows = rowsOf v.entries
  load : (∀ e ∈ v.entries, e.Storable) → v.content.length < 2 ^ 31 - 1 → ∀ fileName,
    ClickTable.load {} fileName (some call.table.saved) = .returned call.table

section Files

variable {cfg : Config} {file : Nat} {w : Worker} {v : Visit} {t : StreamTick}

theorem loads_of_kept {n : Nat} {t : ClickTable} (hn : n < 2 ^ 31 - 1) (ht : t.Aligned)
    (hkept : Kept n t) (hsize : t.m_tbl.size ≤ n) (hrows : t.rowCount ≤ n) (fileName : String) :
    ClickTable.load {} fileName (some t.saved) = .returned t := by
  have hint : ∀ k, k ≤ n → FitsInt k := fun k hk => by
    simp only [FitsInt, intMax]
    omega
  have hlt : ∀ k : Nat, k ≤ n → (k : Int) < intMax := fun k hk => by
    simp only [intMax]
    omega
  refine load_saved_of_plain ht ?_ ?_ fileName
  · refine { columns := hint _ hsize, rows := hint _ hrows, names := ?_, cells := ?_ }
    · exact fun c col hcol => hint _ (hkept c col hcol).1.2
    · exact fun c col hcol u hu => ((hkept c col hcol).2 u hu).imp (fun s hs => hint _ hs.2)
        fun k hk => hint _ hk.2
  · refine fun c col hcol => ⟨⟨(hkept c col hcol).1.1, hlt _ (hkept c col hcol).1.2⟩, ?_⟩
    exact fun u hu => ((hkept c col hcol).2 u hu).imp (fun s hs => ⟨hs.1, hlt _ hs.2⟩)
      fun _ _ => trivial

/-- The loop over the texts of the file, which are not longer than it. -/
theorem Visit.Of.ingested (h : v.Of fl t) (hblock : cfg.m_blockSize = 0)
    (hw : w.node.m_table = {}) : ∃ k ≤ v.content.length,
    Ingested w v.entries v.content.length k
      ((lineInputs v.inp.env 0 (Lines.chunks 10 (bufferSize - 1) v.content)).foldl
        (Worker.readLine cfg file) (w, {})) := by
  have hflat := Lines.flatten_chunks 10 (show 0 < bufferSize - 1 by decide) v.content
  have hsum : ((Lines.chunks 10 (bufferSize - 1) v.content).map
      fun b => (cstring b).length).sum ≤ v.content.length := by
    conv_rhs => rw [← hflat, List.length_flatten]
    exact List.sum_le_sum fun b _ => length_cstring_le b
  have hlen : ∀ b ∈ Lines.chunks 10 (bufferSize - 1) v.content,
      (cstring b).length ≤ v.content.length := by
    intro b hb
    have hchunk := (List.sublist_flatten_of_mem hb).length_le
    rw [hflat] at hchunk
    exact Nat.le_trans (length_cstring_le b) hchunk
  have hlines := @Ingested.lines fl cfg file w [] _ 0 hblock _ h.reader _ _ h.texts hlen 0 _
    (ingested_init hw)
  rw [List.nil_append, Nat.zero_add] at hlines
  exact ⟨_, hsum, hlines⟩

/-- Saving by file, a round makes one save of what it has read, and moves the file. -/
theorem tick_visit (hmode : cfg.m_delay = 0 ∧ cfg.m_blockSize = 0) (h : v.Of fl t)
    (hw : w.node.m_table = {}) : (w.tick cfg file t.toTick).node.m_table = {} ∧
      (w.tick cfg file t.toTick).moves = w.moves ++ [(file, v.toPath cfg)] ∧
      ∃ call, (w.tick cfg file t.toTick).saves = w.saves ++ [call] ∧ v.Saved cfg call := by
  obtain ⟨k, hk, hread⟩ := @Visit.Of.ingested fl cfg file w v t h hmode.2 hw
  rw [tick_opens h.opens, procFile_eq]
  generalize (lineInputs v.inp.env 0 (Lines.chunks 10 (bufferSize - 1) v.content)).foldl
    (Worker.readLine cfg file) (w, {}) = wf at hread
  obtain ⟨w', f⟩ := wf
  obtain ⟨haligned, hrows, hsaves, hmoves, hok, hkept, hsmall⟩ := hread
  have hcount : (w'.countFile cfg f).node.m_table = w'.node.m_table ∧
      (w'.countFile cfg f).saves = w'.saves ∧ (w'.countFile cfg f).moves = w'.moves := by
    unfold Worker.countFile
    split <;> exact ⟨rfl, rfl, rfl⟩
  have hdelay : ∀ w : Worker, w.dumpDelay cfg t.dump = w := fun w => by
    simp [Worker.dumpDelay, hmode.1]
  obtain ⟨htable, hsaves', hmoves'⟩ := hcount
  rw [hdelay, finishFile]
  generalize w'.countFile cfg f = w₁ at htable hsaves' hmoves'
  refine ⟨?_, ?_, ⟨joinPath cfg.m_outputDir v.inp.fileName.filename ++ ".cdb",
    w₁.node.m_table, v.inp.saveOk⟩, ?_, ⟨rfl, rfl, by rw [htable]; exact hrows, ?_⟩⟩
  · simp only [Worker.saveFile, hmode, and_self, if_true, Worker.moveFile, Json2Click.saveFile]
    cases v.inp.saveOk <;> cases v.inp.toInput.moveOk <;> rfl
  · have hpath : ((w₁.saveFile cfg v.inp.toInput f.bOk).1.moveFile cfg file v.inp.toInput
        (w₁.saveFile cfg v.inp.toInput f.bOk).2).moves = w₁.moves ++ [(file, v.toPath cfg)] := by
      rw [Visit.toPath, ← hok]
      simp only [Worker.saveFile, hmode, and_self, if_true, Worker.moveFile, Json2Click.saveFile]
      cases hsave : v.inp.saveOk <;> simp [QueuedFile.toInput, hsave]
    exact hpath.trans (by rw [hmoves', hmoves])
  · have hcall : (w₁.saveFile cfg v.inp.toInput f.bOk).1.saves = w₁.saves ++
        [⟨joinPath cfg.m_outputDir v.inp.fileName.filename ++ ".cdb", w₁.node.m_table,
          v.inp.saveOk⟩] := by
      simp only [Worker.saveFile, hmode, and_self, if_true, Json2Click.saveFile]
      cases hsave : v.inp.saveOk <;> simp [QueuedFile.toInput, hsave]
    exact hcall.trans (by rw [hsaves', hsaves])
  · intro hall hlen fileName
    rw [htable]
    obtain ⟨hsize, hcount⟩ := hsmall hall
    exact loads_of_kept hlen haligned (hkept hall) (hsize.trans hk) (hcount.trans hk) fileName

/-! ## Runs -/

/-- The files that some rounds open, by their numbers. -/
inductive Visits (fl : Doubles) : Nat → List StreamTick → List (Nat × Visit) → Prop
  | nil {file : Nat} : Visits fl file [] []
  | idle {file : Nat} {t : StreamTick} {ticks : List StreamTick} {vs : List (Nat × Visit)}
      (h : ∀ inp content ending, ¬ t.Opens inp content ending)
      (hrest : Visits fl (file + 1) ticks vs) : Visits fl file (t :: ticks) vs
  | file {file : Nat} {t : StreamTick} {v : Visit} {ticks : List StreamTick}
      {vs : List (Nat × Visit)} (h : v.Of fl t) (hrest : Visits fl (file + 1) ticks vs) :
      Visits fl file (t :: ticks) ((file, v) :: vs)

/-- The file that the round opens can be read, by rapidjson, to its end. -/
def StreamTick.Reads (fl : Doubles) (t : StreamTick) : Prop :=
  ∀ inp content ending, t.Opens inp content ending →
    ending = .endOfFile ∧ inp.env.Parse = Reader.parse fl

/-- Each of its texts is taken as something. -/
theorem exists_visits {ticks : List StreamTick} (h : ∀ t ∈ ticks, t.Reads fl) (file : Nat) :
    ∃ vs, Visits fl file ticks vs := by
  induction ticks generalizing file with
  | nil => exact ⟨[], .nil⟩
  | cons t ticks ih =>
      obtain ⟨hreads, h⟩ := List.forall_mem_cons.mp h
      obtain ⟨vs, hvs⟩ := ih h (file + 1)
      by_cases hopens : ∃ inp content ending, t.Opens inp content ending
      · obtain ⟨inp, content, ending, hopens⟩ := hopens
        obtain ⟨rfl, hreader⟩ := hreads inp content ending hopens
        obtain ⟨es, hes⟩ := exists_entries fl (textsOf content)
        exact ⟨(file, ⟨inp, content, es⟩) :: vs, .file ⟨hopens, hreader, hes⟩ hvs⟩
      · push Not at hopens
        exact ⟨vs, .idle hopens hvs⟩

theorem tick_idle (hmode : cfg.m_delay = 0 ∧ cfg.m_blockSize = 0)
    (h : ∀ inp content ending, ¬ t.Opens inp content ending) :
    w.tick cfg file t.toTick = w := by
  have hdelay : w.dumpDelay cfg t.dump = w := by simp [Worker.dumpDelay, hmode.1]
  unfold Worker.tick StreamTick.toTick
  cases hdequeued : t.dequeued with
  | none => exact hdelay
  | some inp =>
      cases hempty : inp.fileName.empty with
      | true => simpa [QueuedFile.toInput, hempty] using hdelay
      | false =>
          cases hcontent : inp.content with
          | none => simp [QueuedFile.toInput, hempty, hcontent]
          | some opened => exact absurd ⟨hdequeued, hempty, hcontent⟩ (h inp opened.1 opened.2)

theorem Visits.ends {ticks : List StreamTick} {vs : List (Nat × Visit)}
    (h : Visits fl file ticks vs) : ∀ t ∈ ticks, t.Ends := by
  induction h with
  | nil => simp
  | idle hidle _ ih =>
      exact List.forall_mem_cons.mpr ⟨fun inp content ending hopens =>
        absurd hopens (hidle inp content ending), ih⟩
  | @file _ t v _ _ hv _ ih =>
      refine List.forall_mem_cons.mpr ⟨fun inp content ending hopens => ?_, ih⟩
      obtain rfl := Option.some.inj (hv.opens.1.symm.trans hopens.1)
      exact (Prod.mk.inj (Option.some.inj (hv.opens.2.2.symm.trans hopens.2.2))).2.symm

theorem rounds_visits (hmode : cfg.m_delay = 0 ∧ cfg.m_blockSize = 0) {ticks : List StreamTick}
    {vs : List (Nat × Visit)} (h : Visits fl file ticks vs) (hw : w.node.m_table = {}) :
    (Worker.rounds cfg file (ticks.map StreamTick.toTick) w).node.m_table = {} ∧
      (Worker.rounds cfg file (ticks.map StreamTick.toTick) w).moves =
        w.moves ++ vs.map (fun v => (v.1, v.2.toPath cfg)) ∧
      ∃ calls, (Worker.rounds cfg file (ticks.map StreamTick.toTick) w).saves = w.saves ++ calls ∧
        List.Forall₂ (fun v call => v.2.Saved cfg call) vs calls := by
  induction h generalizing w with
  | nil => exact ⟨hw, by simp [Worker.rounds], [], by simp [Worker.rounds], .nil⟩
  | @idle file t ticks vs hidle _ ih =>
      rw [List.map_cons, Worker.rounds, @tick_idle cfg file w t hmode hidle]
      exact ih hw
  | @file file t v ticks vs hv _ ih =>
      obtain ⟨htable, hmoves, call, hsaves, hcall⟩ := @tick_visit fl cfg file w v t hmode hv hw
      obtain ⟨htable', hmoves', calls, hsaves', hcalls⟩ := ih htable
      rw [List.map_cons, Worker.rounds]
      refine ⟨htable', ?_, call :: calls, ?_, .cons hcall hcalls⟩
      · rw [hmoves', hmoves, List.map_cons, List.append_assoc, List.singleton_append]
      · rw [hsaves', hsaves, List.append_assoc, List.singleton_append]

end Files

/-- **Ingest.** Saving by file, over files that rapidjson reads to their end, every file makes
one save, in the order of the files. The save has the rows of its texts, whatever these are
taken as, and `Click2DB` loads its table where all of them can be stored. -/
theorem ingest_run {cfg : Config} (hmode : cfg.m_delay = 0 ∧ cfg.m_blockSize = 0)
    {ticks : List StreamTick} (hticks : ∀ t ∈ ticks, t.Reads fl) :
    (∃ vs, Visits fl 0 ticks vs) ∧ ∀ vs, Visits fl 0 ticks vs →
      ∃ fuel w, roundsStream fuel cfg 0 ticks {} = some w ∧
        w.moves = vs.map (fun v => (v.1, v.2.toPath cfg)) ∧
        List.Forall₂ (fun v call => v.2.Saved cfg call) vs w.saves := by
  refine ⟨exists_visits hticks 0, fun vs h => ?_⟩
  obtain ⟨fuel, hrun⟩ := @roundsStream_of_ends cfg ticks h.ends 0 {}
  obtain ⟨-, hmoves, calls, hsaves, hcalls⟩ := @rounds_visits fl cfg 0 {} hmode ticks vs h rfl
  refine ⟨fuel, _, hrun fuel (Nat.le_refl _), hmoves, ?_⟩
  rw [hsaves]
  exact hcalls

/-! ### Two files -/

/-- The line `{"k":"v"}`. -/
def pairLine : Bytes := [0x7B, 0x22, 0x6B, 0x22, 0x3A, 0x22, 0x76, 0x22, 0x7D, 0x0A]

def pairMembers : List (Bytes × Json) := [([0x6B], .scalar (.string [0x76]))]

/-- That line, the line `5` and the line `{`. -/
def mixedContent : Bytes := pairLine ++ [0x35, 0x0A, 0x7B, 0x0A]

def fileOf (filename : String) (content : Bytes) : QueuedFile where
  fileName := ⟨"in", filename⟩
  content := some (content, .endOfFile)
  env := { Parse := Reader.parse .machine, dump := fun _ => { now := 0 } }

def tickOf (filename : String) (content : Bytes) : StreamTick where
  dequeued := some (fileOf filename content)
  dump := { now := 0 }

def backupConfig : Config := { plainConfig with m_backupDir := "backup" }

theorem blank_nil : Blank [] := fun _ hc => absurd hc List.not_mem_nil

theorem takenAs_pairLine : TakenAs fl pairLine (.object pairMembers) := by
  have hstring : ∀ c : UInt8, ¬ c < 0x20 → c ≠ 0x22 → c ≠ 0x5C →
      SpellsString [c] [0x22, c, 0x22] := fun c hlow hquote hslash =>
    ⟨[c], .plain hlow hquote hslash .nil, rfl⟩
  have hmember : SpellsMember (Json.Spells fl) ([0x6B], .scalar (.string [0x76]))
      [0x22, 0x6B, 0x22, 0x3A, 0x22, 0x76, 0x22] :=
    .intro (hstring 0x6B (by decide) (by decide) (by decide)) blank_nil blank_nil
      (.scalar (.string (hstring 0x76 (by decide) (by decide) (by decide))))
  refine .object ⟨[], _, [0x0A], blank_nil, .object blank_nil (.last hmember blank_nil), ?_, rfl⟩ ?_
  · simp [Blank, isBlank]
  · simp [Json.RefusedLine, pairMembers, Json.Taken]

/-- A number alone is a row without a cell. -/
theorem takenAs_number : TakenAs fl [0x35, 0x0A] (.other []) := by
  let p : Parts := { minus := false, int := [0x35], frac := none, exp := none }
  have hvalid : p.Valid :=
    { int := .digits (by decide) (by decide) (by simp [Digits])
      frac := by simp [p]
      exp := by simp [p] }
  have hscalar : p.scalar fl = some (.uint 5) := rfl
  refine .bare (j := .scalar (.uint 5)) ⟨[], p.text, [0x0A], blank_nil,
    .scalar (.number hvalid hscalar), ?_, rfl⟩ rfl
  simp [Blank, isBlank]

theorem takenAs_brace : TakenAs fl [0x7B, 0x0A] .refused := by
  refine .refused fun j hj => ?_
  have herror := congrArg ParseStream.isError (@parse_of_document fl [0x7B, 0x0A] j hj)
  cases herror

theorem textsOf_pairLine : textsOf pairLine = [pairLine] := by
  have hlines : Lines.lines 10 pairLine = [pairLine] := by
    rw [show pairLine = [0x7B, 0x22, 0x6B, 0x22, 0x3A, 0x22, 0x76, 0x22, 0x7D] ++ 10 :: [] from
      rfl, Lines.lines_delimited (by decide), Lines.lines_nil]
  rw [textsOf_of_lines (by decide) (by rw [hlines]; decide), hlines]

theorem textsOf_mixedContent : textsOf mixedContent = [pairLine, [0x35, 0x0A], [0x7B, 0x0A]] := by
  have hlines : Lines.lines 10 mixedContent = [pairLine, [0x35, 0x0A], [0x7B, 0x0A]] := by
    rw [show mixedContent = [0x7B, 0x22, 0x6B, 0x22, 0x3A, 0x22, 0x76, 0x22, 0x7D] ++
      10 :: ([0x35] ++ 10 :: ([0x7B] ++ 10 :: [])) from rfl, Lines.lines_delimited (by decide),
      Lines.lines_delimited (by decide), Lines.lines_delimited (by decide), Lines.lines_nil]
    rfl
  rw [textsOf_of_lines (by decide) (by rw [hlines]; decide), hlines]

/-- The first file makes one row and is loaded again. The second makes two, of which one has no
cell, and its last line takes it to the failed files. -/
theorem ingest_run_mixed : ∃ fuel w, roundsStream fuel backupConfig 0
      [tickOf "a.json" pairLine, tickOf "b.json" mixedContent] {} = some w ∧
    w.moves = [(0, "backup"), (1, "failed")] ∧ ∃ first second, w.saves = [first, second] ∧
      first.table.rows = [lineRow pairMembers] ∧
      ClickTable.load {} "a.json.cdb" (some first.table.saved) = .returned first.table ∧
      second.table.rows = [lineRow pairMembers, fun _ => .null] := by
  have hreads : ∀ t ∈ [tickOf "a.json" pairLine, tickOf "b.json" mixedContent],
      t.Reads .machine := by
    simp only [List.mem_cons, List.not_mem_nil, or_false, forall_eq_or_imp, forall_eq]
    constructor <;> rintro inp content ending ⟨⟨⟩, -, ⟨⟩⟩ <;> exact ⟨rfl, rfl⟩
  have hvisits : Visits .machine 0 [tickOf "a.json" pairLine, tickOf "b.json" mixedContent]
      [(0, ⟨fileOf "a.json" pairLine, pairLine, [.object pairMembers]⟩),
        (1, ⟨fileOf "b.json" mixedContent, mixedContent,
          [.object pairMembers, .other [], .refused]⟩)] := by
    refine .file ⟨⟨rfl, by decide, rfl⟩, rfl, ?_⟩ (.file ⟨⟨rfl, by decide, rfl⟩, rfl, ?_⟩ .nil)
    · rw [textsOf_pairLine]
      exact .cons takenAs_pairLine .nil
    · rw [textsOf_mixedContent]
      exact .cons takenAs_pairLine (.cons takenAs_number (.cons takenAs_brace .nil))
  obtain ⟨fuel, w, hrun, hmoves, hsaves⟩ :=
    (@ingest_run .machine backupConfig ⟨rfl, rfl⟩ _ hreads).2 _ hvisits
  have hstorable : ∀ e ∈ [Entry.object pairMembers], e.Storable := by
    simp [Entry.Storable, pairMembers, Json.appends, Json.cell?, Scalar.value]
  have hrow : rowValue (Json.appends pairMembers) = lineRow pairMembers :=
    rowValue_object (by simp [pairMembers]) (by simp [Json.RefusedLine, pairMembers, Json.Taken])
  generalize hcalls : w.saves = calls at hsaves
  obtain _ | ⟨hfirst, _ | ⟨hsecond, _ | _⟩⟩ := hsaves
  refine ⟨fuel, w, hrun, hmoves, _, _, hcalls, ?_, hfirst.load hstorable (by decide) _, ?_⟩
  · rw [← hrow]
    exact hfirst.rows
  · rw [← hrow]
    exact hsecond.rows

end Json2Click

end FlexEtl
