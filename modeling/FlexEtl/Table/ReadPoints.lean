/-
FlexEtl.Table.ReadPoints — where `load` reads a name or a string.

The decoders of `Cdb` are written once more with a note of each such read: the
length from the file, and the buffer before the reservation. The rest is as it
was (`traces_loadBody`). Whatever was reserved before, the read stays within
the reservation when the length is neither negative nor `INT_MAX`, and at no
other length (`within_iff`). `BadFile` says of the bytes that they lead `load`
to such a length, so it is the exact condition for all reads of a file to stay
within (`reads_within_iff`).
-/
import FlexEtl.Table.LoadTheorems
import FlexEtl.Lib.Traced

namespace FlexEtl

open Decoder

/-! ## Read points -/

/-- A read of a name or a string: its length in the file, and the buffer before. -/
structure ReadPoint where
  size : Int
  before : Buffer
  deriving DecidableEq, Repr

namespace ReadPoint

/-- `size + 1`, where that is an `int`. -/
def next? (p : ReadPoint) : Option Int := if p.size = intMax then none else some (p.size + 1)

/-- The bytes that stand behind the buffer after `reserve(size + 1)`. -/
def capacity? (p : ReadPoint) : Option Nat :=
  p.next?.map fun next => (p.before.reserve (toSizeT next)).block

/-- The count for `fread` and the index of the terminating zero are within the capacity. -/
def Within (p : ReadPoint) : Prop :=
  ∃ capacity, p.capacity? = some capacity ∧ toSizeT p.size ≤ capacity ∧ p.size < capacity

end ReadPoint

namespace Tracing

open Traced

abbrev LoadM := Traced Fault Stream ReadPoint

/-- `readChars`, with a note. -/
def readChars (size : Int) (message : String) : LoadM Bytes :=
  noting (fun s => { size, before := s.buffer }) (FlexEtl.readChars size message)

/-- `restoreValue`. -/
def restoreValue : Nat → Value → LoadM Value
  | 0, _ => Traced.throw .outOfFuel
  | fuel + 1, .array vec => do
      match ← lift readType with
      | some .str =>
          let size ← lift (readInt "Read string value length failed")
          let bs ← readChars size "Read string value failed"
          pure (.array (vec ++ [.str (cstring bs)]))
      | some .array =>
          let size ← lift (readInt "Read array length failed")
          let val ← Traced.iter (restoreValue fuel) size.toNat (.array [])
          pure (.array (vec ++ [val]))
      | some .int =>
          let u ← lift (readWord "Read value failed")
          pure (.array (vec ++ [.int u.toInt64]))
      | some .uint =>
          let u ← lift (readWord "Read value failed")
          pure (.array (vec ++ [.uint u]))
      | some .double =>
          let u ← lift (readWord "Read value failed")
          pure (.array (vec ++ [.double u]))
      | some .bool =>
          let bs ← lift (freadExact 1 "Read value failed")
          pure (.array (vec ++ [.bool (bs != [0])]))
      | some .unknown => pure (.array (vec ++ [.null]))
      | none => Traced.throw (.thrown "Read unknown value type")
  | _ + 1, _ => Traced.throw (.thrown "Value type mast be CT_ARRAY")

/-- The body of `load`'s loop over the columns. -/
def loadColumn (fuel : Nat) (rowCount : Int) (t : ClickTable) : LoadM ClickTable := do
  let nameSize ← lift (readInt "Read 'nameSize' failed")
  let bs ← readChars nameSize "Read 'name' failed"
  let name := cstring bs
  let el := t.m_tbl[name]?.getD {}
  if rowCount < 0 then Traced.throw (.thrown "vector::reserve")
  let data ← Traced.iter (restoreValue fuel) rowCount.toNat (.array el.data)
  pure { t with m_tbl := t.m_tbl.insert name ⟨(data.vector?).getD []⟩ }

/-- The `try` block of `load`. -/
def loadBody (fuel : Nat) (t : ClickTable) : LoadM ClickTable := do
  let key ← lift (readInt "Read 'KEY' failed")
  let mask ← lift (readInt "Read 'MASK' failed")
  lift (assert1 (key == KEY) "invalid KEY")
  lift (assert1 (mask == MASK) "invalid MASK")
  let columnCount ← lift (readInt "Read 'columnCount' failed")
  let rowCount ← lift (readInt "Read 'rowCount' failed")
  let t ← Traced.iter (loadColumn fuel rowCount) columnCount.toNat t
  pure { t with m_rowCount := toSizeT rowCount }

end Tracing

/-- The reads of names and strings that `load` comes to in a file, however it ends. -/
def ClickTable.reads (t : ClickTable) (bytes : Bytes) : List ReadPoint :=
  (Tracing.loadBody bytes.length t { rest := bytes }).2

/-! ## Without the notes -/

theorem traces_readChars (size : Int) (message : String) :
    Traces (Tracing.readChars size message) (readChars size message) := Traces.noting _ _

theorem traces_restoreValue (fuel : Nat) (value : Value) :
    Traces (Tracing.restoreValue fuel value) (restoreValue fuel value) := by
  induction fuel generalizing value with
  | zero =>
      unfold Tracing.restoreValue restoreValue
      exact Traces.throw _
  | succ fuel ih =>
      cases value with
      | array vec =>
          refine (Traces.lift readType).bind fun type => ?_
          cases type with
          | none => exact Traces.throw _
          | some type =>
              cases type with
              | unknown => exact Traces.pure _
              | str =>
                  exact (Traces.lift _).bind fun size =>
                    (traces_readChars size _).bind fun bs => Traces.pure _
              | array =>
                  exact (Traces.lift _).bind fun size =>
                    (Traces.iter ih size.toNat _).bind fun val => Traces.pure _
              | _ => exact (Traces.lift _).bind fun u => Traces.pure _
      | _ => exact Traces.throw _

theorem traces_loadColumn (fuel : Nat) (rowCount : Int) (t : ClickTable) :
    Traces (Tracing.loadColumn fuel rowCount t) (loadColumn fuel rowCount t) := by
  refine (Traces.lift _).bind fun nameSize => ?_
  refine (traces_readChars nameSize _).bind fun bs => ?_
  by_cases hneg : rowCount < 0
  · simp only [if_pos hneg]
    exact Traces.throw _
  · simp only [if_neg hneg]
    exact (Traces.iter (traces_restoreValue fuel) _ _).bind fun data => Traces.pure _

/-- The `load` with notes is `load`. -/
theorem traces_loadBody (fuel : Nat) (t : ClickTable) :
    Traces (Tracing.loadBody fuel t) (loadBody fuel t) := by
  refine (Traces.lift _).bind fun key => ?_
  refine (Traces.lift _).bind fun mask => ?_
  refine (Traces.lift _).bind fun u => ?_
  refine (Traces.lift _).bind fun u => ?_
  refine (Traces.lift _).bind fun columnCount => ?_
  refine (Traces.lift _).bind fun rowCount => ?_
  exact (Traces.iter (traces_loadColumn fuel rowCount) _ _).bind fun t => Traces.pure _

/-! ## One read -/

/-- A length that `reserve(size + 1)` cannot make room for. -/
def BadLength (n : Int) : Prop := n < 0 ∨ n = intMax

/-- Whatever has been reserved, a read stays within the reservation exactly when its length
is not bad. A negative length becomes a count of more than `2 ^ 63` bytes. -/
theorem within_iff {p : ReadPoint} (hsize : InInt p.size) (hsound : p.before.Sound)
    (hroom : (p.before.block : Int) ≤ intMax) : p.Within ↔ ¬ BadLength p.size := by
  have hblock := block_reserve hsound hroom hsize
  unfold ReadPoint.Within ReadPoint.capacity? ReadPoint.next? BadLength
  by_cases hmax : p.size = intMax
  · simp [hmax]
  · obtain ⟨hlow, hhigh⟩ := hsize
    rw [if_neg hmax, Option.map_some, hblock]
    simp only [Option.some.injEq, exists_eq_left', hmax, or_false, Int.not_lt]
    by_cases hneg : p.size < 0
    · have hcount : (toSizeT p.size : Int) = 2 ^ 64 + p.size := by unfold toSizeT; omega
      simp only [intMax] at hroom
      split
      · omega
      · omega
    · have hcount : toSizeT p.size = p.size.toNat := toSizeT_of_nonneg (by omega) hhigh
      rw [if_neg (by omega), hcount]
      omega

/-! ## Bad lengths in a file -/

/-- The input begins with a bad length. -/
def BadChars (inp : Bytes) : Prop :=
  ∃ n, InInt n ∧ ∃ rest, inp = intBytes n ++ rest ∧ BadLength n

/-- Reading a value comes to a string with a bad length. -/
inductive BadValue : Bytes → Prop where
  | str {rest : Bytes} : BadChars rest → BadValue (intBytes ClickType.str.code ++ rest)
  | array {n : Int} {ys : List Image} {rest : Bytes} : InInt n → ys.length < n.toNat →
      (∀ y ∈ ys, y.Valid) → BadValue rest →
      BadValue (intBytes ClickType.array.code ++ (intBytes n ++ (ys.flatMap Image.text ++ rest)))

/-- Reading a column comes to a bad length, of its name or in a cell. -/
def BadColumn (rowCount : Int) (inp : Bytes) : Prop :=
  BadChars inp ∨ ∃ name, charsItems.Valid name ∧ ∃ rest, inp = charsItems.text name ++ rest ∧
    valueItems.Before rowCount.toNat BadValue rest

/-- Loading a file comes to a bad length. -/
def BadFile (inp : Bytes) : Prop :=
  ∃ columnCount rowCount, InInt columnCount ∧ InInt rowCount ∧
    ∃ rest, inp = intBytes KEY ++ (intBytes MASK ++ (intBytes columnCount ++
      (intBytes rowCount ++ rest))) ∧
      (columnItems rowCount).Before columnCount.toNat (BadColumn rowCount) rest

/-- What is bad after the tag of a value. -/
def BadPayload : Option ClickType → Bytes → Prop
  | some .str, inp => BadChars inp
  | some .array, inp => ∃ n, InInt n ∧ ∃ rest, inp = intBytes n ++ rest ∧
      valueItems.Before n.toNat BadValue rest
  | _, _ => False

theorem badValue_iff {inp : Bytes} : BadValue inp ↔ ∃ bs : Bytes, bs.length = 4 ∧
    ∃ rest, inp = bs ++ rest ∧ BadPayload (ClickType.ofCode? (LittleEndian.toNat bs)) rest := by
  constructor
  · intro h
    cases h with
    | @str rest hbad =>
        refine ⟨intBytes ClickType.str.code, LittleEndian.length_ofInt 4 _, rest, rfl, ?_⟩
        rw [toNat_intBytes_code, ClickType.ofCode?_code]
        exact hbad
    | @array n ys rest hn hlen hys hbad =>
        refine ⟨intBytes ClickType.array.code, LittleEndian.length_ofInt 4 _, _, rfl, ?_⟩
        rw [toNat_intBytes_code, ClickType.ofCode?_code]
        exact ⟨n, hn, _, rfl, ys, hlen, hys, rest, rfl, hbad⟩
  · rintro ⟨bs, hlen, rest, rfl, hbad⟩
    rcases tag_cases hlen with hnone | ⟨t, ht, rfl⟩
    · rw [hnone] at hbad
      exact hbad.elim
    · rw [ht] at hbad
      cases t with
      | str => exact .str hbad
      | array =>
          obtain ⟨n, hn, _, rfl, ys, hys, hvalid, rest, rfl, hvalue⟩ := hbad
          exact .array hn hys hvalid hvalue
      | _ => exact hbad.elim

/-! ## Notes of bad lengths -/

/-- The run comes to a read that does not stay within its reservation. -/
abbrev Leaves {α : Type} (q : Tracing.LoadM α) (s : Stream) : Prop :=
  Notes (fun p : ReadPoint => ¬ p.Within) q s

/-- An integer is read, and then `C` holds. -/
theorem exists_readInt {message : String} {s : Stream} (hs : loadView.Inv s)
    {C : Int → Stream → Prop} {D : Int → Bytes → Prop}
    (hD : ∀ i s', InInt i → loadView.Inv s' → s.rest.length = s'.rest.length + 4 →
      (C i s' ↔ D i s'.rest)) :
    (∃ i s', readInt message s = .ok i s' ∧ C i s') ↔
      ∃ i, InInt i ∧ ∃ rest, s.rest = intBytes i ++ rest ∧ D i rest := by
  refine (describes_readInt (n := s.rest.length) message).exists_ok hs le_rfl
    fun i s' hi hs' hinput => hD i s' hi hs' ?_
  have hlength : (intBytes i).length = 4 := length_intText i
  change s.rest = intBytes i ++ s'.rest at hinput
  rw [hinput, List.length_append]
  omega

theorem leaves_chars (m₁ m₂ : String) {s : Stream} (hs : loadView.Inv s) :
    Leaves (do let size ← Traced.lift (readInt m₁); Tracing.readChars size m₂) s ↔
      BadChars s.rest := by
  rw [Leaves, notes_lift_bind]
  refine exists_readInt hs (D := fun n _ => BadLength n) fun n s' hn hs' _ => ?_
  have hwithin := @within_iff ⟨n, s'.buffer⟩ hn hs'.1 hs'.2
  rw [Tracing.readChars, notes_noting]
  exact (not_congr hwithin).trans not_not

theorem traces_chars (m₁ m₂ : String) :
    Traces (do let size ← Traced.lift (readInt m₁); Tracing.readChars size m₂)
      (do let size ← readInt m₁; readChars size m₂) :=
  (Traces.lift _).bind fun size => traces_readChars size m₂

theorem leaves_restoreValue (fuel : Nat) : ∀ (n : Nat), n < fuel → ∀ (vec : List Value) {s : Stream},
    loadView.Inv s → s.rest.length ≤ n →
      (Leaves (Tracing.restoreValue fuel (.array vec)) s ↔ BadValue s.rest) := by
  induction fuel with
  | zero => exact fun n hn => absurd hn (Nat.not_lt_zero n)
  | succ fuel ih =>
      intro n hn vec s hs hlen
      have htype : Loads n readType ((byteItems 4).one fun bs =>
          ClickType.ofCode? (LittleEndian.toNat bs)) :=
        (describes_freadExact 4 "Read type value failed").map _
      rw [badValue_iff, Leaves, Tracing.restoreValue, notes_lift_bind]
      refine htype.exists_ok hs hlen (D := fun bs rest =>
        BadPayload (ClickType.ofCode? (LittleEndian.toNat bs)) rest) fun bs s' hbs hs' hinput => ?_
      have hrest : s'.rest.length ≤ n - 4 ∧ 4 ≤ n := by
        have htag : bs.length = 4 := hbs
        change s.rest = bs ++ s'.rest at hinput
        rw [hinput, List.length_append] at hlen
        omega
      have hplain : ∀ {β : Type} (p : LoadM β) (g : β → Value),
          ¬ Leaves (Traced.lift p >>= fun b => pure (g b)) s' := by
        intro β p g
        rw [Leaves, notes_bind_pure (Traces.lift p)]
        exact not_notes_lift p
      cases ClickType.ofCode? (LittleEndian.toNat bs) with
      | none => simp [BadPayload]
      | some type =>
          cases type with
          | unknown => simp [BadPayload]
          | str =>
              have hchars := leaves_chars "Read string value length failed"
                "Read string value failed" hs'
              have hpure := @notes_bind_pure _ _ _ _ _ (fun p : ReadPoint => ¬ p.Within) s' _ _
                (traces_chars "Read string value length failed" "Read string value failed")
                fun bs => Value.array (vec ++ [.str (cstring bs)])
              rw [bind_assoc] at hpure
              exact hpure.trans hchars
          | array =>
              rw [notes_lift_bind]
              refine exists_readInt hs' (D := fun i rest => valueItems.Before i.toNat BadValue rest)
                fun i s₂ _ hs₂ hlen₂ => ?_
              have hrest₂ : s₂.rest.length ≤ n - 4 := by omega
              rw [notes_bind_pure (Traces.iter (traces_restoreValue fuel) _ _)]
              have hfuel' : n - 4 < fuel := by omega
              exact notes_iter_items (a := fun ys : List Image => .array (ys.map Image.value))
                (traces_restoreValue fuel) (describes_nextValue hfuel' [])
                (fun ys s hs hlen => ih (n - 4) (by omega) _ hs hlen) hs₂ hrest₂ i.toNat
          | _ => exact iff_of_false (hplain _ _) id

theorem leaves_loadColumn {n fuel : Nat} (hfuel : n < fuel) (rowCount : Int) (t : ClickTable)
    {s : Stream} (hs : loadView.Inv s) (hlen : s.rest.length ≤ n) :
    Leaves (Tracing.loadColumn fuel rowCount t) s ↔ BadColumn rowCount s.rest := by
  have hload : Tracing.loadColumn fuel rowCount t = (do
      let bs ← (do
        let size ← Traced.lift (readInt "Read 'nameSize' failed")
        Tracing.readChars size "Read 'name' failed")
      if rowCount < 0 then Traced.throw (.thrown "vector::reserve")
      let data ← Traced.iter (Tracing.restoreValue fuel) rowCount.toNat
        (.array (t.m_tbl[cstring bs]?.getD {}).data)
      pure { t with m_tbl := t.m_tbl.insert (cstring bs) ⟨(data.vector?).getD []⟩ }) := by
    simp only [Tracing.loadColumn, bind_assoc]
  rw [hload, Leaves, notes_bind (traces_chars _ _), BadColumn]
  refine or_congr (leaves_chars _ _ hs) ?_
  refine (describes_chars (n := n) "Read 'nameSize' failed" "Read 'name' failed").exists_ok hs hlen
    (D := fun _ rest => valueItems.Before rowCount.toNat BadValue rest)
    fun name s' _ hs' hinput => ?_
  have hlen' : s'.rest.length ≤ n := by
    change s.rest = charsItems.text name ++ s'.rest at hinput
    rw [hinput, List.length_append] at hlen
    omega
  by_cases hneg : rowCount < 0
  · -- the count is refused, and no cell is read
    simp only [if_pos hneg]
    refine iff_of_false (not_notes_throw _) ?_
    rintro ⟨ys, hys, -⟩
    omega
  · simp only [if_neg hneg, id]
    have hcells := notes_iter_items (traces_restoreValue fuel)
      (describes_nextValue hfuel (t.m_tbl[cstring name]?.getD {}).data)
      (fun ys s hs hlen => leaves_restoreValue fuel n hfuel _ hs hlen) hs' hlen' rowCount.toNat
    simp only [List.map_nil, List.append_nil] at hcells
    exact (notes_bind_pure (Traces.iter (traces_restoreValue fuel) _ _)).trans hcells

/-- A check makes no note, and stops the run when it fails. -/
theorem leaves_assert1 (expr : Bool) (message : String) {α : Type} (q : Tracing.LoadM α)
    (s : Stream) :
    Leaves (Traced.lift (assert1 expr message) >>= fun _ => q) s ↔ expr = true ∧ Leaves q s := by
  rw [Leaves, notes_lift_bind]
  cases expr with
  | true =>
      constructor
      · rintro ⟨_, s', hrun, hnotes⟩
        cases hrun
        exact ⟨rfl, hnotes⟩
      · rintro ⟨-, hnotes⟩
        exact ⟨(), s, rfl, hnotes⟩
  | false =>
      refine iff_of_false ?_ (fun h => absurd h.1 (by decide))
      rintro ⟨_, s', hrun, -⟩
      cases hrun

theorem leaves_columns {n fuel : Nat} (hfuel : n < fuel) (rowCount columnCount : Int)
    (t : ClickTable) {s : Stream} (hs : loadView.Inv s) (hlen : s.rest.length ≤ n) :
    Leaves (do
        let t ← Traced.iter (Tracing.loadColumn fuel rowCount) columnCount.toNat t
        pure { t with m_rowCount := toSizeT rowCount }) s ↔
      (columnItems rowCount).Before columnCount.toNat (BadColumn rowCount) s.rest := by
  have hstep : ∀ ys : List ColumnImage,
      Loads n (loadColumn fuel rowCount (ys.foldl ClickTable.addColumn t))
        ((columnItems rowCount).one fun x => (ys ++ [x]).foldl ClickTable.addColumn t) := by
    intro ys
    simp only [List.foldl_append, List.foldl_cons, List.foldl_nil]
    exact describes_loadColumn hfuel rowCount _
  rw [Leaves, notes_bind_pure (Traces.iter (traces_loadColumn fuel rowCount) _ _)]
  exact notes_iter_items (a := fun ys : List ColumnImage => ys.foldl ClickTable.addColumn t)
    (traces_loadColumn fuel rowCount) hstep
    (fun ys s hs hlen => leaves_loadColumn hfuel rowCount _ hs hlen) hs hlen columnCount.toNat

theorem leaves_counts {n fuel : Nat} (hfuel : n < fuel) (t : ClickTable) {s : Stream}
    (hs : loadView.Inv s) (hlen : s.rest.length ≤ n) :
    Leaves (do
        let columnCount ← Traced.lift (readInt "Read 'columnCount' failed")
        let rowCount ← Traced.lift (readInt "Read 'rowCount' failed")
        let t ← Traced.iter (Tracing.loadColumn fuel rowCount) columnCount.toNat t
        pure { t with m_rowCount := toSizeT rowCount }) s ↔
      ∃ columnCount, InInt columnCount ∧ ∃ rest, s.rest = intBytes columnCount ++ rest ∧
        ∃ rowCount, InInt rowCount ∧ ∃ rest', rest = intBytes rowCount ++ rest' ∧
          (columnItems rowCount).Before columnCount.toNat (BadColumn rowCount) rest' := by
  rw [Leaves, notes_lift_bind]
  refine exists_readInt hs (D := fun columnCount rest => ∃ rowCount, InInt rowCount ∧
    ∃ rest', rest = intBytes rowCount ++ rest' ∧
      (columnItems rowCount).Before columnCount.toNat (BadColumn rowCount) rest')
    fun columnCount s₁ _ hs₁ hlen₁ => ?_
  rw [notes_lift_bind]
  refine exists_readInt hs₁ (D := fun rowCount rest =>
    (columnItems rowCount).Before columnCount.toNat (BadColumn rowCount) rest)
    fun rowCount s₂ _ hs₂ hlen₂ => ?_
  exact leaves_columns hfuel rowCount columnCount t hs₂ (by omega)

theorem leaves_loadBody {fuel : Nat} (t : ClickTable) {s : Stream} (hs : loadView.Inv s)
    (hlen : s.rest.length ≤ fuel) :
    Leaves (Tracing.loadBody fuel t) s ↔ BadFile s.rest := by
  have hchecks : Leaves (Tracing.loadBody fuel t) s ↔
      ∃ key, InInt key ∧ ∃ rest, s.rest = intBytes key ++ rest ∧
        ∃ mask, InInt mask ∧ ∃ rest', rest = intBytes mask ++ rest' ∧
          (key == KEY) = true ∧ (mask == MASK) = true ∧
            ∃ columnCount, InInt columnCount ∧ ∃ rest, rest' = intBytes columnCount ++ rest ∧
              ∃ rowCount, InInt rowCount ∧ ∃ rest', rest = intBytes rowCount ++ rest' ∧
                (columnItems rowCount).Before columnCount.toNat (BadColumn rowCount) rest' := by
    rw [Leaves, Tracing.loadBody, notes_lift_bind]
    refine exists_readInt hs fun key s₁ _ hs₁ hlen₁ => ?_
    rw [notes_lift_bind]
    refine exists_readInt hs₁ fun mask s₂ _ hs₂ hlen₂ => ?_
    refine (leaves_assert1 _ _ _ s₂).trans (and_congr_right fun _ => ?_)
    refine (leaves_assert1 _ _ _ s₂).trans (and_congr_right fun _ => ?_)
    exact leaves_counts (n := fuel - 4) (by omega) t hs₂ (by omega)
  rw [hchecks]
  constructor
  · rintro ⟨key, -, _, hrest, mask, -, _, rfl, hkey, hmask, cc, hcc, _, rfl, rc, hrc, rest, rfl, h⟩
    obtain rfl := beq_iff_eq.mp hkey
    obtain rfl := beq_iff_eq.mp hmask
    exact ⟨cc, rc, hcc, hrc, rest, hrest, h⟩
  · rintro ⟨cc, rc, hcc, hrc, rest, hrest, h⟩
    exact ⟨KEY, inInt_key, _, hrest, MASK, inInt_mask, _, rfl, by decide, by decide, cc, hcc, _, rfl,
      rc, hrc, rest, rfl, h⟩

/-- **Reads within the buffer.** Every read of a name or a string in a file stays within its
reservation exactly when the file does not lead `load` to a length that is negative or
`INT_MAX`. -/
theorem reads_within_iff (t : ClickTable) (bytes : Bytes) :
    (∀ p ∈ t.reads bytes, p.Within) ↔ ¬ BadFile bytes := by
  rw [← leaves_loadBody t (loadView_initial bytes) (le_refl bytes.length)]
  simp [Leaves, Notes, ClickTable.reads]

/-- A file that counts one column and no row, and ends with the length -1 of the name. -/
def negativeName : Bytes :=
  intBytes KEY ++ (intBytes MASK ++ (intBytes 1 ++ (intBytes 0 ++ intBytes (-1))))

/-- The buffer is asked for no byte, and `fread` for `2 ^ 64 - 1`. -/
theorem reads_within_fails :
    ({} : ClickTable).reads negativeName = [⟨-1, {}⟩] ∧
      (⟨-1, {}⟩ : ReadPoint).capacity? = some 0 ∧ toSizeT (-1) = 2 ^ 64 - 1 ∧
      ¬ ∀ p ∈ ({} : ClickTable).reads negativeName, p.Within := by
  have hreads : ({} : ClickTable).reads negativeName = [⟨-1, {}⟩] := by decide +kernel
  refine ⟨hreads, by decide, by decide, fun h => ?_⟩
  rw [hreads] at h
  have hgood := (within_iff ⟨by decide, by decide⟩ Buffer.sound_empty (by decide)).mp
    (h ⟨-1, {}⟩ (List.mem_singleton_self _))
  exact hgood (.inl (by decide))

end FlexEtl
