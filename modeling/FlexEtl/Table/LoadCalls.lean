/-
FlexEtl.Table.LoadCalls — how much `load` does before it ends.

The decoders of `Cdb` are written a second time with the calls of
`restoreValue` counted, and nothing else changed: without the count they are
the decoders of `Cdb` (`pays_loadBody`). A call begins by taking the four bytes
of a tag, so all calls but the last are paid for by bytes of the file,
whichever counts the file claims. How a call of `load` ends does not depend on
the table it is called on (`load_alike`), so what is known of the empty table
says exactly when it ends at all (`decodingEnds_iff`).
-/
import FlexEtl.Table.LoadTheorems
import FlexEtl.Lib.Calls

namespace FlexEtl

open Decoder

/-! ## Counted decoders -/

namespace Counting

open Counted

abbrev LoadM := Counted Fault Stream

/-- `restoreValue`. -/
def restoreValue : Nat → Value → LoadM Value
  | 0, _ => throw .outOfFuel
  | fuel + 1, .array vec => do
      call
      match ← lift readType with
      | some .str =>
          let size ← lift (readInt "Read string value length failed")
          let bs ← lift (readChars size "Read string value failed")
          pure (.array (vec ++ [.str (cstring bs)]))
      | some .array =>
          let size ← lift (readInt "Read array length failed")
          let val ← Decoder.iter (restoreValue fuel) size.toNat (.array [])
          pure (.array (vec ++ [val]))
      | some .int =>
          let u ← lift (readWord "Read value failed")
          pure (.array (vec ++ [.int u.toInt64]))
      | some .uint =>
          let u ← lift (readWord "Read value failed")
          pure (.array (vec ++ [.uint u]))
      | some .double =>
          let u ← lift (readWord "Read value failed")
          pure (.array (vec ++ [.double u]))
      | some .bool =>
          let bs ← lift (freadExact 1 "Read value failed")
          pure (.array (vec ++ [.bool (bs != [0])]))
      | some .unknown => pure (.array (vec ++ [.null]))
      | none => throw (.thrown "Read unknown value type")
  | _ + 1, _ => do
      call
      throw (.thrown "Value type mast be CT_ARRAY")

/-- The body of `load`'s loop over the columns. -/
def loadColumn (fuel : Nat) (rowCount : Int) (t : ClickTable) : LoadM ClickTable := do
  let nameSize ← lift (readInt "Read 'nameSize' failed")
  let bs ← lift (readChars nameSize "Read 'name' failed")
  let name := cstring bs
  let el := t.m_tbl[name]?.getD {}
  if rowCount < 0 then throw (.thrown "vector::reserve")
  let data ← Decoder.iter (restoreValue fuel) rowCount.toNat (.array el.data)
  pure { t with m_tbl := t.m_tbl.insert name ⟨(data.vector?).getD []⟩ }

/-- The `try` block of `load`. -/
def loadBody (fuel : Nat) (t : ClickTable) : LoadM ClickTable := do
  let key ← lift (readInt "Read 'KEY' failed")
  let mask ← lift (readInt "Read 'MASK' failed")
  lift (assert1 (key == KEY) "invalid KEY")
  lift (assert1 (mask == MASK) "invalid MASK")
  let columnCount ← lift (readInt "Read 'columnCount' failed")
  let rowCount ← lift (readInt "Read 'rowCount' failed")
  let t ← Decoder.iter (loadColumn fuel rowCount) columnCount.toNat t
  pure { t with m_rowCount := toSizeT rowCount }

end Counting

/-- The calls of `restoreValue` that `load` makes in a file, however it ends. -/
def ClickTable.calls (t : ClickTable) (bytes : Bytes) : Nat :=
  match Counting.loadBody bytes.length t ({ rest := bytes }, 0) with
  | .ok _ s => s.2
  | .error _ s => s.2

/-! ## What the fields take -/

/-- What is left of the file. -/
abbrev left (s : Stream) : Nat := s.rest.length

theorem takes_freadExact (n : Nat) (message : String) : Takes left n (freadExact n message) := by
  intro s bs s' hrun
  rw [freadExact_eq] at hrun
  split at hrun
  · rename_i hlen
    cases hrun
    rw [List.length_take] at hlen
    simp only [left, List.length_drop]
    omega
  · cases hrun

theorem takes_readInt (message : String) : Takes left 4 (readInt message) :=
  (takes_freadExact 4 message).map _

theorem takes_readWord (message : String) : Takes left 8 (readWord message) :=
  (takes_freadExact 8 message).map _

theorem takes_readType : Takes left 4 readType :=
  (takes_freadExact 4 "Read type value failed").map _

theorem takes_readChars (size : Int) (message : String) :
    Takes left 0 (readChars size message) := by
  intro s bs s' hrun
  by_cases hmax : size = intMax
  · unfold readChars reserveChars at hrun
    rw [if_pos hmax] at hrun
    cases hrun
  · rw [readChars_eq hmax] at hrun
    dsimp only at hrun
    split at hrun
    · cases hrun
    · split at hrun
      · cases hrun
      · split at hrun
        · cases hrun
        · cases hrun
          simp [left]

theorem takes_assert1 (expr : Bool) (message : String) : Takes left 0 (assert1 expr message) := by
  intro s u s' hrun
  unfold assert1 at hrun
  split at hrun
  · cases hrun
    exact Nat.le_refl _
  · cases hrun

/-! ## What the calls cost -/

/-- The calls of `q` are paid for, a tag each. -/
abbrev PaysTags {α : Type} (q : Counting.LoadM α) (p : LoadM α) : Prop := Pays left 4 q p

theorem pays_readInt (message : String) :
    PaysTags (Counted.lift (readInt message)) (readInt message) :=
  Pays.lift ((takes_readInt message).mono (by decide))

theorem pays_readWord (message : String) :
    PaysTags (Counted.lift (readWord message)) (readWord message) :=
  Pays.lift ((takes_readWord message).mono (by decide))

theorem pays_restoreValue (fuel : Nat) (value : Value) :
    PaysTags (Counting.restoreValue fuel value) (restoreValue fuel value) := by
  induction fuel generalizing value with
  | zero =>
      unfold Counting.restoreValue restoreValue
      exact Pays.throw _
  | succ fuel ih =>
      cases value with
      | array vec =>
          refine Pays.call takes_readType fun type => ?_
          cases type with
          | none => exact Pays.throw _
          | some type =>
              cases type with
              | unknown => exact Pays.pure _
              | str =>
                  exact (pays_readInt _).bind fun size =>
                    (Pays.lift (takes_readChars size _)).bind fun bs => Pays.pure _
              | int => exact (pays_readWord _).bind fun u => Pays.pure _
              | uint => exact (pays_readWord _).bind fun u => Pays.pure _
              | double => exact (pays_readWord _).bind fun u => Pays.pure _
              | bool =>
                  exact (Pays.lift ((takes_freadExact 1 _).mono (by decide))).bind
                    fun bs => Pays.pure _
              | array =>
                  exact (pays_readInt _).bind fun size =>
                    (Pays.iter ih size.toNat _).bind fun val => Pays.pure _
      | _ => exact Pays.call_throw _

theorem pays_loadColumn (fuel : Nat) (rowCount : Int) (t : ClickTable) :
    PaysTags (Counting.loadColumn fuel rowCount t) (loadColumn fuel rowCount t) := by
  refine (pays_readInt _).bind fun nameSize => ?_
  refine (Pays.lift (takes_readChars nameSize _)).bind fun bs => ?_
  by_cases hneg : rowCount < 0
  · simp only [if_pos hneg]
    exact Pays.throw _
  · simp only [if_neg hneg]
    exact (Pays.iter (pays_restoreValue fuel) _ _).bind fun data => Pays.pure _

/-- The counted `load` is `load`, and its calls are paid for. -/
theorem pays_loadBody (fuel : Nat) (t : ClickTable) :
    PaysTags (Counting.loadBody fuel t) (loadBody fuel t) := by
  refine (pays_readInt _).bind fun key => ?_
  refine (pays_readInt _).bind fun mask => ?_
  refine (Pays.lift (takes_assert1 _ _)).bind fun u => ?_
  refine (Pays.lift (takes_assert1 _ _)).bind fun u => ?_
  refine (pays_readInt _).bind fun columnCount => ?_
  refine (pays_readInt _).bind fun rowCount => ?_
  exact (Pays.iter (pays_loadColumn fuel rowCount) _ _).bind fun t => Pays.pure _

/-- All calls but the last have taken a tag off the file. -/
theorem calls_le (t : ClickTable) (bytes : Bytes) : t.calls bytes ≤ bytes.length / 4 + 1 := by
  have hpays := pays_loadBody bytes.length t
  unfold ClickTable.calls
  cases hrun : Counting.loadBody bytes.length t ({ rest := bytes }, 0) with
  | ok t' s =>
      have hpaid := hpays.ok hrun
      simp only [left] at hpaid
      dsimp only
      omega
  | error e s =>
      have hpaid := hpays.error hrun
      simp only [left] at hpaid
      dsimp only
      omega

/-! ## The table that is there already -/

/-- Two arrays. -/
def BothArrays (val val' : Value) : Prop := ∃ xs xs', val = .array xs ∧ val' = .array xs'

theorem alike_restoreValue (fuel : Nat) (vec vec' : List Value) :
    Alike BothArrays (restoreValue fuel (.array vec)) (restoreValue fuel (.array vec')) := by
  have hpush : ∀ v : Value, Alike BothArrays (pure (.array (vec ++ [v])) : LoadM Value)
      (pure (.array (vec' ++ [v])) : LoadM Value) :=
    fun v => Alike.pure ⟨_, _, rfl, rfl⟩
  cases fuel with
  | zero => exact Alike.throw _
  | succ fuel =>
      refine (Alike.refl readType).bind ?_
      rintro type _ rfl
      cases type with
      | none => exact Alike.throw _
      | some type =>
          cases type with
          | unknown => exact hpush _
          | str =>
              refine (Alike.refl _).bind ?_
              rintro size _ rfl
              refine (Alike.refl _).bind ?_
              rintro bs _ rfl
              exact hpush _
          | array =>
              refine (Alike.refl _).bind ?_
              rintro size _ rfl
              refine (Alike.refl _).bind ?_
              rintro val _ rfl
              exact hpush _
          | _ =>
              refine (Alike.refl _).bind ?_
              rintro u _ rfl
              exact hpush _

theorem alike_loadColumn (fuel : Nat) (rowCount : Int) (t t' : ClickTable) :
    Alike (fun _ _ => True) (loadColumn fuel rowCount t) (loadColumn fuel rowCount t') := by
  refine (Alike.refl _).bind ?_
  rintro nameSize _ rfl
  refine (Alike.refl _).bind ?_
  rintro bs _ rfl
  by_cases hneg : rowCount < 0
  · simp only [if_pos hneg]
    exact Alike.throw _
  · simp only [if_neg hneg]
    refine (Alike.iter (R := BothArrays) ?_ rowCount.toNat _ _ ⟨_, _, rfl, rfl⟩).bind
      fun data data' _ => Alike.pure trivial
    rintro _ _ ⟨xs, xs', rfl, rfl⟩
    exact alike_restoreValue fuel xs xs'

theorem alike_loadBody (fuel : Nat) (t t' : ClickTable) :
    Alike (fun _ _ => True) (loadBody fuel t) (loadBody fuel t') := by
  refine (Alike.refl _).bind ?_
  rintro key _ rfl
  refine (Alike.refl _).bind ?_
  rintro mask _ rfl
  refine (Alike.refl _).bind ?_
  rintro u _ rfl
  refine (Alike.refl _).bind ?_
  rintro u' _ rfl
  refine (Alike.refl _).bind ?_
  rintro columnCount _ rfl
  refine (Alike.refl _).bind ?_
  rintro rowCount _ rfl
  exact (Alike.iter (fun _ _ _ => alike_loadColumn fuel rowCount _ _) columnCount.toNat t t'
    trivial).bind fun _ _ _ => Alike.pure trivial

/-! ## The end of `load` -/

/-- A call of `load` that returns or throws. -/
def LoadResult.Ends : LoadResult → Prop
  | .returned _ => True
  | .threw _ _ => True
  | .undefined _ => False
  | .outOfFuel => False

/-- How `load` ends is decided by the file, and not by the table. -/
theorem load_alike (t t' : ClickTable) (fileName : String) (bytes : Bytes) :
    ((t.load fileName (some bytes)).Ends ↔ (t'.load fileName (some bytes)).Ends) ∧
      (t.load fileName (some bytes) = .outOfFuel ↔ t'.load fileName (some bytes) = .outOfFuel) := by
  unfold ClickTable.load
  rcases alike_loadBody bytes.length t t' { rest := bytes } with
    ⟨t₁, t₁', s, hrun, hrun', -⟩ | ⟨e, s, hrun, hrun'⟩
  · simp [hrun, hrun', LoadResult.Ends]
  · cases e <;> simp [hrun, hrun', LoadResult.Ends]

theorem load_ne_outOfFuel (t : ClickTable) (fileName : String) (bytes : Bytes) :
    t.load fileName (some bytes) ≠ .outOfFuel := by
  intro hfuel
  have hfuel' := (load_alike t {} fileName bytes).2.mp hfuel
  rcases load_cases bytes fileName with ⟨f, rest, -, -, hload⟩ | hfault | ⟨what, hload⟩
  · rw [hload] at hfuel'
    cases hfuel'
  · obtain ⟨what, hload⟩ := load_of_fault hfault fileName
    rw [hload] at hfuel'
    cases hfuel'
  · rw [hload] at hfuel'
    cases hfuel'

theorem ends_load_iff (t : ClickTable) (fileName : String) (bytes : Bytes) :
    (t.load fileName (some bytes)).Ends ↔ ¬ fileItems.Fault bytes 0 := by
  rw [(load_alike t {} fileName bytes).1]
  constructor
  · intro hends hfault
    obtain ⟨what, hload⟩ := load_of_fault hfault fileName
    rw [hload] at hends
    exact hends
  · intro hnot
    rcases load_cases bytes fileName with ⟨f, rest, -, -, hload⟩ | hfault | ⟨what, hload⟩
    · rw [hload]
      trivial
    · exact absurd hfault hnot
    · rw [hload]
      trivial

/-- `load` returns or throws, after so many calls of `restoreValue`. -/
def DecodingEnds (t : ClickTable) (fileName : String) (bytes : Bytes) : Prop :=
  (t.load fileName (some bytes)).Ends ∧ t.calls bytes ≤ bytes.length / 4 + 1

/-- **Decoding terminates.** In every file, and whatever it claims, `restoreValue` is called
at most once for each four bytes and once more, and the recursion comes to its end. `load`
then returns or throws exactly when no length in the file overruns the buffer. -/
theorem decodingEnds_iff (t : ClickTable) (fileName : String) (bytes : Bytes) :
    (t.calls bytes ≤ bytes.length / 4 + 1 ∧ t.load fileName (some bytes) ≠ .outOfFuel) ∧
      (DecodingEnds t fileName bytes ↔ ¬ fileItems.Fault bytes 0) := by
  have hcalls := calls_le t bytes
  refine ⟨⟨hcalls, load_ne_outOfFuel t fileName bytes⟩, ?_⟩
  rw [← ends_load_iff t fileName bytes]
  exact and_iff_left hcalls

/-- A file that counts one column and no row, with a name of `-2` bytes, and a byte after it. -/
def minusTwoName : Bytes :=
  intBytes KEY ++ (intBytes MASK ++ (intBytes 1 ++ (intBytes 0 ++ (intBytes (-2) ++ [0]))))

/-- No block has `-1` bytes, and the byte is read all the same: `load` neither returns nor
throws. -/
theorem minusTwoName_not_decodingEnds : ¬ DecodingEnds {} "t.cdb" minusTwoName := by
  have hfault : fileItems.Fault minusTwoName 0 := by
    refine ⟨1, 0, ⟨by decide, by decide⟩, ⟨by decide, by decide⟩, intBytes (-2) ++ [0], rfl, ?_⟩
    refine ⟨[], by decide, by simp, intBytes (-2) ++ [0], rfl, .inl ?_⟩
    exact ⟨-2, ⟨by decide, by decide⟩, [0], rfl, .inr (.inl ⟨by decide, by decide⟩)⟩
  rintro ⟨hends, -⟩
  exact (ends_load_iff {} "t.cdb" minusTwoName).mp hends hfault

end FlexEtl
