/-
FlexEtl.Table.SaveFile — `ClickTable::save` on a file that may not take all bytes.

`fwrite` and `fclose` say how much they have written, and `save` looks at none
of their results: only `fopen` is checked. So a save throws when the file
cannot be opened and in no other case, and it leaves a whole file exactly when
no call was short (`save_whole_iff`).
-/
import FlexEtl.Table.Cdb

namespace FlexEtl

/-! ## Output streams -/

/-- What becomes of a file while it is written: whether `fopen` succeeds, how many bytes
each call of `fwrite` takes at most, and how many bytes at the end the flush of `fclose`
loses. -/
structure SaveEnv where
  opened : Bool := true
  taken : Nat → Nat
  lost : Nat := 0

/-- A `FILE` that is open for writing: the bytes taken so far, and the calls made. -/
structure OutStream where
  content : Bytes := []
  calls : Nat := 0

/-- `fwrite`: the bytes that the stream takes, and their number. -/
def fwrite (env : SaveEnv) (fl : OutStream) (payload : Bytes) : Nat × OutStream :=
  let bs := payload.take (env.taken fl.calls)
  (bs.length, { content := fl.content ++ bs, calls := fl.calls + 1 })

/-- `fclose`: the bytes that are in the file then, and whether it reports success. -/
def fclose (env : SaveEnv) (fl : OutStream) : Bool × Bytes :=
  (env.lost == 0, fl.content.take (fl.content.length - env.lost))

namespace ClickTable

/-- The calls of `fwrite`, with what they return ignored. -/
def writePayloads (env : SaveEnv) (fl : OutStream) (payloads : List Bytes) : OutStream :=
  payloads.foldl (fun fl payload => (fwrite env fl payload).2) fl

/-- `ClickTable::save`: how it ends, and the file it leaves if it has opened one. The
result of `fclose` is ignored as well. -/
def saveTo (t : ClickTable) (fileName : String) (env : SaveEnv) :
    Except String Unit × Option Bytes :=
  if env.opened then
    (.ok (), some (fclose env (writePayloads env {} t.save)).2)
  else (.error s!"Error at open file \"{fileName}\" for writing", none)

/-! ## Short writes -/

/-- The `fwrite` calls take all of their payloads, counted from call `i`. -/
def TakesAll (env : SaveEnv) : Nat → List Bytes → Prop
  | _, [] => True
  | i, payload :: payloads => payload.length ≤ env.taken i ∧ TakesAll env (i + 1) payloads

theorem writePayloads_cons (env : SaveEnv) (fl : OutStream) (payload : Bytes)
    (payloads : List Bytes) :
    writePayloads env fl (payload :: payloads) =
      writePayloads env
        { content := fl.content ++ payload.take (env.taken fl.calls), calls := fl.calls + 1 }
        payloads := rfl

/-- Streams that take all get all. -/
theorem writePayloads_of_takesAll {env : SaveEnv} {payloads : List Bytes} {fl : OutStream}
    (h : TakesAll env fl.calls payloads) :
    (writePayloads env fl payloads).content = fl.content ++ payloads.flatten := by
  induction payloads generalizing fl with
  | nil => simp [writePayloads]
  | cons payload payloads ih =>
      have htake : payload.take (env.taken fl.calls) = payload := List.take_of_length_le h.1
      rw [writePayloads_cons, htake, @ih ⟨fl.content ++ payload, fl.calls + 1⟩ h.2]
      simp

theorem length_writePayloads_le (env : SaveEnv) (payloads : List Bytes) (fl : OutStream) :
    (writePayloads env fl payloads).content.length ≤
      fl.content.length + payloads.flatten.length := by
  induction payloads generalizing fl with
  | nil => simp [writePayloads]
  | cons payload payloads ih =>
      have hrest := ih ⟨fl.content ++ payload.take (env.taken fl.calls), fl.calls + 1⟩
      have htake : (payload.take (env.taken fl.calls)).length ≤ payload.length :=
        List.length_take_le' _ _
      rw [writePayloads_cons]
      simp only [List.length_append, List.flatten_cons] at hrest ⊢
      omega

/-- Nothing makes up for a short write: what it has left out is missing in the end. -/
theorem takesAll_of_length {env : SaveEnv} {payloads : List Bytes} {fl : OutStream}
    (h : fl.content.length + payloads.flatten.length ≤
      (writePayloads env fl payloads).content.length) : TakesAll env fl.calls payloads := by
  induction payloads generalizing fl with
  | nil => trivial
  | cons payload payloads ih =>
      rw [writePayloads_cons] at h
      have hrest := length_writePayloads_le env payloads
        ⟨fl.content ++ payload.take (env.taken fl.calls), fl.calls + 1⟩
      have htake := List.length_take_le' (env.taken fl.calls) payload
      simp only [List.length_append, List.flatten_cons] at h hrest
      have hwhole : (payload.take (env.taken fl.calls)).length = payload.length := by omega
      refine ⟨?_, @ih ⟨fl.content ++ payload.take (env.taken fl.calls), fl.calls + 1⟩ ?_⟩
      · rw [List.length_take] at hwhole
        omega
      · simp only [List.length_append]
        omega

/-- A file has a header. -/
theorem length_save_pos (t : ClickTable) : 0 < t.save.flatten.length := by
  simp only [save, List.flatten_append, List.flatten_cons, List.length_append, intBytes,
    LittleEndian.length_ofInt]
  omega

/-- A save has not lied: it has thrown, or the file is the complete encoding. -/
def SaveHonest (t : ClickTable) (fileName : String) (env : SaveEnv) : Prop :=
  (∃ what, (t.saveTo fileName env).1 = .error what) ∨ (t.saveTo fileName env).2 = some t.saved

/-- **Whole files.** A save throws or leaves the complete encoding of the table exactly
when the file cannot be opened, or every `fwrite` takes all it is given and the flush on
closing loses nothing. -/
theorem save_whole_iff (t : ClickTable) (fileName : String) (env : SaveEnv) :
    SaveHonest t fileName env ↔
      env.opened = false ∨ (TakesAll env 0 t.save ∧ env.lost = 0) := by
  unfold SaveHonest saveTo
  cases env.opened with
  | false => simp
  | true =>
      simp only [if_true, reduceCtorEq, exists_false, false_or, Option.some.injEq, fclose, saved]
      constructor
      · intro heq
        have hlen := congrArg List.length heq
        rw [List.length_take] at hlen
        have hle := length_writePayloads_le env t.save {}
        have hpos := length_save_pos t
        rw [List.length_nil, Nat.zero_add] at hle
        refine ⟨@takesAll_of_length env t.save {} ?_, by omega⟩
        rw [List.length_nil, Nat.zero_add]
        omega
      · rintro ⟨htakes, hlost⟩
        rw [hlost, Nat.sub_zero, List.take_length, @writePayloads_of_takesAll env t.save {} htakes,
          List.nil_append]

/-- A table of one row, saved to a disk that is full from the fifth call on: the save
returns, and the file is the header alone. -/
theorem save_short_file :
    let t := ClickTable.run {} [.row [([97], .bool true)] true]
    let env : SaveEnv := { taken := fun i => if i < 4 then 4 else 0 }
    (t.saveTo "t.cdb" env).1 = .ok () ∧
      (t.saveTo "t.cdb" env).2 = some [46, 99, 100, 98, 0, 0, 0, 0, 1, 0, 0, 0, 1, 0, 0, 0] ∧
      t.saved.length = 26 ∧ ¬ SaveHonest t "t.cdb" env := by
  intro t env
  have hfile : (t.saveTo "t.cdb" env).2 =
      some [46, 99, 100, 98, 0, 0, 0, 0, 1, 0, 0, 0, 1, 0, 0, 0] := by decide +kernel
  have hlen : t.saved.length = 26 := by decide +kernel
  refine ⟨rfl, hfile, hlen, ?_⟩
  rintro (⟨what, hthrow⟩ | hwhole)
  · cases hthrow
  · rw [hfile] at hwhole
    rw [← Option.some.inj hwhole] at hlen
    cases hlen

end ClickTable

end FlexEtl
