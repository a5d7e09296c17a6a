/-
FlexEtl.Node.PipeSet — fan-out to the sub-nodes, from `pipeset.cpp`.

A sub-handler is what its `doProc` does to the file system, and its answer.
`doProc` offers the file to the sub-handlers in order under `res = res && …`,
so the first refusal ends the offers, and then removes the file. `offerAll`
is the fan-out the set stands for: the same offers without the shortcut. The
two agree up to the first refusal (`offer_eq`), which gives the exact
condition under which `doProc` isolates its targets.
-/
import FlexEtl.Node.FileSystem
import Mathlib.Data.List.Nodup

namespace FlexEtl

/-- `IHandler::doProc`. -/
abbrev Handler := Path → Fs → Bool × Fs

namespace PipeSet

/-! ## The code -/

/-- What a call of `doProc` has done so far. `answers` holds the position of every
sub-node that was offered the file, with its answer. -/
structure Run where
  res : Bool := true
  fs : Fs
  answers : List (Nat × Bool) := []

/-- The loop over the sub-nodes from position `i` on. -/
def offer (fileName : Path) : Nat → List (Option Handler) → Run → Run
  | _, [], r => r
  | i, none :: subs, r => offer fileName (i + 1) subs r
  | i, some hundler :: subs, r =>
      if r.res then
        let (ok, fs) := hundler fileName r.fs
        offer fileName (i + 1) subs { res := ok, fs, answers := r.answers ++ [(i, ok)] }
      else offer fileName (i + 1) subs r

/-- `PipeSet::doProc`: the run, and whether `moveFile` removed the file. -/
def doProc (subs : List (Option Handler)) (env : MoveEnv) (fileName : Path) (fs : Fs) :
    Run × Bool :=
  let r := offer fileName 0 subs { fs }
  let (removed, fs) := moveFile env "" fileName r.fs
  ({ r with fs }, removed)

/-! ## The fan-out it stands for -/

/-- Every sub-handler in turn, whatever the others answer. -/
def offerAll (fileName : Path) : Nat → List (Option Handler) → Fs → List (Nat × Bool) × Fs
  | _, [], fs => ([], fs)
  | i, none :: subs, fs => offerAll fileName (i + 1) subs fs
  | i, some hundler :: subs, fs =>
      let (ok, fs) := hundler fileName fs
      let (answers, fs) := offerAll fileName (i + 1) subs fs
      ((i, ok) :: answers, fs)

/-- The positions of the sub-nodes that have a handler. -/
def handled : Nat → List (Option Handler) → List Nat
  | _, [] => []
  | i, none :: subs => handled (i + 1) subs
  | i, some _ :: subs => i :: handled (i + 1) subs

theorem le_of_mem_handled {subs : List (Option Handler)} : ∀ {i j : Nat},
    j ∈ handled i subs → i ≤ j := by
  induction subs with
  | nil => intro i j h; simp [handled] at h
  | cons sub subs ih =>
      intro i j h
      cases sub with
      | none => exact Nat.le_of_succ_le (ih h)
      | some hundler =>
          rcases List.mem_cons.mp h with rfl | h
          · exact Nat.le_refl _
          · exact Nat.le_of_succ_le (ih h)

theorem mem_handled {subs : List (Option Handler)} : ∀ {i j : Nat},
    i + j ∈ handled i subs ↔ ∃ hundler, subs[j]? = some (some hundler) := by
  induction subs with
  | nil => intro i j; simp [handled]
  | cons sub subs ih =>
      intro i j
      cases j with
      | zero =>
          cases sub with
          | none =>
              have hlow : i ∉ handled (i + 1) subs := fun h => by
                have := le_of_mem_handled h
                omega
              simp [handled, hlow]
          | some hundler => simp [handled]
      | succ j =>
          have hrest := ih (i := i + 1) (j := j)
          rw [show i + 1 + j = i + (j + 1) by omega] at hrest
          cases sub with
          | none => simpa [handled] using hrest
          | some hundler => simpa [handled] using hrest

theorem nodup_handled (subs : List (Option Handler)) : ∀ i, (handled i subs).Nodup := by
  induction subs with
  | nil => exact fun _ => List.nodup_nil
  | cons sub subs ih =>
      intro i
      cases sub with
      | none => exact ih (i + 1)
      | some hundler =>
          refine List.nodup_cons.mpr ⟨fun h => ?_, ih (i + 1)⟩
          have := le_of_mem_handled h
          omega

/-- The fan-out asks every handler, in order and once. -/
theorem map_offerAll (fileName : Path) (subs : List (Option Handler)) : ∀ (i : Nat) (fs : Fs),
    (offerAll fileName i subs fs).1.map (·.1) = handled i subs := by
  induction subs with
  | nil => exact fun _ _ => rfl
  | cons sub subs ih =>
      intro i fs
      cases sub with
      | none => exact ih (i + 1) fs
      | some hundler => exact congrArg (i :: ·) (ih (i + 1) (hundler fileName fs).2)

/-- With no handler left the fan-out does nothing. -/
theorem offerAll_fs (fileName : Path) (subs : List (Option Handler)) : ∀ (i : Nat) (fs : Fs),
    (offerAll fileName i subs fs).1 = [] → (offerAll fileName i subs fs).2 = fs := by
  induction subs with
  | nil => exact fun _ _ _ => rfl
  | cons sub subs ih =>
      intro i fs h
      cases sub with
      | none => exact ih (i + 1) fs h
      | some hundler => cases h

/-! ## Where they agree -/

/-- After a refusal nothing is offered any more. -/
theorem offer_refused {fileName : Path} (subs : List (Option Handler)) : ∀ (i : Nat) {r : Run},
    r.res = false → offer fileName i subs r = r := by
  induction subs with
  | nil => exact fun _ _ _ => rfl
  | cons sub subs ih =>
      intro i r hr
      cases sub with
      | none => exact ih (i + 1) hr
      | some hundler =>
          rw [offer, hr]
          exact ih (i + 1) hr

/-- The loop follows the fan-out up to the first refusal. -/
theorem offer_eq (fileName : Path) (subs : List (Option Handler)) :
    ∀ (i : Nat) (fs : Fs) (done : List (Nat × Bool)),
      ((∀ a ∈ (offerAll fileName i subs fs).1, a.2 = true) ∧
        offer fileName i subs { fs, answers := done } =
          { fs := (offerAll fileName i subs fs).2
            answers := done ++ (offerAll fileName i subs fs).1 }) ∨
      ∃ accepted j rest, (offerAll fileName i subs fs).1 = accepted ++ (j, false) :: rest ∧
        (offer fileName i subs { fs, answers := done }).answers =
          done ++ (accepted ++ [(j, false)]) ∧
        (∀ a ∈ accepted, a.2 = true) ∧
        (rest = [] →
          (offer fileName i subs { fs, answers := done }).fs = (offerAll fileName i subs fs).2) := by
  induction subs with
  | nil => exact fun i fs done => .inl ⟨by simp [offerAll], by simp [offer, offerAll]⟩
  | cons sub subs ih =>
      intro i fs done
      cases sub with
      | none => exact ih (i + 1) fs done
      | some hundler =>
          rcases hproc : hundler fileName fs with ⟨ok, fs'⟩
          simp only [offer, offerAll, hproc, if_true]
          cases ok with
          | true =>
              rcases ih (i + 1) fs' (done ++ [(i, true)]) with
                ⟨hall, heq⟩ | ⟨accepted, j, rest, hsplit, hans, hacc, hfs⟩
              · refine .inl ⟨by simpa using hall, ?_⟩
                rw [heq]
                simp
              · refine .inr ⟨(i, true) :: accepted, j, rest, ?_, ?_, ?_, hfs⟩
                · rw [hsplit]; rfl
                · rw [hans]; simp
                · simpa using hacc
          | false =>
              rw [offer_refused subs (i + 1) rfl]
              refine .inr ⟨[], i, (offerAll fileName (i + 1) subs fs').1, rfl, rfl, by simp, ?_⟩
              exact fun hrest => (offerAll_fs fileName subs (i + 1) fs' hrest).symm

/-! ### Answers and positions -/

theorem mem_offerAll {subs : List (Option Handler)} {fileName : Path} {fs : Fs} {i : Nat} :
    i ∈ (offerAll fileName 0 subs fs).1.map (·.1) ↔
      ∃ hundler, subs[i]? = some (some hundler) := by
  rw [map_offerAll]
  simpa using @mem_handled subs 0 i

theorem nodup_offerAll (subs : List (Option Handler)) (fileName : Path) (fs : Fs) :
    ((offerAll fileName 0 subs fs).1.map (·.1)).Nodup := by
  rw [map_offerAll]
  exact nodup_handled subs 0

theorem count_offerAll {subs : List (Option Handler)} {fileName : Path} {fs : Fs} {i : Nat}
    {hundler : Handler} (h : subs[i]? = some (some hundler)) :
    ((offerAll fileName 0 subs fs).1.map (·.1)).count i = 1 :=
  List.count_eq_one_of_mem (nodup_offerAll subs fileName fs) (mem_offerAll.mpr ⟨hundler, h⟩)

/-- If all have been asked that there are to ask, none is left. -/
theorem rest_nil_of_asked {asked rest : List (Nat × Bool)}
    (hnodup : ((asked ++ rest).map (·.1)).Nodup)
    (hasked : ∀ i ∈ (asked ++ rest).map (·.1), (asked.map (·.1)).count i = 1) : rest = [] := by
  cases rest with
  | nil => rfl
  | cons a rest =>
      rw [List.map_append] at hnodup
      have hnot : a.1 ∉ asked.map (·.1) := fun hmem =>
        (List.nodup_append.mp hnodup).2.2 a.1 hmem a.1 (by simp) rfl
      have hcount := hasked a.1 (by simp)
      rw [List.count_eq_zero_of_not_mem hnot] at hcount
      cases hcount

/-- A refusal that ends the answers leaves nothing after the first one. -/
theorem rest_nil_of_last {accepted accepted' rest : List (Nat × Bool)} {j j' : Nat}
    (hacc : ∀ a ∈ accepted', a.2 = true)
    (h : accepted ++ (j, false) :: rest = accepted' ++ [(j', false)]) : rest = [] := by
  cases hrest : rest.reverse with
  | nil => simpa using hrest
  | cons a rest' =>
      have hlast : rest = rest'.reverse ++ [a] := by
        rw [← List.reverse_reverse rest, hrest]; simp
      rw [hlast, ← List.cons_append, ← List.append_assoc] at h
      have hinit := (List.append_inj' h rfl).1
      have hj := hacc (j, false) (by rw [← hinit]; simp)
      cases hj

/-- A sub-node that refuses the file does not accept it as well. -/
theorem refused_not_accepted {accepted : List (Nat × Bool)} {j : Nat}
    (hnodup : ((accepted ++ [(j, false)]).map (·.1)).Nodup) :
    (j, true) ∉ accepted ++ [(j, false)] := by
  intro hmem
  rcases List.mem_append.mp hmem with hmem | hmem
  · rw [List.map_append, List.nodup_append] at hnodup
    exact hnodup.2.2 j (List.mem_map_of_mem (f := (·.1)) hmem) j (by simp) rfl
  · cases List.mem_singleton.mp hmem

/-! ## Isolation -/

/-- Every sub-node with a handler is offered the file once, and the file is removed
only if each of them accepted it. -/
def Isolates (subs : List (Option Handler)) (env : MoveEnv) (fileName : Path) (fs : Fs) : Prop :=
  (∀ i hundler, subs[i]? = some (some hundler) →
    ((doProc subs env fileName fs).1.answers.map (·.1)).count i = 1) ∧
  ((doProc subs env fileName fs).2 = true → ∀ i hundler, subs[i]? = some (some hundler) →
    (i, true) ∈ (doProc subs env fileName fs).1.answers)

theorem doProc_removed (subs : List (Option Handler)) (env : MoveEnv) (fileName : Path) (fs : Fs) :
    (doProc subs env fileName fs).2 = true ↔ env.removeFails = false ∧
      ((offer fileName 0 subs { fs }).fs fileName).isSome := by
  unfold doProc
  dsimp only
  rw [moveFile_remove]
  split
  · rename_i h
    simp [h]
  · rename_i h
    simp [h]

/-- **Fan-out.** The set isolates its targets exactly when each of them accepts the
file, or only the last one refuses it and the file cannot be removed afterwards. -/
theorem isolates_iff (subs : List (Option Handler)) (env : MoveEnv) (fileName : Path) (fs : Fs) :
    Isolates subs env fileName fs ↔
      (∀ a ∈ (offerAll fileName 0 subs fs).1, a.2 = true) ∨
      ((∃ accepted j, (offerAll fileName 0 subs fs).1 = accepted ++ [(j, false)] ∧
          ∀ a ∈ accepted, a.2 = true) ∧
        (env.removeFails = true ∨ (offerAll fileName 0 subs fs).2 fileName = none)) := by
  have hremoved := doProc_removed subs env fileName fs
  have hanswers : (doProc subs env fileName fs).1.answers =
      (offer fileName 0 subs { fs }).answers := rfl
  have hnodup := nodup_offerAll subs fileName fs
  unfold Isolates
  rw [hanswers]
  rcases offer_eq fileName subs 0 fs [] with
    ⟨hall, heq⟩ | ⟨accepted, j, rest, hsplit, hans, hacc, hfs⟩
  · rw [heq, List.nil_append]
    refine ⟨fun _ => .inl hall, fun _ => ⟨fun i hundler hi => ?_, fun _ i hundler hi => ?_⟩⟩
    · exact count_offerAll hi
    · obtain ⟨⟨i', ok⟩, ha, rfl⟩ := List.mem_map.mp (mem_offerAll.mpr ⟨hundler, hi⟩)
      obtain rfl : ok = true := hall _ ha
      exact ha
  · rw [List.nil_append] at hans
    rw [hans]
    constructor
    · rintro ⟨honce, hdeleted⟩
      -- a handler after the refusal would not have been asked
      have hrest : rest = [] := by
        rw [hsplit, List.append_cons] at hnodup
        refine rest_nil_of_asked hnodup fun i hi => ?_
        rw [← List.append_cons, ← hsplit] at hi
        obtain ⟨hundler, hhundler⟩ := mem_offerAll.mp hi
        exact honce i hundler hhundler
      subst hrest
      refine .inr ⟨⟨accepted, j, hsplit, hacc⟩, ?_⟩
      -- the refusing handler is one that the removal would have to wait for
      by_contra hnot
      rw [not_or, Bool.not_eq_true] at hnot
      have hdel : (doProc subs env fileName fs).2 = true := by
        rw [hremoved, hfs rfl]
        exact ⟨hnot.1, Option.isSome_iff_ne_none.mpr hnot.2⟩
      obtain ⟨hundler, hj⟩ := mem_offerAll.mp
        (show j ∈ (offerAll fileName 0 subs fs).1.map (·.1) by rw [hsplit]; simp)
      rw [hsplit] at hnodup
      exact refused_not_accepted hnodup (hdeleted hdel j hundler hj)
    · rintro (hall | ⟨⟨accepted', j', hsplit', hacc'⟩, hkept⟩)
      · exact absurd (hall (j, false) (by rw [hsplit]; simp)) (by simp)
      · obtain rfl := rest_nil_of_last hacc' (hsplit.symm.trans hsplit')
        refine ⟨fun i hundler hi => ?_, fun hdel => ?_⟩
        · rw [← hsplit]
          exact count_offerAll hi
        · rw [hremoved, hfs rfl] at hdel
          rcases hkept with hfails | hnone
          · rw [hfails] at hdel
            cases hdel.1
          · rw [hnone] at hdel
            cases hdel.2

/-- A sub-handler that copies the file into a directory of its own. -/
def copyInto (dir : String) : Handler := fun fileName fs =>
  copyFile false fileName { dir, filename := fileName.filename } fs

/-- The file `a.cdb` waits to be sent, and the first target still has its last copy. -/
def pendingFs : Fs :=
  (Fs.write (fun _ => none) ⟨"output", "a.cdb"⟩ [1]).write ⟨"output/1", "a.cdb"⟩ [0]

/-- The first target refuses the file, the second is never asked, and the file is
gone. -/
theorem isolates_fails :
    ((doProc [some (copyInto "output/1"), some (copyInto "output/2")] {} ⟨"output", "a.cdb"⟩
        pendingFs).1.answers = [(0, false)] ∧
      (doProc [some (copyInto "output/1"), some (copyInto "output/2")] {} ⟨"output", "a.cdb"⟩
        pendingFs).2 = true) ∧
    ¬ Isolates [some (copyInto "output/1"), some (copyInto "output/2")] {} ⟨"output", "a.cdb"⟩
        pendingFs := by
  have hrun : (doProc [some (copyInto "output/1"), some (copyInto "output/2")] {}
      ⟨"output", "a.cdb"⟩ pendingFs).1.answers = [(0, false)] ∧
      (doProc [some (copyInto "output/1"), some (copyInto "output/2")] {} ⟨"output", "a.cdb"⟩
        pendingFs).2 = true := by decide
  refine ⟨hrun, fun h => ?_⟩
  have hsecond := h.2 hrun.2 1 (copyInto "output/2") rfl
  rw [hrun.1] at hsecond
  simp at hsecond

end PipeSet

end FlexEtl
