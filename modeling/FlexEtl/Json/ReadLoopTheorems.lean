/-
FlexEtl.Json.ReadLoopTheorems — what the reading loop hands out, and when it ends.

On a stream that ends with the end of the file the loop goes through the chunks
that the buffer can hold (`readLoop_endOfFile`), so the reader is given the
lines exactly when they fit and hold no zero byte (`handsLines_iff`). On a stream
that ends with an error nothing ever sets the flag that the loop tests
(`readLoop_readError`), and the worker stays with the file (`worker_goes_on_iff`).
-/
import FlexEtl.Json.ReadLoop
import FlexEtl.Lib.Ragged
import FlexEtl.Table.CdbTheorems

namespace FlexEtl

namespace Json2Click

variable {cfg : Config} {file : Nat} {env : LoopEnv}

/-! ## Calls of `fgets` -/

theorem fgets_nil {fl : InStream} (hrest : fl.rest = []) :
    fgets bufferSize fl = (none, { fl with eof := fl.eof || fl.ending = .endOfFile }) := by
  obtain ⟨rest, ending, eof⟩ := fl
  obtain rfl : rest = [] := hrest
  cases ending <;> cases eof <;> rfl

/-- A call before the end of the file reads a chunk. It meets the end only behind the last
one. -/
theorem fgets_endOfFile {fl : InStream} (hend : fl.ending = .endOfFile) (hrest : fl.rest ≠ []) :
    ∃ eof, fgets bufferSize fl = (some (Lines.next 10 (bufferSize - 1) fl.rest).1,
        { rest := (Lines.next 10 (bufferSize - 1) fl.rest).2, ending := .endOfFile, eof }) ∧
      (eof = true → fl.eof = true ∨ (Lines.next 10 (bufferSize - 1) fl.rest).2 = []) := by
  obtain ⟨rest, ending, eof⟩ := fl
  obtain rfl : ending = .endOfFile := hend
  have hchunk := Lines.next_ne_nil 10 (n := bufferSize - 1) (by decide) hrest
  unfold fgets
  dsimp only
  split
  · rename_i hcut
    refine ⟨true, rfl, fun _ => .inr ?_⟩
    exact Lines.next_rest_eq_nil hcut.1 hcut.2
  · exact ⟨eof, rfl, .inl⟩

/-- No call sets the flag on a stream that ends with an error. -/
theorem fgets_readError {fl : InStream} (hend : fl.ending = .readError) :
    (fgets bufferSize fl).2.ending = .readError ∧ (fgets bufferSize fl).2.eof = fl.eof := by
  obtain ⟨rest, ending, eof⟩ := fl
  obtain rfl : ending = .readError := hend
  unfold fgets
  dsimp only
  split <;> exact ⟨rfl, rfl⟩

/-! ## Rounds of the loop -/

theorem readRound_none {r : Reading} {fl : InStream} (h : fgets bufferSize r.fl = (none, fl)) :
    readRound cfg file env r = { r with fl } := by
  rw [readRound, h]

theorem readRound_some {r : Reading} {fl : InStream} {buffer : Bytes}
    (h : fgets bufferSize r.fl = (some buffer, fl)) :
    readRound cfg file env r =
      { fl
        w := (Worker.readLine cfg file (r.w, r.f)
          { stream := env.Parse (cstring buffer)
            length := (cstring buffer).length
            dump := env.dump r.f.counter }).1
        f := (Worker.readLine cfg file (r.w, r.f)
          { stream := env.Parse (cstring buffer)
            length := (cstring buffer).length
            dump := env.dump r.f.counter }).2
        texts := r.texts ++ [cstring buffer] } := by
  rw [readRound, h]

theorem readLine_counter (wf : Worker × FileState) (l : LineInput) :
    (Worker.readLine cfg file wf l).2.counter = wf.2.counter + 1 := by
  unfold Worker.readLine
  dsimp only
  split <;> rfl

theorem readLoop_of_eof {r : Reading} (h : r.fl.eof = true) (fuel : Nat) :
    readLoop cfg file env (fuel + 1) r = some r := by
  rw [readLoop, if_pos h]

theorem readLoop_of_not_eof {r : Reading} (h : r.fl.eof = false) (fuel : Nat) :
    readLoop cfg file env (fuel + 1) r = readLoop cfg file env fuel (readRound cfg file env r) := by
  rw [readLoop, h]
  rfl

/-- More tests change nothing. -/
theorem readLoop_mono {fuel fuel' : Nat} (hle : fuel ≤ fuel') {r r' : Reading}
    (h : readLoop cfg file env fuel r = some r') : readLoop cfg file env fuel' r = some r' := by
  induction fuel generalizing fuel' r with
  | zero => cases h
  | succ fuel ih =>
      cases fuel' with
      | zero => exact absurd hle (Nat.not_succ_le_zero fuel)
      | succ fuel' =>
          cases heof : r.fl.eof with
          | true =>
              rw [readLoop_of_eof heof] at h ⊢
              exact h
          | false =>
              rw [readLoop_of_not_eof heof] at h ⊢
              exact ih (Nat.le_of_succ_le_succ hle) h

/-- On a stream that ends with the end of the file the loop reads its chunks, one line input
for each. -/
theorem readLoop_endOfFile (r : Reading) (hend : r.fl.ending = .endOfFile)
    (heof : r.fl.eof = true → r.fl.rest = []) :
    ∃ fuel r', readLoop cfg file env fuel r = some r' ∧
      r'.texts = r.texts ++ (Lines.chunks 10 (bufferSize - 1) r.fl.rest).map cstring ∧
      (r'.w, r'.f) = (lineInputs env r.f.counter
        (Lines.chunks 10 (bufferSize - 1) r.fl.rest)).foldl (Worker.readLine cfg file)
          (r.w, r.f) := by
  -- every chunk leaves less of the stream
  induction hn : r.fl.rest.length using Nat.strongRecOn generalizing r with
  | ind n ih =>
      by_cases hflag : r.fl.eof = true
      · refine ⟨1, r, readLoop_of_eof hflag 0, ?_, ?_⟩ <;> simp [heof hflag, lineInputs]
      · rw [Bool.not_eq_true] at hflag
        by_cases hrest : r.fl.rest = []
        · have hround : readRound cfg file env r = { r with fl := { r.fl with eof := true } } := by
            rw [readRound_none (fgets_nil hrest)]
            simp [hend]
          refine ⟨2, { r with fl := { r.fl with eof := true } }, ?_, ?_, ?_⟩
          · rw [readLoop_of_not_eof hflag, hround, readLoop_of_eof rfl]
          · simp [hrest]
          · simp [hrest, lineInputs]
        · obtain ⟨eof, hcall, hmet⟩ := fgets_endOfFile hend hrest
          have hless := Lines.length_next_lt 10 (n := bufferSize - 1) (by decide) hrest
          have hround := @readRound_some cfg file env r _ _ hcall
          obtain ⟨fuel, r', hloop, htexts, hworker⟩ := ih _ (hn ▸ hless)
            (readRound cfg file env r) (by rw [hround])
            (by rw [hround]; exact fun h => (hmet h).resolve_left (by simp [hflag]))
            (by rw [hround])
          rw [hround] at htexts hworker
          refine ⟨fuel + 1, r', by rw [readLoop_of_not_eof hflag, hloop], ?_, ?_⟩
          · rw [htexts, Lines.chunks_of_ne_nil 10 (by decide) hrest]
            simp
          · rw [hworker, Lines.chunks_of_ne_nil 10 (by decide) hrest, lineInputs,
              List.foldl_cons, readLine_counter]

/-- A persistent error does not set the flag that the loop tests. -/
theorem readLoop_readError (r : Reading) (hend : r.fl.ending = .readError)
    (heof : r.fl.eof = false) (fuel : Nat) : readLoop cfg file env fuel r = none := by
  induction fuel generalizing r with
  | zero => rfl
  | succ fuel ih =>
      obtain ⟨hend', heof'⟩ := fgets_readError hend
      rw [readLoop_of_not_eof heof]
      cases hcall : fgets bufferSize r.fl with
      | mk buffer fl =>
          rw [hcall] at hend' heof'
          cases buffer with
          | none =>
              rw [readRound_none hcall]
              exact ih _ hend' (heof'.trans heof)
          | some buffer =>
              rw [readRound_some hcall]
              exact ih _ hend' (heof'.trans heof)

/-! ## The texts of a file -/

/-- Whatever else happens, the reader is given the lines of the file, one after the other,
each with the newline that ends it. -/
def HandsLines (content : Bytes) : Prop :=
  ∀ (cfg : Config) (file : Nat) (env : LoopEnv) (w : Worker), ∃ fuel r,
    readLoop cfg file env fuel { fl := { rest := content, ending := .endOfFile }, w } = some r ∧
      r.texts = Lines.lines 10 content

/-- What the reader is given of a file. -/
def textsOf (content : Bytes) : List Bytes :=
  (Lines.chunks 10 (bufferSize - 1) content).map cstring

/-- The loop over a file whose stream ends with the end of the file. -/
theorem readLoop_file (content : Bytes) (w : Worker) :
    ∃ fuel r, readLoop cfg file env fuel
        { fl := { rest := content, ending := .endOfFile }, w } = some r ∧
      r.texts = textsOf content ∧
      (r.w, r.f) = (lineInputs env 0 (Lines.chunks 10 (bufferSize - 1) content)).foldl
        (Worker.readLine cfg file) (w, {}) := by
  obtain ⟨fuel, r, hloop, htexts, hworker⟩ := @readLoop_endOfFile cfg file env
    { fl := { rest := content, ending := .endOfFile }, w } rfl (by simp)
  exact ⟨fuel, r, hloop, htexts, hworker⟩

/-- Files are saved one by one. -/
def plainConfig : Config where
  m_outputDir := "out"
  m_failedDir := "failed"
  strftime _ := ""

/-- A reader that takes no text. -/
def plainEnv : LoopEnv where
  Parse _ := { events := [], isError := true }
  dump _ := { now := 0 }

theorem handsLines_iff_textsOf {content : Bytes} :
    HandsLines content ↔ textsOf content = Lines.lines 10 content := by
  constructor
  · intro h
    obtain ⟨fuel, r, hloop, htexts⟩ := h plainConfig 0 plainEnv {}
    obtain ⟨fuel', r', hloop', htexts', -⟩ :=
      @readLoop_file plainConfig 0 plainEnv content {}
    have hsame := (readLoop_mono (Nat.le_max_left fuel fuel') hloop).symm.trans
      (readLoop_mono (Nat.le_max_right fuel fuel') hloop')
    cases hsame
    exact htexts'.symm.trans htexts
  · intro h cfg file env w
    obtain ⟨fuel, r, hloop, htexts, -⟩ := @readLoop_file cfg file env content w
    exact ⟨fuel, r, hloop, htexts.trans h⟩

theorem length_cstring_le (bs : Bytes) : (cstring bs).length ≤ bs.length :=
  (List.takeWhile_prefix _).length_le

/-- A file without zero bytes, whose lines fit into the buffer, is handed out line by line. -/
theorem textsOf_of_lines {content : Bytes} (hzero : 0 ∉ content)
    (hshort : ∀ l ∈ Lines.lines 10 content, l.length ≤ bufferSize - 1) :
    textsOf content = Lines.lines 10 content := by
  have hself : ∀ chunk ∈ Lines.lines 10 content, cstring chunk = chunk := by
    intro chunk hchunk
    refine cstring_of_plain fun hmem => hzero ?_
    rw [← Lines.flatten_lines 10 content]
    exact List.mem_flatten.mpr ⟨chunk, hchunk, hmem⟩
  rw [textsOf, Lines.chunks_of_lines_le (by decide) hshort, List.map_congr_left hself, List.map_id']

/-- **Lines.** The reader is given the lines of a file exactly when the file has no zero byte
and each line fits into the buffer. -/
theorem handsLines_iff (content : Bytes) :
    HandsLines content ↔
      0 ∉ content ∧ ∀ l ∈ Lines.lines 10 content, l.length ≤ bufferSize - 1 := by
  have hpos : 0 < bufferSize - 1 := by decide
  have hflat := Lines.flatten_chunks 10 hpos content
  rw [handsLines_iff_textsOf]
  refine ⟨fun h => ?_, fun h => textsOf_of_lines h.1 h.2⟩
  rw [textsOf] at h
  rw [← Lines.chunks_eq_lines_iff hpos]
  -- no text is longer than its chunk, and together they are as long
  have hle : List.Forall₂ (fun row row' => row.length ≤ row'.length)
      ((Lines.chunks 10 (bufferSize - 1) content).map cstring)
      (Lines.chunks 10 (bufferSize - 1) content) := by
    rw [List.forall₂_map_left_iff, List.forall₂_same]
    exact fun chunk _ => length_cstring_le chunk
  have hself := Ragged.eq_of_flatten_eq hle (by rw [h, Lines.flatten_lines, hflat])
  refine ⟨fun hzero => ?_, hself.symm.trans h⟩
  rw [← hflat, ← hself] at hzero
  obtain ⟨text, htext, hmem⟩ := List.mem_flatten.mp hzero
  obtain ⟨chunk, -, rfl⟩ := List.mem_map.mp htext
  exact not_mem_cstring chunk hmem

/-- A line of 65536 bytes is handed out in two parts, and of a line with a zero byte the rest
is left out. -/
theorem handsLines_fails :
    ¬ HandsLines (List.replicate 65536 32) ∧ textsOf [91, 0, 93] = [[91]] ∧
      ¬ HandsLines [91, 0, 93] := by
  have hlines : Lines.lines 10 [91, 0, 93] = [([91, 0, 93] : Bytes)] :=
    Lines.lines_of_not_mem (by decide) (by decide)
  have htexts : textsOf [91, 0, 93] = [[91]] := by
    rw [textsOf, Lines.chunks_of_lines_le (by decide) (by rw [hlines]; decide), hlines]
    rfl
  refine ⟨?_, htexts, ?_⟩
  · rw [handsLines_iff_textsOf]
    intro h
    have hlong : (List.replicate 65536 32 : Bytes) ∈ textsOf (List.replicate 65536 32) := by
      rw [h, Lines.lines_of_not_mem (fun hmem => absurd (List.eq_of_mem_replicate hmem)
        (by decide)) (List.ne_nil_of_length_pos (by rw [List.length_replicate]; decide))]
      exact List.mem_singleton_self _
    obtain ⟨chunk, hchunk, heq⟩ := List.mem_map.mp hlong
    have hlen := Lines.length_le_of_mem_chunks hchunk
    have hle := length_cstring_le chunk
    rw [heq, List.length_replicate] at hle
    rw [bufferSize] at hlen
    omega
  · rw [handsLines_iff_textsOf, htexts, hlines]
    decide

/-! ## The worker -/

theorem procFile_eq (inp : FileInput) (lines : List LineInput) (w : Worker) :
    Worker.procFile cfg file inp lines w = finishFile cfg file inp
      (lines.foldl (Worker.readLine cfg file) (w, {})).1
      (lines.foldl (Worker.readLine cfg file) (w, {})).2 := rfl

/-- The round opens a file with this stream. -/
def StreamTick.Opens (t : StreamTick) (inp : QueuedFile) (content : Bytes) (ending : Ending) :
    Prop :=
  t.dequeued = some inp ∧ inp.fileName.empty = false ∧ inp.content = some (content, ending)

/-- A round that opens a file stays with it as long as the loop. -/
theorem tickStream_opens {t : StreamTick} {inp : QueuedFile} {content : Bytes} {ending : Ending}
    (h : t.Opens inp content ending) (fuel : Nat) (w : Worker) :
    tickStream fuel cfg file w t =
      (readLoop cfg file inp.env fuel { fl := { rest := content, ending }, w }).map fun r =>
        (finishFile cfg file inp.toInput r.w r.f).dumpDelay cfg t.dump := by
  obtain ⟨hdequeued, hempty, hcontent⟩ := h
  simp [tickStream, hdequeued, hempty, hcontent]

theorem tick_opens {t : StreamTick} {inp : QueuedFile} {content : Bytes} {ending : Ending}
    (h : t.Opens inp content ending) (w : Worker) :
    w.tick cfg file t.toTick = (Worker.procFile cfg file inp.toInput
      (lineInputs inp.env 0 (Lines.chunks 10 (bufferSize - 1) content))
      w).dumpDelay cfg t.dump := by
  obtain ⟨hdequeued, hempty, hcontent⟩ := h
  simp [Worker.tick, StreamTick.toTick, hdequeued, QueuedFile.toInput, hempty, hcontent]

/-- A round that opens no file has no loop. -/
theorem tickStream_of_not_opens {t : StreamTick}
    (h : ∀ inp content ending, ¬ t.Opens inp content ending) (fuel : Nat) (w : Worker) :
    tickStream fuel cfg file w t = some (w.tick cfg file t.toTick) := by
  unfold tickStream Worker.tick StreamTick.toTick
  cases hdequeued : t.dequeued with
  | none => rfl
  | some inp =>
      cases hempty : inp.fileName.empty with
      | true => simp [QueuedFile.toInput, hempty]
      | false =>
          cases hcontent : inp.content with
          | none => simp [QueuedFile.toInput, hempty, hcontent]
          | some opened => exact absurd ⟨hdequeued, hempty, hcontent⟩ (h inp opened.1 opened.2)

/-- The stream of the file that a round opens ends with the end of the file. -/
def StreamTick.Ends (t : StreamTick) : Prop :=
  ∀ inp content ending, t.Opens inp content ending → ending = .endOfFile

/-- Then the round is the one of the model over lines. -/
theorem tickStream_of_ends {t : StreamTick} (h : t.Ends) (w : Worker) :
    ∃ fuel, ∀ fuel', fuel ≤ fuel' →
      tickStream fuel' cfg file w t = some (w.tick cfg file t.toTick) := by
  by_cases hopens : ∃ inp content ending, t.Opens inp content ending
  · obtain ⟨inp, content, ending, hopens⟩ := hopens
    obtain rfl := h inp content ending hopens
    obtain ⟨fuel, r, hloop, -, hworker⟩ := @readLoop_file cfg file inp.env content w
    refine ⟨fuel, fun fuel' hle => ?_⟩
    rw [tickStream_opens hopens, readLoop_mono hle hloop, tick_opens hopens, procFile_eq,
      ← hworker]
    rfl
  · push Not at hopens
    exact ⟨0, fun fuel' _ => tickStream_of_not_opens hopens fuel' w⟩

/-- Otherwise the round does not end. -/
theorem tickStream_of_not_ends {t : StreamTick} (h : ¬ t.Ends) (fuel : Nat) (w : Worker) :
    tickStream fuel cfg file w t = none := by
  unfold StreamTick.Ends at h
  push Not at h
  obtain ⟨inp, content, ending, hopens, hend⟩ := h
  have herror : ending = .readError := by
    cases ending with
    | endOfFile => exact absurd rfl hend
    | readError => rfl
  rw [tickStream_opens hopens, readLoop_readError _ herror rfl, Option.map_none]

/-- **Refinement.** Over streams that end with the end of the file, the worker does what the
model over lines says. -/
theorem roundsStream_of_ends {ticks : List StreamTick} (h : ∀ t ∈ ticks, t.Ends) :
    ∀ (file : Nat) (w : Worker), ∃ fuel, ∀ fuel', fuel ≤ fuel' →
      roundsStream fuel' cfg file ticks w =
        some (Worker.rounds cfg file (ticks.map StreamTick.toTick) w) := by
  induction ticks with
  | nil => exact fun _ _ => ⟨0, fun _ _ => rfl⟩
  | cons t ticks ih =>
      intro file w
      obtain ⟨hfirst, hrest⟩ := List.forall_mem_cons.mp h
      obtain ⟨fuel, hfuel⟩ := @tickStream_of_ends cfg file t hfirst w
      obtain ⟨fuel', hfuel'⟩ := ih hrest (file + 1) (w.tick cfg file t.toTick)
      refine ⟨max fuel fuel', fun n hn => ?_⟩
      rw [roundsStream, hfuel n (by omega)]
      exact hfuel' n (by omega)

/-- **The loop ends.** The worker comes to the end of its rounds exactly when every file that
it can open ends with the end of the file. -/
theorem worker_goes_on_iff (cfg : Config) (file : Nat) (ticks : List StreamTick) (w : Worker) :
    (∃ fuel, (roundsStream fuel cfg file ticks w).isSome) ↔ ∀ t ∈ ticks, t.Ends := by
  constructor
  · rintro ⟨fuel, hrun⟩
    induction ticks generalizing file w with
    | nil => simp
    | cons t ticks ih =>
        rw [roundsStream] at hrun
        cases htick : tickStream fuel cfg file w t with
        | none =>
            rw [htick] at hrun
            cases hrun
        | some w' =>
            rw [htick] at hrun
            refine List.forall_mem_cons.mpr ⟨?_, ih (file + 1) w' hrun⟩
            by_contra hnot
            rw [tickStream_of_not_ends hnot] at htick
            cases htick
  · intro h
    obtain ⟨fuel, hfuel⟩ := @roundsStream_of_ends cfg ticks h file w
    exact ⟨fuel, by rw [hfuel fuel (Nat.le_refl _)]; rfl⟩

/-- A directory `a.json` that has been moved into the watched one. -/
def movedDirectory : QueuedFile where
  fileName := ⟨"in", "a.json"⟩
  content := some ([], .readError)
  env := plainEnv

/-- The worker never comes to the file after the directory. -/
theorem directory_hangs : ¬ ∃ fuel, (roundsStream fuel plainConfig 0
    [{ dequeued := some movedDirectory, dump := { now := 0 } },
      { dequeued := none, dump := { now := 1 } }] {}).isSome := by
  rintro ⟨fuel, hrun⟩
  have hends : ¬ StreamTick.Ends { dequeued := some movedDirectory, dump := { now := 0 } } := by
    intro h
    have hopens := h movedDirectory [] .readError ⟨rfl, by decide, rfl⟩
    cases hopens
  rw [roundsStream, tickStream_of_not_ends hends] at hrun
  cases hrun

end Json2Click

end FlexEtl
