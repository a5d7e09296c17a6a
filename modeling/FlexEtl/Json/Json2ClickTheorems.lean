/-
FlexEtl.Json.Json2ClickTheorems — what becomes of accepted rows.

`dump_cases` says once what a dump can do to the members: nothing to the
table, or hand the whole table to `save` and empty it. Everything after that
is bookkeeping along the loops. `Conserves` is the invariant behind the row
count of a whole run: the rows saved so far, then the rows in memory, are the
rows accepted so far, in order. It does not ask whether a save returned.

Whether it returned matters to the second result. A failed save loses the
rows of its table, so they are accounted for only by where their files go:
`Origins` knows the files of the rows, `Routed` where each file went.
-/
import FlexEtl.Json.LineTheorems

namespace FlexEtl

open ClickTable

/-! ## The row of a line -/

/-- The row of an accepted line, read off an empty table. -/
def acceptedRow (line : ParseStream) : Option Row :=
  match ({} : Json2Click).parseLine line with
  | (st, true) => some (st.m_table.cell 0)
  | (_, false) => none

namespace Json2Click

/-- The appends of a line are those of its row, on every table. -/
theorem parseLine_acceptedRow (line : ParseStream) : ∃ a ok,
    acceptedRow line = (if ok then some (rowValue a) else none) ∧
    ∀ st : Json2Click, (st.parseLine line).1.m_table = st.m_table.row a ok ∧
      (st.parseLine line).2 = ok := by
  obtain ⟨a, ok, hrow⟩ := parseLine_row line
  obtain ⟨htable, hok⟩ := hrow {}
  refine ⟨a, ok, ?_, hrow⟩
  unfold acceptedRow
  rcases hp : ({} : Json2Click).parseLine line with ⟨st₀, b⟩
  rw [hp] at htable hok
  cases ok with
  | true =>
      obtain rfl : b = true := hok
      have hnew := cell_row_new aligned_empty a
      dsimp only at htable ⊢
      rw [htable]
      exact congrArg some hnew
  | false =>
      obtain rfl : b = false := hok
      rfl

/-- Whether a line is accepted depends on the line alone. -/
theorem parseLine_accepted (line : ParseStream) (st : Json2Click) :
    (st.parseLine line).2 = (acceptedRow line).isSome := by
  obtain ⟨a, ok, haccepted, hrow⟩ := parseLine_acceptedRow line
  rw [(hrow st).2, haccepted]
  cases ok <;> rfl

/-- A line adds its row, if it has one, to any table at a row boundary. -/
theorem parseLine_rows (line : ParseStream) {st : Json2Click} (ht : st.m_table.Aligned) :
    (st.parseLine line).1.m_table.Aligned ∧
      (st.parseLine line).1.m_table.rows = st.m_table.rows ++ (acceptedRow line).toList := by
  obtain ⟨a, ok, haccepted, hrow⟩ := parseLine_acceptedRow line
  rw [(hrow st).1, haccepted]
  refine ⟨aligned_row ht a ok, ?_⟩
  cases ok with
  | true => exact rows_row_true ht a
  | false => simpa using rows_row_false ht a

/-! ## One dump -/

/-- All that a dump can do: leave the table alone, or save it and empty it. -/
theorem dump_cases (cfg : Config) (bForced : Bool) (env : DumpEnv) (st : Json2Click) :
    (∃ st', st.dump cfg bForced env = (st', none) ∧ st'.m_table = st.m_table ∧
      (bForced = true → st.m_table.rowCount = 0)) ∨
    (∃ st' call, st.dump cfg bForced env = (st', some call) ∧ call.table = st.m_table ∧
      call.ok = env.saveOk ∧ st'.m_table = {}) := by
  unfold dump
  split
  · rename_i h
    exact .inl ⟨st, rfl, rfl, fun _ => h.symm⟩
  · split
    · rename_i h
      refine .inl ⟨_, rfl, rfl, fun hforced => ?_⟩
      simp [hforced] at h
    · split
      · rename_i h
        refine .inl ⟨st, rfl, rfl, fun hforced => ?_⟩
        simp [hforced] at h
      · exact .inr ⟨_, _, rfl, rfl, rfl, rfl⟩

end Json2Click

namespace Worker

open Json2Click (Config)

/-! ## A dump by what its node does -/

theorem dump_none {cfg : Config} {bForced : Bool} {env : DumpEnv} {w : Worker}
    {st' : Json2Click} (h : w.node.dump cfg bForced env = (st', none)) :
    w.dump cfg bForced env = { w with node := st' } := by
  rw [dump, h]

theorem dump_some {cfg : Config} {bForced : Bool} {env : DumpEnv} {w : Worker}
    {st' : Json2Click} {call : SaveCall}
    (h : w.node.dump cfg bForced env = (st', some call)) :
    w.dump cfg bForced env =
      { w with
        node := st'
        rowIds := w.rowIds.take st'.m_table.rowCount
        saves := w.saves ++ [call]
        dumps := w.dumps ++ [{
          before := w.rowIds
          after := w.rowIds.take st'.m_table.rowCount
          ok := call.ok }] } := by
  rw [dump, h]

/-! ## Rows are conserved -/

/-- The rows given to `save`, in order. -/
def savedRows (w : Worker) : List Row := w.saves.flatMap fun call => call.table.rows

/-- The rows given to `save` and the rows in memory are the given rows. -/
structure Conserves (w : Worker) (accepted : List Row) : Prop where
  aligned : w.node.m_table.Aligned
  saved : ∀ call ∈ w.saves, call.table.Aligned
  rows : w.savedRows ++ w.node.m_table.rows = accepted
  ids : w.rowIds.length = w.node.m_table.rowCount

theorem conserves_init : Conserves {} [] :=
  ⟨aligned_empty, by simp, rfl, rfl⟩

/-- Saving the table and emptying it moves its rows from memory to the saves. -/
theorem Conserves.save {w w' : Worker} {accepted : List Row} {call : SaveCall}
    (h : w.Conserves accepted) (htable : call.table = w.node.m_table)
    (hnode : w'.node.m_table = {}) (hsaves : w'.saves = w.saves ++ [call])
    (hids : w'.rowIds = w.rowIds.take w'.node.m_table.rowCount) : w'.Conserves accepted := by
  refine ⟨?_, ?_, ?_, ?_⟩
  · rw [hnode]; exact aligned_empty
  · intro c hc
    rw [hsaves] at hc
    rcases List.mem_append.mp hc with hc | hc
    · exact h.saved c hc
    · obtain rfl := List.mem_singleton.mp hc
      rw [htable]
      exact h.aligned
  · rw [← h.rows, hnode]
    simp [savedRows, hsaves, htable, ClickTable.rows, rowCount]
  · rw [hids, hnode]; rfl

theorem conserves_dump {cfg : Config} {w : Worker} {accepted : List Row}
    (h : w.Conserves accepted) (bForced : Bool) (env : DumpEnv) :
    (w.dump cfg bForced env).Conserves accepted := by
  obtain ⟨st', hdump, htable, -⟩ | ⟨st', call, hdump, htable, -, hempty⟩ :=
    Json2Click.dump_cases cfg bForced env w.node
  · rw [dump_none hdump]
    exact ⟨by rw [htable]; exact h.aligned, h.saved, by rw [htable]; exact h.rows,
      by rw [htable]; exact h.ids⟩
  · rw [dump_some hdump]
    exact h.save htable hempty rfl rfl

theorem conserves_readLine (cfg : Config) (file : Nat) {w : Worker} {accepted : List Row}
    (h : w.Conserves accepted) (f : FileState) (l : LineInput) :
    (readLine cfg file (w, f) l).1.Conserves (accepted ++ (acceptedRow l.stream).toList) := by
  obtain ⟨haligned, hrows⟩ := Json2Click.parseLine_rows l.stream h.aligned
  have hok := Json2Click.parseLine_accepted l.stream w.node
  have hline : Conserves
      { w with
        node := (w.node.parseLine l.stream).1
        rowIds := if (w.node.parseLine l.stream).2 then
          w.rowIds ++ [{ file, line := f.counter + 1 }] else w.rowIds }
      (accepted ++ (acceptedRow l.stream).toList) := by
    refine ⟨haligned, h.saved, ?_, ?_⟩
    · rw [← h.rows]
      simp [savedRows, hrows]
    · have hcount := congrArg List.length hrows
      simp only [length_rows, List.length_append] at hcount
      rw [hcount, hok]
      have hids := h.ids
      cases acceptedRow l.stream with
      | none => simpa using hids
      | some r => simpa using hids
  unfold readLine
  dsimp only
  split
  · exact conserves_dump hline false l.dump
  · exact hline

theorem conserves_readLines {cfg : Config} {file : Nat} (lines : List LineInput) :
    ∀ {w : Worker} {accepted : List Row} (f : FileState), w.Conserves accepted →
      (lines.foldl (readLine cfg file) (w, f)).1.Conserves
        (accepted ++ lines.filterMap fun l => acceptedRow l.stream) := by
  induction lines with
  | nil => intro w accepted f h; simpa using h
  | cons l lines ih =>
      intro w accepted f h
      have hl := conserves_readLine cfg file h f l
      have hrest := ih (readLine cfg file (w, f) l).2 hl
      rw [List.foldl_cons, List.filterMap_cons]
      cases hrow : acceptedRow l.stream with
      | none => simpa [hrow] using hrest
      | some r => simpa [hrow] using hrest

theorem conserves_countFile {cfg : Config} {w : Worker} {accepted : List Row}
    (h : w.Conserves accepted) (f : FileState) : (w.countFile cfg f).Conserves accepted := by
  unfold countFile
  split
  · exact ⟨h.aligned, h.saved, h.rows, h.ids⟩
  · exact h

theorem conserves_saveFile {cfg : Config} {w : Worker} {accepted : List Row}
    (h : w.Conserves accepted) (inp : FileInput) (bOk : Bool) :
    (w.saveFile cfg inp bOk).1.Conserves accepted := by
  unfold saveFile
  split
  · cases hok : inp.saveOk with
    | true => exact h.save rfl rfl rfl rfl
    | false => exact h.save rfl rfl rfl rfl
  · exact h

theorem conserves_moveFile {cfg : Config} {w : Worker} {accepted : List Row}
    (h : w.Conserves accepted) (file : Nat) (inp : FileInput) (bOk : Bool) :
    (w.moveFile cfg file inp bOk).Conserves accepted := by
  unfold moveFile
  dsimp only
  split
  · exact ⟨h.aligned, h.saved, h.rows, h.ids⟩
  · exact ⟨h.aligned, h.saved, h.rows, h.ids⟩

theorem conserves_procFile {cfg : Config} {w : Worker} {accepted : List Row}
    (h : w.Conserves accepted) (file : Nat) (inp : FileInput) (lines : List LineInput) :
    (w.procFile cfg file inp lines).Conserves
      (accepted ++ lines.filterMap fun l => acceptedRow l.stream) := by
  unfold procFile
  exact conserves_moveFile (conserves_saveFile (conserves_countFile
    (conserves_readLines lines {} h) _) inp _) file inp _

theorem conserves_dumpDelay {cfg : Config} {w : Worker} {accepted : List Row}
    (h : w.Conserves accepted) (env : DumpEnv) : (w.dumpDelay cfg env).Conserves accepted := by
  unfold dumpDelay
  split
  · exact conserves_dump h false env
  · exact h

end Worker

/-! ### Whole runs -/

/-- The lines that a round reads: those of a file that opens. -/
def Tick.lines (t : Tick) : Option (List LineInput) :=
  t.dequeued.bind fun inp => if inp.fileName.empty then none else inp.content

/-- The rows of the accepted lines of a round, in order. -/
def Tick.acceptedRows (t : Tick) : List Row :=
  (t.lines.getD []).filterMap fun l => acceptedRow l.stream

namespace Worker

open Json2Click (Config)

/-- A round reads the lines of its file, if it has one that opens, and may dump. -/
theorem tick_cases (cfg : Config) (file : Nat) (w : Worker) (t : Tick) :
    (∃ inp lines, t.lines = some lines ∧
      w.tick cfg file t = (w.procFile cfg file inp lines).dumpDelay cfg t.dump) ∨
    (t.lines = none ∧ (w.tick cfg file t = w.dumpDelay cfg t.dump ∨ w.tick cfg file t = w)) := by
  unfold tick Tick.lines
  cases t.dequeued with
  | none => exact .inr ⟨rfl, .inl rfl⟩
  | some inp =>
      simp only [Option.bind_some]
      split
      · exact .inr ⟨rfl, .inl rfl⟩
      · cases inp.content with
        | none => exact .inr ⟨rfl, .inr rfl⟩
        | some lines => exact .inl ⟨inp, lines, rfl, rfl⟩

theorem conserves_tick (cfg : Config) {w : Worker} {accepted : List Row}
    (h : w.Conserves accepted) (file : Nat) (t : Tick) :
    (w.tick cfg file t).Conserves (accepted ++ t.acceptedRows) := by
  obtain ⟨inp, lines, hlines, htick⟩ | ⟨hlines, htick | htick⟩ := tick_cases cfg file w t
  · rw [htick, Tick.acceptedRows, hlines]
    exact conserves_dumpDelay (conserves_procFile h file inp lines) t.dump
  · rw [htick, Tick.acceptedRows, hlines]
    simpa using conserves_dumpDelay h t.dump
  · rw [htick, Tick.acceptedRows, hlines]
    simpa using h

theorem conserves_rounds (cfg : Config) (ticks : List Tick) :
    ∀ {w : Worker} {accepted : List Row} (file : Nat), w.Conserves accepted →
      (w.rounds cfg file ticks).Conserves (accepted ++ ticks.flatMap Tick.acceptedRows) := by
  induction ticks with
  | nil => intro w accepted file h; simpa [rounds] using h
  | cons t ticks ih =>
      intro w accepted file h
      have ht := conserves_tick cfg h file t
      simpa [rounds] using ih (file + 1) ht

theorem conserves_lifeProc (cfg : Config) {w : Worker} {accepted : List Row}
    (h : w.Conserves accepted) (ticks : List Tick) (exit : DumpEnv) :
    (w.lifeProc cfg ticks exit).Conserves (accepted ++ ticks.flatMap Tick.acceptedRows) := by
  have hrounds := conserves_rounds cfg ticks 0 h
  unfold lifeProc
  dsimp only
  split
  · exact conserves_dump hrounds true exit
  · exact hrounds

/-! ### Nothing is left behind -/

theorem rowCount_dump_forced (cfg : Config) (env : DumpEnv) (w : Worker) :
    (w.dump cfg true env).node.m_table.rowCount = 0 := by
  obtain ⟨st', hdump, htable, hcount⟩ | ⟨st', call, hdump, -, -, hempty⟩ :=
    Json2Click.dump_cases cfg true env w.node
  · rw [dump_none hdump, htable]
    exact hcount rfl
  · rw [dump_some hdump, hempty]
    rfl

/-- Saving by file, a round that starts with an empty table ends with one. -/
theorem rowCount_tick_byFile {cfg : Config} (hmode : cfg.m_delay = 0 ∧ cfg.m_blockSize = 0)
    {w : Worker} (h : w.node.m_table.rowCount = 0) (file : Nat) (t : Tick) :
    (w.tick cfg file t).node.m_table.rowCount = 0 := by
  have hdelay : ∀ (w : Worker), w.dumpDelay cfg t.dump = w := fun w => by simp [dumpDelay, hmode.1]
  obtain ⟨inp, lines, -, htick⟩ | ⟨-, htick | htick⟩ := tick_cases cfg file w t
  · rw [htick, hdelay]
    unfold procFile saveFile moveFile Json2Click.saveFile
    simp only [hmode, and_self, if_true]
    cases inp.moveOk <;> cases inp.saveOk <;> rfl
  · rw [htick, hdelay]; exact h
  · rw [htick]; exact h

theorem rowCount_rounds_byFile {cfg : Config} (hmode : cfg.m_delay = 0 ∧ cfg.m_blockSize = 0)
    (ticks : List Tick) : ∀ {w : Worker} (file : Nat), w.node.m_table.rowCount = 0 →
      (w.rounds cfg file ticks).node.m_table.rowCount = 0 := by
  induction ticks with
  | nil => exact fun _ h => h
  | cons t ticks ih => exact fun file h => ih (file + 1) (rowCount_tick_byFile hmode h file t)

/-- **Row conservation.** Whatever the delay and the block size, the files, the
clock and the point at which the worker is stopped: the rows of the tables given
to `save`, one save after the other, are the rows of the accepted lines in their
order, and no row is left in memory. -/
theorem lifeProc_savedRows (cfg : Config) (ticks : List Tick) (exit : DumpEnv) :
    (lifeProc cfg ticks exit {}).savedRows = ticks.flatMap Tick.acceptedRows ∧
      (∀ call ∈ (lifeProc cfg ticks exit {}).saves, call.table.Aligned) ∧
      (lifeProc cfg ticks exit {}).node.m_table.rowCount = 0 := by
  have hcons := conserves_lifeProc cfg conserves_init ticks exit
  have hcount : (lifeProc cfg ticks exit {}).node.m_table.rowCount = 0 := by
    unfold lifeProc
    dsimp only
    split
    · exact rowCount_dump_forced cfg exit _
    · rename_i hmode
      rw [not_or, not_not, not_not] at hmode
      exact rowCount_rounds_byFile hmode ticks 0 rfl
  have hempty : (lifeProc cfg ticks exit {}).node.m_table.rows = [] :=
    List.length_eq_zero_iff.mp (by rw [length_rows, hcount])
  refine ⟨?_, hcons.saved, hcount⟩
  have hrows := hcons.rows
  rwa [hempty, List.append_nil, List.nil_append] at hrows

/-! ## Where the rows of a failed dump go -/

/-- Every row in memory, and every row a dump has seen, comes from a known file,
and a dump that called `save` kept no row. -/
structure Origins (known : Nat → Prop) (w : Worker) : Prop where
  rowIds : ∀ r ∈ w.rowIds, known r.file
  before : ∀ d ∈ w.dumps, ∀ r ∈ d.before, known r.file
  after : ∀ d ∈ w.dumps, d.after = []

theorem Origins.mono {known known' : Nat → Prop} {w : Worker} (h : Origins known w)
    (hk : ∀ i, known i → known' i) : Origins known' w :=
  ⟨fun r hr => hk _ (h.rowIds r hr), fun d hd r hr => hk _ (h.before d hd r hr), h.after⟩

theorem origins_dump {cfg : Config} {known : Nat → Prop} {w : Worker} (h : Origins known w)
    (bForced : Bool) (env : DumpEnv) : Origins known (w.dump cfg bForced env) := by
  obtain ⟨st', hdump, -, -⟩ | ⟨st', call, hdump, -, -, hempty⟩ :=
    Json2Click.dump_cases cfg bForced env w.node
  · rw [dump_none hdump]
    exact ⟨h.rowIds, h.before, h.after⟩
  · have hafter : w.rowIds.take st'.m_table.rowCount = [] := by rw [hempty]; rfl
    rw [dump_some hdump]
    refine ⟨?_, ?_, ?_⟩
    · dsimp only
      rw [hafter]
      simp
    · intro d hd
      rcases List.mem_append.mp hd with hd | hd
      · exact h.before d hd
      · obtain rfl := List.mem_singleton.mp hd
        exact h.rowIds
    · intro d hd
      rcases List.mem_append.mp hd with hd | hd
      · exact h.after d hd
      · obtain rfl := List.mem_singleton.mp hd
        exact hafter

@[simp] theorem moves_dump (cfg : Config) (bForced : Bool) (env : DumpEnv) (w : Worker) :
    (w.dump cfg bForced env).moves = w.moves := by
  unfold dump
  split <;> rfl

/-- One line: its row, if it has one, comes from the file, and the file stays
good as long as its lines are accepted. -/
theorem origins_readLine (cfg : Config) {known : Nat → Prop} {file : Nat} (hfile : known file)
    {w : Worker} (h : Origins known w) (f : FileState) (l : LineInput) :
    Origins known (readLine cfg file (w, f) l).1 ∧
      (readLine cfg file (w, f) l).1.moves = w.moves ∧
      (readLine cfg file (w, f) l).2.bOk = (f.bOk && (w.node.parseLine l.stream).2) := by
  have hline : Origins known
      { w with
        node := (w.node.parseLine l.stream).1
        rowIds := if (w.node.parseLine l.stream).2 then
          w.rowIds ++ [{ file, line := f.counter + 1 }] else w.rowIds } := by
    refine ⟨?_, h.before, h.after⟩
    cases (w.node.parseLine l.stream).2 with
    | false => exact h.rowIds
    | true =>
        intro r hr
        rcases List.mem_append.mp hr with hr | hr
        · exact h.rowIds r hr
        · obtain rfl := List.mem_singleton.mp hr
          exact hfile
  unfold readLine
  dsimp only
  split
  · exact ⟨origins_dump hline false l.dump, moves_dump _ _ _ _, rfl⟩
  · exact ⟨hline, rfl, rfl⟩

/-- The lines of a file are all accepted. -/
def allAccepted (lines : List LineInput) : Bool := lines.all fun l => (acceptedRow l.stream).isSome

theorem origins_readLines (cfg : Config) {known : Nat → Prop} {file : Nat} (hfile : known file)
    (lines : List LineInput) : ∀ {w : Worker} (f : FileState), Origins known w →
      Origins known (lines.foldl (readLine cfg file) (w, f)).1 ∧
        (lines.foldl (readLine cfg file) (w, f)).1.moves = w.moves ∧
        (lines.foldl (readLine cfg file) (w, f)).2.bOk = (f.bOk && allAccepted lines) := by
  induction lines with
  | nil => exact fun f h => ⟨h, rfl, by simp [allAccepted]⟩
  | cons l lines ih =>
      intro w f h
      obtain ⟨hl, hmoves, hok⟩ := origins_readLine cfg hfile h f l
      obtain ⟨hrest, hmoves', hok'⟩ := ih (readLine cfg file (w, f) l).2 hl
      rw [List.foldl_cons]
      refine ⟨hrest, hmoves'.trans hmoves, ?_⟩
      rw [hok', hok, Json2Click.parseLine_accepted]
      simp [allAccepted, Bool.and_assoc]

/-- The directory a file goes to in delay or block mode. -/
def route (cfg : Config) (lines : List LineInput) : String :=
  if allAccepted lines then cfg.m_backupDir else cfg.m_failedDir

theorem origins_dumpDelay (cfg : Config) {known : Nat → Prop} {w : Worker} (h : Origins known w)
    (env : DumpEnv) :
    Origins known (w.dumpDelay cfg env) ∧ (w.dumpDelay cfg env).moves = w.moves := by
  unfold dumpDelay
  split
  · exact ⟨origins_dump h false env, moves_dump cfg false env w⟩
  · exact ⟨h, rfl⟩

/-- The lines of file number `i`, if it was read. -/
def fileLines (ticks : List Tick) (i : Nat) : Option (List LineInput) :=
  (ticks[i]?).bind Tick.lines

theorem fileLines_append_one (ticks : List Tick) (t : Tick) (i : Nat) :
    fileLines (ticks ++ [t]) i = if i = ticks.length then t.lines else fileLines ticks i := by
  unfold fileLines
  by_cases hi : i = ticks.length
  · simp [hi]
  · rw [if_neg hi]
    by_cases hlt : i < ticks.length
    · rw [List.getElem?_append_left hlt]
    · have hout : (ticks ++ [t]).length ≤ i := by simp; omega
      rw [List.getElem?_eq_none hout, List.getElem?_eq_none (by omega)]

/-- Rows come from files that were read, and exactly these files were moved, each
to its directory. -/
structure Tracked (cfg : Config) (ticks : List Tick) (w : Worker) : Prop where
  origins : Origins (fun i => (fileLines ticks i).isSome) w
  moves : ∀ i toPath, (i, toPath) ∈ w.moves ↔
    ∃ lines, fileLines ticks i = some lines ∧ toPath = route cfg lines

/-- A round without a file leaves the moves alone. -/
theorem Tracked.skip {cfg : Config} {ticks : List Tick} {w w' : Worker}
    (h : Tracked cfg ticks w) {t : Tick} (ht : t.lines = none)
    (ho : ∀ known, Origins known w → Origins known w')
    (hm : w'.moves = w.moves) : Tracked cfg (ticks ++ [t]) w' := by
  have hsame : ∀ i, fileLines (ticks ++ [t]) i = fileLines ticks i := by
    intro i
    rw [fileLines_append_one]
    split
    · rename_i hi
      rw [ht, hi, fileLines, List.getElem?_eq_none (Nat.le_refl _)]
      rfl
    · rfl
  refine ⟨?_, ?_⟩
  · simp only [hsame]
    exact ho _ h.origins
  · intro i toPath
    rw [hm, h.moves, hsame]

/-- After a failed dump a row is accounted for: the dump kept it, or its file went
to the failed directory, and to no other place. -/
def AccountedFor (cfg : Config) (w : Worker) (d : DumpRecord) (r : RowId) : Prop :=
  r ∈ d.after ∨ ∃ toPath, (r.file, toPath) ∈ w.moves ∧ toPath = cfg.m_failedDir ∧
    toPath ≠ cfg.m_backupDir ∧ toPath ≠ ""

section Modes

variable {cfg : Config} (hmode : cfg.m_delay ≠ 0 ∨ cfg.m_blockSize ≠ 0)

include hmode

/-- A whole file, in delay or block mode: its rows are known, and one move is added. -/
theorem origins_procFile (known : Nat → Prop) {file : Nat} (hfile : known file) {w : Worker}
    (h : Origins known w) (inp : FileInput) (lines : List LineInput) :
    Origins known (w.procFile cfg file inp lines) ∧
      (w.procFile cfg file inp lines).moves = w.moves ++ [(file, route cfg lines)] := by
  obtain ⟨hlines, hmoves, hok⟩ := origins_readLines cfg hfile lines {} h
  rw [Bool.true_and] at hok
  have hnot : ¬ (cfg.m_delay = 0 ∧ cfg.m_blockSize = 0) := by
    rintro ⟨hd, hb⟩
    exact hmode.elim (· hd) (· hb)
  have hcount : ∀ f, Origins known
      ((lines.foldl (readLine cfg file) (w, {})).1.countFile cfg f) ∧
      ((lines.foldl (readLine cfg file) (w, {})).1.countFile cfg f).moves = w.moves := by
    intro f
    unfold countFile
    split
    · exact ⟨⟨hlines.rowIds, hlines.before, hlines.after⟩, hmoves⟩
    · exact ⟨hlines, hmoves⟩
  unfold procFile saveFile moveFile
  dsimp only
  rw [if_neg hnot, hok]
  obtain ⟨hc, hm⟩ := hcount (lines.foldl (readLine cfg file) (w, {})).2
  refine ⟨⟨hc.rowIds, hc.before, hc.after⟩, ?_⟩
  dsimp only
  rw [hm]
  rfl

theorem tracked_tick {ticks : List Tick} {w : Worker} (h : Tracked cfg ticks w) (t : Tick) :
    Tracked cfg (ticks ++ [t]) (w.tick cfg ticks.length t) := by
  obtain ⟨inp, lines, hlines, htick⟩ | ⟨hlines, htick | htick⟩ := tick_cases cfg ticks.length w t
  · have hnew : fileLines (ticks ++ [t]) ticks.length = some lines := by
      rw [fileLines_append_one, if_pos rfl, hlines]
    have hold : ∀ i, (fileLines ticks i).isSome → (fileLines (ticks ++ [t]) i).isSome := by
      intro i hi
      rw [fileLines_append_one]
      split
      · rw [hlines]; rfl
      · exact hi
    have hfile : (fileLines (ticks ++ [t]) ticks.length).isSome := by rw [hnew]; rfl
    obtain ⟨hproc, hmoves⟩ := origins_procFile hmode
      (fun i => (fileLines (ticks ++ [t]) i).isSome) hfile (h.origins.mono hold) inp lines
    obtain ⟨hdelay, hmoves'⟩ := origins_dumpDelay cfg hproc t.dump
    rw [htick]
    refine ⟨hdelay, fun i toPath => ?_⟩
    rw [hmoves', hmoves, List.mem_append, List.mem_singleton, h.moves, fileLines_append_one]
    constructor
    · rintro (⟨ls, hls, hp⟩ | heq)
      · have hi : i ≠ ticks.length := by
          rintro rfl
          rw [fileLines, List.getElem?_eq_none (Nat.le_refl _)] at hls
          cases hls
        exact ⟨ls, by rw [if_neg hi]; exact hls, hp⟩
      · cases heq
        exact ⟨lines, by rw [if_pos rfl, hlines], rfl⟩
    · rintro ⟨ls, hls, hp⟩
      split at hls
      · rename_i hi
        rw [hlines] at hls
        cases hls
        exact .inr (by rw [hi, hp])
      · exact .inl ⟨ls, hls, hp⟩
  · rw [htick]
    exact h.skip hlines (fun _ ho => (origins_dumpDelay cfg ho t.dump).1)
      (origins_dumpDelay cfg h.origins t.dump).2
  · rw [htick]
    exact h.skip hlines (fun _ ho => ho) rfl

theorem tracked_rounds (ticks : List Tick) : ∀ {done : List Tick} {w : Worker},
    Tracked cfg done w → Tracked cfg (done ++ ticks) (w.rounds cfg done.length ticks) := by
  induction ticks with
  | nil => intro done w h; simpa [rounds] using h
  | cons t ticks ih =>
      intro done w h
      have hrest := ih (tracked_tick hmode h t)
      simpa [rounds] using hrest

theorem tracked_lifeProc (ticks : List Tick) (exit : DumpEnv) :
    Tracked cfg ticks (lifeProc cfg ticks exit {}) := by
  have hinit : Tracked cfg [] {} :=
    ⟨⟨by simp, by simp, by simp⟩, by simp [fileLines]⟩
  have hrounds := tracked_rounds hmode ticks hinit
  rw [List.nil_append] at hrounds
  unfold lifeProc
  dsimp only
  rw [if_pos hmode]
  exact ⟨origins_dump hrounds.origins true exit, fun i toPath => by
    rw [moves_dump]; exact hrounds.moves i toPath⟩

/-- **Failed dumps.** In delay or block mode, the rows of the failed dumps of a run
are all accounted for exactly when each of them comes from a file with a refused
line, and there is a failed directory of its own. -/
theorem accountedFor_iff (ticks : List Tick) (exit : DumpEnv) :
    (∀ d ∈ (lifeProc cfg ticks exit {}).dumps, d.ok = false → ∀ r ∈ d.before,
        AccountedFor cfg (lifeProc cfg ticks exit {}) d r) ↔
      ∀ d ∈ (lifeProc cfg ticks exit {}).dumps, d.ok = false → ∀ r ∈ d.before,
        (∃ lines, fileLines ticks r.file = some lines ∧
          ∃ l ∈ lines, acceptedRow l.stream = none) ∧
        cfg.m_failedDir ≠ cfg.m_backupDir ∧ cfg.m_failedDir ≠ "" := by
  have htracked := tracked_lifeProc hmode ticks exit
  refine forall₂_congr fun d hd => forall_congr' fun _ => forall₂_congr fun r hr => ?_
  obtain ⟨lines, hlines⟩ := Option.isSome_iff_exists.mp (htracked.origins.before d hd r hr)
  have hroute : ∀ toPath, (r.file, toPath) ∈ (lifeProc cfg ticks exit {}).moves ↔
      toPath = route cfg lines := by
    intro toPath
    rw [htracked.moves, hlines]
    simp
  have hrefused : allAccepted lines = false ↔ ∃ l ∈ lines, acceptedRow l.stream = none := by
    simp [allAccepted]
  unfold AccountedFor
  rw [htracked.origins.after d hd]
  constructor
  · rintro (hkept | ⟨toPath, hmove, hfailed, hbackup, hempty⟩)
    · cases hkept
    · rw [hroute] at hmove
      rw [hfailed] at hmove hbackup hempty
      refine ⟨⟨lines, hlines, hrefused.mp ?_⟩, hbackup, hempty⟩
      cases hall : allAccepted lines with
      | false => rfl
      | true =>
          rw [route, hall, if_pos rfl] at hmove
          exact absurd hmove hbackup
  · rintro ⟨⟨ls, hls, hl⟩, hbackup, hempty⟩
    rw [hlines] at hls
    cases hls
    refine .inr ⟨cfg.m_failedDir, (hroute _).mpr ?_, rfl, hbackup, hempty⟩
    rw [route, hrefused.mpr hl]
    rfl

end Modes

/-- A node that saves every row, with three directories of its own. -/
def blockConfig : Config :=
  { m_outputDir := "out", m_failedDir := "failed", m_backupDir := "succeeded", m_blockSize := 1
    strftime := fun t => if t = 1000 then "19700101001640" else "19700101001641" }

/-- The file `a.json` with the given lines, read at the time 1000, when nothing can
be saved. -/
def fileTick (lines : List ParseStream) : Tick :=
  { dequeued := some
      { fileName := { dir := "watch", filename := "a.json" }
        content := some (lines.map fun stream =>
          { stream, length := 9, dump := { now := 1000, saveOk := false } }) }
    dump := { now := 1000 } }

/-- The line `{"a":1}`. -/
def goodLine : ParseStream := (Json.object [([97], .scalar (.uint 1))]).stream

/-- A blank line, which is no document. -/
def blankLine : ParseStream := { events := [], isError := true }

/-- A file with a good and a blank line goes to `failed`, so its row, which the dump
after the blank line loses, is accounted for. -/
theorem accountedFor_refusedFile :
    AccountedFor blockConfig
      (lifeProc blockConfig [fileTick [goodLine, blankLine]] { now := 1001, saveOk := false } {})
      ⟨[⟨0, 1⟩], [], false⟩ ⟨0, 1⟩ := by
  have hdumps : (lifeProc blockConfig [fileTick [goodLine, blankLine]]
      { now := 1001, saveOk := false } {}).dumps = [⟨[⟨0, 1⟩], [], false⟩] := by decide +kernel
  have hall := (accountedFor_iff (.inr (by decide : blockConfig.m_blockSize ≠ 0))
    [fileTick [goodLine, blankLine]] { now := 1001, saveOk := false }).mpr
  rw [hdumps] at hall
  refine hall ?_ _ (List.mem_singleton_self _) rfl _ (List.mem_singleton_self _)
  intro d hd _ r hr
  obtain rfl := List.mem_singleton.mp hd
  obtain rfl := List.mem_singleton.mp hr
  exact ⟨⟨_, rfl, _, List.mem_cons_of_mem _ (List.mem_singleton_self _), rfl⟩,
    by decide, by decide⟩

/-- A good file is moved to `succeeded`, and then the dump at the exit throws:
its row is lost. -/
theorem accountedFor_fails :
    ¬ ∀ d ∈ (lifeProc blockConfig [fileTick [goodLine]] { now := 1001, saveOk := false } {}).dumps,
      d.ok = false → ∀ r ∈ d.before,
        AccountedFor blockConfig
          (lifeProc blockConfig [fileTick [goodLine]] { now := 1001, saveOk := false } {}) d r := by
  intro h
  have hdumps : (lifeProc blockConfig [fileTick [goodLine]] { now := 1001, saveOk := false }
      {}).dumps = [⟨[⟨0, 1⟩], [], false⟩] := by decide +kernel
  have hmoves : (lifeProc blockConfig [fileTick [goodLine]] { now := 1001, saveOk := false }
      {}).moves = [(0, "succeeded")] := by decide +kernel
  rw [hdumps] at h
  rcases h _ (List.mem_singleton_self _) rfl ⟨0, 1⟩ (List.mem_singleton_self _) with
    hkept | ⟨toPath, hmove, -, hbackup, -⟩
  · cases hkept
  · rw [hmoves] at hmove
    cases List.mem_singleton.mp hmove
    exact hbackup rfl

end Worker

end FlexEtl
