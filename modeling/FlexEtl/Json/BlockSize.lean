/-
FlexEtl.Json.BlockSize — how many rows an output file gets.

`dump` looks at the row count only after it has set the time of the first
save, and a time of 0 stands for "no save yet". A worker whose clock does not
read 0 skips the test once, on the first row of the run, so `Below` bounds its
tables by the block size or by 2. A worker whose clock reads 0 skips it for
ever. `Over` is the other direction: a table above a bound stays above it
until it is saved, and the exit saves it.
-/
import FlexEtl.Json.Json2ClickTheorems

namespace FlexEtl

open ClickTable

/-! ## The clock of a run -/

/-- The clock readings of a round. -/
def Tick.readings (t : Tick) : List Int :=
  ((t.lines.getD []).map fun l => l.dump.now) ++ [t.dump.now]

namespace Json2Click

/-! ## A dump that is not forced -/

/-- All that a dump in the loop does: nothing, set the time of the first save,
wait, or save. It waits only below the block size. -/
theorem dump_unforced {cfg : Config} (hblock : cfg.m_blockSize ≠ 0) (env : DumpEnv)
    (st : Json2Click) :
    (st.m_table.rowCount = 0 ∧ st.dump cfg false env = (st, none)) ∨
    (st.m_table.rowCount ≠ 0 ∧ st.m_saveTime = 0 ∧
      st.dump cfg false env = ({ st with m_saveTime := env.now }, none)) ∨
    (st.m_saveTime ≠ 0 ∧ st.m_table.rowCount < toSizeT cfg.m_blockSize ∧
      st.dump cfg false env = (st, none)) ∨
    (st.m_saveTime ≠ 0 ∧ ∃ st' call, st.dump cfg false env = (st', some call) ∧
      call.table = st.m_table ∧ st'.m_table = {} ∧ st'.m_saveTime = env.now) := by
  by_cases hzero : st.m_table.rowCount = 0
  · exact .inl ⟨hzero, by simp [dump, hzero]⟩
  · by_cases htime : st.m_saveTime = 0
    · exact .inr (.inl ⟨hzero, htime, by simp [dump, Ne.symm hzero, htime]⟩)
    · by_cases hwait : (!st.rowCountOver cfg && !st.timeOver cfg env.now) = true
      · refine .inr (.inr (.inl ⟨htime, ?_, by simp_all [dump, Ne.symm hzero]⟩))
        have hover : st.rowCountOver cfg = false := by
          simp only [Bool.and_eq_true, Bool.not_eq_true'] at hwait
          exact hwait.1
        simpa [rowCountOver, hblock] using hover
      · refine .inr (.inr (.inr ⟨htime, (st.saveAndFlush cfg env).1,
          (st.saveAndFlush cfg env).2, ?_, rfl, rfl, rfl⟩))
        rw [Bool.not_eq_true] at hwait
        simp [dump, Ne.symm hzero, htime, hwait]

/-- Parsing a line leaves the time of the last save alone. -/
@[simp] theorem parseLine_saveTime (line : ParseStream) (st : Json2Click) :
    (st.parseLine line).1.m_saveTime = st.m_saveTime := by
  unfold parseLine
  split <;> rfl

/-- An accepted line makes the table longer by one row, a refused line leaves its length. -/
theorem rowCount_parseLine (line : ParseStream) {st : Json2Click} (ht : st.m_table.Aligned) :
    (st.parseLine line).1.m_table.rowCount =
      st.m_table.rowCount + (acceptedRow line).toList.length := by
  have hrows := congrArg List.length (parseLine_rows line ht).2
  simpa using hrows

end Json2Click

namespace Worker

open Json2Click (Config)

/-- The clock readings of a run. -/
def readings (ticks : List Tick) (exit : DumpEnv) : List Int :=
  ticks.flatMap Tick.readings ++ [exit.now]

/-- Every table given to `save` has at most `most` rows. -/
def SavesAtMost (most : Int) (w : Worker) : Prop :=
  ∀ call ∈ w.saves, (call.table.rowCount : Int) ≤ most

/-- With a block size, what follows the lines of a file leaves the table, the time of
the last save and the saves alone. -/
theorem procFile_frame {cfg : Config} (hblock : cfg.m_blockSize ≠ 0) (file : Nat) (inp : FileInput)
    (lines : List LineInput) (w : Worker) :
    (w.procFile cfg file inp lines).saves = (lines.foldl (readLine cfg file) (w, {})).1.saves ∧
      (w.procFile cfg file inp lines).node.m_table =
        (lines.foldl (readLine cfg file) (w, {})).1.node.m_table ∧
      (w.procFile cfg file inp lines).node.m_saveTime =
        (lines.foldl (readLine cfg file) (w, {})).1.node.m_saveTime := by
  have hmode : ¬ (cfg.m_delay = 0 ∧ cfg.m_blockSize = 0) := fun h => hblock h.2
  unfold procFile saveFile moveFile countFile
  dsimp only
  rw [if_neg hmode]
  by_cases hmetrics : cfg.m_metrics = ""
  · cases inp.moveOk <;> simp [hmetrics]
  · cases inp.moveOk <;> simp [hmetrics]

/-! ## A clock that does not read 0 -/

/-- Between two steps: no table saved so far had more than `most` rows, the table in
memory has fewer, and none before the first save time is set. -/
structure Below (most : Nat) (w : Worker) : Prop where
  aligned : w.node.m_table.Aligned
  saves : w.SavesAtMost most
  rows : w.node.m_table.rowCount < most
  saveTime : w.node.m_saveTime = 0 → w.node.m_table.rowCount = 0

/-- A dump in the loop brings a table that a line has made one row longer below the bound. -/
theorem below_dump {cfg : Config} (hblock : cfg.m_blockSize ≠ 0) {most : Nat} (htwo : 2 ≤ most)
    (hmost : toSizeT cfg.m_blockSize ≤ most) {env : DumpEnv} (hnow : env.now ≠ 0) {w : Worker}
    (haligned : w.node.m_table.Aligned) (hsaves : w.SavesAtMost most)
    (hrows : w.node.m_table.rowCount ≤ most)
    (htime : w.node.m_saveTime = 0 → w.node.m_table.rowCount ≤ 1) :
    (w.dump cfg false env).Below most := by
  obtain ⟨hzero, hdump⟩ | ⟨hpos, hunset, hdump⟩ | ⟨hset, hwait, hdump⟩ |
      ⟨hset, st', call, hdump, htable, hempty, hnow'⟩ :=
    Json2Click.dump_unforced hblock env w.node
  · rw [dump_none hdump]
    exact ⟨haligned, hsaves, by dsimp only; omega, fun _ => hzero⟩
  · have hone := htime hunset
    rw [dump_none hdump]
    exact ⟨haligned, hsaves, by dsimp only; omega, fun h => absurd h hnow⟩
  · rw [dump_none hdump]
    exact ⟨haligned, hsaves, by dsimp only; omega, fun h => absurd h hset⟩
  · have hcount : st'.m_table.rowCount = 0 := by rw [hempty]; rfl
    rw [dump_some hdump]
    refine ⟨by rw [hempty]; exact aligned_empty, ?_, by dsimp only; omega, fun _ => hcount⟩
    intro c hc
    rcases List.mem_append.mp hc with hc | hc
    · exact hsaves c hc
    · obtain rfl := List.mem_singleton.mp hc
      rw [htable]
      exact_mod_cast hrows

section Bounded

variable {cfg : Config} (hblock : cfg.m_blockSize ≠ 0) {most : Nat} (htwo : 2 ≤ most)
  (hmost : toSizeT cfg.m_blockSize ≤ most)

include hblock htwo hmost

theorem below_readLine (file : Nat) {w : Worker} (h : w.Below most) (f : FileState)
    {l : LineInput} (hnow : l.dump.now ≠ 0) : (readLine cfg file (w, f) l).1.Below most := by
  have hcount := Json2Click.rowCount_parseLine l.stream h.aligned
  have hone : (acceptedRow l.stream).toList.length ≤ 1 := by
    cases acceptedRow l.stream <;> simp
  have hrows := h.rows
  unfold readLine
  dsimp only
  rw [if_pos hblock]
  refine below_dump hblock htwo hmost hnow
    (Json2Click.parseLine_rows l.stream h.aligned).1 h.saves ?_ ?_
  · dsimp only
    omega
  · intro htime
    dsimp only at htime ⊢
    rw [Json2Click.parseLine_saveTime] at htime
    have hzero := h.saveTime htime
    omega

theorem below_readLines (file : Nat) (lines : List LineInput) :
    ∀ {w : Worker} (f : FileState), w.Below most → (∀ l ∈ lines, l.dump.now ≠ 0) →
      (lines.foldl (readLine cfg file) (w, f)).1.Below most := by
  induction lines with
  | nil => exact fun _ h _ => h
  | cons l lines ih =>
      intro w f h hnow
      have hl := below_readLine hblock htwo hmost file h f (hnow l (List.mem_cons_self ..))
      exact ih _ hl fun l' hl' => hnow l' (List.mem_cons_of_mem _ hl')

theorem below_dumpDelay {w : Worker} (h : w.Below most) {env : DumpEnv} (hnow : env.now ≠ 0) :
    (w.dumpDelay cfg env).Below most := by
  unfold dumpDelay
  split
  · refine below_dump hblock htwo hmost hnow h.aligned h.saves (Nat.le_of_lt h.rows) fun htime => ?_
    rw [h.saveTime htime]
    omega
  · exact h

theorem below_procFile (file : Nat) {w : Worker} (h : w.Below most) (inp : FileInput)
    {lines : List LineInput} (hnow : ∀ l ∈ lines, l.dump.now ≠ 0) :
    (w.procFile cfg file inp lines).Below most := by
  have hlines := below_readLines hblock htwo hmost file lines {} h hnow
  obtain ⟨hsaves, htable, htime⟩ := procFile_frame hblock file inp lines w
  refine ⟨by rw [htable]; exact hlines.aligned, ?_, by rw [htable]; exact hlines.rows, ?_⟩
  · unfold SavesAtMost
    rw [hsaves]
    exact hlines.saves
  · rw [htime, htable]
    exact hlines.saveTime

theorem below_tick (file : Nat) {w : Worker} (h : w.Below most) {t : Tick}
    (hnow : ∀ c ∈ t.readings, c ≠ 0) : (w.tick cfg file t).Below most := by
  have hdump : t.dump.now ≠ 0 := hnow _ (by simp [Tick.readings])
  obtain ⟨inp, lines, hlines, htick⟩ | ⟨-, htick | htick⟩ := tick_cases cfg file w t
  · have hread : ∀ l ∈ lines, l.dump.now ≠ 0 := by
      intro l hl
      refine hnow _ (List.mem_append_left _ (List.mem_map.mpr ⟨l, ?_, rfl⟩))
      rwa [hlines]
    rw [htick]
    exact below_dumpDelay hblock htwo hmost
      (below_procFile hblock htwo hmost file h inp hread) hdump
  · rw [htick]
    exact below_dumpDelay hblock htwo hmost h hdump
  · rw [htick]
    exact h

theorem below_rounds (ticks : List Tick) :
    ∀ {w : Worker} (file : Nat), w.Below most → (∀ t ∈ ticks, ∀ c ∈ t.readings, c ≠ 0) →
      (w.rounds cfg file ticks).Below most := by
  induction ticks with
  | nil => exact fun _ h _ => h
  | cons t ticks ih =>
      intro w file h hnow
      have ht := below_tick hblock htwo hmost file h (hnow t (List.mem_cons_self ..))
      exact ih (file + 1) ht fun t' ht' => hnow t' (List.mem_cons_of_mem _ ht')

/-- With a clock that never reads 0, no file of a run has more rows than the block
size, or than 2 where the block size is 1. -/
theorem savesAtMost_lifeProc (ticks : List Tick) (exit : DumpEnv)
    (hnow : ∀ c ∈ readings ticks exit, c ≠ 0) :
    (lifeProc cfg ticks exit {}).SavesAtMost most := by
  have hinit : Below most {} := ⟨aligned_empty, by simp [SavesAtMost], by
    change 0 < most; omega, fun _ => rfl⟩
  have hrounds := below_rounds hblock htwo hmost ticks 0 hinit fun t ht c hc =>
    hnow c (List.mem_append_left _ (List.mem_flatMap.mpr ⟨t, ht, hc⟩))
  unfold lifeProc
  dsimp only
  rw [if_pos (.inr hblock)]
  intro call hcall
  obtain ⟨st', hdump, -, -⟩ | ⟨st', last, hdump, htable, -, -⟩ :=
    Json2Click.dump_cases cfg true exit (rounds cfg 0 ticks {}).node
  · rw [dump_none hdump] at hcall
    exact hrounds.saves call hcall
  · rw [dump_some hdump] at hcall
    rcases List.mem_append.mp hcall with hcall | hcall
    · exact hrounds.saves call hcall
    · obtain rfl := List.mem_singleton.mp hcall
      have hrows := hrounds.rows
      rw [htable]
      omega

end Bounded

/-! ## A table above a bound -/

/-- A table with more than `most` rows was saved, or is in memory. -/
def Over (most : Nat) (w : Worker) : Prop :=
  (∃ call ∈ w.saves, most < call.table.rowCount) ∨ most < w.node.m_table.rowCount

theorem Over.congr {most : Nat} {w w' : Worker} (h : w.Over most) (hsaves : w'.saves = w.saves)
    (htable : w'.node.m_table = w.node.m_table) : w'.Over most := by
  unfold Over
  rw [hsaves, htable]
  exact h

theorem over_dump (cfg : Config) (bForced : Bool) (env : DumpEnv) {most : Nat} {w : Worker}
    (h : w.Over most) : (w.dump cfg bForced env).Over most := by
  obtain ⟨st', hdump, htable, -⟩ | ⟨st', call, hdump, htable, -, -⟩ :=
    Json2Click.dump_cases cfg bForced env w.node
  · rw [dump_none hdump]
    exact h.congr rfl htable
  · rw [dump_some hdump]
    refine .inl ?_
    rcases h with ⟨c, hc, hover⟩ | hover
    · exact ⟨c, List.mem_append_left _ hc, hover⟩
    · exact ⟨call, by simp, by rw [htable]; exact hover⟩

section Saving

variable {cfg : Config} (hblock : cfg.m_blockSize ≠ 0) {most : Nat}

include hblock

/-- A line is read after the tables before it, and an accepted line comes on top of
the table in memory. -/
theorem over_readLine (file : Nat) {w : Worker} (ht : w.node.m_table.Aligned) (f : FileState)
    (l : LineInput)
    (h : w.Over most ∨ (acceptedRow l.stream).isSome ∧ most ≤ w.node.m_table.rowCount) :
    (readLine cfg file (w, f) l).1.Over most := by
  have hcount := Json2Click.rowCount_parseLine l.stream ht
  unfold readLine
  dsimp only
  rw [if_pos hblock]
  refine over_dump cfg false l.dump ?_
  rcases h with (⟨call, hcall, hover⟩ | hover) | ⟨haccepted, hfull⟩
  · exact .inl ⟨call, hcall, hover⟩
  · exact .inr (by dsimp only; omega)
  · have hone : (acceptedRow l.stream).toList.length = 1 := by
      simp [haccepted]
    exact .inr (by dsimp only; omega)

/-- What is above the bound after the lines of the only file is saved by the end. -/
theorem over_lifeProc (t : Tick) (inp : FileInput) {lines : List LineInput}
    (hdequeued : t.dequeued = some inp) (hname : inp.fileName.empty = false)
    (hcontent : inp.content = some lines) (exit : DumpEnv)
    (h : (lines.foldl (readLine cfg 0) ({}, {})).1.Over most) :
    ∃ call ∈ (lifeProc cfg [t] exit {}).saves, most < call.table.rowCount := by
  obtain ⟨hsaves, htable, -⟩ := procFile_frame hblock 0 inp lines {}
  have hproc : (procFile cfg 0 inp lines {}).Over most := h.congr hsaves htable
  have htick : (rounds cfg 0 [t] {}).Over most := by
    have hround : rounds cfg 0 [t] {} = (procFile cfg 0 inp lines {}).dumpDelay cfg t.dump := by
      simp [rounds, tick, hdequeued, hname, hcontent]
    rw [hround]
    unfold dumpDelay
    split
    · exact over_dump cfg false t.dump hproc
    · exact hproc
  have hexit := over_dump cfg true exit htick
  have hempty := rowCount_dump_forced cfg exit (rounds cfg 0 [t] {})
  have hlife : lifeProc cfg [t] exit {} = (rounds cfg 0 [t] {}).dump cfg true exit := by
    unfold lifeProc
    dsimp only
    rw [if_pos (.inr hblock)]
  rw [hlife]
  rcases hexit with hsaved | hover
  · exact hsaved
  · omega

end Saving

/-! ## The first rows of a run -/

/-- Before the time of the first save is set, a line is kept and the time is set. -/
theorem readLine_unset {cfg : Config} (hblock : cfg.m_blockSize ≠ 0) (file : Nat) {w : Worker}
    (ht : w.node.m_table.Aligned) (hunset : w.node.m_saveTime = 0) (f : FileState) {l : LineInput}
    (haccepted : (acceptedRow l.stream).isSome) :
    (readLine cfg file (w, f) l).1.node.m_table.Aligned ∧
      (readLine cfg file (w, f) l).1.node.m_table.rowCount = w.node.m_table.rowCount + 1 ∧
      (readLine cfg file (w, f) l).1.node.m_saveTime = l.dump.now := by
  have hcount := Json2Click.rowCount_parseLine l.stream ht
  have hone : (acceptedRow l.stream).toList.length = 1 := by simp [haccepted]
  rw [hone] at hcount
  have haligned := (Json2Click.parseLine_rows l.stream ht).1
  unfold readLine
  dsimp only
  rw [if_pos hblock]
  obtain ⟨hzero, -⟩ | ⟨-, -, hdump⟩ | ⟨hset, -, -⟩ | ⟨hset, -⟩ :=
    Json2Click.dump_unforced hblock l.dump (w.node.parseLine l.stream).1
  · omega
  · rw [dump_none hdump]
    exact ⟨haligned, hcount, rfl⟩
  · simp [hunset] at hset
  · simp [hunset] at hset

/-- A table that grows for ever: the lines of a worker whose clock reads 0. -/
theorem readLines_zero {cfg : Config} (hblock : cfg.m_blockSize ≠ 0) {l : LineInput}
    (haccepted : (acceptedRow l.stream).isSome) (hnow : l.dump.now = 0) (n : Nat) :
    ∀ {w : Worker} (f : FileState), w.node.m_table.Aligned → w.node.m_saveTime = 0 →
      ((List.replicate n l).foldl (readLine cfg 0) (w, f)).1.node.m_table.Aligned ∧
        ((List.replicate n l).foldl (readLine cfg 0) (w, f)).1.node.m_table.rowCount =
          w.node.m_table.rowCount + n := by
  induction n with
  | zero => exact fun f ht _ => ⟨ht, rfl⟩
  | succ n ih =>
      intro w f ht hunset
      obtain ⟨haligned, hcount, htime⟩ := readLine_unset hblock 0 ht hunset f haccepted
      obtain ⟨halignedAll, hcountAll⟩ :=
        ih (readLine cfg 0 (w, f) l).2 haligned (htime.trans hnow)
      rw [List.replicate_succ, List.foldl_cons]
      refine ⟨halignedAll, hcountAll.trans ?_⟩
      rw [hcount]
      omega

/-! ## The bound -/

/-- The line `{"a":1}`, read at the time `c`. -/
def goodInput (c : Int) : LineInput := { stream := goodLine, length := 9, dump := { now := c } }

/-- The file `a.json` with `n` such lines. -/
def goodFile (n : Nat) (c : Int) : FileInput where
  fileName := { dir := "watch", filename := "a.json" }
  content := some (List.replicate n (goodInput c))

/-- A round at the time `c` that reads it. -/
def goodTick (n : Nat) (c : Int) : Tick := { dequeued := some (goodFile n c), dump := { now := c } }

theorem acceptedRow_goodLine : (acceptedRow goodLine).isSome := by decide +kernel

theorem readings_goodTick (n : Nat) (c : Int) :
    ∀ x ∈ readings [goodTick n c] { now := c }, x = c := by
  intro x hx
  simp only [readings, List.flatMap_cons, List.flatMap_nil, List.append_nil, List.mem_append,
    List.mem_singleton, Tick.readings, List.mem_map] at hx
  rcases hx with (⟨l, hl, rfl⟩ | rfl) | rfl
  · have hl' : l ∈ List.replicate n (goodInput c) := hl
    rw [List.eq_of_mem_replicate hl']
    rfl
  · rfl
  · rfl

/-- One line more than the block size, with a block size of 1 or a clock that reads 0. -/
theorem exceeds_goodTick {cfg : Config} {n : Nat} (hn : cfg.m_blockSize = n) (hpos : 1 ≤ n) {c : Int}
    (h : n = 1 ∨ c = 0) :
    ¬ (lifeProc cfg [goodTick (n + 1) c] { now := c } {}).SavesAtMost cfg.m_blockSize := by
  have hblock : cfg.m_blockSize ≠ 0 := by omega
  have haccepted : (acceptedRow (goodInput c).stream).isSome := acceptedRow_goodLine
  have hfull : ((List.replicate n (goodInput c)).foldl (readLine cfg 0)
        ({}, {})).1.node.m_table.Aligned ∧
      ((List.replicate n (goodInput c)).foldl (readLine cfg 0)
        ({}, {})).1.node.m_table.rowCount = n := by
    rcases h with rfl | rfl
    · obtain ⟨haligned, hcount, -⟩ :=
        readLine_unset hblock 0 (w := {}) aligned_empty rfl {} haccepted
      exact ⟨haligned, hcount⟩
    · obtain ⟨haligned, hcount⟩ :=
        readLines_zero hblock haccepted rfl n (w := {}) {} aligned_empty rfl
      exact ⟨haligned, hcount.trans (Nat.zero_add n)⟩
  have hover := over_readLine hblock 0 hfull.1
    ((List.replicate n (goodInput c)).foldl (readLine cfg 0) ({}, {})).2 (goodInput c)
    (.inr ⟨haccepted, Nat.le_of_eq hfull.2.symm⟩)
  obtain ⟨call, hcall, hrows⟩ := over_lifeProc hblock (goodTick (n + 1) c) (goodFile (n + 1) c)
    rfl rfl rfl { now := c } (by
      rw [List.replicate_succ', List.foldl_append]
      exact hover)
  intro hbound
  have hle := hbound call hcall
  omega

/-- **The block size.** Whatever the clock may read: every run of a worker with a
block size keeps its files within it exactly when the block size is not 1 and the
clock never reads 0. -/
theorem savesAtMost_blockSize_iff {cfg : Config} (hblock : 1 ≤ cfg.m_blockSize)
    {Clock : Int → Prop} (hclock : ∃ c, Clock c) :
    (∀ ticks exit, (∀ c ∈ readings ticks exit, Clock c) →
        (lifeProc cfg ticks exit {}).SavesAtMost cfg.m_blockSize) ↔
      2 ≤ cfg.m_blockSize ∧ ¬ Clock 0 := by
  obtain ⟨n, hn⟩ : ∃ n : Nat, cfg.m_blockSize = n := ⟨cfg.m_blockSize.toNat, by omega⟩
  have hpos : 1 ≤ n := by omega
  have hrun : ∀ {c}, Clock c → ∀ x ∈ readings [goodTick (n + 1) c] { now := c }, Clock x := by
    intro c hc x hx
    rw [readings_goodTick (n + 1) c x hx]
    exact hc
  constructor
  · intro hall
    constructor
    · by_contra hone
      obtain ⟨c, hc⟩ := hclock
      exact exceeds_goodTick hn hpos (.inl (by omega)) (hall _ _ (hrun hc))
    · intro hzero
      exact exceeds_goodTick hn hpos (.inr rfl) (hall _ _ (hrun hzero))
  · rintro ⟨htwo, hzero⟩ ticks exit hnow call hcall
    have hmost : toSizeT cfg.m_blockSize ≤ n := by unfold toSizeT; omega
    have hsaves := savesAtMost_lifeProc (by omega) (by omega) hmost ticks exit
      (fun c hc hc0 => hzero (hc0 ▸ hnow c hc)) call hcall
    rw [hn]
    exact hsaves

/-- The settings of the example configuration: a file a minute, of a thousand rows at most. -/
def minuteConfig : Config :=
  { m_outputDir := "out", m_failedDir := "failed", m_backupDir := "succeeded", m_delay := 60
    m_blockSize := 1000, strftime := fun _ => "20200101000000" }

/-- The example configuration keeps its bound on a clock after 1970. -/
theorem savesAtMost_minuteConfig :
    (∀ ticks exit, (∀ c ∈ readings ticks exit, 0 < c) →
        (lifeProc minuteConfig ticks exit {}).SavesAtMost minuteConfig.m_blockSize) ↔
      2 ≤ minuteConfig.m_blockSize ∧ ¬ (0 : Int) < 0 :=
  savesAtMost_blockSize_iff (by decide) ⟨1, by decide⟩

/-- With a block size of 1, a file of two good lines is saved as one table of two rows. -/
theorem savesAtMost_blockSize_fails :
    ¬ (1 ≤ blockConfig.m_blockSize →
      (lifeProc blockConfig [goodTick 2 1000] { now := 1001 } {}).SavesAtMost
        blockConfig.m_blockSize) := by
  intro h
  have hcounts : ((lifeProc blockConfig [goodTick 2 1000] { now := 1001 } {}).saves.map
      fun call => call.table.rowCount) = [2] := by decide +kernel
  obtain ⟨call, hcall, htwo⟩ := List.mem_map.mp (hcounts ▸ List.mem_singleton_self 2)
  have hle := h (by decide) call hcall
  rw [htwo] at hle
  exact absurd hle (by decide)

end Worker

end FlexEtl
