/-
FlexEtl.Json.Json2Click — the worker of `json2click.cpp`.

`Json2Click` holds the members that the worker thread reads and writes; each
function below is the body of one method, or of one loop, on them. What the
world decides is an input: the clock, whether a `save` throws, what the queue
hands out, what a file holds. `dump` also returns the `save` it made, if it
made one.

`Worker` puts a record of the past beside the members: the calls of `save` and
`moveFile`, the dumps, and for every row of the table the line it was read
from. The program keeps no such record, and nothing in the members depends
on it.
-/
import FlexEtl.Json.MyHandler
import FlexEtl.Node.FileSystem
import FlexEtl.Table.Cdb

namespace FlexEtl

/-! ## Parameters and state -/

/-- The parameters `init` reads, and `strftime` in the local time zone. -/
structure Json2Click.Config where
  m_outputDir : String
  m_failedDir : String
  m_backupDir : String := ""
  m_metrics : String := ""
  m_delay : Int := 0
  m_blockSize : Int := 0
  strftime : Int → String

/-- `class Json2Click`, after `init`. -/
structure Json2Click where
  m_table : ClickTable := {}
  m_saveTime : Int := 0
  m_saveCounter : Int := 0
  m_ErrorFS : Nat := 0
  m_ErrorJSON : Nat := 0
  m_Rows : Nat := 0
  m_DataSize : Nat := 0

/-- A call of `ClickTable::save`, and whether it returned. -/
structure SaveCall where
  fileName : String
  table : ClickTable
  ok : Bool

/-- What the world decides for one call of `dump`. -/
structure DumpEnv where
  now : Int
  saveOk : Bool := true

namespace Json2Click

/-! ## Saving -/

/-- The name `dump` gives its file: the time, and a counter when a file of this
second has been written before. -/
def dumpName (cfg : Config) (now : Int) (st : Json2Click) : String :=
  let timestr :=
    if now = st.m_saveTime ∧ st.m_saveCounter > 0 then
      cfg.strftime now ++ "_" ++ toString st.m_saveCounter
    else cfg.strftime now
  cfg.m_outputDir ++ "/" ++ timestr ++ ".cdb"

/-- The row count has reached the block size. The comparison is on `size_t`. -/
def rowCountOver (cfg : Config) (st : Json2Click) : Bool :=
  if cfg.m_blockSize ≠ 0 then decide (st.m_table.rowCount ≥ toSizeT cfg.m_blockSize) else false

/-- The last save is longer ago than the delay. -/
def timeOver (cfg : Config) (now : Int) (st : Json2Click) : Bool :=
  if cfg.m_delay ≠ 0 then decide (now - st.m_saveTime ≥ cfg.m_delay) else false

/-- The end of `dump`: save under the name for this time, then empty the table
also when the save threw. -/
def saveAndFlush (cfg : Config) (env : DumpEnv) (st : Json2Click) : Json2Click × SaveCall :=
  let m_saveCounter := st.m_saveCounter + 1
  let fileName := dumpName cfg env.now { st with m_saveCounter }
  ({ st with
      m_table := st.m_table.flushTbl
      m_saveTime := env.now
      m_saveCounter := if env.now = st.m_saveTime then m_saveCounter else 0
      m_ErrorFS := if env.saveOk then st.m_ErrorFS else st.m_ErrorFS + 1 },
    { fileName, table := st.m_table, ok := env.saveOk })

/-- `Json2Click::dump`. -/
def dump (cfg : Config) (bForced : Bool) (env : DumpEnv) (st : Json2Click) :
    Json2Click × Option SaveCall :=
  if 0 = st.m_table.rowCount then (st, none)
  else if !bForced && st.m_saveTime == 0 then ({ st with m_saveTime := env.now }, none)
  else if !bForced && !st.rowCountOver cfg && !st.timeOver cfg env.now then (st, none)
  else
    let (st, call) := st.saveAndFlush cfg env
    (st, some call)

/-- Saving by file, when neither a delay nor a block size is set. The file's
success flag is part of the state here. -/
def saveFile (cfg : Config) (fileName : Path) (saveOk : Bool) (st : Json2Click) (bOk : Bool) :
    Json2Click × Bool × SaveCall :=
  let outFileName := joinPath cfg.m_outputDir fileName.filename
  let call : SaveCall := { fileName := outFileName ++ ".cdb", table := st.m_table, ok := saveOk }
  let (st, bOk) :=
    if saveOk then (st, bOk) else ({ st with m_ErrorFS := st.m_ErrorFS + 1 }, false)
  ({ st with m_table := st.m_table.flushTbl }, bOk, call)

/-! ## One line -/

/-- Parsing one line and committing or reverting its row. The second component
is true when the row was committed; the source clears `bOk` when it is not. -/
def parseLine (line : ParseStream) (st : Json2Click) : Json2Click × Bool :=
  match parse st.m_table line with
  | (.parsed, table) => ({ st with m_table := table.finishAppend true }, true)
  | (.isError, table) =>
      ({ st with m_table := table.finishAppend false, m_ErrorJSON := st.m_ErrorJSON + 1 }, false)
  | (.exception, table) =>
      ({ st with m_table := table.finishAppend false, m_ErrorJSON := st.m_ErrorJSON + 1 }, false)

end Json2Click

/-! ## The worker and its past -/

/-- The line a row was read from: the number of the file, in the order in which
they leave the queue, and of the line in it. -/
structure RowId where
  file : Nat
  line : Nat
  deriving DecidableEq, Repr

/-- A dump that called `save`: the rows of the table before and after it. -/
structure DumpRecord where
  before : List RowId
  after : List RowId
  ok : Bool
  deriving DecidableEq, Repr

/-- The members of the node and the record of the past. -/
structure Worker where
  node : Json2Click := {}
  rowIds : List RowId := []
  saves : List SaveCall := []
  dumps : List DumpRecord := []
  moves : List (Nat × String) := []

/-- One buffer that `fgets` fills, and the world of the dump that may follow it. -/
structure LineInput where
  stream : ParseStream
  length : Nat
  dump : DumpEnv

/-- A file from the queue. `content` is `none` when it cannot be opened. -/
structure FileInput where
  fileName : Path
  content : Option (List LineInput)
  saveOk : Bool := true
  moveOk : Bool := true

/-- One round of the worker's loop: what the queue hands out within the time
limit, and the world of the dump at the end of the round. -/
structure Tick where
  dequeued : Option FileInput
  dump : DumpEnv

/-- The variables of the loop over one file. -/
structure FileState where
  bOk : Bool := true
  counter : Nat := 0
  readed : Nat := 0

namespace Worker

open Json2Click (Config)

/-- The calls of `dump` in the loop and at the exit. -/
def dump (cfg : Config) (bForced : Bool) (env : DumpEnv) (w : Worker) : Worker :=
  match w.node.dump cfg bForced env with
  | (node, none) => { w with node }
  | (node, some call) =>
      let after := w.rowIds.take node.m_table.rowCount
      { w with
        node
        rowIds := after
        saves := w.saves ++ [call]
        dumps := w.dumps ++ [{ before := w.rowIds, after, ok := call.ok }] }

/-- The body of the loop over the lines of file number `file`. -/
def readLine (cfg : Config) (file : Nat) (wf : Worker × FileState) (l : LineInput) :
    Worker × FileState :=
  let (w, f) := wf
  let (node, committed) := w.node.parseLine l.stream
  let f : FileState :=
    { bOk := f.bOk && committed, counter := f.counter + 1, readed := f.readed + l.length }
  let rowIds := if committed then w.rowIds ++ [{ file, line := f.counter }] else w.rowIds
  let w := { w with node, rowIds }
  if cfg.m_blockSize ≠ 0 then (w.dump cfg false l.dump, f) else (w, f)

/-- The metrics of a file. -/
def countFile (cfg : Config) (f : FileState) (w : Worker) : Worker :=
  if cfg.m_metrics ≠ "" then
    { w with node := { w.node with
        m_Rows := w.node.m_Rows + f.counter
        m_DataSize := w.node.m_DataSize + f.readed } }
  else w

/-- The save by file. -/
def saveFile (cfg : Config) (inp : FileInput) (w : Worker) (bOk : Bool) : Worker × Bool :=
  if cfg.m_delay = 0 ∧ cfg.m_blockSize = 0 then
    let (node, bOk, call) := w.node.saveFile cfg inp.fileName inp.saveOk bOk
    ({ w with
        node
        rowIds := w.rowIds.take node.m_table.rowCount
        saves := w.saves ++ [call] }, bOk)
  else (w, bOk)

/-- The call of `moveFile` for file number `file`. -/
def moveFile (cfg : Config) (file : Nat) (inp : FileInput) (bOk : Bool) (w : Worker) : Worker :=
  let toPath := if bOk then cfg.m_backupDir else cfg.m_failedDir
  let node :=
    if inp.moveOk then w.node else { w.node with m_ErrorFS := w.node.m_ErrorFS + 1 }
  { w with node, moves := w.moves ++ [(file, toPath)] }

/-- Reading an opened file to its end. -/
def procFile (cfg : Config) (file : Nat) (inp : FileInput) (lines : List LineInput) (w : Worker) :
    Worker :=
  let (w, f) := lines.foldl (readLine cfg file) (w, {})
  let w := w.countFile cfg f
  let (w, bOk) := w.saveFile cfg inp f.bOk
  w.moveFile cfg file inp bOk

/-- The dump at the end of a round. -/
def dumpDelay (cfg : Config) (env : DumpEnv) (w : Worker) : Worker :=
  if cfg.m_delay ≠ 0 then w.dump cfg false env else w

/-- One round of the loop. A file that cannot be opened ends the round at once. -/
def tick (cfg : Config) (file : Nat) (w : Worker) (t : Tick) : Worker :=
  match t.dequeued with
  | none => w.dumpDelay cfg t.dump
  | some inp =>
      if inp.fileName.empty then w.dumpDelay cfg t.dump
      else
        match inp.content with
        | none => w
        | some lines => (w.procFile cfg file inp lines).dumpDelay cfg t.dump

/-- The loop, as long as `m_run` holds. -/
def rounds (cfg : Config) : Nat → List Tick → Worker → Worker
  | _, [], w => w
  | file, t :: ticks, w => rounds cfg (file + 1) ticks (w.tick cfg file t)

/-- `Json2Click::lifeProc`, stopped after the given rounds. -/
def lifeProc (cfg : Config) (ticks : List Tick) (exit : DumpEnv) (w : Worker) : Worker :=
  let w := w.rounds cfg 0 ticks
  if cfg.m_delay ≠ 0 ∨ cfg.m_blockSize ≠ 0 then w.dump cfg true exit else w

end Worker

end FlexEtl
