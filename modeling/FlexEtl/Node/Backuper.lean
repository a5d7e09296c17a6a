/-
FlexEtl.Node.Backuper — `Backuper`, which removes old files.

`main` gives `init` the number of hours, as a product of 32-bit words, and
`init` gives it to the `Backuper`. Nodes register directories through a queue.
The thread goes over the directories once an hour, and when one is registered.

Points in time and durations are signed words of nanoseconds, as those of
`system_clock` and `steady_clock`; their difference wraps around. What the
operating system answers to a `remove` is an input. Other programs change the
directories between the turns of the thread. An exception in the thread ends it.
-/
import FlexEtl.Lib.Outcome
import FlexEtl.Lib.Transition
import FlexEtl.Node.Watcher
import Mathlib.Logic.Function.Basic
import Std.Data.ExtTreeSet.Lemmas

namespace FlexEtl

/-! ## Directories -/

/-- What the program sees of a file. There is no time when `last_write_time` throws. -/
structure DirEntry where
  name : Bytes
  isDirectory : Bool
  lastWriteTime : Option Int64

/-- The files of a directory, as the iterator shows them. -/
structure Directory where
  entries : List DirEntry
  distinct : (entries.map (·.name)).Nodup

def Directory.remove (dir : Directory) (name : Bytes) : Directory where
  entries := dir.entries.filter fun e => e.name ≠ name
  distinct := dir.distinct.sublist (List.filter_sublist.map _)

/-- The directories that exist. -/
abbrev Directories := Bytes → Option Directory

namespace Directories

/-- The files of a directory that may not exist. -/
def files (dirs : Directories) (path : Bytes) : List DirEntry :=
  match dirs path with
  | some dir => dir.entries
  | none => []

def remove (dirs : Directories) (path name : Bytes) : Directories :=
  Function.update dirs path ((dirs path).map (·.remove name))

end Directories

/-! ## The backuper -/

/-- What `main` passes as `cleanBackupDays`, for a value of the flag. -/
def cleanBackupDays (FLAGS_clean_backup : UInt32) : Int32 := (24 * FLAGS_clean_backup).toInt32

/-- `duration_cast<hours>`, which truncates. -/
def hours (d : Int64) : Int64 := d / 3600000000000

/-- `duration_cast<seconds>`. -/
def seconds (d : Int64) : Int64 := d / 1000000000

/-- `Backuper`. `lastTime` is a variable of `lifeProc`. -/
structure Backuper where
  m_cleanTime : Int32
  m_registerQueue : List (Bytes × Bytes) := []
  m_backupDirs : Std.ExtTreeMap Bytes (Std.ExtTreeSet Bytes compare) compare := ∅
  lastTime : Int64 := 0

namespace Backuper

def addBackupDir (b : Backuper) (path ext : Bytes) : Backuper :=
  { b with m_registerQueue := b.m_registerQueue ++ [(path, ext)] }

/-- `m_backupDirs[path].insert(ext)`. -/
def insertDir (b : Backuper) (path ext : Bytes) : Backuper :=
  { b with
    m_backupDirs := b.m_backupDirs.insert path ((b.m_backupDirs.getD path ∅).insert ext) }

/-- The body of the inner loop. `fails` says for which files `remove` sets the error. -/
def cleanEntry (m_cleanTime : Int32) (curSysTime : Int64) (fails : Bytes → Bytes → Bool)
    (path : Bytes) (exts : Std.ExtTreeSet Bytes compare) (itr : DirEntry) :
    EStateM Unit Directories Unit := do
  if itr.isDirectory then return
  if !exts.contains (extension itr.name) then return
  match itr.lastWriteTime with
  | none => throw ()
  | some fileTime =>
      if m_cleanTime.toInt64 < hours (curSysTime - fileTime) then
        if fails path itr.name then return
        modify fun dirs => dirs.remove path itr.name

/-- The body of the outer loop. -/
def cleanDir (m_cleanTime : Int32) (curSysTime : Int64) (fails : Bytes → Bytes → Bool)
    (path : Bytes × Std.ExtTreeSet Bytes compare) : EStateM Unit Directories Unit := do
  let dirs ← get
  (dirs.files path.1).foldlM
    (fun _ itr => cleanEntry m_cleanTime curSysTime fails path.1 path.2 itr) ()

/-- The loop over the directories. -/
def clean (b : Backuper) (curSysTime : Int64) (fails : Bytes → Bytes → Bool) :
    EStateM Unit Directories Unit :=
  b.m_backupDirs.toList.foldlM (fun _ path => cleanDir b.m_cleanTime curSysTime fails path) ()

def period : Int64 := 3600

/-- The rest of a turn of `lifeProc`, once the queue has been read. -/
def check (b : Backuper) (bForceCheck : Bool) (curTime curSysTime : Int64)
    (fails : Bytes → Bytes → Bool) : EStateM Unit Directories Backuper :=
  if !bForceCheck ∧ seconds (curTime - b.lastTime) < period then return b
  else do
    let b := { b with lastTime := curTime }
    b.clean curSysTime fails
    return b

/-- A turn of `lifeProc`. -/
def lifeTurn (b : Backuper) (curTime curSysTime : Int64) (fails : Bytes → Bytes → Bool) :
    EStateM Unit Directories Backuper :=
  match b.m_registerQueue with
  | [] => b.check false curTime curSysTime fails
  | newPath :: queue =>
      let b := { b with m_registerQueue := queue }.insertDir newPath.1 newPath.2
      b.check true curTime curSysTime fails

end Backuper

/-! ## Runs -/

/-- The backuper, the directories, and what has been registered so far. -/
structure Backups where
  backuper : Backuper
  running : Bool
  dirs : Directories
  registered : List (Bytes × Bytes)

inductive BackupAction where
  | addBackupDir (path ext : Bytes)
  /-- what other programs make of the directories -/
  | change (dirs : Directories)
  | turn (curTime curSysTime : Int64) (fails : Bytes → Bytes → Bool)

namespace Backups

/-- One step. -/
def step (s : Backups) : BackupAction → Option Backups
  | .addBackupDir path ext =>
      some { s with
        backuper := s.backuper.addBackupDir path ext
        registered := s.registered ++ [(path, ext)] }
  | .change dirs => some { s with dirs }
  | .turn curTime curSysTime fails =>
      if s.running then
        match s.backuper.lifeTurn curTime curSysTime fails s.dirs with
        | .ok backuper dirs => some { s with backuper, dirs }
        | .error _ dirs => some { s with running := false, dirs }
      else none

/-- The clock does not show a time before the epoch. -/
def Possible (_ : Backups) : BackupAction → Prop
  | .turn _ curSysTime _ => 0 ≤ curSysTime
  | _ => True

/-- The runs of a program that was started with this flag. -/
def machine (FLAGS_clean_backup : UInt32) : Machine Backups BackupAction where
  Init s := s.backuper = { m_cleanTime := cleanBackupDays FLAGS_clean_backup } ∧
    s.running = true ∧ s.registered = []
  step := step

end Backups

/-! ## What is asked for -/

/-- Nanoseconds. -/
def day : Int := 24 * 3600 * 1000000000

/-- A file that may be removed: it is not a directory, its extension is registered for its
directory, and it is older than so many days. -/
structure Due (days : UInt32) (registered : List (Bytes × Bytes)) (curSysTime : Int64)
    (path : Bytes) (e : DirEntry) : Prop where
  file : e.isDirectory = false
  ext : (path, extension e.name) ∈ registered
  old : ∃ fileTime, e.lastWriteTime = some fileTime ∧
    days.toNat * day < curSysTime.toInt - fileTime.toInt

/-- Whenever a file is there before a turn and not after it, it was due. -/
def KeepsBackups (days : UInt32) : Prop :=
  ∀ s, (Backups.machine days).Reachable Backups.Possible s →
    ∀ curTime curSysTime fails s', 0 ≤ curSysTime →
      s.step (.turn curTime curSysTime fails) = some s' →
      ∀ path, ∀ e ∈ s.dirs.files path, e ∉ s'.dirs.files path →
        Due days s.registered curSysTime path e

end FlexEtl
