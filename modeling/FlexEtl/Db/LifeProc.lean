/-
FlexEtl.Db.LifeProc — the worker of `Click2DB`, and the threads around it.

`System` is one `Click2DB` node over all the processes it lives in: its
members, where its worker stands in `lifeProc` with the worker's variables,
the files, and the calls of `doProc` that have copied their file and not yet
put it in the queue. The worker makes one step for each statement of the loop
that another thread could notice, so anything may come between two of them.

The time that the worker sleeps is not modelled. The queue may hand out any
of its entries, or none: its producers are not ordered among each other.
-/
import FlexEtl.Db.SendTable
import FlexEtl.Lib.Transition

namespace FlexEtl

/-! ## The state -/

/-- `CONNECT_TIMEOUT`. -/
def CONNECT_TIMEOUT : Nat := 60

/-- Where the worker stands, with what it holds there. -/
inductive Pc where
  /-- no process -/
  | down
  /-- `init` has returned, `start` is not called yet -/
  | ready
  /-- the condition of the loop -/
  | loop
  | connect
  | ping
  | describe
  /-- the test of `m_tblType` after the description -/
  | test
  | dequeue
  | load (file : Nat × Path)
  /-- in the handler of a failed load -/
  | bad (file : Nat × Path)
  | send (file : Nat × Path) (table : ClickTable)
  /-- after `sendTable` -/
  | sent (file : Nat × Path)
  /-- in the handler of a failed send -/
  | caught (file : Nat × Path)
  | exited

/-- The parameters of the node that name the table and directories. -/
structure Click2DB.Config where
  m_tableName : Bytes
  m_toSend : String
  m_sendFailed : String
  m_loadFailed : String

/-- The directories that the node uses. -/
def Click2DB.Config.dirs (cfg : Click2DB.Config) : List String :=
  [cfg.m_toSend, cfg.m_sendFailed, cfg.m_loadFailed]

/-- A node over its processes. `updateTblDesc` and `emptyCounter` are variables of
`lifeProc`. `clients` counts the connections made and `run` the processes. -/
structure System (γ : Type) where
  pc : Pc := .down
  db : Click2DB γ := {}
  updateTblDesc : Bool := true
  emptyCounter : Nat := 0
  fs : Fs
  arriving : List Path := []
  clients : Nat := 0
  run : Nat := 0

/-! ## The worker -/

/-- What the world answers to the call that the worker makes next. `read` is what
the stream delivers of a file's content. -/
structure Answers where
  connect : Except String Unit := .ok ()
  ping : Except String Unit := .ok ()
  description : Except String Click2DB.Description := .ok []
  dequeue : Option Nat := none
  read : Option Bytes → Option Bytes := id
  send : Click2DB.SendEnv := {}
  move : MoveEnv := {}

namespace System

open Click2DB (Config)

variable {γ : Type} (columns : Columns γ) (cfg : Config)

/-- `Click2DB::tryConnect`. -/
def tryConnect (answer : Except String Unit) (s : System γ) : Bool × System γ :=
  match s.db.m_pClickDB with
  | some _ => (true, s)
  | none =>
      match answer with
      | .ok () =>
          (true, { s with
            db := { s.db with m_pClickDB := some s.clients }.record (.connected s.clients)
            clients := s.clients + 1 })
      | .error _ => (false, { s with db := { s.db with m_tblType := ∅, m_pClickDB := none } })

/-- `if (!m_pClickDB && !tryConnect())`. -/
def connect (answer : Except String Unit) (s : System γ) : System γ :=
  if s.db.m_pClickDB.isSome then { s with pc := .ping }
  else
    match s.tryConnect answer with
    | (true, s) => { s with pc := .ping }
    | (false, s) => { s with emptyCounter := 0, pc := .loop }

/-- The check of the connection after a time without work. -/
def ping (answer : Except String Unit) (s : System γ) : System γ :=
  if s.emptyCounter / 2 > CONNECT_TIMEOUT then
    let db := s.db.record (.called .Ping s.db.m_pClickDB)
    let db :=
      match answer with
      | .ok () => db
      | .error _ => { db with m_pClickDB := none, m_tblType := ∅ }
    { s with emptyCounter := 0, db, pc := .describe }
  else { s with pc := .describe }

/-- Reading the description of the table. -/
def describe (answer : Except String Click2DB.Description) (s : System γ) : System γ :=
  if s.updateTblDesc || s.db.m_tblType.isEmpty then
    let db :=
      match (Click2DB.descibeTable answer).run s.db with
      | .ok _ db => db
      | .error _ db =>
          { db with g_ErrorDB := db.g_ErrorDB + 1, m_pClickDB := none, m_tblType := ∅ }
    { s with emptyCounter := 0, db, updateTblDesc := db.m_tblType.isEmpty, pc := .test }
  else { s with pc := .test }

/-- `if (m_tblType.empty())`. -/
def test (s : System γ) : System γ :=
  if s.db.m_tblType.isEmpty then { s with updateTblDesc := true, pc := .loop }
  else { s with pc := .dequeue }

/-- `wait_dequeue_timed`: the entry at a position, or nothing within the time. -/
def dequeue (answer : Option Nat) (s : System γ) : System γ :=
  match answer with
  | none => { s with emptyCounter := s.emptyCounter + 1, pc := .loop }
  | some i =>
      match s.db.m_pQueue[i]? with
      | none => { s with emptyCounter := s.emptyCounter + 1, pc := .loop }
      | some file =>
          { s with
            db := { s.db with m_pQueue := s.db.m_pQueue.eraseIdx i }
            emptyCounter := 0
            pc := .load file }

/-- `table.load(file.second.string())`. -/
def load (read : Option Bytes → Option Bytes) (file : Nat × Path) (s : System γ) :
    Option (System γ) :=
  match ClickTable.load {} file.2.string (read (s.fs file.2)) with
  | .returned table => some { s with pc := .send file table }
  | .threw _ _ =>
      some { s with
        db := { s.db with g_ErrorFS := s.db.g_ErrorFS + 1 }.record (.loadFailed file.2)
        pc := .bad file }
  | _ => none

/-- `if (!m_pnode->moveFile(toPath, file.second)) ++g_ErrorFS;`. -/
def moveFile (env : MoveEnv) (toPath : String) (file : Path) (s : System γ) : System γ :=
  match FlexEtl.moveFile env toPath file s.fs with
  | (true, fs) => { s with fs, db := s.db.record (.moved s.run toPath file) }
  | (false, fs) => { s with fs, db := { s.db with g_ErrorFS := s.db.g_ErrorFS + 1 } }

/-- `sendTable(table)`, and the first statement of the handler. -/
def send (env : Click2DB.SendEnv) (file : Nat × Path) (table : ClickTable) (s : System γ) :
    Option (System γ) :=
  match (Click2DB.sendTable columns cfg.m_tableName env file.2 table).run s.db with
  | .ok () db => some { s with db, pc := .sent file }
  | .error (.thrown _) db =>
      some { s with
        db := { db with g_ErrorDB := db.g_ErrorDB + 1 }.record (.sendFailed s.run file.2)
        pc := .caught file }
  | .error _ _ => none

/-- The rest of the handler of a failed send. -/
def retry (env : MoveEnv) (file : Nat × Path) (s : System γ) : System γ :=
  let file := (file.1 + 1, file.2)
  if file.1 < 3 then
    { s with
      db := { s.db with m_pQueue := s.db.m_pQueue ++ [file] }.record (.requeued file.2)
      updateTblDesc := true }
  else s.moveFile env cfg.m_sendFailed file.2

/-- `Click2DB::lifeProc`: the next step, or `none` where the worker has none or its
behaviour is undefined. -/
def lifeProc (a : Answers) (s : System γ) : Option (System γ) :=
  match s.pc with
  | .loop => some { s with pc := if s.db.m_run then .connect else .exited }
  | .connect => some (s.connect a.connect)
  | .ping => some (s.ping a.ping)
  | .describe => some (s.describe a.description)
  | .test => some s.test
  | .dequeue => some (s.dequeue a.dequeue)
  | .load file => s.load a.read file
  | .bad file => some { s.moveFile a.move cfg.m_loadFailed file.2 with pc := .loop }
  | .send file table => s.send columns cfg a.send file table
  | .sent file => some { s.moveFile a.move "" file.2 with pc := .loop }
  | .caught file => some { s.retry cfg a.move file with pc := .loop }
  | .down | .ready | .exited => none

/-! ## The other threads -/

/-- `Click2DB::doProc` as far as the copy, which decides whether it goes on. -/
def copy (inFile : Path) (fails : Bool) (s : System γ) : System γ :=
  let toFile : Path := { dir := cfg.m_toSend, filename := inFile.filename }
  match copyFile fails inFile toFile s.fs with
  | (true, fs) => { s with fs, arriving := toFile :: s.arriving }
  | (false, fs) => { s with fs }

/-- The rest of `doProc`. -/
def enqueue (toFile : Path) (s : System γ) : System γ :=
  { s with
    arriving := s.arriving.erase toFile
    db := { s.db with m_pQueue := s.db.m_pQueue ++ [(0, toFile)] }.record (.accepted toFile) }

/-- `Click2DB::init` in a new process, where the directory iterator shows `listing`. -/
def init (listing : List String) (s : System γ) : System γ :=
  { s with
    pc := .ready
    db := {
      m_pQueue := listing.map fun name => (0, { dir := cfg.m_toSend, filename := name })
      log := s.db.log
      inserts := s.db.inserts }
    run := s.run + 1 }

/-- `Click2DB::start`. -/
def start (s : System γ) : System γ :=
  { s with pc := .loop, db := { s.db with m_run := true }, updateTblDesc := true
           emptyCounter := 0 }

/-- What happens next. -/
inductive Action where
  | lifeProc (a : Answers)
  /-- a call of `doProc` begins -/
  | copy (inFile : Path) (fails : Bool)
  /-- a call of `doProc` ends -/
  | enqueue (toFile : Path)
  /-- other programs and nodes change their files -/
  | outside (fs : Fs)
  | init (listing : List String)
  | start
  /-- the destructor clears `m_run` -/
  | stop
  /-- the destructor has joined the worker, if there was one -/
  | destroy

/-- The step of the system. The watcher is joined before a node is destroyed, so no
call of `doProc` is left then. -/
def step (s : System γ) : Action → Option (System γ)
  | .lifeProc a => s.lifeProc columns cfg a
  | .copy inFile fails =>
      match s.pc with
      | .down => none
      | _ => some (s.copy cfg inFile fails)
  | .enqueue toFile => if toFile ∈ s.arriving then some (s.enqueue toFile) else none
  | .outside fs => some { s with fs }
  | .init listing =>
      match s.pc with
      | .down => some (s.init cfg listing)
      | _ => none
  | .start =>
      match s.pc with
      | .ready => some s.start
      | _ => none
  | .stop => some { s with db := { s.db with m_run := false } }
  | .destroy =>
      match s.pc, s.arriving with
      | .ready, [] | .exited, [] =>
          some { s with pc := .down, db := { log := s.db.log, inserts := s.db.inserts } }
      | _, _ => none

/-- What the operating system grants: a listing of the directory is complete and has
no name twice, and nobody else touches the files of the node. -/
def Possible (s : System γ) : Action → Prop
  | .init listing =>
      listing.Nodup ∧
        ∀ name, name ∈ listing ↔ (s.fs { dir := cfg.m_toSend, filename := name }).isSome
  | .outside fs => ∀ p : Path, p.dir ∈ cfg.dirs → fs p = s.fs p
  | _ => True

/-- No process yet. The files `names` wait in `tosend`: they are taken for accepted. -/
def initial (fs : Fs) (names : List String) : System γ :=
  { fs
    db := { log := names.map fun name => .accepted { dir := cfg.m_toSend, filename := name } } }

/-- The node, from before its first process on. -/
def machine : Machine (System γ) Action where
  Init s := ∃ fs names, s = initial cfg fs names ∧
    ∀ name, name ∈ names ↔ (fs { dir := cfg.m_toSend, filename := name }).isSome
  step := step columns cfg

end System

end FlexEtl
