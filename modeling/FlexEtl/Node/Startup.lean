/-
FlexEtl.Node.Startup — a node that begins to watch a directory others write to.

`PipeBase::start` and `Json2Click::init` do the same: they list the directory
and hand over every file, and then register the watch. A writer creates a file,
writes it piece by piece and closes it, as `ClickTable::save` does, or moves a
finished file in. All of them make their steps in any order, and the events of
the watch are delivered at any time after.

A file is more than its name: a writer goes on with a file that has been
deleted, and the name may be given to another one. So files have a number, and
the directory says which of them a name stands for.
-/
import FlexEtl.Lib.Transition
import FlexEtl.Node.Watcher

namespace FlexEtl

/-- What the start of a node depends on: the extension it watches for, where the empty one
stands for all, and whether its handler removes the file it is handed. -/
structure Starting where
  ext : Bytes
  removes : Bool

namespace Starting

/-- `PipeSet`, by `PipeBase::start`: every file, which `doProc` deletes. -/
def pipeSet : Starting where
  ext := []
  removes := true

/-- `Json2Click`, by its `init`: the files with the extension `.json`, which `doProc` puts
in a queue. -/
def json2Click : Starting where
  ext := [46, 106, 115, 111, 110]
  removes := false

/-- The test of the listing and of the watcher. -/
def Matches (n : Starting) (name : Bytes) : Prop := n.ext = [] ∨ extension name = n.ext

instance (n : Starting) (name : Bytes) : Decidable (n.Matches name) :=
  inferInstanceAs (Decidable (_ ∨ _))

/-! ## The state -/

/-- A file. `handed` is set when the handler has been given the complete file. `reused` says
that at its creation an event was waiting that bore its name. -/
structure File where
  name : Bytes
  content : Bytes := []
  isOpen : Bool
  handed : Bool := false
  reused : Bool := false

/-- How far the start has come. -/
inductive Phase where
  | idle
  /-- the iterator has still to show these names, those that exist then -/
  | listing (todo : List Bytes)
  | watching

/-- `dir` holds the files of the directory under their names, `events` the names of the
events that inotify has reported and the watcher has not read, and `log` the files that
the handler was given, as they were then. -/
structure State where
  phase : Phase := .idle
  dir : Bytes → Option Nat
  files : Nat → Option File
  events : List Bytes := []
  log : List File := []

namespace State

def setFile (s : State) (f : Nat) (file : File) : State :=
  { s with files := fun g => if g = f then some file else s.files g }

def setDir (s : State) (name : Bytes) (entry : Option Nat) : State :=
  { s with dir := fun name' => if name' = name then entry else s.dir name' }

/-- inotify reports a close or a move, if the watch is registered. -/
def notify (s : State) (name : Bytes) : State :=
  match s.phase with
  | .watching => { s with events := s.events ++ [name] }
  | _ => s

/-- The file that a name stands for. -/
def file? (s : State) (name : Bytes) : Option (Nat × File) :=
  (s.dir name).bind fun f => (s.files f).map fun file => (f, file)

/-- The handler is given the file of a name. Without one it can do nothing. -/
def handOver (n : Starting) (name : Bytes) (s : State) : State :=
  if n.Matches name then
    match s.file? name with
    | none => s
    | some (f, file) =>
        let s := { s with log := s.log ++ [file] }
        let s := s.setFile f { file with handed := file.handed || !file.isOpen }
        if n.removes then s.setDir name none else s
  else s

end State

/-! ## The steps -/

inductive Action where
  | create (f : Nat) (name : Bytes)
  | write (f : Nat) (piece : Bytes)
  | close (f : Nat)
  /-- a finished file is moved in, in the place of one that has the name -/
  | moveIn (f : Nat) (name content : Bytes)
  /-- the iterator is made, and will show these names -/
  | openDir (todo : List Bytes)
  | scan
  | register
  /-- the watcher reads an event and calls back -/
  | deliver
  /-- the handler's worker takes a file away that it has been given -/
  | take (name : Bytes)

open State in
def step (n : Starting) (s : State) : Action → Option State
  | .create f name =>
      if s.files f = none ∧ s.dir name = none then
        some ((s.setFile f { name, isOpen := true, reused := s.events.contains name }).setDir name f)
      else none
  | .write f piece =>
      match s.files f with
      | some file =>
          if file.isOpen then
            some (s.setFile f { file with content := file.content ++ piece })
          else none
      | none => none
  | .close f =>
      match s.files f with
      | some file =>
          if file.isOpen then
            let s := s.setFile f { file with isOpen := false }
            some (if s.dir file.name = some f then s.notify file.name else s)
          else none
      | none => none
  | .moveIn f name content =>
      if s.files f = none then
        some (((s.setFile f { name, content, isOpen := false }).setDir name f).notify name)
      else none
  | .openDir todo =>
      match s.phase with
      | .idle => some { s with phase := .listing todo }
      | _ => none
  | .scan =>
      match s.phase with
      | .listing (name :: todo) => some (handOver n name { s with phase := .listing todo })
      | _ => none
  | .register =>
      match s.phase with
      | .listing [] => some { s with phase := .watching }
      | _ => none
  | .deliver =>
      match s.events with
      | name :: events => some (handOver n name { s with events })
      | [] => none
  | .take name =>
      if (s.log.map (·.name)).contains name then some (s.setDir name none) else none

/-- What the operating system grants: the iterator shows every file that is there when it
is made. -/
def Possible (s : State) : Action → Prop
  | .openDir todo => ∀ name, (s.dir name).isSome → name ∈ todo
  | _ => True

/-- The node over its start. What is in the directory before has not been handed over. -/
def machine (n : Starting) : Machine State Action where
  Init s := s.phase = .idle ∧ s.events = [] ∧ s.log = [] ∧
    (∀ name f, s.dir name = some f ↔ ∃ file, s.files f = some file ∧ file.name = name) ∧
    ∀ f file, s.files f = some file → file.handed = false ∧ file.reused = false
  step := step n

/-! ## What the start is for -/

/-- Whoever completes a file of this name now, it will be handed over: by the listing, or
through the watch. -/
def State.Open (s : State) (name : Bytes) : Prop :=
  match s.phase with
  | .idle => True
  | .listing todo => name ∈ todo
  | .watching => True

/-- The turn of this name is still to come. -/
def State.Coming (s : State) (name : Bytes) : Prop :=
  match s.phase with
  | .idle => True
  | .listing todo => name ∈ todo
  | .watching => name ∈ s.events

/-- The turn of a file is still to come. -/
def State.OnItsWay (s : State) (f : Nat) (file : File) : Prop :=
  s.dir file.name = some f ∧ s.Coming file.name

/-- No file is missed: a complete one has been handed over since it is complete, or its
turn is still to come. And none is taken half-written: a handler that removes files is
never given one that is open. -/
structure Safe (n : Starting) (s : State) : Prop where
  handed : ∀ f file, s.files f = some file → n.Matches file.name → file.isOpen = false →
    file.handed = true ∨ s.OnItsWay f file
  closed : n.removes = true → ∀ file ∈ s.log, file.isOpen = false

/-- A step that does no harm. A file is completed while it is in the directory, and not
between its turn in the listing and the watch. A complete file is not replaced or taken
away before it has been handed over. When a handler that removes files comes to a name in
the listing, no writer has that file open; and when it comes to one through an event, no
writer has that file open that was created while an event of its name was waiting. -/
def Harmless (n : Starting) (s : State) : Action → Prop
  | .close f => ∀ file, s.files f = some file → n.Matches file.name →
      s.dir file.name = some f ∧ s.Open file.name
  | .moveIn _ name _ => n.Matches name →
      s.Open name ∧ ∀ g file, s.file? name = some (g, file) → file.isOpen = false →
        file.handed = true
  | .scan => ∀ name todo, s.phase = .listing (name :: todo) → n.Matches name →
      n.removes = true → ∀ f file, s.file? name = some (f, file) → file.isOpen = false
  | .deliver => ∀ name events, s.events = name :: events → n.Matches name →
      n.removes = true → ∀ f file, s.file? name = some (f, file) → file.reused = true →
        file.isOpen = false
  | .take name => n.Matches name → ∀ f file, s.file? name = some (f, file) →
      file.isOpen = false → file.handed = true
  | _ => True

end Starting

end FlexEtl
