/-
FlexEtl.Node.Fanout — a pipeset over `Click2DB` nodes.

`Fanout` is what the fan-out of a file touches: the files, and the queue of
every sub-node. `proc` is `PipeSet::doProc` on it, and `machine` the same in
steps so small that a process may be killed between any two of them, a copy
included, which grows piece by piece. Between them the workers of the sub-nodes
may take copies away again.
-/
import FlexEtl.Node.PipeSet
import FlexEtl.Lib.Transition

namespace FlexEtl

namespace PipeSet

/-! ## The nodes -/

/-- A `Click2DB` sub-node. -/
structure SubNode where
  m_toSend : String
  m_pQueue : List (Nat × Path) := []

/-- Where a directory takes the copy of a file. -/
def toFile (m_toSend : String) (inFile : Path) : Path :=
  { dir := m_toSend, filename := inFile.filename }

/-- `Click2DB::doProc` as far as the files go. It answers `true` when it has put the copy
in the queue. -/
def click2db (copyFails : Bool) (m_toSend : String) : Handler := fun inFile fs =>
  copyFile copyFails inFile (toFile m_toSend inFile) fs

/-- The files and the sub-nodes of a pipeset. -/
structure Fanout where
  fs : Fs
  subs : List SubNode

def Fanout.dirs (s : Fanout) : List String := s.subs.map (·.m_toSend)

/-- What the system answers to the calls of one `doProc`: whether the copy for a sub-node
fails for a reason other than its target, and what `moveFile` meets. -/
structure Env where
  copyFails : Nat → Bool := fun _ => false
  move : MoveEnv := {}

/-- The handlers of the sub-nodes. -/
def handlers (copyFails : Nat → Bool) (dirs : List String) : List (Option Handler) :=
  dirs.mapIdx fun i dir => some (click2db (copyFails i) dir)

/-- Putting a copy in the queue. -/
def SubNode.enqueue (sub : SubNode) (inFile : Path) : SubNode :=
  { sub with m_pQueue := sub.m_pQueue ++ [(0, toFile sub.m_toSend inFile)] }

/-- `PipeSet::doProc` with the queues. -/
def proc (env : Env) (fileName : Path) (s : Fanout) : Fanout :=
  let (run, _) := doProc (handlers env.copyFails s.dirs) env.move fileName s.fs
  { fs := run.fs
    subs := s.subs.mapIdx fun i sub =>
      if (i, true) ∈ run.answers then sub.enqueue fileName else sub }

/-! ## Step by step -/

/-- Where `doProc` stands. -/
inductive Pc where
  /-- before the turn of a sub-node -/
  | offer (i : Nat) (res : Bool)
  /-- `copy_file` has created the target and written so many bytes -/
  | copying (i written : Nat)
  | enqueue (i : Nat)
  | remove (res : Bool)
  | returned (res : Bool)

/-- A call of `doProc` under way. -/
structure Call where
  pc : Pc := .offer 0 true
  s : Fanout

/-- The next step of `doProc`. A step of a copy writes `piece` bytes more. -/
def next (env : Env) (fileName : Path) (piece : Nat) (c : Call) : Option Call :=
  match c.pc with
  | .offer i res =>
      match c.s.subs[i]? with
      | none => some { c with pc := .remove res }
      | some sub =>
          let target := toFile sub.m_toSend fileName
          if res then
            if env.copyFails i || (c.s.fs fileName).isNone || (c.s.fs target).isSome then
              some { c with pc := .offer (i + 1) false }
            else some { pc := .copying i 0, s := { c.s with fs := c.s.fs.write target [] } }
          else some { c with pc := .offer (i + 1) res }
  | .copying i written =>
      match c.s.subs[i]?, c.s.fs fileName with
      | some sub, some content =>
          let target := toFile sub.m_toSend fileName
          let fs := c.s.fs.write target (content.take (written + piece))
          if written + piece < content.length then
            some { pc := .copying i (written + piece), s := { c.s with fs } }
          else some { pc := .enqueue i, s := { c.s with fs } }
      | _, _ => none
  | .enqueue i =>
      some { pc := .offer (i + 1) true
             s := { c.s with subs := c.s.subs.modify i (·.enqueue fileName) } }
  | .remove res =>
      some { pc := .returned res
             s := { c.s with fs := (moveFile env.move "" fileName c.s.fs).2 } }
  | .returned _ => none

/-- What happens next. -/
inductive Action where
  | next (piece : Nat)
  /-- the workers of the sub-nodes, and other programs, change their files -/
  | others (fs : Fs)

def step (env : Env) (fileName : Path) (c : Call) : Action → Option Call
  | .next piece => next env fileName piece c
  | .others fs => some { c with s := { c.s with fs } }

/-- Nobody else touches the source, or a copy while it is made. -/
def Possible (fileName : Path) (c : Call) : Action → Prop
  | .next _ => True
  | .others fs => fs fileName = c.s.fs fileName ∧
      ∀ i written sub, c.pc = .copying i written → c.s.subs[i]? = some sub →
        fs (toFile sub.m_toSend fileName) = c.s.fs (toFile sub.m_toSend fileName)

/-- Nobody else does anything. -/
def Alone (_ : Call) : Action → Prop
  | .next _ => True
  | .others _ => False

/-- The calls of `doProc` for a file with this content. -/
def machine (env : Env) (fileName : Path) (content : Bytes) : Machine Call Action where
  Init c := c.pc = .offer 0 true ∧ c.s.fs fileName = some content
  step := step env fileName

/-! ## How far a fan-out comes -/

/-- The first `j` sub-nodes can be given the file: none has one of that name, and each has
a directory of its own. -/
structure Takes (copyFails : Nat → Bool) (dirs : List String) (fileName : Path) (fs : Fs)
    (j : Nat) : Prop where
  le : j ≤ dirs.length
  free : ∀ i dir, dirs[i]? = some dir → i < j →
    fs (toFile dir fileName) = none ∧ copyFails i = false
  nodup : (dirs.take j).Nodup

/-- The sub-node at position `j` refuses the file after the ones before have taken it: the
copy fails, or its directory has such a file, its own or a copy that has just been made. -/
def Refuses (copyFails : Nat → Bool) (dirs : List String) (fileName : Path) (fs : Fs)
    (j : Nat) : Prop :=
  ∀ dir, dirs[j]? = some dir →
    copyFails j = true ∨ (fs (toFile dir fileName)).isSome ∨ dir ∈ dirs.take j

/-- The files after copies into these directories. -/
def copies (fs : Fs) (fileName : Path) (content : Bytes) (dirs : List String) : Fs := fun q =>
  if q.filename = fileName.filename ∧ q.dir ∈ dirs then some content else fs q

/-- The files and the queues after `j` sub-nodes have taken the file. -/
def after (fileName : Path) (content : Bytes) (s : Fanout) (j : Nat) : Fanout where
  fs := copies s.fs fileName content (s.dirs.take j)
  subs := s.subs.mapIdx fun i sub => if i < j then sub.enqueue fileName else sub

/-- How far a call has come that began in the state `s`. -/
inductive Progress (env : Env) (fileName : Path) (content : Bytes) (s : Fanout) : Call → Prop where
  | offer {i} (h : Takes env.copyFails s.dirs fileName s.fs i) :
      Progress env fileName content s ⟨.offer i true, after fileName content s i⟩
  | copying {i dir written} (h : Takes env.copyFails s.dirs fileName s.fs (i + 1))
      (hdir : s.dirs[i]? = some dir) :
      Progress env fileName content s ⟨.copying i written, { after fileName content s i with
        fs := (after fileName content s i).fs.write (toFile dir fileName) (content.take written) }⟩
  | enqueue {i} (h : Takes env.copyFails s.dirs fileName s.fs (i + 1)) :
      Progress env fileName content s ⟨.enqueue i, { after fileName content s i with
        fs := (after fileName content s (i + 1)).fs }⟩
  | refused {i j} (h : Takes env.copyFails s.dirs fileName s.fs j)
      (hr : Refuses env.copyFails s.dirs fileName s.fs j) :
      Progress env fileName content s ⟨.offer i false, after fileName content s j⟩
  | remove {res j} (h : Takes env.copyFails s.dirs fileName s.fs j)
      (hr : Refuses env.copyFails s.dirs fileName s.fs j) :
      Progress env fileName content s ⟨.remove res, after fileName content s j⟩
  | returned {res} : Progress env fileName content s ⟨.returned res, proc env fileName s⟩

/-- The calls for a file, from a state that has it. -/
def callsFrom (env : Env) (fileName : Path) (content : Bytes) (s : Fanout) : Machine Call Action :=
  (machine env fileName content).starting fun c => c.s = s

end PipeSet

end FlexEtl
