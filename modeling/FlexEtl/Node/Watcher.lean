/-
FlexEtl.Node.Watcher — the directory watcher of `watcher.cpp`.

Nodes register a directory, an extension and a callback; a thread reads inotify
events and calls back. `inotify_add_watch` is a parameter: all that the program
sees of a directory is the descriptor it answers. A callback is anything at all,
and a call of it is recorded with the file it is given.

What the kernel writes is `InotifyEvent`, with its layout `encode`; what the
program reads of it is `walk`, over bytes. `Delivers` states what the watcher is
for: every event reaches each registration that covers it, once and in order.
-/
import FlexEtl.Lib.LittleEndian
import FlexEtl.Lib.Ragged
import FlexEtl.Table.Value
import Std.Data.ExtTreeMap.Lemmas

namespace FlexEtl

/-! ## File names -/

/-- `path::operator/` of a directory and a file name. -/
def joinName (dir name : Bytes) : Bytes :=
  if dir = [] then name else if dir.getLast? = some 47 then dir ++ name else dir ++ 47 :: name

/-- `path::extension` of a file name: from the last dot on. The names of the directory
itself and of its parent have none, a name that begins with its only dot is all
extension. -/
def extension (name : Bytes) : Bytes :=
  if name = [46] ∨ name = [46, 46] ∨ 46 ∉ name then []
  else 46 :: (name.reverse.takeWhile (· ≠ 46)).reverse

example : extension "a.b.json".toUTF8.toList = ".json".toUTF8.toList := by decide +kernel
example : extension ".json".toUTF8.toList = ".json".toUTF8.toList := by decide +kernel

/-! ## Registrations -/

/-- What a node registers: `tuple<path, path, watch_cb>`. -/
structure Registration (κ : Type) where
  watch : Bytes
  ext : Bytes
  callBack : κ

/-- A call of a callback. -/
structure Watcher.Call (κ : Type) where
  callBack : κ
  fileName : Bytes

structure Watcher (κ : Type) where
  m_watchMap : Std.ExtTreeMap Int (Registration κ) compare := ∅

namespace Watcher

variable {κ : Type} (inotify_add_watch : Bytes → Int)

/-- `Watcher::addWatch`: the entry of the descriptor is assigned. -/
def addWatch (w : Watcher κ) (watch ext : Bytes) (callBack : κ) : Int × Watcher κ :=
  let wd := inotify_add_watch watch
  (wd, { m_watchMap := w.m_watchMap.insert wd { watch, ext, callBack } })

/-- Registrations in order, from a fresh watcher. -/
def registered (rs : List (Registration κ)) : Watcher κ :=
  rs.foldl (fun w r => (w.addWatch inotify_add_watch r.watch r.ext r.callBack).2) {}

/-! ## The thread -/

def IN_CLOSE_WRITE : Nat := 0x8
def IN_MOVED_TO : Nat := 0x80

def WATCH_FLAGS : Nat := IN_CLOSE_WRITE ||| IN_MOVED_TO

/-- `sizeof(struct inotify_event)`. -/
def EVENT_SIZE : Nat := 16

/-- The body of the walk, for the event whose fields these are. -/
def onEvent (w : Watcher κ) (wd : Int) (mask len : Nat) (name : Bytes) : List (Call κ) :=
  if len ≠ 0 then
    if mask &&& WATCH_FLAGS ≠ 0 then
      match w.m_watchMap[wd]? with
      | some itr =>
          if itr.ext = [] ∨ extension name = itr.ext then
            [{ callBack := itr.callBack, fileName := joinName itr.watch name }]
          else []
      | none => []
    else []
  else []

/-- The walk over what a `read` has left in the buffer. `wd`, `mask`, `cookie` and `len`
are four bytes each, and the name is a C string. Every round takes `EVENT_SIZE` bytes
at least, so there are no more of them than bytes. -/
def walk (w : Watcher κ) : Nat → Bytes → List (Call κ)
  | 0, _ => []
  | _, [] => []
  | fuel + 1, buffer =>
      let wd := LittleEndian.toInt (buffer.take 4)
      let mask := LittleEndian.toNat ((buffer.drop 4).take 4)
      let len := LittleEndian.toNat ((buffer.drop 12).take 4)
      let name := (buffer.drop EVENT_SIZE).takeWhile (· ≠ 0)
      w.onEvent wd mask len name ++ walk w fuel (buffer.drop (EVENT_SIZE + len))

/-- What one round of the thread gets from `poll` and `read`. -/
inductive Poll where
  | error
  | timeout
  | ready (read : Option Bytes)

/-- `Watcher::lifeProc`, over what its rounds get until `m_run` is cleared. -/
def lifeProc (w : Watcher κ) : List Poll → List (Call κ)
  | [] => []
  | .error :: _ => []
  | .timeout :: polls => lifeProc w polls
  | .ready none :: _ => []
  | .ready (some buffer) :: polls => walk w buffer.length buffer ++ lifeProc w polls

end Watcher

/-! ## Events -/

/-- What the kernel reports: for a file in a watched directory its name, padded with
zero bytes of which there is one at least, and no name for anything else. -/
structure InotifyEvent where
  wd : Int
  mask : Nat
  cookie : Nat
  name : Bytes
  padding : Nat
  wd_range : -2 ^ 31 ≤ wd ∧ wd < 2 ^ 31
  mask_lt : mask < 2 ^ 32
  cookie_lt : cookie < 2 ^ 32
  name_ne : ∀ b ∈ name, b ≠ 0 ∧ b ≠ 47
  padding_iff : 0 < padding ↔ name ≠ []
  len_lt : name.length + padding < 2 ^ 32

namespace InotifyEvent

/-- The field `len`. -/
def len (e : InotifyEvent) : Nat := e.name.length + e.padding

def encode (e : InotifyEvent) : Bytes :=
  LittleEndian.ofInt 4 e.wd ++ (LittleEndian.bytes 4 e.mask ++ (LittleEndian.bytes 4 e.cookie ++
    (LittleEndian.bytes 4 e.len ++ (e.name ++ List.replicate e.padding 0))))

end InotifyEvent

/-! ## Delivery -/

namespace Watcher

variable {κ : Type}

/-- What a round gets when all goes well: nothing, or events back to back. -/
def poll : Option (List InotifyEvent) → Poll
  | none => .timeout
  | some events => .ready (some (events.flatMap InotifyEvent.encode))

/-- The registrations of the directory with a descriptor. -/
def ofDir (inotify_add_watch : Bytes → Int) (rs : List (Registration κ)) (wd : Int) :
    List (Registration κ) :=
  rs.filter fun r => inotify_add_watch r.watch = wd

/-- The registration is one for the directory of the event and for its file. -/
def Covers (inotify_add_watch : Bytes → Int) (r : Registration κ) (e : InotifyEvent) : Prop :=
  inotify_add_watch r.watch = e.wd ∧ e.name ≠ [] ∧ e.mask &&& WATCH_FLAGS ≠ 0 ∧
    (r.ext = [] ∨ extension e.name = r.ext)

/-- The call that a registration asks for. -/
def callFor (r : Registration κ) (e : InotifyEvent) : Call κ :=
  { callBack := r.callBack, fileName := joinName r.watch e.name }

/-- These calls serve an event: the callbacks that are registered for it are called, each
of them once, and no other. -/
structure Served (inotify_add_watch : Bytes → Int) (rs : List (Registration κ))
    (e : InotifyEvent) (cs : List (Call κ)) : Prop where
  nodup : (cs.map (·.callBack)).Nodup
  mem_iff : ∀ k, k ∈ cs.map (·.callBack) ↔ ∃ r ∈ rs, Covers inotify_add_watch r e ∧ r.callBack = k
  asked : ∀ c ∈ cs, ∃ r ∈ rs, Covers inotify_add_watch r e ∧ c = callFor r e

/-- The calls of the thread serve the events one after the other. -/
def Delivers (inotify_add_watch : Bytes → Int) (rs : List (Registration κ))
    (reads : List (Option (List InotifyEvent))) : Prop :=
  ∃ chunks, List.Forall₂ (Served inotify_add_watch rs) (reads.flatMap (·.getD [])) chunks ∧
    (registered inotify_add_watch rs).lifeProc (reads.map poll) = chunks.flatten

end Watcher

end FlexEtl
