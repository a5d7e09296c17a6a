/-
FlexEtl.Node.FileSystem — paths, files and `Node::moveFile` of `nodes.cpp`.

A path of a file is its directory and its file name: that is all the program
takes apart and puts together. A file system maps paths to contents. What the
operating system answers to a call is an input of the model, so every
operation is total and may fail at any time.
-/
import FlexEtl.Table.Value

namespace FlexEtl

/-! ## Paths -/

/-- `path::operator/` on a directory and a relative name, as a string. -/
def joinPath (dir name : String) : String :=
  if dir = "" then name else if dir.endsWith "/" then dir ++ name else dir ++ "/" ++ name

/-- `std::filesystem::path` of a file. -/
structure Path where
  dir : String
  filename : String
  deriving DecidableEq, Repr

namespace Path

/-- `path::empty`. -/
def empty (p : Path) : Bool := p.dir == "" && p.filename == ""

/-- `path::string`. -/
def string (p : Path) : String := joinPath p.dir p.filename

end Path

/-! ## Files -/

/-- The regular files, with their contents. -/
abbrev Fs := Path → Option Bytes

namespace Fs

def write (fs : Fs) (p : Path) (content : Bytes) : Fs := fun q => if q = p then some content else fs q

def erase (fs : Fs) (p : Path) : Fs := fun q => if q = p then none else fs q

@[simp] theorem write_same (fs : Fs) (p : Path) (content : Bytes) :
    fs.write p content p = some content := by
  simp [write]

theorem write_of_ne (fs : Fs) {p q : Path} (content : Bytes) (h : q ≠ p) :
    fs.write p content q = fs q := by
  simp [write, h]

/-- The last of two writes counts. -/
theorem write_write (fs : Fs) (p : Path) (content content' : Bytes) :
    (fs.write p content).write p content' = fs.write p content' := by
  funext q
  by_cases h : q = p
  · simp [h]
  · simp [write_of_ne _ _ h]

@[simp] theorem erase_same (fs : Fs) (p : Path) : fs.erase p p = none := by
  simp [erase]

theorem erase_of_ne (fs : Fs) {p q : Path} (h : q ≠ p) : fs.erase p q = fs q := by
  simp [erase, h]

/-- `rename`: the target is replaced, and nothing changes when it is the source. -/
def rename (fs : Fs) (source target : Path) : Fs :=
  match fs source with
  | none => fs
  | some content => (fs.erase source).write target content

end Fs

/-- `copy_file` without options: it fails when there is nothing to copy or the
target exists, and `fails` stands for every other error. The second case leaves
the target alone. -/
def copyFile (fails : Bool) (source target : Path) (fs : Fs) : Bool × Fs :=
  match fs source with
  | none => (false, fs)
  | some content =>
      if fails || (fs target).isSome then (false, fs) else (true, fs.write target content)

/-- What the system answers to the calls of one `moveFile`: whether each fails
for a reason other than a missing file. -/
structure MoveEnv where
  removeFails : Bool := false
  renameFails : Bool := false
  setTimeFails : Bool := false

/-- `Node::moveFile`. `remove` without an error is false when there is no file. -/
def moveFile (env : MoveEnv) (toPath : String) (fileName : Path) (fs : Fs) : Bool × Fs :=
  if toPath = "" then
    if env.removeFails || (fs fileName).isNone then (false, fs)
    else (true, fs.erase fileName)
  else
    let backupName : Path := { dir := toPath, filename := fileName.filename }
    if env.renameFails || (fs fileName).isNone then (false, fs)
    else if env.setTimeFails then (false, fs.rename fileName backupName)
    else (true, fs.rename fileName backupName)

/-- Removing: the call reports whether the file is gone because of it. -/
theorem moveFile_remove (env : MoveEnv) (fileName : Path) (fs : Fs) :
    moveFile env "" fileName fs =
      if env.removeFails = false ∧ (fs fileName).isSome then (true, fs.erase fileName)
      else (false, fs) := by
  cases hr : env.removeFails with
  | true => simp [moveFile, hr]
  | false => cases hf : fs fileName with
    | none => simp [moveFile, hr, hf]
    | some content => simp [moveFile, hr, hf]

end FlexEtl
