/-
FlexEtl.Json.ReadLoop — the reading loop of `Json2Click::lifeProc`.

`Json2Click` is given the texts of a file one by one. Here is where they come
from: `fgets` with its buffer, `while (!feof(fl))` around it, and the bytes of a
stream, which ends with the end of the file or with an error that stays. The
loop may not end, so `readLoop` is given a number of rounds.
-/
import FlexEtl.Json.Json2Click
import FlexEtl.Lib.Lines

namespace FlexEtl

/-! ## Streams -/

/-- What a stream answers after its last byte. A directory can be opened, and answers
`EISDIR`. -/
inductive Ending where
  | endOfFile
  | readError
  deriving DecidableEq, Repr

/-- A `FILE` that is read: the bytes to come, what follows them, and what `feof` tests. -/
structure InStream where
  rest : Bytes
  ending : Ending
  eof : Bool := false

/-- `fgets(buffer, size, fl)`: a line with its newline, or `size - 1` bytes of it. A call that
meets the end of the file sets the flag, and fails if it has read nothing; a call that meets
an error fails. -/
def fgets (size : Nat) (fl : InStream) : Option Bytes × InStream :=
  let (chunk, rest) := Lines.next 10 (size - 1) fl.rest
  if chunk.length < size - 1 ∧ chunk.getLast? ≠ some 10 then
    match fl.ending with
    | .endOfFile => (if chunk = [] then none else some chunk, { fl with rest, eof := true })
    | .readError => (none, { fl with rest })
  else (some chunk, { fl with rest })

namespace Json2Click

/-! ## The loop -/

/-- `new char[65536]`. -/
def bufferSize : Nat := 65536

/-- The world around a file: what `rapidjson::Reader` makes of a C string, and the world of
the dump after each line. -/
structure LoopEnv where
  Parse : Bytes → ParseStream
  dump : Nat → DumpEnv

/-- The variables of the loop. `texts` is no variable: it records what the reader was
given. -/
structure Reading where
  fl : InStream
  w : Worker
  f : FileState := {}
  texts : List Bytes := []

/-- The body of the loop. -/
def readRound (cfg : Config) (file : Nat) (env : LoopEnv) (r : Reading) : Reading :=
  match fgets bufferSize r.fl with
  | (none, fl) => { r with fl }
  | (some buffer, fl) =>
      let text := cstring buffer
      let (w, f) := Worker.readLine cfg file (r.w, r.f)
        { stream := env.Parse text, length := text.length, dump := env.dump r.f.counter }
      { fl, w, f, texts := r.texts ++ [text] }

/-- `while (!feof(fl))`, if it ends within so many tests. -/
def readLoop (cfg : Config) (file : Nat) (env : LoopEnv) : Nat → Reading → Option Reading
  | 0, _ => none
  | fuel + 1, r => if r.fl.eof then some r else readLoop cfg file env fuel (readRound cfg file env r)

/-! ## The worker over streams -/

/-- A file from the queue. `content` is `none` when `fopen` fails. -/
structure QueuedFile where
  fileName : Path
  content : Option (Bytes × Ending)
  env : LoopEnv
  saveOk : Bool := true
  moveOk : Bool := true

/-- The inputs for the lines from number `i` on. -/
def lineInputs (env : LoopEnv) : Nat → List Bytes → List LineInput
  | _, [] => []
  | i, buffer :: buffers =>
      { stream := env.Parse (cstring buffer)
        length := (cstring buffer).length
        dump := env.dump i } :: lineInputs env (i + 1) buffers

/-- The file with its lines, as they are when it ends with the end of the file. -/
def QueuedFile.toInput (inp : QueuedFile) : FileInput where
  fileName := inp.fileName
  content := inp.content.map fun c =>
    lineInputs inp.env 0 (Lines.chunks 10 (bufferSize - 1) c.1)
  saveOk := inp.saveOk
  moveOk := inp.moveOk

/-- What follows the loop. -/
def finishFile (cfg : Config) (file : Nat) (inp : FileInput) (w : Worker) (f : FileState) :
    Worker :=
  let w := w.countFile cfg f
  let (w, bOk) := w.saveFile cfg inp f.bOk
  w.moveFile cfg file inp bOk

/-- One round of the worker: what the queue hands out, and the world of the dump at its end. -/
structure StreamTick where
  dequeued : Option QueuedFile
  dump : DumpEnv

def StreamTick.toTick (t : StreamTick) : Tick where
  dequeued := t.dequeued.map QueuedFile.toInput
  dump := t.dump

/-- One round, if its loop over the lines ends within so many tests. -/
def tickStream (fuel : Nat) (cfg : Config) (file : Nat) (w : Worker) (t : StreamTick) :
    Option Worker :=
  match t.dequeued with
  | none => some (w.dumpDelay cfg t.dump)
  | some inp =>
      if inp.fileName.empty then some (w.dumpDelay cfg t.dump)
      else
        match inp.content with
        | none => some w
        | some (content, ending) =>
            (readLoop cfg file inp.env fuel { fl := { rest := content, ending }, w }).map fun r =>
              (finishFile cfg file inp.toInput r.w r.f).dumpDelay cfg t.dump

/-- The rounds of the worker, one file after the other. -/
def roundsStream (fuel : Nat) (cfg : Config) : Nat → List StreamTick → Worker → Option Worker
  | _, [], w => some w
  | file, t :: ticks, w =>
      match tickStream fuel cfg file w t with
      | none => none
      | some w => roundsStream fuel cfg (file + 1) ticks w

end Json2Click

end FlexEtl
