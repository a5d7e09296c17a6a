/-
FlexEtl.Db.FileLife — the life of one file, and where a file is.

`Place` and `System.At` say where a file of the node may be found, in terms
of the directories, the queue and the record of the past. `Fate` is the same
told as a story: a small transition system that one file goes through, with
`Fate.Next` for its steps and no other file in sight. `Shows` connects them:
it says what the state of the whole system looks like at one file of a fate.
-/
import FlexEtl.Db.LifeProc

namespace FlexEtl

variable {γ : Type}

/-! ## Places -/

/-- The file that an event is about. -/
def SenderEvent.file : SenderEvent → Option Path
  | .connected _ => none
  | .called _ _ => none
  | .described _ => none
  | .accepted file => some file
  | .loadFailed file => some file
  | .inserted file => some file
  | .sendFailed _ file => some file
  | .requeued file => some file
  | .moved _ _ file => some file

/-- The attempts that the queue keeps for a file, one for each entry. -/
def entries (queue : List (Nat × Path)) (p : Path) : List Nat :=
  (queue.filter fun file => file.2 = p).map (·.1)

/-- What the worker is doing with the file in its hands. -/
inductive Stage where
  | load | bad | send | sent | caught
  deriving DecidableEq, Repr

/-- The file in the worker's hands. -/
def Pc.hand : Pc → Option (Stage × Nat × Path)
  | .load file => some (.load, file)
  | .bad file => some (.bad, file)
  | .send file _ => some (.send, file)
  | .sent file => some (.sent, file)
  | .caught file => some (.caught, file)
  | _ => none

/-- The worker's business with one file. -/
def Pc.handOf (pc : Pc) (p : Path) : Option (Stage × Nat) :=
  match pc.hand with
  | some (stage, n, file) => if file = p then some (stage, n) else none
  | none => none

/-- Where an accepted file may be. -/
inductive Place where
  | tosend | deleted | failed | badfiles
  deriving DecidableEq, Repr

namespace System

open Click2DB (Config)

/-- The file of a name in a directory. -/
def has (s : System γ) (dir : String) (p : Path) : Prop :=
  (s.fs { dir := dir, filename := p.filename }).isSome

/-- The file is in the place, with what belongs to it. -/
def At (cfg : Config) (s : System γ) (p : Path) : Place → Prop
  | .tosend => s.has cfg.m_toSend p ∧ .inserted p ∉ s.db.log ∧
      (s.pc = .down ∨ ∃ n, n ≤ 2 ∧ entries s.db.m_pQueue p = [n])
  | .deleted => (∀ dir ∈ cfg.dirs, ¬ s.has dir p) ∧ s.db.log.count (.inserted p) = 1
  | .failed => s.has cfg.m_sendFailed p ∧ .inserted p ∉ s.db.log ∧
      ∃ run, .moved run cfg.m_sendFailed p ∈ s.db.log ∧ s.db.log.count (.sendFailed run p) = 3
  | .badfiles => s.has cfg.m_loadFailed p ∧ .inserted p ∉ s.db.log ∧ .loadFailed p ∈ s.db.log

/-! ## What is assumed of a run -/

/-- No file in one of the node's other directories has the name of one that waits. -/
def DistinctNames (cfg : Config) (s : System γ) : Prop :=
  ∀ p : Path, s.has cfg.m_toSend p → ¬ s.has cfg.m_sendFailed p ∧ ¬ s.has cfg.m_loadFailed p

/-- The file operations of the worker succeed, and a file that comes in has a name
that no file of the node has or had. -/
def Smooth (cfg : Config) (s : System γ) (a : Action) : Prop :=
  Possible cfg s a ∧
    match a with
    | .lifeProc answers => answers.move = {}
    | .copy inFile _ =>
        (∀ dir ∈ cfg.dirs, ¬ s.has dir inFile) ∧
          .accepted { dir := cfg.m_toSend, filename := inFile.filename } ∉ s.db.log
    | _ => True

end System

/-- Both directories are configured, and neither is the one to send from. -/
structure Click2DB.Config.Complete (cfg : Click2DB.Config) : Prop where
  failed : cfg.m_sendFailed ≠ ""
  bad : cfg.m_loadFailed ≠ ""
  failed_ne : cfg.m_sendFailed ≠ cfg.m_toSend
  bad_ne : cfg.m_loadFailed ≠ cfg.m_toSend

/-! ## Fates -/

/-- The life of one file. `pending` is a file in `tosend` without a process. -/
inductive Fate where
  | absent
  | copied
  | pending
  | queued (attempts : Nat)
  | inHand (stage : Stage) (attempts : Nat)
  | deleted
  | failed (run : Nat)
  | badfiles
  deriving DecidableEq, Repr

namespace Fate

open Click2DB (Config)

/-- What may happen to a file. -/
inductive Next : Fate → Fate → Prop
  | copy : Next absent copied
  | accept : Next copied (queued 0)
  | restart : Next pending (queued 0)
  | stop (n : Nat) : Next (queued n) pending
  | dequeue (n : Nat) : Next (queued n) (inHand .load n)
  | loaded (n : Nat) : Next (inHand .load n) (inHand .send n)
  | loadFailed (n : Nat) : Next (inHand .load n) (inHand .bad n)
  | rejected (n : Nat) : Next (inHand .bad n) badfiles
  | inserted (n : Nat) : Next (inHand .send n) (inHand .sent n)
  | removed (n : Nat) : Next (inHand .sent n) deleted
  | sendFailed (n : Nat) : Next (inHand .send n) (inHand .caught n)
  | requeued (n : Nat) : n + 1 < 3 → Next (inHand .caught n) (queued (n + 1))
  | gaveUp (n run : Nat) : ¬ n + 1 < 3 → Next (inHand .caught n) (failed run)

/-- The directory where the file is. -/
def dir (cfg : Config) : Fate → Option String
  | absent | deleted => none
  | copied | pending | queued _ | inHand _ _ => some cfg.m_toSend
  | failed _ => some cfg.m_sendFailed
  | badfiles => some cfg.m_loadFailed

def entries : Fate → List Nat
  | queued n => [n]
  | _ => []

def hand : Fate → Option (Stage × Nat)
  | inHand stage n => some (stage, n)
  | _ => none

def arriving : Fate → Nat
  | copied => 1
  | _ => 0

def accepted : Fate → Bool
  | absent | copied => false
  | _ => true

/-- The failed loads. -/
def loads : Fate → Nat
  | inHand .bad _ | badfiles => 1
  | _ => 0

/-- The successful inserts. -/
def inserts : Fate → Nat
  | inHand .sent _ | deleted => 1
  | _ => 0

/-- The failed sends in run `r`, while `run` is the current one. -/
def Tries (run r k : Nat) : Fate → Prop
  | absent | copied => k = 0
  | queued n => if r = run then k = n else k ≤ 2
  | inHand .caught n => if r = run then k = n + 1 else k ≤ 2
  | inHand _ n => if r = run then k = n else k ≤ 2
  | failed run' => if r = run' then k = 3 else k ≤ 2
  | pending | deleted | badfiles => k ≤ 2

/-- Whether there is a process. -/
def Process (pc : Pc) : Fate → Prop
  | copied | queued _ => pc ≠ .down
  | pending => pc = .down
  | _ => True

def Bounded : Fate → Prop
  | queued n => n ≤ 2
  | inHand _ n => n ≤ 2
  | _ => True

end Fate

/-- What the record says of a file. -/
structure History (cfg : Click2DB.Config) (run : Nat) (p : Path) (log : List SenderEvent)
    (f : Fate) : Prop where
  accepted : .accepted p ∈ log ↔ f.accepted = true
  loads : log.count (.loadFailed p) = f.loads
  inserts : log.count (.inserted p) = f.inserts
  tries : ∀ r, f.Tries run r (log.count (.sendFailed r p))
  later : ∀ r, run < r → log.count (.sendFailed r p) = 0
  gaveUp : ∀ r, f = .failed r → .moved r cfg.m_sendFailed p ∈ log

/-- What the system shows of a file. Of an absent one it matters only that it does not
wait: its name may belong to a file that was there before. -/
structure Shows (cfg : Click2DB.Config) (s : System γ) (p : Path) (f : Fate) : Prop where
  home : f ≠ .absent → p.dir = cfg.m_toSend
  present : f ≠ .absent → ∀ dir ∈ cfg.dirs, s.has dir p ↔ f.dir cfg = some dir
  apart : f = .absent → p.dir = cfg.m_toSend → ¬ s.has cfg.m_toSend p
  entries : entries s.db.m_pQueue p = f.entries
  hand : s.pc.handOf p = f.hand
  arriving : s.arriving.count p = f.arriving
  process : f.Process s.pc
  bounded : f.Bounded
  history : History cfg s.run p s.db.log f

end FlexEtl
