/-
FlexEtl.Node.Metrics — the metrics of `stem/metrics`, in steps.

A counter is a handle on a cell that it shares: its constructor makes the cell,
and `connect` may point the handle at the cell of another one, which has the
name already. A cell is known here by the handle that made it, so it is a
number of the type `ι` of the handles.

`connect` runs under the mutex. The loop over the map in `agregateProc` does so
too, and between the turns of the loop any counter may be incremented. What a
counter adds to its cell is a word, for all three types of counters.

`Recorded` is the program with the history of a run.
-/
import FlexEtl.Lib.Meter
import FlexEtl.Lib.Transition
import FlexEtl.Table.Getters
import Mathlib.Data.UInt

namespace FlexEtl

/-! ## Counters and views -/

/-- The types of counters. -/
inductive Ctype where
  | counterU
  | counterD
  | collectorU
  deriving DecidableEq

/-- What `flush` returns. -/
inductive Flushed where
  | count (n : UInt64)
  /-- `n / 10000.` -/
  | scaled (n : UInt64)
  | mean (n : UInt32)

/-- What `flush` makes of the word that it takes out of the cell. A `collector_u` has 44
bits for a sum and 20 for the number of summands. -/
def Ctype.flushed : Ctype → UInt64 → Flushed
  | .counterU, r => .count r
  | .counterD, r => .scaled r
  | .collectorU, r =>
      let v := r.toNat % 2 ^ 44
      let c := r.toNat / 2 ^ 44
      let res := if c ≠ 0 then v / c else 0
      .mean (if 1000000 < res then 0 else UInt32.ofNat res)

/-- `CounterViewImpl<ctype>`: the counter in it is a copy of a handle, on the same cell. -/
structure CounterView (ι : Type) where
  ctype : Ctype
  val : ι

/-- A line of the buffer. -/
structure MetricLine where
  name : Bytes
  value : Flushed
  seconds : Int

/-- The loop in `agregateProc`, which holds the mutex. -/
structure Aggregation (ι : Type) where
  todo : List (Bytes × CounterView ι)
  seconds : Int
  buffer : List MetricLine

/-- `metrics`, and the counters. `val` is `_val` of each handle. -/
structure Metrics (ι : Type) where
  cells : ι → UInt64
  val : ι → ι
  counterMap : Std.ExtTreeMap Bytes (CounterView ι) compare
  lastTime : Int
  aggregation : Option (Aggregation ι)
  sendQueue : List (List MetricLine)

/-! ## Names -/

/-- The lambda in `getName`. In its last branch `name.begin()++` is `name.begin()`. -/
def joinRoot (root name : Bytes) : Bytes :=
  if (root.getLast? = some 46 ∧ name.head? ≠ some 46) ∨
      (root.getLast? ≠ some 46 ∧ name.head? = some 46) then root ++ name
  else if root.getLast? ≠ some 46 ∧ name.head? ≠ some 46 then root ++ [46] ++ name
  else root ++ name

/-- `getName`, of metrics with a root `mRoot`. -/
def getName (mRoot root name : Bytes) : Bytes :=
  if mRoot ≠ [] ∧ root ≠ [] then joinRoot (joinRoot mRoot root) name
  else if mRoot ≠ [] then joinRoot mRoot name
  else if root = [] then name
  else joinRoot root name

namespace Metrics

variable {ι : Type} [DecidableEq ι]

/-! ## Operations -/

/-- `_val->fetch_add`. -/
def fetchAdd (m : Metrics ι) (i : ι) (n : UInt64) : Metrics ι :=
  { m with cells := Function.update m.cells (m.val i) (m.cells (m.val i) + n) }

/-- `connect`, for the name that `getName` made. -/
def connect (ctype : ι → Ctype) (m : Metrics ι) (i : ι) (mtr : Bytes) : Except Bytes (Metrics ι) :=
  match m.counterMap[mtr]? with
  | some view =>
      if view.ctype = ctype i then .ok { m with val := Function.update m.val i view.val }
      else .error (ascii "Error at duplicate metrics '" ++ mtr ++ ascii "': other type")
  | none => .ok { m with counterMap := m.counterMap.insert mtr ⟨ctype i, m.val i⟩ }

/-- A turn of the loop in `agregateProc`. -/
def flushTurn (m : Metrics ι) (seconds : Int) (buffer : List MetricLine) (name : Bytes)
    (view : CounterView ι) (todo : List (Bytes × CounterView ι)) : Metrics ι :=
  { m with
    cells := Function.update m.cells view.val 0
    aggregation := some
      ⟨todo, seconds, buffer ++ [⟨name, view.ctype.flushed (m.cells view.val), seconds⟩]⟩ }

/-- The lines that have been made. -/
def lines (m : Metrics ι) : List MetricLine :=
  m.sendQueue.flatten ++ (m.aggregation.map (·.buffer)).getD []

end Metrics

/-! ## Runs -/

/-- What happens next. -/
inductive MetricsAction (ι : Type) where
  | connect (i : ι) (name root : Bytes)
  /-- `++` of a `counter_u` -/
  | plusPlus (i : ι)
  /-- `+=` of a `counter_u` -/
  | plusEq (i : ι) (count : UInt64)
  /-- `+=` of a counter of another type, which adds this word -/
  | addWord (i : ι) (r : UInt64)
  /-- `agregateProc` finds that the minute is another one -/
  | beginAggregate (curTime : Int)
  | flush
  | enqueue

/-- A run: the program, the name that each handle is connected under, and the increments
made through the handles. -/
structure Recorded (ι : Type) where
  now : Metrics ι
  connected : ι → Option Bytes
  made : List (ι × UInt64)

namespace Recorded

variable {ι : Type} [DecidableEq ι]

def increment (r : Recorded ι) (i : ι) (n : UInt64) : Recorded ι :=
  { r with now := r.now.fetchAdd i n, made := r.made ++ [(i, n)] }

/-- A handle that `connect` throws for is not connected. -/
def connect (ctype : ι → Ctype) (r : Recorded ι) (i : ι) (mtr : Bytes) : Recorded ι :=
  match r.now.connect ctype i mtr with
  | .ok now => { r with now, connected := Function.update r.connected i (some mtr) }
  | .error _ => r

/-- One step. -/
def step (ctype : ι → Ctype) (mRoot : Bytes) (r : Recorded ι) :
    MetricsAction ι → Option (Recorded ι)
  | .connect i name root =>
      -- the mutex
      if r.now.aggregation.isSome then none
      else some (r.connect ctype i (getName mRoot root name))
  | .plusPlus i => if ctype i = .counterU then some (r.increment i 1) else none
  | .plusEq i count => if ctype i = .counterU then some (r.increment i count) else none
  | .addWord i word => if ctype i = .counterU then none else some (r.increment i word)
  | .beginAggregate curTime =>
      if r.now.aggregation.isSome ∨ curTime = r.now.lastTime then none
      else some { r with now := { r.now with
        lastTime := curTime
        aggregation := some ⟨r.now.counterMap.toList, 60 * curTime, []⟩ } }
  | .flush =>
      match r.now.aggregation with
      | some ⟨(name, view) :: todo, seconds, buffer⟩ =>
          some { r with now := r.now.flushTurn seconds buffer name view todo }
      | _ => none
  | .enqueue =>
      match r.now.aggregation with
      | some ⟨[], _, buffer⟩ => some { r with now := { r.now with
          aggregation := none
          sendQueue := if buffer = [] then r.now.sendQueue else r.now.sendQueue ++ [buffer] } }
      | _ => none

/-- A handle is connected once, and before it is incremented. -/
def Allowed (r : Recorded ι) : MetricsAction ι → Prop
  | .connect i _ _ => r.connected i = none ∧ ∀ e ∈ r.made, e.1 ≠ i
  | _ => True

/-- Runs of metrics with handles of these types. -/
def machine (ctype : ι → Ctype) (mRoot : Bytes) : Machine (Recorded ι) (MetricsAction ι) where
  Init r := (∀ i, r.now.val i = i ∧ r.now.cells i = 0 ∧ r.connected i = none) ∧
    r.now.counterMap = ∅ ∧ r.now.aggregation = none ∧ r.now.sendQueue = [] ∧ r.made = []
  step := step ctype mRoot

/-! ## What counters are for -/

/-- What has been reported of the `counter_u`s, and under which names. -/
def reports (r : Recorded ι) : List (Bytes × UInt64) :=
  r.now.lines.filterMap fun line =>
    match line.value with
    | .count n => some (line.name, n)
    | _ => none

/-- The increments of the `counter_u`s that are connected, under the names of these. -/
def increments (ctype : ι → Ctype) (r : Recorded ι) : List (Bytes × UInt64) :=
  r.made.filterMap fun e =>
    if ctype e.1 = .counterU then (r.connected e.1).map fun name => (name, e.2) else none

/-- What the `counter_u` of a name holds. -/
def pending (r : Recorded ι) (name : Bytes) : UInt64 :=
  match r.now.counterMap[name]? with
  | some view => if view.ctype = .counterU then r.now.cells view.val else 0
  | none => 0

end Recorded

end FlexEtl
