/-
FlexEtl.Json.MyHandler — the SAX handler of `json2click.cpp`.

The handler knows its place in the document by a counter of open objects, a
flag that says an array is being filled, and the key that waits for its
value. A callback is an `EStateM` action, so a throw keeps the state it
happened in: the caller still has the table that the appends before it
changed. The stream `m_object` is written and never read; it is left out.
-/
import FlexEtl.Json.Document
import FlexEtl.Lib.EventStream
import FlexEtl.Table.ClickTable

namespace FlexEtl

/-- `struct MyHandler`. -/
structure MyHandler where
  m_key : Bytes := []
  m_objectCounter : Int := 0
  m_fillArray : Bool := false
  m_arrayData : List Value := []
  m_table : ClickTable

abbrev HandlerM := EStateM String MyHandler

namespace MyHandler

/-- `MyHandler::checkKey`. -/
def checkKey (b : Bool) : HandlerM Unit := do
  if b == (← get).m_key.isEmpty then throw "Error at parse json"

/-- `MyHandler::append`. `ClickTable::append` always returns true. -/
def append (val : Value) : HandlerM Bool := do
  if (← get).m_objectCounter == 1 then
    if (← get).m_fillArray then
      modify fun h => { h with m_arrayData := h.m_arrayData ++ [val] }
    else
      checkKey true
      modify fun h => { h with m_table := h.m_table.append h.m_key val, m_key := [] }
  return true

def startObject : HandlerM Bool := do
  modify fun h => { h with m_objectCounter := h.m_objectCounter + 1 }
  return true

def endObject (_memberCount : Nat) : HandlerM Bool := do
  modify fun h => { h with m_objectCounter := h.m_objectCounter - 1 }
  return true

def startArray : HandlerM Bool := do
  modify fun h => { h with m_fillArray := true }
  return true

def endArray (_elementCount : Nat) : HandlerM Bool := do
  modify fun h => { h with m_fillArray := false }
  let res ← append (.array (← get).m_arrayData)
  modify fun h => { h with m_arrayData := [] }
  return res

/-- `MyHandler::Key`. -/
def key (str : Bytes) : HandlerM Bool := do
  if (← get).m_objectCounter > 1 then return true
  checkKey false
  modify fun h => { h with m_key := str }
  return true

/-! The scalar callbacks: `append`, after the conversion to a `Value`. -/

def null : HandlerM Bool := append .null
def bool (val : Bool) : HandlerM Bool := append (.bool val)
def int (val : Int32) : HandlerM Bool := append (.int val.toInt64)
def uint (val : UInt32) : HandlerM Bool := append (.uint val.toUInt64)
def int64 (val : Int64) : HandlerM Bool := append (.int val)
def uint64 (val : UInt64) : HandlerM Bool := append (.uint val)
def double (val : UInt64) : HandlerM Bool := append (.double val)
def string (str : Bytes) : HandlerM Bool := append (.str str)

/-- The callback an event calls. -/
def on : Event → HandlerM Bool
  | .scalar .null => null
  | .scalar (.bool b) => bool b
  | .scalar (.int i) => int i
  | .scalar (.uint u) => uint u
  | .scalar (.int64 i) => int64 i
  | .scalar (.uint64 u) => uint64 u
  | .scalar (.double d) => double d
  | .scalar (.string s) => string s
  | .startObject => startObject
  | .key str => key str
  | .endObject memberCount => endObject memberCount
  | .startArray => startArray
  | .endArray elementCount => endArray elementCount

end MyHandler

/-! ## One line -/

/-- How `reader.Parse(ss, handler)` ends: a callback that returns false makes
the reader report an error, as a fault in the text does. -/
inductive ParseOutcome where
  | parsed
  | isError
  | exception
  deriving DecidableEq, Repr

/-- `reader.Parse(ss, handler)` with a fresh handler on `table`, and the table
it leaves behind. -/
def parse (table : ClickTable) (line : ParseStream) : ParseOutcome × ClickTable :=
  match EventStream.feed MyHandler.on line.events { m_table := table } with
  | .ok true h => (if line.isError then .isError else .parsed, h.m_table)
  | .ok false h => (.isError, h.m_table)
  | .error _ h => (.exception, h.m_table)

end FlexEtl
