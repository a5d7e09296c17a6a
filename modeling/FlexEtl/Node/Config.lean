/-
FlexEtl.Node.Config — `expandConfig` of `flexetl.cpp`.

A setting is a tree. The strings in it are `char *`, so they hold no zero byte
(`CString`), and an assignment cuts at one. The tree is generic in what stands
for its strings. `expandConfig` walks over the members of a group or the
elements of a list; an array is neither, and it is left alone with what it
holds.

A throw leaves the tree expanded in part, and `init` does not go on with it: here
the result is lost.
-/
import FlexEtl.Lib.Lines
import FlexEtl.Table.CdbTheorems
import FlexEtl.Table.Getters

namespace FlexEtl

/-! ## Settings -/

/-- A `char *`: the characters before the zero byte. -/
structure CString where
  chars : Bytes
  plain : 0 ∉ chars

/-- `c_str` of a `std::string`. -/
def CString.ofBytes (s : Bytes) : CString := ⟨cstring s, not_mem_cstring s⟩

theorem CString.ofBytes_chars (s : CString) : CString.ofBytes s.chars = s := by
  obtain ⟨chars, plain⟩ := s
  simp only [ofBytes, cstring_of_plain plain]

/-- A value of one of the scalar types of libconfig, besides strings. -/
inductive SettingScalar where
  | int (n : Int)
  | int64 (n : Int)
  | float (bits : UInt64)
  | bool (b : Bool)

/-- What a setting has besides its value. -/
structure SettingInfo where
  name : Bytes
  line : Nat

/-- `libconfig::Setting`, with a `σ` for each string. -/
inductive SettingOf (σ : Type) where
  | string (info : SettingInfo) (s : σ)
  | scalar (info : SettingInfo) (v : SettingScalar)
  | array (info : SettingInfo) (elements : List (SettingScalar ⊕ CString))
  | group (info : SettingInfo) (settings : List (SettingOf σ))
  | list (info : SettingInfo) (settings : List (SettingOf σ))

abbrev Setting := SettingOf CString

/-! ## Expansion -/

/-- `std::map<std::string, std::string> expandValues`. -/
abbrev ExpandValues := Std.ExtTreeMap Bytes Bytes compare

/-- What is thrown for a name without a value. -/
structure NoDefined where
  name : Bytes
  line : Nat

/-- Its `what()`. -/
def NoDefined.what (e : NoDefined) : Bytes :=
  ascii "No defined \"" ++ e.name ++ ascii "\" in config file at line: " ++ digits e.line

/-- The body of the loop that collects: a piece and its index. -/
def collectPiece (expandValues : ExpandValues) (piece : Bytes × Nat) : ExpandValues :=
  if piece.2 % 2 = 1 then expandValues.insertIfNew piece.1 [] else expandValues

/-- The body of the loop that expands, into the stream `os`. -/
def expandPiece (line : Nat) (expandValues : ExpandValues) (os : Bytes) (piece : Bytes × Nat) :
    Except NoDefined Bytes :=
  if piece.2 % 2 = 1 then
    match expandValues[piece.1]? with
    | some value => if value = [] then .error ⟨piece.1, line⟩ else .ok (os ++ value)
    | none => .error ⟨piece.1, line⟩
  else .ok (os ++ piece.1)

/-- What is done with a string. `Lines.fields` are the items that `std::getline` reads. -/
def expandString (bExpand : Bool) (line : Nat) (s : CString) (expandValues : ExpandValues) :
    Except NoDefined (CString × ExpandValues) :=
  let array := Lines.fields 37 s.chars
  if array.length = 1 then .ok (s, expandValues)
  else if bExpand then
    (array.zipIdx.foldlM (expandPiece line expandValues) []).map fun os =>
      (CString.ofBytes os, expandValues)
  else .ok (s, array.zipIdx.foldl collectPiece expandValues)

mutual

/-- The body of the loop of `expandConfig`. -/
def expandSetting (bExpand : Bool) :
    Setting → ExpandValues → Except NoDefined (Setting × ExpandValues)
  | .string info s, expandValues => do
      let (s, expandValues) ← expandString bExpand info.line s expandValues
      pure (.string info s, expandValues)
  | .scalar info v, expandValues => pure (.scalar info v, expandValues)
  | .array info elements, expandValues => pure (.array info elements, expandValues)
  | .group info settings, expandValues => do
      let (settings, expandValues) ← expandConfig bExpand settings expandValues
      pure (.group info settings, expandValues)
  | .list info settings, expandValues => do
      let (settings, expandValues) ← expandConfig bExpand settings expandValues
      pure (.list info settings, expandValues)

/-- `expandConfig`, on what a group or a list holds. -/
def expandConfig (bExpand : Bool) :
    List Setting → ExpandValues → Except NoDefined (List Setting × ExpandValues)
  | [], expandValues => pure ([], expandValues)
  | itr :: settings, expandValues => do
      let (itr, expandValues) ← expandSetting bExpand itr expandValues
      let (settings, expandValues) ← expandConfig bExpand settings expandValues
      pure (itr :: settings, expandValues)

end

/-- The two passes in `FlexEtl::init`. `flags` is the command line, read again once the
collected names are flags. -/
def expandApplication (flags : Bytes → Bytes) (handlersS : List Setting) :
    Except NoDefined (List Setting) := do
  let (handlersS, expandValues) ← expandConfig false handlersS ∅
  if expandValues.isEmpty then pure handlersS
  else
    let (handlersS, _) ← expandConfig true handlersS (expandValues.map fun name _ => flags name)
    pure handlersS

end FlexEtl
