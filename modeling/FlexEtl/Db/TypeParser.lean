/-
FlexEtl.Db.TypeParser — the names of types: `type_parser.cpp`, `GetName` of
`types.cpp` and `CreateColumnByType` of `factory.cpp`.

The stack of the parser holds pointers into the tree that it builds: each of them
points to the parent of the one above it, and a node is only ever added as the
last child. `open_elements_` therefore keeps the nodes above the current one,
without that last child, and `type_` keeps the current one. The pointer to the
root that `Parse` pushes first lies below all of them, as `rootPushed`.

A column is its type here: what `CreateColumnByType` makes is empty. `none` is a
null `ColumnRef`.
-/
import FlexEtl.Db.Column
import FlexEtl.Lib.Numeral

namespace FlexEtl

/-! ## Syntax trees -/

/-- `Type::Code`. -/
inductive TypeCode where
  | void
  | int8 | int16 | int32 | int64 | int128
  | uint8 | uint16 | uint32 | uint64
  | float32 | float64
  | string | fixedString
  | dateTime | date
  | array | nullable | tuple
  | enum8 | enum16
  | uuid
  | decimal32 | decimal64 | decimal128
  | ipv4 | ipv6
  deriving DecidableEq, Repr

/-- `TypeAst::Meta`. -/
inductive TypeMeta where
  | array | null | nullable | number | terminal | tuple | enum
  deriving DecidableEq, Repr

/-- `TypeAst`, as value initialization leaves it; `category` is its `meta`. -/
structure TypeAst where
  category : TypeMeta := .array
  code : TypeCode := .void
  name : Bytes := []
  value : Int := 0
  elements : List TypeAst := []

/-- `kTypeCode`. -/
def kTypeCode : List (String × TypeCode) :=
  [("Int8", .int8), ("Int16", .int16), ("Int32", .int32), ("Int64", .int64),
    ("UInt8", .uint8), ("UInt16", .uint16), ("UInt32", .uint32), ("UInt64", .uint64),
    ("Float32", .float32), ("Float64", .float64),
    ("String", .string), ("FixedString", .fixedString),
    ("DateTime", .dateTime), ("Date", .date),
    ("Array", .array), ("Nullable", .nullable), ("Tuple", .tuple),
    ("Enum8", .enum8), ("Enum16", .enum16),
    ("UUID", .uuid),
    ("Decimal32", .decimal32), ("Decimal64", .decimal64), ("Decimal128", .decimal128),
    ("Decimal", .decimal128),
    ("IPv4", .ipv4), ("IPv6", .ipv6)]

/-- `GetTypeCode`. -/
def GetTypeCode (name : Bytes) : TypeCode :=
  ((kTypeCode.find? fun entry => ascii entry.1 == name).map (·.2)).getD .void

/-- `GetTypeMeta`. -/
def GetTypeMeta (name : Bytes) : TypeMeta :=
  if name = ascii "Array" then .array
  else if name = ascii "Null" then .null
  else if name = ascii "Nullable" then .nullable
  else if name = ascii "Tuple" then .tuple
  else if name = ascii "Enum8" ∨ name = ascii "Enum16" then .enum
  else .terminal

/-! ## Tokens -/

/-- `Token`: the type, with the value where there is one. -/
inductive Token where
  | invalid
  | name (value : Bytes)
  | number (value : Bytes)
  | lPar | rPar | comma | eos
  deriving DecidableEq, Repr

/-- Blanks, zero bytes, equality signs and quotes. -/
def isSkipped (c : UInt8) : Bool :=
  c == 0x20 || c == 0x0a || c == 0x09 || c == 0x00 || c == 0x3d || c == 0x27

/-- `isalpha`, in the C locale, or an underscore. -/
def isNameStart (c : UInt8) : Bool :=
  0x41 ≤ c && c ≤ 0x5a || 0x61 ≤ c && c ≤ 0x7a || c == 0x5f

/-- A character that goes on with a name. -/
def isNameChar (c : UInt8) : Bool := isNameStart c || Numeral.isDigit 10 c

/-- `TypeParser::NextToken`, with what is left behind the token. -/
def NextToken : Bytes → Token × Bytes
  | [] => (.eos, [])
  | c :: s =>
      if isSkipped c then NextToken s
      else if c = 0x28 then (.lPar, s)
      else if c = 0x29 then (.rPar, s)
      else if c = 0x2c then (.comma, s)
      else if isNameStart c then
        (.name (c :: s.takeWhile isNameChar), s.dropWhile isNameChar)
      else if Numeral.isDigit 10 c || c == 0x2d then
        (.number (c :: s.takeWhile (Numeral.isDigit 10)), s.dropWhile (Numeral.isDigit 10))
      else (.invalid, c :: s)

/-- `std::stol`, whose `long` has 64 bits. -/
def stol (s : Bytes) : Except Fault Int :=
  match Numeral.scan 10 (Numeral.sign s).2 with
  | none => .error (.thrown "stol")
  | some (n, _) =>
      let value : Int := if (Numeral.sign s).1 then -n else n
      if -2 ^ 63 ≤ value ∧ value < 2 ^ 63 then .ok value else .error (.thrown "stol")

/-! ## The parser -/

/-- The members `type_` and `open_elements_`. -/
structure TypeParser where
  type_ : TypeAst := {}
  open_elements_ : List TypeAst := []
  rootPushed : Bool := true

abbrev TypeParserM := EStateM Fault TypeParser

namespace TypeParser

/-- The top of an empty stack is used. -/
def emptyStack : Fault := .undefined "top of an empty stack"

/-- A new last child of `type_`. -/
def openChild (p : TypeParser) : TypeParser :=
  { p with type_ := {}, open_elements_ := p.type_ :: p.open_elements_ }

/-- `type_ = open_elements_.top(); open_elements_.pop();`. -/
def popOpen : TypeParserM Unit := do
  let p ← get
  match p.open_elements_ with
  | parent :: above =>
      set { p with
        type_ := { parent with elements := parent.elements ++ [p.type_] }
        open_elements_ := above }
  | [] => if p.rootPushed then set { p with rootPushed := false } else throw emptyStack

/-- One case of the switch of `Parse`: what it returns, if it does. -/
def takeToken : Token → TypeParserM (Option Bool)
  | .name value => do
      modify fun p => { p with type_ :=
        { p.type_ with
          category := GetTypeMeta value
          name := value
          code := GetTypeCode value } }
      pure none
  | .number value => do
      modify fun p => { p with type_ := { p.type_ with category := .number } }
      match stol value with
      | .ok n =>
          modify fun p => { p with type_ := { p.type_ with value := n } }
          pure none
      | .error fault => throw fault
  | .lPar => do
      modify openChild
      pure none
  | .rPar => do
      popOpen
      pure none
  | .comma => do
      popOpen
      modify openChild
      pure none
  | .eos => pure (some true)
  | .invalid => pure (some false)

/-- The loop of `Parse`, from `cur_`. Each turn but the last takes a character. -/
def parseLoop : Nat → Bytes → TypeParserM Bool
  | 0, _ => throw .outOfFuel
  | fuel + 1, cur => do
      match ← takeToken (NextToken cur).1 with
      | some result => pure result
      | none => parseLoop fuel (NextToken cur).2

/-- `TypeParser::Parse`. -/
def Parse (name : Bytes) : TypeParserM Bool := parseLoop (name.length + 1) name

/-- The tree that hangs at the root. -/
def root (p : TypeParser) : TypeAst :=
  p.open_elements_.foldl
    (fun child parent => { parent with elements := parent.elements ++ [child] }) p.type_

end TypeParser

/-! ## The cache -/

/-- `ast_cache`. -/
abbrev AstCache := Std.ExtTreeMap Bytes TypeAst compare

/-- `ParseTypeName`. An exception leaves the entry behind, with the tree that has been built so
far. -/
def ParseTypeName (type_name : Bytes) : EStateM Fault AstCache (Option TypeAst) := do
  let ast_cache ← get
  match ast_cache[type_name]? with
  | some ast => pure (some ast)
  | none =>
      match TypeParser.Parse type_name {} with
      | .ok true p =>
          set (ast_cache.insert type_name p.root)
          pure (some p.root)
      | .ok false _ => pure none
      | .error fault p =>
          set (ast_cache.insert type_name p.root)
          throw fault

/-! ## Columns -/

/-- `elements.front()` of an empty list. -/
def noFront : Fault := .undefined "front of an empty list"

/-- `elements.front().value`. -/
def frontValue : List TypeAst → Except Fault Int
  | [] => .error noFront
  | element :: _ => .ok element.value

/-- A column of a type without nesting. -/
def leafColumn (l : LeafType) : Except Fault (Option ChType) := .ok (some (.leaf l))

/-- `CreateTerminalColumn`. -/
def CreateTerminalColumn (code : TypeCode) (elements : List TypeAst) :
    Except Fault (Option ChType) :=
  match code with
  | .uint8 => leafColumn .uint8
  | .uint16 => leafColumn .uint16
  | .uint32 | .ipv4 => leafColumn .uint32
  | .uint64 => leafColumn .uint64
  | .int8 => leafColumn .int8
  | .int16 => leafColumn .int16
  | .int32 => leafColumn .int32
  | .int64 => leafColumn .int64
  | .uuid => leafColumn .uuid
  | .float32 => leafColumn .float32
  | .float64 => leafColumn .float64
  | .string => leafColumn .string
  | .fixedString => do
      let n ← frontValue elements
      leafColumn (.fixedString (toSizeT n))
  | .ipv6 => leafColumn (.fixedString 16)
  | .dateTime => leafColumn .dateTime
  | .date => leafColumn .date
  | .decimal32 => do
      let scale ← frontValue elements
      leafColumn (.decimal 9 (toSizeT scale))
  | .decimal64 => do
      let scale ← frontValue elements
      leafColumn (.decimal 18 (toSizeT scale))
  | .decimal128 =>
      match elements with
      | [precision, scale] =>
          leafColumn (.decimal (toSizeT precision.value) (toSizeT scale.value))
      | [scale] => leafColumn (.decimal 38 (toSizeT scale.value))
      | _ => .error (.thrown "Unexpected branch in code")
  | _ => .ok none

/-- `Type::EnumItem{elem.name, (int16_t)elem.value}`. -/
def enumItem (element : TypeAst) : Bytes × Int := (element.name, element.value.bmod (2 ^ 16))

/-- The column around another one, whose type it asks for. -/
def wrapColumn (wrap : ChType → ChType) : Option ChType → Except Fault (Option ChType)
  | some column => .ok (some (wrap column))
  | none => .error Column.nullColumn

mutual

/-- `CreateColumnFromAst`. -/
def CreateColumnFromAst : TypeAst → Except Fault (Option ChType)
  | ⟨.array, _, _, _, elements⟩ => do wrapColumn .array (← createFront elements)
  | ⟨.nullable, _, _, _, elements⟩ => do wrapColumn .nullable (← createFront elements)
  | ⟨.terminal, code, _, _, elements⟩ => CreateTerminalColumn code elements
  | ⟨.tuple, _, _, _, elements⟩ => do
      let columns ← createAll elements
      pure (columns.map .tuple)
  | ⟨.enum, code, _, _, elements⟩ =>
      match code with
      | .enum8 => leafColumn (.enum8 (elements.map enumItem))
      | .enum16 => leafColumn (.enum16 (elements.map enumItem))
      | _ => .ok none
  | ⟨.null, _, _, _, _⟩ => .ok none
  | ⟨.number, _, _, _, _⟩ => .ok none

/-- `CreateColumnFromAst(ast.elements.front())`. -/
def createFront : List TypeAst → Except Fault (Option ChType)
  | [] => .error noFront
  | element :: _ => CreateColumnFromAst element

/-- The columns of a tuple, up to the first that is null. -/
def createAll : List TypeAst → Except Fault (Option (List ChType))
  | [] => .ok (some [])
  | element :: elements => do
      match ← CreateColumnFromAst element with
      | none => pure none
      | some column =>
          let columns ← createAll elements
          pure (columns.map (column :: ·))

end

/-- `CreateColumnByType`. -/
def CreateColumnByType (type_name : Bytes) : EStateM Fault AstCache (Option ChType) := do
  match ← ParseTypeName type_name with
  | none => pure none
  | some ast =>
      match CreateColumnFromAst ast with
      | .ok column => pure column
      | .error fault => throw fault

/-- `CreateColumnByType` of a name that is not in the cache. -/
def typeByName (type_name : Bytes) : Except Fault (Option ChType) :=
  match TypeParser.Parse type_name {} with
  | .ok true p => CreateColumnFromAst p.root
  | .ok false _ => .ok none
  | .error fault _ => .error fault

/-! ## Names -/

/-- `value_to_name_` of an `EnumType`. -/
def valueToName (items : List (Bytes × Int)) : Std.ExtTreeMap Int Bytes compare :=
  items.foldl (fun value_to_name item => value_to_name.insert item.2 item.1) ∅

/-- Texts with a comma and a blank between them. -/
def joinNames : List Bytes → Bytes
  | [] => []
  | name :: names => name ++ names.flatMap fun other => ascii ", " ++ other

/-- One enumerator, as `EnumType::GetName` writes it. -/
def enumeratorName (e : Int × Bytes) : Bytes :=
  ascii "'" ++ e.2 ++ ascii "' = " ++ Numeral.decimalInt e.1

/-- `EnumType::GetName`, which reads the first enumerator before it looks for the end. -/
def enumName (head : String) (items : List (Bytes × Int)) : Except Fault Bytes :=
  match (valueToName items).toList with
  | [] => .error (.undefined "end of value_to_name_")
  | enumerators => .ok (ascii head ++ ascii "(" ++ joinNames (enumerators.map enumeratorName) ++
      ascii ")")

/-- A name with a number in parentheses. -/
def numberedName (head : String) (n : Nat) : Bytes :=
  ascii head ++ ascii "(" ++ Numeral.decimal n ++ ascii ")"

/-- `DecimalType::GetName` before its scale. -/
def decimalHead (precision : Nat) : String :=
  if precision ≤ 9 then "Decimal32" else if precision ≤ 18 then "Decimal64" else "Decimal128"

/-- `Type::GetName` on the codes without nesting. -/
def LeafType.GetName : LeafType → Except Fault Bytes
  | .int8 => .ok (ascii "Int8")
  | .int16 => .ok (ascii "Int16")
  | .int32 => .ok (ascii "Int32")
  | .int64 => .ok (ascii "Int64")
  | .int128 => .ok (ascii "Int128")
  | .uint8 => .ok (ascii "UInt8")
  | .uint16 => .ok (ascii "UInt16")
  | .uint32 | .ipv4 => .ok (ascii "UInt32")
  | .uint64 => .ok (ascii "UInt64")
  | .uuid => .ok (ascii "UUID")
  | .float32 => .ok (ascii "Float32")
  | .float64 => .ok (ascii "Float64")
  | .string => .ok (ascii "String")
  | .fixedString n => .ok (numberedName "FixedString" n)
  | .ipv6 => .ok (ascii "FixedString(16)")
  | .dateTime => .ok (ascii "DateTime")
  | .date => .ok (ascii "Date")
  | .enum8 items => enumName "Enum8" items
  | .enum16 items => enumName "Enum16" items
  | .decimal precision scale => .ok (numberedName (decimalHead precision) scale)

mutual

/-- `Type::GetName`. -/
def ChType.GetName : ChType → Except Fault Bytes
  | .leaf l => l.GetName
  | .array item => do
      let name ← item.GetName
      pure (ascii "Array(" ++ name ++ ascii ")")
  | .nullable nested => do
      let name ← nested.GetName
      pure (ascii "Nullable(" ++ name ++ ascii ")")
  | .tuple items => do
      let names ← getNames items
      pure (ascii "Tuple(" ++ joinNames names ++ ascii ")")

/-- The names of the items of a tuple. -/
def getNames : List ChType → Except Fault (List Bytes)
  | [] => .ok []
  | item :: items => do
      let name ← item.GetName
      let names ← getNames items
      pure (name :: names)

end

end FlexEtl
