/-
FlexEtl.Table.Getters — the conversions of `clicktbl.inl`.

Each getter of `Value` switches on the tag. What it leaves to the C library
is a field of `Libc`: scanning a number, parsing and normalising a calendar
time, and the conversions of a `double`. A scan that matches nothing leaves
its variable at the initial value, so a scanning function returns an option.

A `char *` ends at its first zero byte: the scans see `cstring` of the string.
-/
import FlexEtl.Table.Cdb

namespace FlexEtl

/-! ## The C library -/

/-- `struct tm`. -/
structure Tm where
  sec : Int := 0
  min : Int := 0
  hour : Int := 0
  mday : Int := 0
  mon : Int := 0
  year : Int := 0
  wday : Int := 0
  yday : Int := 0
  isdst : Int := 0
  deriving DecidableEq, Repr

/-- What the getters use of the C library and of the machine's floating point. -/
structure Libc where
  /-- `sscanf` with `%d`: the four bytes that it stores -/
  scan_d : Bytes → Option UInt32
  /-- `sscanf` with `%ld`: the eight bytes that it stores -/
  scan_ld : Bytes → Option UInt64
  /-- one `%lx` of a format: the word, and what follows it -/
  scan_lx : Bytes → Option (UInt64 × Bytes)
  /-- `sscanf` with `%lf` -/
  scan_lf : Bytes → Option UInt64
  /-- `operator<<` on a `double` -/
  printDouble : UInt64 → Bytes
  inet_addr : Bytes → UInt32
  ntohl : UInt32 → UInt32
  /-- `strptime`, on a text and a format -/
  strptime : Bytes → String → Tm → Tm
  mktime : Tm → Int
  timezone : Int
  /-- `std::time(0)` -/
  time : Int
  /-- what a local `struct tm` holds before it is assigned -/
  indeterminateTm : Tm
  doubleOfUInt64 : UInt64 → UInt64
  doubleOfInt64 : Int64 → UInt64
  doubleToFloat : UInt64 → UInt32
  doubleToUInt64 : UInt64 → UInt64
  doubleToUInt32 : UInt64 → UInt32
  doubleToUInt16 : UInt64 → UInt16
  doubleToUInt8 : UInt64 → UInt8

/-- The characters of a literal. -/
def ascii (s : String) : Bytes := s.toList.map fun c => UInt8.ofNat c.toNat

/-- The decimal digits of a number, as `operator<<` prints it. -/
def digits (n : Nat) : Bytes := ascii (toString n)

/-- The bits of `1.0`. -/
def doubleOne : UInt64 := 0x3ff0000000000000

namespace Value

variable (libc : Libc)

/-! ## Getters -/

/-- `Value::getString`. -/
def getString : Value → Bytes
  | str s => s
  | uint u => digits u.toNat
  | int i => if i.toInt < 0 then ascii "-" ++ digits i.toInt.natAbs else digits i.toInt.natAbs
  | double d => libc.printDouble d
  | bool b => if b then ascii "true" else ascii "false"
  | null => ascii "null"
  | array _ => []

/-- `Value::getDateTime`: the fields of `tm` that `strptime` does not set are
whatever they were. -/
def getDateTime : Value → Int
  | str s =>
      let tm := libc.strptime (cstring s) "%Y-%m-%d %H:%M:%S" libc.indeterminateTm
      libc.mktime tm - libc.timezone
  | int i => i.toInt
  | uint u => u.toInt64.toInt
  | _ => libc.time

/-- `Value::getDate`. -/
def getDate : Value → Int
  | str s =>
      let tm := libc.strptime (cstring s) "%Y-%m-%d" {}
      libc.mktime tm - libc.timezone
  | int i => i.toInt
  | uint u => u.toInt64.toInt
  | _ => 0

/-- `Value::getDouble`. -/
def getDouble : Value → UInt64
  | str s => (libc.scan_lf (cstring s)).getD 0
  | uint u => libc.doubleOfUInt64 u
  | int i => libc.doubleOfInt64 i
  | double d => d
  | bool b => if b then doubleOne else 0
  | _ => 0

/-- `Value::getFloat`. -/
def getFloat (v : Value) : UInt32 := libc.doubleToFloat (v.getDouble libc)

/-- `sscanf` with `%lx-%lx-%lx-%lx-%lx`: the words stored until the first mismatch. -/
def scanWords : Nat → Bytes → List UInt64
  | 0, _ => []
  | n + 1, s =>
      match libc.scan_lx s with
      | none => []
      | some (u, 45 :: rest) => u :: scanWords n rest
      | some (u, _) => [u]

/-- `Value::getUInt128`. -/
def getUInt128 : Value → UInt64 × UInt64
  | str s =>
      match scanWords libc 5 (cstring s) with
      | [u1, u2, u3, u4, u5] => ((u1 <<< 32) ||| (u2 <<< 16) ||| u3, (u4 <<< 48) ||| u5)
      | _ => (0, 0)
  | uint u => (0, u)
  | int i => (0, i.toUInt64)
  | double _ => (0, 0)
  | bool b => if b then (0, 1) else (0, 0)
  | _ => (0, 0)

/-- `Value::getUInt64`. -/
def getUInt64 : Value → UInt64
  | str s => (libc.scan_ld (cstring s)).getD 0
  | uint u => u
  | int i => i.toUInt64
  | double d => libc.doubleToUInt64 d
  | bool b => if b then 1 else 0
  | _ => 0

/-- `Value::getInt64`. -/
def getInt64 (v : Value) : Int64 := (v.getUInt64 libc).toInt64

/-- `Value::getUInt32`: three dots make an IPv4 address. -/
def getUInt32 : Value → UInt32
  | str s =>
      let dotCount := s.count 46
      if dotCount = 3 then libc.ntohl (libc.inet_addr (cstring s))
      else (libc.scan_d (cstring s)).getD 0
  | uint u => u.toUInt32
  | int i => i.toUInt64.toUInt32
  | double d => libc.doubleToUInt32 d
  | bool b => if b then 1 else 0
  | _ => 0

/-- `Value::getInt32`. -/
def getInt32 (v : Value) : Int32 := (v.getUInt32 libc).toInt32

/-- `Value::getUInt16`. -/
def getUInt16 : Value → UInt16
  | str s => ((libc.scan_d (cstring s)).getD 0).toUInt16
  | uint u => u.toUInt16
  | int i => i.toUInt64.toUInt16
  | double d => libc.doubleToUInt16 d
  | bool b => if b then 1 else 0
  | _ => 0

/-- `Value::getInt16`. -/
def getInt16 (v : Value) : Int16 := (v.getUInt16 libc).toInt16

/-- `Value::getUInt8`. -/
def getUInt8 : Value → UInt8
  | str s => ((libc.scan_d (cstring s)).getD 0).toUInt8
  | uint u => u.toUInt8
  | int i => i.toUInt64.toUInt8
  | double d => libc.doubleToUInt8 d
  | bool b => if b then 1 else 0
  | _ => 0

/-- `Value::getInt8`. -/
def getInt8 (v : Value) : Int8 := (v.getUInt8 libc).toInt8

end Value

end FlexEtl
