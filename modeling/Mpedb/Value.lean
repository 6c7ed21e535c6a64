import Mathlib.Data.Int.Basic
import Mathlib.Data.List.Basic
import Mpedb.Lib.Bytes

/-!
# Values, column types and errors

Floats are their 64 bits, so that every encoding of them can be computed; `F64.floor` and
`F64.integral` read the bits as the exact dyadic rational they stand for. The values are the
storable ones: a context list is a parameter or a constant only (`Datum`), and no row holds one.
-/

namespace Mpedb

/-- An `f64` as its bits. -/
structure F64 where
  bits : UInt64
  deriving DecidableEq

namespace F64

/-- The sign bit. -/
def negative (f : F64) : Bool := f.bits >>> 63 == 1

/-- The exponent bits. -/
def exponent (f : F64) : ℕ := ((f.bits >>> 52) &&& 0x7ff).toNat

/-- The mantissa bits. -/
def mantissa (f : F64) : ℕ := (f.bits &&& 0xfffffffffffff).toNat

/-- Whether it is no number. -/
def isNan (f : F64) : Bool := f.exponent == 0x7ff && f.mantissa != 0

/-- Whether it is an infinity. -/
def isInfinite (f : F64) : Bool := f.exponent == 0x7ff && f.mantissa == 0

/-- Whether it is a zero of either sign. -/
def isZero (f : F64) : Bool := f.exponent == 0 && f.mantissa == 0

/-- The significand of a finite float with its sign; the value is `significand * 2 ^ scale`. -/
def significand (f : F64) : ℤ :=
  let m : ℤ := if f.exponent = 0 then f.mantissa else 2 ^ 52 + f.mantissa
  if f.negative then -m else m

/-- The power of two that goes with the significand. -/
def scale (f : F64) : ℤ := (max f.exponent 1 : ℤ) - 1075

/-- The largest integer not above it. -/
def floor (f : F64) : ℤ :=
  if 0 ≤ f.scale then f.significand * 2 ^ f.scale.toNat
  else f.significand.fdiv (2 ^ (-f.scale).toNat)

/-- Whether it is an integer. -/
def integral (f : F64) : Bool :=
  0 ≤ f.scale || f.significand.fmod (2 ^ (-f.scale).toNat) == 0

end F64

/-- A memcmp-ordered image of a float. -/
def normalizeFloatBits (v : F64) : UInt64 :=
  let bits : UInt64 :=
    if v.isZero then 0 else if v.isNan then 0x7ff8000000000000 else v.bits
  if bits >>> 63 == 1 then ~~~bits else bits ||| 0x8000000000000000

/-- The column types. -/
inductive ColumnType
  | int64 | float64 | bool | text | blob | timestamp | any | date | time | numeric
  deriving DecidableEq

/-- The name of a type in messages. -/
def ColumnType.name : ColumnType → String
  | .int64 => "int64"
  | .float64 => "float64"
  | .bool => "bool"
  | .text => "text"
  | .blob => "blob"
  | .timestamp => "timestamp"
  | .any => "any"
  | .date => "date"
  | .time => "time"
  | .numeric => "numeric"

/-- The byte of a type. -/
def ColumnType.tag : ColumnType → UInt8
  | .int64 => 1
  | .float64 => 2
  | .bool => 3
  | .text => 4
  | .blob => 5
  | .timestamp => 6
  | .any => 7
  | .date => 8
  | .time => 9
  | .numeric => 10

/-- The type of a byte. -/
def ColumnType.fromTag (tag : UInt8) : Option ColumnType :=
  match tag.toNat with
  | 1 => some .int64
  | 2 => some .float64
  | 3 => some .bool
  | 4 => some .text
  | 5 => some .blob
  | 6 => some .timestamp
  | 7 => some .any
  | 8 => some .date
  | 9 => some .time
  | 10 => some .numeric
  | _ => none

/-- A value. -/
inductive Value
  | null
  | int (x : Int64)
  | float (x : F64)
  | bool (x : Bool)
  | text (s : String)
  | blob (b : List UInt8)
  | timestamp (x : Int64)
  | date (x : Int64)
  | time (x : Int64)
  | numeric (n : String)
  deriving DecidableEq

/-- The values of a row. -/
abbrev Row := List Value

namespace Value

/-- Whether it is NULL. -/
def isNull : Value → Bool
  | .null => true
  | _ => false

/-- The type of a value, none for NULL. -/
def columnType : Value → Option ColumnType
  | .null => none
  | .int _ => some .int64
  | .float _ => some .float64
  | .bool _ => some .bool
  | .text _ => some .text
  | .blob _ => some .blob
  | .timestamp _ => some .timestamp
  | .date _ => some .date
  | .time _ => some .time
  | .numeric _ => some .numeric

/-- `fits`: whether a column of the type takes the value. -/
def fits (v : Value) (ty : ColumnType) : Bool :=
  if ty = .any then true
  else match v.columnType with
    | none => true
    | some t => t = ty

/-- The name of a value's type in messages. -/
def typeName (v : Value) : String :=
  match v.columnType with
  | none => "null"
  | some t => t.name

end Value

/-- A value of a program: one that can be stored, or a list. -/
inductive Datum
  | scalar (v : Value)
  | list (items : List Datum)

namespace Datum

/-- NULL. -/
def null : Datum := .scalar .null

/-- Whether it is NULL; a list is not. -/
def isNull : Datum → Bool
  | .scalar v => v.isNull
  | .list _ => false

/-- A list has no column type, so that `fits` takes it for a null in a column of a type of its
own. -/
def fits (d : Datum) (ty : ColumnType) : Bool :=
  match d with
  | .scalar v => v.fits ty
  | .list _ => ty ≠ .any

/-- The name of its type in messages. -/
def typeName : Datum → String
  | .scalar v => v.typeName
  | .list _ => "null"

/-- The value, if it is not a list. -/
def value? : Datum → Option Value
  | .scalar v => some v
  | .list _ => none

end Datum

/-- The affinities of sqlite. -/
inductive Affinity
  | integer | real | text | blob | numeric
  deriving DecidableEq

/-- The name of an affinity. -/
def Affinity.name : Affinity → String
  | .integer => "INTEGER"
  | .real => "REAL"
  | .text => "TEXT"
  | .blob => "BLOB"
  | .numeric => "NUMERIC"

/-- The errors of the engine, with what their messages say. -/
inductive Error
  | schema (msg : String)
  | corrupt (msg : String)
  | typeMismatch (msg : String)
  | notNullViolation (table column : String)
  | uniqueViolation (table constraint : String)
  | checkViolation (table column expr : String)
  | primaryKeyViolation (table pk : String)
  | bind (msg : String)
  | arithmeticOverflow
  | unsupported (msg : String)
  | frozen (tableId : ℕ)
  | internal (msg : String)
  | policyViolation (table : String)
  | writeRejected (table : String)
  | foreignKeyViolation (table : String) (constraint : Option String)
  | runtimeBudget (limit used : ℕ) (which : String)
  | raise (msg : String)
  | wrongParamCount (expected got : ℕ)
  | divisionByZero
  | dbFull
  deriving DecidableEq

end Mpedb
