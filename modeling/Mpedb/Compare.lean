import Mpedb.Keycode

/-!
# Comparison of values

`sqlCmp` compares within a type, and an integer with a float; every other pair of types is an error,
and a NULL on either side has no answer. `sortCmp` orders stored values against each other: where
`sqlCmp` refuses a pair it falls back to the storage classes of SQLite, and the types without such a
class stay incomparable.
-/

namespace Mpedb

/-- ASCII capitals become small letters. -/
def nocaseFold (x : UInt8) : UInt8 := if 0x41 ≤ x && x ≤ 0x5a then x + 32 else x

/-- `nocase_cmp`: byte by byte, folded. -/
def nocaseCmp : List UInt8 → List UInt8 → Ordering
  | [], [] => .eq
  | [], _ :: _ => .lt
  | _ :: _, [] => .gt
  | x :: a, y :: b => (compare (nocaseFold x) (nocaseFold y)).then (nocaseCmp a b)

/-- `compare_str`: two texts under a collation. -/
def Collation.compareStr (coll : Collation) (a b : String) : Ordering :=
  match coll with
  | .binary => compare (utf8 a.toList) (utf8 b.toList)
  | .noCase => nocaseCmp (utf8 a.toList) (utf8 b.toList)
  | .rtrim => compare (utf8 (a.toList.rdropWhile (· == ' ')))
      (utf8 (b.toList.rdropWhile (· == ' ')))

/-- `r as i64` of a finite float: the fraction is cut off. -/
def F64.trunc (f : F64) : ℤ :=
  if 0 ≤ f.scale then f.significand * 2 ^ f.scale.toNat
  else f.significand.tdiv (2 ^ (-f.scale).toNat)

/-- `float_total_cmp`: floats by their normalised bits. -/
def floatTotalCmp (a b : F64) : Ordering := compare (normalizeFloatBits a) (normalizeFloatBits b)

/-- The order of an integer and a finite float by their values. -/
def exactCmp (i : ℤ) (r : F64) : Ordering :=
  if 0 ≤ r.scale then compare i (r.significand * 2 ^ r.scale.toNat)
  else compare (i * 2 ^ (-r.scale).toNat) r.significand

/-- `int_float_cmp`: an integer and a float, exactly. -/
def intFloatCmp (i : Int64) (r : F64) : Ordering :=
  if r.isNan then .lt
  else if r.isInfinite then if r.negative then .gt else .lt
  else if exactCmp (-2 ^ 63) r = .gt then .gt
  else if exactCmp (2 ^ 63) r ≠ .gt then .lt
  else match compare i.toInt r.trunc with
    -- equal up to the fraction, so the integer is exact as a float
    | .eq => exactCmp i.toInt r
    | o => o

/-- The rank of an infinity or NaN among the decimals; a finite one has rank 2. -/
def numericSpecialRank (s : String) : Option ℕ :=
  if s = "-Infinity" then some 0
  else if s = "Infinity" then some 3
  else if s = "NaN" then some 4
  else none

/-- The digits before and after the point without the zeros that carry no value. -/
def splitSignificant (s : List Char) : List Char × List Char :=
  let (i, f) := splitPoint s
  (i.dropWhile (· == '0'), f.rdropWhile (· == '0'))

/-- The sign of a decimal and its significant digits. Zero has no sign. -/
def numericParts (s : String) : Bool × List UInt8 × List UInt8 :=
  let (neg, body) := splitSign s.toList
  let (i, f) := splitSignificant body
  (neg && !(i.isEmpty && f.isEmpty), utf8 i, utf8 f)

/-- Magnitudes by the length of their integer parts, then digit by digit. -/
def numericMagnitudeCmp (a b : List UInt8 × List UInt8) : Ordering :=
  (compare a.1.length b.1.length).then ((compare a.1 b.1).then (compare a.2 b.2))

/-- `numeric_cmp`: decimals by rank, sign and magnitude. -/
def numericCmp (a b : String) : Ordering :=
  match numericSpecialRank a, numericSpecialRank b with
  | some x, some y => compare x y
  | some x, none => compare x 2
  | none, some y => compare 2 y
  | none, none =>
    let (an, am) := numericParts a
    let (bn, bm) := numericParts b
    if an ≠ bn then if an then .lt else .gt
    else if an then (numericMagnitudeCmp am bm).swap
    else numericMagnitudeCmp am bm

namespace Value

/-- `sql_cmp`: nothing for NULL, an error for types that do not compare. -/
def sqlCmp : Value → Value → Except Error (Option Ordering)
  | .null, _ | _, .null => .ok none
  | .int a, .int b => .ok (some (compare a b))
  | .float a, .float b => .ok (some (floatTotalCmp a b))
  | .int a, .float b => .ok (some (intFloatCmp a b))
  | .float a, .int b => .ok (some (intFloatCmp b a).swap)
  | .bool a, .bool b => .ok (some (compare a b))
  | .text a, .text b => .ok (some (compare (utf8 a.toList) (utf8 b.toList)))
  | .blob a, .blob b => .ok (some (compare a b))
  | .timestamp a, .timestamp b => .ok (some (compare a b))
  | .date a, .date b => .ok (some (compare a b))
  | .time a, .time b => .ok (some (compare a b))
  | .numeric a, .numeric b => .ok (some (numericCmp a b))
  | a, b => .error (.typeMismatch s!"cannot compare {a.typeName} with {b.typeName}")

/-- `sql_cmp_collated`: texts under the collation, all else by `sqlCmp`. -/
def sqlCmpCollated (a b : Value) (coll : Collation) : Except Error (Option Ordering) :=
  match a, b with
  | .text a, .text b => .ok (some (coll.compareStr a b))
  | _, _ => a.sqlCmp b

/-- `class_rank`: the storage class of a value that SQL can sort across types. -/
def classRank : Value → Option ℕ
  | .int _ | .float _ => some 1
  | .text _ => some 2
  | .blob _ => some 3
  | _ => none

/-- `sort_cmp`: the order of ORDER BY, with the storage classes where `sqlCmp` fails. -/
def sortCmp (a b : Value) (coll : Collation) : Option Ordering :=
  if a.isNull || b.isNull then none
  else match a.sqlCmpCollated b coll with
    | .ok o => o
    | .error _ => match a.classRank, b.classRank with
      | some x, some y => some (compare x y)
      | _, _ => none

end Value

end Mpedb
