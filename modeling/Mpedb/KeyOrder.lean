import Mathlib.Data.Prod.Lex
import Mathlib.Algebra.Order.Field.Rat
import Mpedb.Compare

/-!
# The order of the values of a key column

What SQL says about two values of one column: NULL comes first, then the storage classes in turn,
numbers by their exact value, texts by the column's collation. A column of a rigid type holds one
class besides NULL. The order is stated over rationals, so it says nothing about bytes.
-/

namespace Mpedb

/-- A number: its rank among the infinities, the finite numbers and NaN, and its value if it is
finite. -/
abbrev Extended := ℕ ×ₗ ℚ

namespace Extended

/-- Below every number. -/
def negInfinity : Extended := toLex (0, 0)

/-- A number. -/
def finite (q : ℚ) : Extended := toLex (1, q)

/-- Above every number. -/
def infinity : Extended := toLex (2, 0)

/-- Above infinity. -/
def nan : Extended := toLex (3, 0)

end Extended

/-- The number of a float. -/
def F64.value (f : F64) : Extended :=
  if f.isNan then .nan
  else if f.isInfinite then if f.negative then .negInfinity else .infinity
  else .finite (f.significand * 2 ^ f.scale)

/-- The text of a decimal. -/
def plainDecimal (neg : Bool) (intPart fracPart : List Char) : List Char :=
  (if neg then ['-'] else []) ++ intPart ++ if fracPart.isEmpty then [] else '.' :: fracPart

/-- The decimals of a numeric column: a plain decimal within the bounds of the parser, an infinity
or NaN. -/
def NumericText (s : List Char) : Prop :=
  s = "NaN".toList ∨ s = "Infinity".toList ∨ s = "-Infinity".toList ∨
    ∃ neg intPart fracPart, intPart ≠ [] ∧ (∀ c ∈ intPart ++ fracPart, c.isDigit = true) ∧
      (intPart.length : ℤ) ≤ numericMaxWeight ∧ (fracPart.length : ℤ) ≤ numericMaxScale ∧
      s = plainDecimal neg intPart fracPart

/-- The number of a decimal text. -/
def numericValue (s : List Char) : Extended :=
  if s = "NaN".toList then .nan
  else if s = "Infinity".toList then .infinity
  else if s = "-Infinity".toList then .negInfinity
  else
    let (neg, body) := stripMinus s
    let (intPart, fracPart) := splitPoint body
    let magnitude : ℚ := digitsToNat (intPart ++ fracPart) / 10 ^ fracPart.length
    .finite (if neg then -magnitude else magnitude)

/-- The classes in their order. -/
def Value.storageClass : Value → ℕ
  | .null => 0
  | .int _ | .float _ => 1
  | .text _ => 2
  | .blob _ => 3
  | .bool _ => 4
  | .timestamp _ => 5
  | .date _ => 6
  | .time _ => 7
  | .numeric _ => 8

/-- The order that SQL gives two values of a column. -/
def columnCmp (coll : Collation) : Value → Value → Ordering
  | .int a, .int b => compare a b
  | .float a, .float b => compare a.value b.value
  | .int a, .float b => compare (Extended.finite a.toInt) b.value
  | .float a, .int b => compare a.value (Extended.finite b.toInt)
  | .text a, .text b => coll.compareStr a b
  | .blob a, .blob b => compare a b
  | .bool a, .bool b => compare a b
  | .timestamp a, .timestamp b | .date a, .date b | .time a, .time b => compare a b
  | .numeric a, .numeric b => compare (numericValue a.toList) (numericValue b.toList)
  | a, b => compare a.storageClass b.storageClass

/-- A column of a key. -/
structure KeyColumn where
  ty : ColumnType
  coll : Collation := .binary
  deriving DecidableEq

/-- How a column's values are encoded. -/
def KeyColumn.spec (c : KeyColumn) : KeySpec := .forColumn c.ty c.coll

/-- A value that the column may hold. -/
def KeyColumn.Admits (c : KeyColumn) (v : Value) : Prop :=
  v.fits c.ty = true ∧ ∀ n, v = .numeric n → NumericText n.toList

/-- The order of tuples, column by column. -/
def tupleCmp : List KeyColumn → List Value → List Value → Ordering
  | c :: cols, a :: as, b :: bs => (columnCmp c.coll a b).then (tupleCmp cols as bs)
  | _, _, _ => .eq

/-- The bytes of a text or blob as far as the collation tells them apart. -/
def Value.spelling (coll : Collation) : Value → Option (List UInt8)
  | .text s => some (utf8 (coll.foldKey s.toList))
  | .blob b => some b
  | _ => none

/-- `b` is a text or a blob that goes on with a zero byte where `a` ends. -/
def goesOn (coll : Collation) (a b : Value) : Bool :=
  match a.spelling coll, b.spelling coll with
  | some u, some v => a.storageClass == b.storageClass && (u ++ [0x00]).isPrefixOf v
  | _, _ => false

/-- The tuples are equal up to the last column, where `b` goes on with a zero byte. -/
def zeroExtends : List KeyColumn → List Value → List Value → Bool
  | [c], [a], [b] => goesOn c.coll a b
  | c :: cols, a :: as, b :: bs => columnCmp c.coll a b == .eq && zeroExtends cols as bs
  | _, _, _ => false

end Mpedb
