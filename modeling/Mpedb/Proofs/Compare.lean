import Mathlib.Order.Compare
import Mpedb.Compare

/-!
# The values of one type are totally ordered

Each comparison within a type is a comparison of keys: a text of its bytes under the collation, a
decimal of its rank, sign and digits, a float of its image. `typedCmp` puts them in one chain, which
is transitive because every link is, and `sortCmp` of two values of one type is that chain.
-/

namespace Mpedb

open Std

/-- The bytes by which a collation compares. -/
def Collation.key : Collation → String → List UInt8
  | .binary, s => utf8 s.toList
  | .noCase, s => (utf8 s.toList).map nocaseFold
  | .rtrim, s => utf8 (s.toList.rdropWhile (· == ' '))

theorem nocaseCmp_eq (a b : List UInt8) :
    nocaseCmp a b = compare (a.map nocaseFold) (b.map nocaseFold) := by
  induction a generalizing b with
  | nil => cases b <;> simp [nocaseCmp]
  | cons x a ih =>
    cases b with
    | nil => simp [nocaseCmp]
    | cons y b => simp [nocaseCmp, ih, List.compare_cons_cons]

theorem Collation.compareStr_eq (coll : Collation) (a b : String) :
    coll.compareStr a b = compare (coll.key a) (coll.key b) := by
  cases coll
  · rfl
  · exact nocaseCmp_eq _ _
  · rfl

namespace Numeric

/-- The rank of a decimal. -/
def rank (s : String) : ℕ := (numericSpecialRank s).getD 2

/-- The sign and the digits of a finite decimal; all specials have the same. -/
def parts (s : String) : Bool × List UInt8 × List UInt8 :=
  if (numericSpecialRank s).isSome then default else numericParts s

/-- The magnitude of a decimal that is not negative. -/
def positive (s : String) : List UInt8 × List UInt8 :=
  if (parts s).1 then default else (parts s).2

/-- The magnitude of a negative decimal. -/
def negative (s : String) : List UInt8 × List UInt8 :=
  if (parts s).1 then (parts s).2 else default

/-- The order of magnitudes. -/
def magnitudeCmp (f : String → List UInt8 × List UInt8) : String → String → Ordering :=
  compareLex (compareOn fun s => (f s).1.length)
    (compareLex (compareOn fun s => (f s).1) (compareOn fun s => (f s).2))

instance (f : String → List UInt8 × List UInt8) : TransCmp (magnitudeCmp f) := by
  unfold magnitudeCmp
  infer_instance

/-- The order of decimals as a chain of orders by keys. -/
def keyCmp : String → String → Ordering :=
  compareLex (compareOn rank) (compareLex (compareOn fun s => !(parts s).1)
    (compareLex (magnitudeCmp positive) fun a b => magnitudeCmp negative b a))

instance : TransCmp keyCmp := by
  have : TransCmp fun a b => magnitudeCmp negative b a := TransCmp.opposite
  unfold keyCmp
  infer_instance

theorem rank_ne_two {s : String} {r : ℕ} (h : numericSpecialRank s = some r) : r ≠ 2 := by
  unfold numericSpecialRank at h
  split_ifs at h <;> simp_all <;> omega

theorem magnitudeCmp_eq (f : String → List UInt8 × List UInt8) (a b : String) :
    magnitudeCmp f a b = numericMagnitudeCmp (f a) (f b) := rfl

theorem magnitudeCmp_swap (f : String → List UInt8 × List UInt8) (a b : String) :
    magnitudeCmp f b a = (numericMagnitudeCmp (f a) (f b)).swap := by
  exact OrientedCmp.eq_swap

variable {a b : String}

theorem magnitudeCmp_of_eq {f : String → List UInt8 × List UInt8} (h : f a = f b) :
    magnitudeCmp f a b = .eq := by
  simp [magnitudeCmp, compareLex, compareOn, h]

theorem keyCmp_of_finite (ha : numericSpecialRank a = none)
    (hb : numericSpecialRank b = none) : numericCmp a b = keyCmp a b := by
  have hr : compareOn rank a b = .eq := by simp [compareOn, rank, ha, hb]
  have pa : parts a = numericParts a := by simp [parts, ha]
  have pb : parts b = numericParts b := by simp [parts, hb]
  simp only [keyCmp, compareLex, hr, numericCmp, ha, hb]
  rcases hna : (numericParts a).1 <;> rcases hnb : (numericParts b).1
  · have hn : magnitudeCmp negative b a = .eq :=
      magnitudeCmp_of_eq (by simp [negative, pa, pb, hna, hnb])
    simp [compareOn, pa, pb, hna, hnb, hn, magnitudeCmp_eq, positive]
  · simp [compareOn, pa, pb, hna, hnb]
    rfl
  · simp [compareOn, pa, pb, hna, hnb]
    rfl
  · have hp : magnitudeCmp positive a b = .eq :=
      magnitudeCmp_of_eq (by simp [positive, pa, pb, hna, hnb])
    simp [compareOn, pa, pb, hna, hnb, hp, magnitudeCmp_swap, negative]

theorem keyCmp_of_rank (h : rank a ≠ rank b) :
    keyCmp a b = compare (rank a) (rank b) := by
  unfold keyCmp compareLex
  cases hc : compareOn rank a b with
  | eq => exact absurd (LawfulEqOrd.eq_of_compare hc) h
  | lt => exact hc.symm
  | gt => exact hc.symm

theorem keyCmp_of_parts (h : parts a = parts b) :
    keyCmp a b = compare (rank a) (rank b) := by
  have hp : magnitudeCmp positive a b = .eq := magnitudeCmp_of_eq (by simp [positive, h])
  have hn : magnitudeCmp negative b a = .eq := magnitudeCmp_of_eq (by simp [negative, h])
  simp [keyCmp, compareLex, compareOn, h, hp, hn]

theorem numericCmp_eq (a b : String) : numericCmp a b = keyCmp a b := by
  rcases ha : numericSpecialRank a with _ | x <;> rcases hb : numericSpecialRank b with _ | y
  · exact keyCmp_of_finite ha hb
  · have := rank_ne_two hb
    rw [keyCmp_of_rank (by simp [rank, ha, hb]; omega)]
    simp [numericCmp, rank, ha, hb]
  · rw [keyCmp_of_rank (by simpa [rank, ha, hb] using rank_ne_two ha)]
    simp [numericCmp, rank, ha, hb]
  · rw [keyCmp_of_parts (by simp [parts, ha, hb])]
    simp [numericCmp, rank, ha, hb]

end Numeric

namespace Value

/-- The place of a value's type. -/
def typeIndex : Value → ℕ
  | .null => 0
  | .int _ => 1
  | .float _ => 2
  | .bool _ => 3
  | .text _ => 4
  | .blob _ => 5
  | .timestamp _ => 6
  | .date _ => 7
  | .time _ => 8
  | .numeric _ => 9

/-- The integer of a value. -/
def asInt : Value → Int64
  | .int x | .timestamp x | .date x | .time x => x
  | .bool x => if x then 1 else 0
  | _ => 0

/-- The float of a value. -/
def asFloat : Value → UInt64
  | .float x => normalizeFloatBits x
  | _ => 0

/-- The bytes of a value. -/
def asBytes (coll : Collation) : Value → List UInt8
  | .text s => coll.key s
  | .blob b => b
  | _ => []

/-- The decimal of a value. -/
def asNumeric : Value → String
  | .numeric n => n
  | _ => ""

/-- The order of values of one type as a chain of orders by keys. -/
def typedCmp (coll : Collation) : Value → Value → Ordering :=
  compareLex (compareOn typeIndex) (compareLex (compareOn asInt) (compareLex (compareOn asFloat)
    (compareLex (compareOn (asBytes coll))
      fun a b => Numeric.keyCmp a.asNumeric b.asNumeric)))

instance (coll : Collation) : TransCmp (typedCmp coll) := by
  have : TransCmp fun a b : Value => Numeric.keyCmp a.asNumeric b.asNumeric :=
    { eq_swap := OrientedCmp.eq_swap, isLE_trans := TransCmp.isLE_trans }
  unfold typedCmp
  infer_instance

theorem sortCmp_eq_typedCmp {a b : Value} {t : ColumnType} (coll : Collation)
    (ha : a.columnType = some t) (hb : b.columnType = some t) :
    a.sortCmp b coll = some (typedCmp coll a b) := by
  have hkey (s : String) : Numeric.keyCmp s s = .eq := ReflCmp.compare_self
  cases a <;> cases ha <;> cases b <;> cases hb <;>
    simp [sortCmp, isNull, sqlCmpCollated, sqlCmp, typedCmp, compareLex, compareOn, typeIndex,
      asInt, asFloat, asBytes, asNumeric, floatTotalCmp, hkey, Collation.compareStr_eq,
      Numeric.numericCmp_eq]
  rename_i x y
  cases x <;> cases y <;> rfl

end Value

end Mpedb
