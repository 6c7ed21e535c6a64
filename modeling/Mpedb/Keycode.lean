import Mathlib.Data.List.DropRight
import Mpedb.Lib.Delimited
import Mpedb.Value

/-!
# Key encoding

`encodeValueSpec` turns a value of a key column into bytes that compare as the column's values do:
by type for a rigidly typed column, by storage class for a typeless one, with text folded under the
column's collation. `indexRowKey` concatenates the encoded columns of an index, and for an index
that is not unique appends the row's primary key.
-/

namespace Mpedb

/-- `char::is_whitespace`. -/
def isWhitespace (c : Char) : Bool :=
  let n := c.toNat
  (0x09 ≤ n && n ≤ 0x0d) || n == 0x20 || n == 0x85 || n == 0xa0 || n == 0x1680 ||
    (0x2000 ≤ n && n ≤ 0x200a) || n == 0x2028 || n == 0x2029 || n == 0x202f || n == 0x205f ||
    n == 0x3000

/-- `str::trim`. -/
def trim (s : List Char) : List Char := (s.dropWhile isWhitespace).rdropWhile isWhitespace

/-- The text before and behind the first point. -/
def splitPoint (s : List Char) : List Char × List Char :=
  (s.takeWhile (· != '.'), (s.dropWhile (· != '.')).drop 1)

/-- A digit or a point. -/
def isDecimalChar (c : Char) : Bool := c.isDigit || c == '.'

/-- A leading sign, and the rest. -/
def splitSign : List Char → Bool × List Char
  | '-' :: rest => (true, rest)
  | '+' :: rest => (false, rest)
  | t => (false, t)

/-- The key form of a decimal: no leading or trailing zeros, and no sign on zero. Texts that are not
plain decimals stay as they are. -/
def canonicalNumeric (s : List Char) : List Char :=
  let t := trim s
  let (neg, digits) := splitSign t
  if digits.isEmpty || !digits.all isDecimalChar then t
  else
    let (intPart, fracPart) := splitPoint digits
    let intTrimmed := intPart.dropWhile (· == '0')
    let fracTrimmed := fracPart.rdropWhile (· == '0')
    let intFinal := if intTrimmed.isEmpty then ['0'] else intTrimmed
    (if neg && !(intFinal == ['0'] && fracTrimmed.isEmpty) then ['-'] else []) ++ intFinal ++
      (if fracTrimmed.isEmpty then [] else '.' :: fracTrimmed)

/-- `NUMERIC_MAX_WEIGHT`. -/
def numericMaxWeight : ℤ := 131072

/-- `NUMERIC_MAX_SCALE`. -/
def numericMaxScale : ℤ := 16383

/-- `eq_ignore_ascii_case`. -/
def eqIgnoreAsciiCase (s : List Char) (t : String) : Bool := s.map Char.toLower == t.toList

/-- The number of a text of digits. -/
def digitsToNat (s : List Char) : ℕ := s.foldl (fun n c => 10 * n + (c.toNat - '0'.toNat)) 0

/-- The mantissa and the exponent of a literal, `none` if the exponent is not a number. An exponent
out of the range of an `i64` saturates. -/
def splitExponent (body : List Char) : Option (List Char × ℤ) :=
  let isE : Char → Bool := fun c => c == 'e' || c == 'E'
  if body.any isE then
    let e := (body.dropWhile (!isE ·)).drop 1
    let e := match e with
      | '+' :: r => r
      | _ => e
    let (negE, digits) := match e with
      | '-' :: r => (true, r)
      | _ => (false, e)
    if digits.isEmpty || !digits.all Char.isDigit then none
    else
      let mag : ℤ := min (digitsToNat digits) (2 ^ 63 - 1)
      some (body.takeWhile (!isE ·), if negE then -mag else mag)
  else some (body, 0)

/-- The stored form of a decimal literal, `none` if it is not one. -/
def parseNumeric (s : List Char) : Option (List Char) := do
  let t := trim s
  if t.isEmpty then none
  let (neg, body) := splitSign t
  if eqIgnoreAsciiCase body "nan" then return "NaN".toList
  if eqIgnoreAsciiCase body "infinity" || eqIgnoreAsciiCase body "inf" then
    return (if neg then "-Infinity" else "Infinity").toList
  let (mantissa, exp) ← splitExponent body
  let (intPart, fracPart) := splitPoint mantissa
  if intPart.isEmpty && fracPart.isEmpty then none
  if !(intPart ++ fracPart).all Char.isDigit then none
  let digits := intPart ++ fracPart
  let point : ℤ := intPart.length + exp
  if point > numericMaxWeight || digits.length - point > numericMaxScale then none
  let plain : List Char :=
    if point ≤ 0 then "0.".toList ++ List.replicate (-point).toNat '0' ++ digits
    else if digits.length ≤ point.toNat then
      digits ++ List.replicate (point.toNat - digits.length) '0'
    else digits.take point.toNat ++ '.' :: digits.drop point.toNat
  let (ip, fp) := splitPoint plain
  let ip := ip.dropWhile (· == '0')
  let ip := if ip.isEmpty then ['0'] else ip
  return (if neg && !(ip == ['0'] && fp.all (· == '0')) then ['-'] else []) ++ ip ++
    (if fp.isEmpty then [] else '.' :: fp)

/-- The collations. -/
inductive Collation
  | binary | noCase | rtrim
  deriving DecidableEq

/-- `fold_key`: the text that stands for all that the collation takes for equal. -/
def Collation.foldKey : Collation → List Char → List Char
  | .binary, s => s
  | .noCase, s => s.map Char.toLower
  | .rtrim, s => s.rdropWhile (· == ' ')

/-- The bytes of a text. -/
def utf8 (s : List Char) : List UInt8 := s.flatMap String.utf8EncodeChar

/-- `encode_bytes`: zeros are escaped, and two bytes end it. -/
def encodeBytes (bytes : List UInt8) : List UInt8 := Code.escaped 0x00 0xff bytes

/-- An integer, big-endian with the sign flipped. -/
def encodeI64 (x : Int64) : List UInt8 := Bytes.be 8 (x.toUInt64 ^^^ 0x8000000000000000).toNat

/-- A float, big-endian in the order of the floats. -/
def encodeF64 (x : F64) : List UInt8 := Bytes.be 8 (normalizeFloatBits x).toNat

/-- The digits of a plain decimal without the zeros around them, behind their biased exponent. -/
def encodeDecimal (neg : Bool) (body : List Char) : List UInt8 :=
  let (intPart, fracPart) := splitPoint body
  let all := intPart ++ fracPart
  let lead := all.length - (all.dropWhile (· == '0')).length
  let sig := (all.dropWhile (· == '0')).rdropWhile (· == '0')
  if sig.isEmpty then [0x02]
  else
    let exp : ℤ := intPart.length - lead
    let biased := Bytes.be 4 ((exp + 2 ^ 31) % 2 ^ 32).toNat
    if neg then 0x01 :: (biased.map (~~~·) ++ ((utf8 sig).map (~~~·) ++ [0xff]))
    else 0x03 :: (biased ++ (utf8 sig ++ [0x00]))

/-- A leading minus, and the rest. -/
def stripMinus : List Char → Bool × List Char
  | '-' :: rest => (true, rest)
  | c => (false, c)

/-- `encode_numeric`: the canonical decimal as bytes in its order. -/
def encodeNumeric (s : List Char) : List UInt8 :=
  let c := if s.any (fun b => b == 'e' || b == 'E') then (parseNumeric s).getD (trim s)
    else canonicalNumeric s
  let (neg, body) := stripMinus c
  if c = "NaN".toList then [0x05]
  else if c = "Infinity".toList then [0x04]
  else if c = "-Infinity".toList then [0x00]
  else if body.isEmpty || !body.all isDecimalChar then 0x06 :: encodeBytes (utf8 c)
  else encodeDecimal neg body

/-- `encode_value`: a byte for NULL or not, and the value. -/
def encodeValue : Value → List UInt8
  | .null => [0x00]
  | .int x | .timestamp x | .date x | .time x => 0x01 :: encodeI64 x
  | .numeric n => 0x01 :: encodeNumeric n.toList
  | .float x => 0x01 :: encodeF64 x
  | .bool x => [0x01, x.toUInt8]
  | .text s => 0x01 :: encodeBytes (utf8 s.toList)
  | .blob b => 0x01 :: encodeBytes b

/-- `encode_value_collated`. -/
def encodeValueCollated (v : Value) (coll : Collation) : List UInt8 :=
  match v with
  | .text s => if coll ≠ .binary then 0x01 :: encodeBytes (utf8 (coll.foldKey s.toList))
    else encodeValue v
  | _ => encodeValue v

/-- The floor of a number, a sub-tag that says how the number lies to it, and the float's image
where the floor does not determine it. -/
def encodeFloatNumber (f : F64) : List UInt8 :=
  let image := encodeF64 f
  if f.isNan then encodeI64 Int64.maxValue ++ 0x03 :: image
  else if (f.isInfinite && !f.negative) || (!f.isInfinite && 2 ^ 63 ≤ f.floor) then
    encodeI64 Int64.maxValue ++ 0x02 :: image
  else if f.isInfinite || f.floor < -2 ^ 63 then encodeI64 Int64.minValue ++ 0x00 :: image
  else encodeI64 (Int64.ofInt f.floor) ++ if f.integral then [0x01] else 0x02 :: image

/-- `encode_group_value`: values that GROUP BY takes for equal have the same bytes. -/
def encodeGroupValue (v : Value) (coll : Collation) : List UInt8 :=
  match v with
  | .null => [0x00]
  | .int i => 0x01 :: (encodeI64 i ++ [0x01])
  | .float f => 0x01 :: encodeFloatNumber f
  | .text s => 0x02 :: encodeBytes (utf8 (coll.foldKey s.toList))
  | .blob b => 0x03 :: encodeBytes b
  | .bool x => [0x04, x.toUInt8]
  | .timestamp x => 0x05 :: encodeI64 x
  | .date x => 0x06 :: encodeI64 x
  | .time x => 0x07 :: encodeI64 x
  | .numeric n => 0x08 :: encodeNumeric n.toList

/-- How one key column's values become bytes: its collation, and whether it is a typeless column,
encoded by storage class. -/
structure KeySpec where
  coll : Collation := .binary
  byClass : Bool := false
  deriving DecidableEq

/-- `for_column`: a column of any type is encoded by class. -/
def KeySpec.forColumn (ty : ColumnType) (coll : Collation) : KeySpec := ⟨coll, ty = .any⟩

/-- `encode_value_spec`. -/
def encodeValueSpec (v : Value) (spec : KeySpec) : List UInt8 :=
  if spec.byClass then encodeGroupValue v spec.coll else encodeValueCollated v spec.coll

/-- A composite key; a list of specs that is too short is filled up with the default one. -/
def encodeKeySpec : List Value → List KeySpec → List UInt8
  | [], _ => []
  | v :: vs, specs => encodeValueSpec v (specs.headD {}) ++ encodeKeySpec vs specs.tail

/-- The key of a tuple where it stands for its values: each is written behind the tag of its
type. -/
def encodeKeyExact (values : List Value) : List UInt8 :=
  values.flatMap fun v => v.columnType.elim 0 ColumnType.tag :: encodeValue v

/-- The key of a row in a secondary index, `none` if an indexed value is NULL: `parts` are the
indexed values of the row, in key order. -/
def indexRowKey (unique : Bool) (parts : List Value) (pkKey : List UInt8) (specs : List KeySpec) :
    Option (List UInt8) :=
  if parts.any Value.isNull then none
  else some (encodeKeySpec parts specs ++ if unique then [] else pkKey)

end Mpedb
