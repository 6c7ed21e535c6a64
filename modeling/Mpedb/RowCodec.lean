import Mpedb.Lib.Bytes
import Mpedb.Lib.Checked
import Mpedb.Table

/-!
# Rows as bytes

A row is a bitmap of its nulls, a slot of fixed width for each column and the bodies of its texts,
blobs and exact numbers, which the slots point at by offset and length. Positions are natural
numbers: the sums of the source are of lengths in memory and of 32-bit fields, and do not overflow.
-/

namespace Mpedb

namespace RowCodec

open Bytes Checked

/-- A result of the codec: a value, an error, or a panic. -/
abbrev Res (α : Type) : Type := Checked Error α

/-- The tag of a value in a column of any type. -/
def anyTag (v : Value) : UInt8 :=
  match v.columnType with
  | none => 0
  | some t => t.tag

/-- The bytes of the null bitmap. -/
def bitmapLen (ncols : ℕ) : ℕ := (ncols + 7) / 8

/-- The bytes of the slots. -/
def fixedTotal (types : List ColumnType) : ℕ := (types.map fixedWidth).sum

/-- The bytes of a value of variable length. -/
def body : Value → Option (List UInt8)
  | .text s | .numeric s => some (utf8 s.toList)
  | .blob b => some b
  | _ => none

/-- The bytes that a value adds behind the slots. -/
def varLen : Datum → ℕ
  | .scalar v => v.varLen
  | .list _ => 0

/-- `encoded_len`. -/
def encodedLen (values : List Datum) (types : List ColumnType) : ℕ :=
  bitmapLen types.length + fixedTotal types + (values.map varLen).sum

/-- A row while it is encoded. -/
structure Parts where
  head : List UInt8
  bodies : List (List UInt8)
  varLen : ℕ
  cursor : ℕ

/-- The value at `off`, where its column has its eight bytes. -/
def encodeAt (p : Parts) (head : List UInt8) (off i : ℕ) (v : Value) : Res Parts :=
  match v with
  | .null => do
    let head ← update head (i / 8) (· ||| ((1 : UInt8) <<< UInt8.ofNat (i % 8)))
    return { p with head }
  | .int x | .timestamp x | .date x | .time x => do
    let head ← put head off (le 8 x.toUInt64.toNat)
    return { p with head }
  | .float x => do
    let head ← put head off (le 8 x.bits.toNat)
    return { p with head }
  | .bool x => do
    let head ← put head off [x.toUInt8]
    return { p with head }
  | .text s | .numeric s => pointAt p head off (utf8 s.toList)
  | .blob b => pointAt p head off b
where
  /-- The offset is cut to four bytes as it is; only the length is checked. -/
  pointAt (p : Parts) (head : List UInt8) (off : ℕ) (bytes : List UInt8) : Res Parts := do
    if bytes.length > 2 ^ 32 - 1 then fail (.unsupported "value larger than 4 GiB")
    let head ← put head off (le 4 p.varLen)
    let head ← put head (off + 4) (le 4 bytes.length)
    return { p with head, bodies := p.bodies ++ [bytes], varLen := p.varLen + bytes.length }

/-- One column: in an `any` column the tag comes first and the value a byte along. -/
def encodeValue (p : Parts) (i : ℕ) (v : Value) (ty : ColumnType) : Res Parts := do
  let q ←
    if ty = .any ∧ !v.isNull then do
      let head ← put p.head p.cursor [anyTag v]
      encodeAt p head (p.cursor + 1) i v
    else encodeAt p p.head p.cursor i v
  return { q with cursor := p.cursor + fixedWidth ty }

/-- One column: a list cannot be stored. -/
def encodeDatum (p : Parts) (i : ℕ) (d : Datum) (ty : ColumnType) : Res Parts :=
  match d with
  | .scalar v => encodeValue p i v ty
  | .list _ => fail (.typeMismatch "a context list cannot be stored in a column")

/-- The columns from `i` on. -/
def encodeColumns : ℕ → Parts → List Datum → List ColumnType → Res Parts
  | i, p, d :: values, ty :: types => do
    let p ← encodeDatum p i d ty
    encodeColumns (i + 1) p values types
  | _, p, _, _ => .ok p

/-- `encode_row_parts`: bitmap and slots, and the bodies. -/
def encodeRowParts (values : List Datum) (types : List ColumnType) :
    Res (List UInt8 × List (List UInt8)) := do
  let nbm := bitmapLen types.length
  let p ← encodeColumns 0 ⟨List.replicate (nbm + fixedTotal types) 0, [], 0, nbm⟩ values types
  return (p.head, p.bodies)

/-- `encode_row`. -/
def encodeRow (values : List Datum) (types : List ColumnType) : Res (List UInt8) := do
  let (buf, bodies) ← encodeRowParts values types
  return bodies.foldl (· ++ ·) buf

/-- The bytes in front of the bodies. -/
def headLen (types : List ColumnType) : ℕ := bitmapLen types.length + fixedTotal types

/-- `raw.try_into().unwrap()` into `w` bytes, and the number they are. -/
def word (w : ℕ) (raw : List UInt8) : Res ℕ :=
  if raw.length = w then .ok (ofLe raw) else Checked.panic

/-- Whether a byte of the bitmap marks the column. -/
def nullBit (byte : UInt8) (i : ℕ) : Bool := byte &&& ((1 : UInt8) <<< UInt8.ofNat (i % 8)) != 0

/-- The place and length of a body. -/
def pointer (raw : List UInt8) : Res (ℕ × ℕ) := do
  let varOff ← word 4 (← slice raw 0 4)
  let len ← word 4 (← slice raw 4 8)
  return (varOff, len)

/-- The byte window of a text or blob column in the whole row, from the head of the row. -/
def varlenWindow (head : List UInt8) (types : List ColumnType) (col : ℕ) :
    Res (Option (ℕ × ℕ)) := do
  let err : Error := .corrupt "truncated row head"
  let ty ← get (.internal s!"column {col} out of range") types col
  if ty ≠ .text ∧ ty ≠ .blob then
    fail (.unsupported s!"chunked reads need a rigid text/blob column, got {ty.name}")
  let bmByte ← get err head (col / 8)
  if nullBit bmByte col then return none
  let before ← slice types 0 col
  let off := bitmapLen types.length + fixedTotal before
  let raw ← window err head off (off + 8)
  let (varOff, len) ← pointer raw
  return some (headLen types + varOff, len)

/-- The error of a row that ends early. -/
def truncated : Error := .corrupt "truncated row"

/-- An integer slot. -/
def decodeInteger (buf : List UInt8) (off : ℕ) : Res Int64 := do
  let x ← word 8 (← window truncated buf off (off + 8))
  return (UInt64.ofNat x).toInt64

/-- The body that a slot points to. -/
def decodeBody (buf : List UInt8) (fixedEnd off : ℕ) : Res (List UInt8) := do
  let (varOff, len) ← pointer (← window truncated buf off (off + 8))
  window truncated buf (fixedEnd + varOff) (fixedEnd + varOff + len)

/-- A body as a text. -/
def decodeText (buf : List UInt8) (fixedEnd off : ℕ) : Res String := do
  let bytes ← decodeBody buf fixedEnd off
  match String.fromUTF8? ⟨bytes.toArray⟩ with
  | some s => return s
  | none => fail (.corrupt "invalid utf-8 in row")

/-- A value of type `ty` from its bytes at `off`. -/
def decodeAs (buf : List UInt8) (fixedEnd : ℕ) (ty : ColumnType) (off : ℕ) : Res Value :=
  match ty with
  | .any => fail (.internal "`any` tag resolved to `any`")
  | .bool => do
    match (← get truncated buf off).toNat with
    | 0 => return .bool false
    | 1 => return .bool true
    | _ => fail (.corrupt "invalid bool in row")
  | .int64 => return .int (← decodeInteger buf off)
  | .timestamp => return .timestamp (← decodeInteger buf off)
  | .date => return .date (← decodeInteger buf off)
  | .time => return .time (← decodeInteger buf off)
  | .float64 => do
    let x ← word 8 (← window truncated buf off (off + 8))
    return .float ⟨UInt64.ofNat x⟩
  | .blob => return .blob (← decodeBody buf fixedEnd off)
  | .text => return .text (← decodeText buf fixedEnd off)
  | .numeric => return .numeric (← decodeText buf fixedEnd off)

/-- A tag in an error message. -/
def hexText (tag : UInt8) : String := "0x" ++ String.ofList (Nat.toDigits 16 tag.toNat)

/-- The value of a column that is not null: the tag of an `any` column names its type. -/
def decodeSlot (buf : List UInt8) (fixedEnd : ℕ) (ty : ColumnType) (off : ℕ) : Res Value :=
  if ty = .any then do
    let tag ← get truncated buf off
    let invalid := s!"invalid `any` value tag {hexText tag} in row"
    match (ColumnType.fromTag tag).filter (· ≠ .any) with
    | some t => decodeAs buf fixedEnd t (off + 1)
    | none => fail (.corrupt invalid)
  else decodeAs buf fixedEnd ty off

/-- `decode_column`: one column of a row. -/
def decodeColumn (buf : List UInt8) (types : List ColumnType) (col : ℕ) : Res Value := do
  if col ≥ types.length then fail (.internal s!"column {col} out of range")
  let nbm := bitmapLen types.length
  let bmByte ← get truncated buf (col / 8)
  if nullBit bmByte col then return .null
  let before ← slice types 0 col
  let ty ← index types col
  decodeSlot buf (nbm + fixedTotal types) ty (nbm + fixedTotal before)

/-- A mask keeps column `i`; without one every column is kept. -/
def keeps (keep : Option (List Bool)) (i : ℕ) : Res Bool :=
  match keep with
  | none => .ok true
  | some k => index k i

/-- The columns from `i` on, with the place carried along; a column that is not kept is null. -/
def decodeColumns (buf : List UInt8) (fixedEnd : ℕ) (keep : Option (List Bool)) :
    ℕ → ℕ → List ColumnType → Res Row
  | _, _, [] => .ok []
  | i, off, ty :: types => do
    let kept ← keeps keep i
    let v ← (if kept then do
        let bmByte ← get truncated buf (i / 8)
        if nullBit bmByte i then return .null else decodeSlot buf fixedEnd ty off
      else return .null)
    let rest ← decodeColumns buf fixedEnd keep (i + 1) (off + fixedWidth ty) types
    return v :: rest

/-- The columns a mask speaks of. -/
def keptLen (types : List ColumnType) (keep : Option (List Bool)) : ℕ :=
  match keep with
  | none => types.length
  | some k => min k.length types.length

/-- `decode_row_masked`: the columns that are kept, the others as NULL. -/
def decodeRowMasked (buf : List UInt8) (types : List ColumnType) (keep : Option (List Bool)) :
    Res Row :=
  let nbm := bitmapLen types.length
  decodeColumns buf (nbm + fixedTotal types) keep 0 nbm (types.take (keptLen types keep))

end RowCodec

end Mpedb
