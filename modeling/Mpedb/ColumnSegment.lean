import Mathlib.Data.List.Sort
import Mpedb.Compare
import Mpedb.Lib.BitMask
import Mpedb.Lib.BitPack

/-!
# Column segments

A segment is a copy of one column in blocks, each with the smallest encoding that can hold its
values, the generation of the table it was built at, the least and greatest of its values, and a
bitmap of its NULLs if it has any. The iteration order of the hash map behind the dictionaries is a
parameter (`HashOrder`).
-/

namespace Mpedb

open Bytes

/-- `BLOCK_ROWS`. -/
def blockRows : ℕ := 65536

/-- The magic bytes at the head of a block, `MCOL`. -/
def colsegMagic : List UInt8 := [0x4d, 0x43, 0x4f, 0x4c]

/-- The version of the block format. -/
def colsegFormat : ℕ := 1

/-- How the values of a block are kept. -/
inductive Encoding
  | forBitpack | raw64 | dict | rawText | runDefault
  deriving DecidableEq

/-- The byte of an encoding. -/
def Encoding.tag : Encoding → UInt8
  | .forBitpack => 1
  | .raw64 => 2
  | .dict => 3
  | .rawText => 4
  | .runDefault => 5

/-- The encoding of a byte. -/
def Encoding.ofTag (b : UInt8) : Option Encoding :=
  [forBitpack, raw64, dict, rawText, runDefault].find? (·.tag = b)

/-- The type as `{:?}` prints it. -/
def ColumnType.debug : ColumnType → String
  | .int64 => "Int64"
  | .float64 => "Float64"
  | .bool => "Bool"
  | .text => "Text"
  | .blob => "Blob"
  | .timestamp => "Timestamp"
  | .any => "Any"
  | .date => "Date"
  | .time => "Time"
  | .numeric => "Numeric"

/-- The types whose columns get segments. -/
def segmentable : ColumnType → Bool
  | .int64 | .float64 | .timestamp | .text | .blob => true
  | _ => false

/-- The types whose values are kept as 64 bits. -/
def isNumeric : ColumnType → Bool
  | .int64 | .float64 | .timestamp => true
  | _ => false

/-- `a < b` of floats: false where one is NaN. -/
def F64.lt (a b : F64) : Bool := !a.isNan && !b.isNan && normalizeFloatBits a < normalizeFloatBits b

/-- Bytes with their length in front. -/
def putLp (b : List UInt8) : List UInt8 := le 4 b.length ++ b

/-- The bits that a distance up to `range` needs. -/
def bitsFor (range : ℕ) : ℕ := if range = 0 then 0 else Nat.log2 range + 1

/-- In what order the hash map of a block's values walks over them. -/
structure HashOrder where
  walk : List UInt64 → List UInt64
  perm : ∀ raw, (walk raw).Perm raw.dedup

/-- The values of a block in one encoding. -/
structure Payload where
  enc : Encoding
  width : ℕ
  bytes : List UInt8

/-- The smaller of two payloads, the first where they are equally long. -/
def Payload.better (best new : Payload) : Payload :=
  if new.bytes.length < best.bytes.length then new else best

/-- Every value as its eight bytes. -/
def raw64Payload (raw : List UInt64) : Payload := ⟨.raw64, 0, raw.flatMap fun b => le 8 b.toNat⟩

/-- Frame of reference: the distances to the smallest value, bit-packed. -/
def forPayload (raw : List UInt64) (lo hi : Int64) : Payload :=
  let w := bitsFor (hi.toInt - lo.toInt).toNat
  ⟨.forBitpack, w, BitPack.pack w (raw.map fun b => (b.toInt64 - lo).toUInt64.toNat)⟩

/-- The most frequent value; of several, the one the walk meets last. -/
def mostFrequent (raw : List UInt64) : List UInt64 → Option UInt64
  | [] => none
  | v :: walk => some
      (walk.foldl (fun best v => if raw.count best ≤ raw.count v then v else best) v)

/-- Run default: the most frequent value, and the others with their places. -/
def runDefaultPayload (raw : List UInt64) (default : UInt64) : Payload :=
  let exc := raw.zipIdx.filter fun e => e.1 ≠ default
  ⟨.runDefault, 0, le 8 default.toNat ++ le 4 (raw.length - raw.count default) ++
    exc.flatMap fun e => le 4 e.2 ++ le 8 e.1.toNat⟩

/-- The distinct values in order, and each value's place among them, packed. -/
def dictPayload (raw : List UInt64) : Payload :=
  let dict := raw.dedup.insertionSort (· ≤ ·)
  let cw := bitsFor (dict.length - 1)
  ⟨.dict, cw, le 4 dict.length ++ dict.flatMap (fun d => le 8 d.toNat) ++
    BitPack.pack cw (raw.map fun b => dict.idxOf b)⟩

/-- The largest value. -/
def bestHi (raw : List UInt64) : Int64 := (raw.map UInt64.toInt64).foldl max Int64.minValue

/-- `best_numeric`: the shortest of the encodings for numbers, an earlier one where they tie. -/
def bestNumeric (order : HashOrder) (ty : ColumnType) (raw : List UInt64)
    (zmin : UInt64) : Payload :=
  if raw.isEmpty then ⟨.raw64, 0, []⟩
  else
    let best := raw64Payload raw
    let best :=
      if ty ≠ .float64 then best.better (forPayload raw zmin.toInt64 (bestHi raw)) else best
    let best := match mostFrequent raw (order.walk raw) with
      | some default => best.better (runDefaultPayload raw default)
      | none => best
    best.better (dictPayload raw)

/-- `best_text`: the values as they are or a dictionary, whichever is shorter. -/
def bestText (txt : List (List UInt8)) : Payload :=
  if txt.isEmpty then ⟨.rawText, 0, []⟩
  else
    -- the distinct values as they come up first
    let dict := txt.reverse.dedup.reverse
    let cw := bitsFor (dict.length - 1)
    let best : Payload := ⟨.rawText, 0, txt.flatMap putLp⟩
    best.better ⟨.dict, cw, le 4 dict.length ++ dict.flatMap putLp ++
      BitPack.pack cw (txt.map fun b => dict.idxOf b)⟩

/-- What one value adds to the values that are not NULL: the bit pattern of a numeric column, the
bytes of a text column. -/
def nonNullOf (ty : ColumnType) (v : Value) : Except Error (List UInt64 × List (List UInt8)) :=
  match v with
  | .null => .ok ([], [])
  | .int x | .timestamp x => if isNumeric ty then .ok ([x.toUInt64], []) else bad
  | .float f => if isNumeric ty then .ok ([f.bits], []) else bad
  | .text s => if ty = .text then .ok ([], [s.toByteArray.data.toList]) else bad
  | .blob b => if ty = .blob then .ok ([], [b]) else bad
  | _ => bad
where
  bad := .error (.internal s!"column segment: unexpected value {v.typeName} for {ty.debug}")

/-- The values that are not NULL, as 64 bits or as bytes. -/
def nonNull (ty : ColumnType) : List Value → Except Error (List UInt64 × List (List UInt8))
  | [] => .ok ([], [])
  | v :: vals => do
    let (raw, txt) ← nonNullOf ty v
    let (raws, txts) ← nonNull ty vals
    return (raw ++ raws, txt ++ txts)

/-- The zone map: least and greatest of the integers, or of the floats. -/
def zoneOf (ty : ColumnType) (raw : List UInt64) : UInt64 × UInt64 :=
  if isNumeric ty && ty ≠ .float64 then
    ((raw.foldl (fun lo b => if b.toInt64 < lo then b.toInt64 else lo) Int64.maxValue).toUInt64,
      (raw.foldl (fun hi b => if hi < b.toInt64 then b.toInt64 else hi) Int64.minValue).toUInt64)
  else if ty = .float64 then
    ((raw.foldl (fun lo b => if F64.lt ⟨b⟩ lo then ⟨b⟩ else lo) ⟨0x7ff0000000000000⟩ : F64).bits,
      (raw.foldl (fun hi b => if F64.lt hi ⟨b⟩ then ⟨b⟩ else hi) ⟨0xfff0000000000000⟩ : F64).bits)
  else (0, 0)

/-- `encode_block`: head, null bitmap, zone map and payload. -/
def encodeBlock (order : HashOrder) (modGen : ℕ) (ty : ColumnType) (vals : List Value) :
    Except Error (List UInt8) := do
  let n := vals.length
  let nulls := BitMask.ofList 8 (vals.map Value.isNull)
  let (raw, txt) ← nonNull ty vals
  let nNonnull := if isNumeric ty then raw.length else txt.length
  let (zmin, zmax) := zoneOf ty raw
  let payload := if isNumeric ty then bestNumeric order ty raw zmin else bestText txt
  return colsegMagic ++ le 2 colsegFormat ++ le 8 modGen ++ le 4 n ++ le 4 nNonnull ++
    [ty.tag, payload.enc.tag, UInt8.ofNat payload.width, if nNonnull ≠ n then 1 else 0] ++
    le 8 zmin.toNat ++ le 8 zmax.toNat ++
    (if nNonnull ≠ n then nulls.map UInt8.ofNat else []) ++ payload.bytes

/-- A payload as the decoder reads it. -/
inductive Codec
  | raw64 (p : List UInt8)
  | frame (lo : Int64) (width : ℕ) (packed : List UInt8)
  | runDefault (default : UInt64) (exc : List (ℕ × UInt64))
  | dictNum (dict : List UInt64) (width : ℕ) (codes : List UInt8)
  | dictText (dict : List (List UInt8)) (width : ℕ) (codes : List UInt8)
  | rawText (offs : List (List UInt8))

/-- A decoded block. -/
structure Block where
  nRows : ℕ
  nNonnull : ℕ
  ty : ColumnType
  zmin : UInt64
  zmax : UInt64
  nulls : Option (List UInt8)
  codec : Codec

/-- Reads from the front of the bytes that are left. -/
abbrev Reader := StateT (List UInt8) (Except Error)

/-- The error of a damaged segment. -/
def corruptSegment (what : String) : Error := .corrupt s!"column segment: {what}"

/-- The next `n` bytes. -/
def takeBytes (n : ℕ) : Reader (List UInt8) := fun rest =>
  if n ≤ rest.length then .ok (rest.take n, rest.drop n) else .error (corruptSegment "truncated")

/-- The next `n` bytes as a little-endian number. -/
def takeLe (n : ℕ) : Reader ℕ := do
  return ofLe (← takeBytes n)

/-- The next byte. -/
def takeByte : Reader UInt8 := do
  return (← takeBytes 1).headD 0

/-- The next bytes with their length in front. -/
def takeLp : Reader (List UInt8) := do
  takeBytes (← takeLe 4)

/-- The next eight bytes. -/
def takeU64 : Reader UInt64 := do
  return UInt64.ofNat (← takeLe 8)

/-- The same read `n` times. -/
def times {α : Type} (r : Reader α) : ℕ → Reader (List α)
  | 0 => return []
  | n + 1 => do
    let a ← r
    return a :: (← times r n)

/-- The exceptions in ascending order of the places they stand at. -/
def takeExceptions (nNonnull : ℕ) : ℕ → Option ℕ → Reader (List (ℕ × UInt64))
  | 0, _ => return []
  | n + 1, prev => do
    let idx ← takeLe 4
    let val ← takeU64
    if nNonnull ≤ idx ∨ prev.any (idx ≤ ·) then throw (corruptSegment "bad exception index")
    return (idx, val) :: (← takeExceptions nNonnull n (some idx))

/-- The bytes of `n` packed codes. -/
def packedLen (n width : ℕ) : ℕ := (n * width + 7) / 8

/-- The payload. An encoding that does not go with the type is left to the row scan. -/
def takeCodec (enc : Option Encoding) (textCol : Bool) (nNonnull width : ℕ) (zmin : UInt64) :
    Reader (Option Codec) := do
  match enc, textCol with
  | some .raw64, false => return some (.raw64 (← takeBytes (nNonnull * 8)))
  | some .forBitpack, false =>
    return some (.frame zmin.toInt64 width (← takeBytes (packedLen nNonnull width)))
  | some .runDefault, false =>
    let default ← takeU64
    let nExc ← takeLe 4
    if nNonnull < nExc then throw (corruptSegment "too many exceptions")
    return some (.runDefault default (← takeExceptions nNonnull nExc none))
  | some .dict, false =>
    let dict ← times takeU64 (← takeLe 4)
    let codes ← takeBytes (packedLen nNonnull width)
    if dict.length = 0 ∧ 0 < nNonnull then throw (corruptSegment "empty dict")
    return some (.dictNum dict width codes)
  | some .dict, true =>
    let dict ← times takeLp (← takeLe 4)
    let codes ← takeBytes (packedLen nNonnull width)
    if dict.length = 0 ∧ 0 < nNonnull then throw (corruptSegment "empty dict")
    return some (.dictText dict width codes)
  | some .rawText, true => return some (.rawText (← times takeLp nNonnull))
  | _, _ => return none

/-- The null bitmap, if the block has one. -/
def takeNulls (hasNulls : Bool) (nRows nNonnull : ℕ) : Reader (Option (List UInt8)) := do
  if hasNulls then return some (← takeBytes ((nRows + 7) / 8))
  if nNonnull ≠ nRows then throw (corruptSegment "null-free flag disagrees")
  return none

/-- The block behind its head; one of another column type is passed over. -/
def takeBody (ty : ColumnType) : Reader (Option Block) := do
  let nRows ← takeLe 4
  let nNonnull ← takeLe 4
  if blockRows < nRows ∨ nRows < nNonnull then throw (corruptSegment "impossible row counts")
  let storedTy ← takeByte
  if storedTy ≠ ty.tag then return none
  let enc ← takeByte
  let width := (← takeByte).toNat
  if 64 < width then throw (corruptSegment "bad bit width")
  let flag ← takeByte
  if 1 < flag then throw (corruptSegment "bad has_nulls")
  let zmin ← takeU64
  let zmax ← takeU64
  let nulls ← takeNulls (flag = 1) nRows nNonnull
  let some codec ← takeCodec (Encoding.ofTag enc) (ty = .text || ty = .blob) nNonnull width zmin
    | return none
  if (← get) ≠ [] then throw (corruptSegment "trailing bytes")
  return some ⟨nRows, nNonnull, ty, zmin, zmax, nulls, codec⟩

/-- A block that was built at `wantGen`; `none` if the row scan has to run instead. -/
def decodeBlock (bytes : List UInt8) (wantGen : ℕ) (ty : ColumnType) :
    Except Error (Option Block) :=
  StateT.run' (do
    if (← takeBytes 4) ≠ colsegMagic then throw (corruptSegment "bad magic")
    if (← takeLe 2) ≠ colsegFormat then return none
    if (← takeLe 8) ≠ wantGen then return none
    takeBody ty) bytes

namespace Block

variable (b : Block)

/-- Whether no row of the block is NULL. -/
def nullFree : Bool := b.nNonnull = b.nRows

/-- Whether the values are integers. -/
def isIntColumn : Bool := b.ty = .int64 || b.ty = .timestamp

/-- The bounds of the integers in the block. A text column passes for one with bounds. -/
def intBounds : Option (Int64 × Int64) :=
  if b.nNonnull = 0 ∨ b.ty = .float64 then none else some (b.zmin.toInt64, b.zmax.toInt64)

/-- A number of the column's type. -/
def numeric (bits : UInt64) : Value :=
  match b.ty with
  | .float64 => .float ⟨bits⟩
  | .timestamp => .timestamp bits.toInt64
  | _ => .int bits.toInt64

/-- A text or a blob of the column's type. -/
def text (bytes : List UInt8) : Except Error Value :=
  if b.ty = .text then
    match String.fromUTF8? ⟨bytes.toArray⟩ with
    | some s => .ok (.text s)
    | none => .error (corruptSegment "invalid utf-8")
  else .ok (.blob bytes)

/-- A place in a block: the values read, and the exceptions still ahead. -/
structure Cursor where
  k : ℕ
  exc : List (ℕ × UInt64)

/-- The place before the first value. -/
def start : Cursor := ⟨0, match b.codec with | .runDefault _ exc => exc | _ => []⟩

/-- `next`: the value at the place. -/
def next (c : Cursor) : Except Error (Value × Cursor) :=
  let step := { c with k := c.k + 1 }
  match b.codec with
  | .raw64 p =>
    let body := (p.drop (c.k * 8)).take 8
    if body.length < 8 then .error (corruptSegment "short raw64")
    else .ok (b.numeric (UInt64.ofNat (ofLe body)), step)
  | .frame lo width packed =>
    .ok (b.numeric (lo + (UInt64.ofNat (BitPack.unpackAt packed c.k width)).toInt64).toUInt64, step)
  | .runDefault default _ => match c.exc with
    | (idx, v) :: exc =>
      if idx = c.k then .ok (b.numeric v, ⟨c.k + 1, exc⟩) else .ok (b.numeric default, step)
    | [] => .ok (b.numeric default, step)
  | .dictNum dict width codes => match dict[BitPack.unpackAt codes c.k width]? with
    | some bits => .ok (b.numeric bits, step)
    | none => .error (corruptSegment "dict code")
  | .dictText dict width codes => match dict[BitPack.unpackAt codes c.k width]? with
    | some bytes => (b.text bytes).map (·, step)
    | none => .error (corruptSegment "dict code")
  | .rawText offs => match offs[c.k]? with
    | some bytes => (b.text bytes).map (·, step)
    | none => .error (corruptSegment "short raw-text")

/-- Whether the row is NULL. -/
def isNullAt (i : ℕ) : Bool :=
  match b.nulls with
  | some bitmap => BitMask.get 8 (bitmap.map UInt8.toNat) i
  | none => false

variable {σ : Type} (push : σ → Value → Except Error σ)

/-- `n` rows from the row `i` on, NULL or the next value. -/
def forEachFrom : ℕ → ℕ → Cursor → σ → Except Error σ
  | 0, _, c, s =>
    if c.k ≠ b.nNonnull then .error (corruptSegment "null bitmap disagrees") else .ok s
  | n + 1, i, c, s =>
    if b.isNullAt i then do
      forEachFrom n (i + 1) c (← push s .null)
    else if b.nNonnull ≤ c.k then .error (corruptSegment "null bitmap disagrees")
    else do
      let (v, c) ← b.next c
      forEachFrom n (i + 1) c (← push s v)

/-- `for_each`: every row of the block, in order. -/
def forEach (s : σ) : Except Error σ := b.forEachFrom push b.nRows 0 b.start s

end Block

end Mpedb
