import Mpedb.Expression
import Mpedb.Lib.ByteReader

/-!
# Expression programs as bytes

The constants, then the instructions: an opcode and its operands. Decoding reads them back and
verifies the program again. The reader stands for the buffer and the position in it.
-/

namespace Mpedb.Expr

open Bytes

/-- Reads from the front of a plan's bytes. -/
abbrev Reader : Type → Type := ByteReader (Stop Error)

/-- The reader stops with an error. -/
def failRead {α : Type} (e : Error) : Reader α := ByteReader.fail (.err e)

mutual

/-- `write_value`: a tag and the value. -/
def writeValue : Datum → List UInt8
  | .scalar .null => [0]
  | .scalar (.int x) => 1 :: le 8 x.toUInt64.toNat
  | .scalar (.float x) => 2 :: le 8 x.bits.toNat
  | .scalar (.bool x) => [3, x.toUInt8]
  | .scalar (.text s) => 4 :: (le 4 (utf8 s.toList).length ++ utf8 s.toList)
  | .scalar (.blob b) => 5 :: (le 4 b.length ++ b)
  | .scalar (.timestamp x) => 6 :: le 8 x.toUInt64.toNat
  | .scalar (.date x) => 8 :: le 8 x.toUInt64.toNat
  | .scalar (.time x) => 9 :: le 8 x.toUInt64.toNat
  | .scalar (.numeric s) => 10 :: (le 4 (utf8 s.toList).length ++ utf8 s.toList)
  | .list items => 7 :: (le 4 items.length ++ writeValues items)

/-- Values one after the other. -/
def writeValues : List Datum → List UInt8
  | [] => []
  | d :: items => writeValue d ++ writeValues items

end

/-- The next `n` bytes of a value. -/
def takeValue (n : ℕ) : Reader (List UInt8) := ByteReader.take (.err (.corrupt "truncated value")) n

/-- Eight bytes as a signed integer. -/
def takeInt : Reader Int64 := do
  return (UInt64.ofNat (ofLe (← takeValue 8))).toInt64

/-- Bytes with their length in front. -/
def takeBody : Reader (List UInt8) := do
  takeValue (ofLe (← takeValue 4))

/-- Bytes as a text, if they are UTF-8. -/
def textOf (invalid : String) (bytes : List UInt8) : Reader String :=
  match String.fromUTF8? ⟨bytes.toArray⟩ with
  | some s => return s
  | none => failRead (.corrupt invalid)

/-- A text with its length in front. -/
def takeText (invalid : String) : Reader String := do
  textOf invalid (← takeBody)

/-- An item of a list; a list in a list is refused once it is read. -/
def readItem (r : Reader Datum) : Reader Datum := do
  let d ← r
  if d.value?.isNone then failRead (.corrupt "nested context list")
  return d

/-- `read_value` behind its tag; `item` reads the members of a list. -/
def readTagged (item : Reader Datum) (tag : ℕ) : Reader Datum := do
  match tag with
  | 0 => return .scalar .null
  | 1 => return .scalar (.int (← takeInt))
  | 2 => return .scalar (.float ⟨UInt64.ofNat (ofLe (← takeValue 8))⟩)
  | 3 =>
    match ((← takeValue 1).headD 0).toNat with
    | 0 => return .scalar (.bool false)
    | 1 => return .scalar (.bool true)
    | _ => failRead (.corrupt "invalid bool")
  | 4 => return .scalar (.text (← takeText "invalid utf-8 in text value"))
  | 5 => return .scalar (.blob (← takeBody))
  | 6 => return .scalar (.timestamp (← takeInt))
  | 7 => return .list (← ByteReader.times item (ofLe (← takeValue 4)))
  | 8 => return .scalar (.date (← takeInt))
  | 9 => return .scalar (.time (← takeInt))
  | 10 => return .scalar (.numeric (← takeText "invalid utf-8 in numeric value"))
  | tag => failRead (.corrupt s!"invalid value tag {tag}")

/-- A value in at most `depth` lists. -/
def readValueIn : ℕ → Reader Datum
  | 0 => failRead (.corrupt "truncated value")
  | depth + 1 => do
    let tag := (← takeValue 1).headD 0
    readTagged (readItem (readValueIn depth)) tag.toNat

/-- Every list takes five bytes at least, so that the bytes left bound their depth. -/
def readValue : Reader Datum := fun rest => readValueIn (rest.length + 1) rest

/-- A 16-bit operand. -/
def u16 (x : UInt16) : List UInt8 := le 2 x.toNat

/-- The byte of an affinity. -/
def affinityTag : Affinity → UInt8
  | .integer => 1
  | .real => 2
  | .text => 3
  | .blob => 4
  | .numeric => 5

/-- The byte of a collation. -/
def collationTag : Collation → UInt8
  | .binary => 0
  | .noCase => 1
  | .rtrim => 2

/-- The byte of a comparison. -/
def CmpKind.tag : CmpKind → UInt8
  | .eq => 0
  | .ne => 1
  | .lt => 2
  | .le => 3
  | .gt => 4
  | .ge => 5

/-- `encode_into`, one instruction: opcode and operands. -/
def Instr.encode : Instr → List UInt8
  | .pushCol x => 1 :: u16 x
  | .pushParam x => 2 :: u16 x
  | .pushConst x => 3 :: u16 x
  | .eq => [4]
  | .ne => [5]
  | .lt => [6]
  | .le => [7]
  | .gt => [8]
  | .ge => [9]
  | .add => [10]
  | .sub => [11]
  | .mul => [12]
  | .div => [13]
  | .mod => [14]
  | .neg => [15]
  | .and => [16]
  | .or => [17]
  | .not => [18]
  | .isNull => [19]
  | .isNotNull => [20]
  | .toFloat => [21]
  | .like x => 22 :: u16 x
  | .inParam x => 23 :: u16 x
  | .inList x => 24 :: u16 x
  | .jumpIfNotTrue x => 25 :: u16 x
  | .jump x => 26 :: u16 x
  | .jumpIfNotNull x => 27 :: u16 x
  | .pop => [28]
  | .call f argc => [29, f.tag, argc]
  | .cast aff => [30, affinityTag aff]
  | .concat => [31]
  | .isNotDistinct => [32]
  | .isDistinct => [33]
  | .glob x => 34 :: u16 x
  | .regexp x => 35 :: u16 x
  | .cmpColl kind coll => [36, kind.tag, collationTag coll]
  | .inListColl x coll => 37 :: (u16 x ++ [collationTag coll])
  | .likeCs x => 38 :: u16 x
  | .hostCall name argc => 39 :: (u16 name ++ u16 argc)
  | .affinity aff => [40, affinityTag aff]
  | .likeEsc p e => 41 :: (u16 p ++ u16 e)
  | .likeCsEsc p e => 42 :: (u16 p ++ u16 e)
  | .cmpClass kind coll => [43, kind.tag, collationTag coll]
  | .bitAnd => [50]
  | .bitOr => [51]
  | .shl => [52]
  | .shr => [53]
  | .bitNot => [54]
  | .regexpDyn => [55]
  | .likeDyn => [56]
  | .likeCsDyn => [57]
  | .likeDynEsc e => 58 :: u16 e
  | .likeCsDynEsc e => 59 :: u16 e
  | .globDyn => [60]
  | .callColl f argc coll => [61, f.tag, argc, collationTag coll]
  | .spellCall hash argc => 62 :: (u16 hash ++ u16 argc)
  | .inParamColl x coll => 63 :: (u16 x ++ [collationTag coll])
  | .concatN n => 64 :: u16 n
  | .divStrict => [65]
  | .modStrict => [66]
  | .castPg oid => 67 :: Bytes.le 4 oid.toNat
  | .enumRank slot => 68 :: u16 slot
  | .enumValidate slot => 69 :: u16 slot

/-- The error of a program that ends early. -/
def truncated : Stop Error := .err (.corrupt "truncated expression program")

/-- The next byte of a program. -/
def readByte : Reader UInt8 := ByteReader.byte truncated

/-- The next 16-bit operand. -/
def readU16 : Reader UInt16 := do
  return UInt16.ofNat (← ByteReader.word truncated 2)

/-- An affinity operand. -/
def readAffinity (bad : String) : Reader Affinity := do
  match (← readByte).toNat with
  | 1 => return .integer
  | 2 => return .real
  | 3 => return .text
  | 4 => return .blob
  | 5 => return .numeric
  | _ => failRead (.corrupt bad)

/-- A collation operand. -/
def collationOf (tag : UInt8) : Reader Collation :=
  match tag.toNat with
  | 0 => return .binary
  | 1 => return .noCase
  | 2 => return .rtrim
  | _ => failRead (.corrupt "bad collation tag")

/-- A comparison operand. -/
def cmpKindOf (bad : String) (tag : UInt8) : Reader CmpKind :=
  match tag.toNat with
  | 0 => return .eq
  | 1 => return .ne
  | 2 => return .lt
  | 3 => return .le
  | 4 => return .gt
  | 5 => return .ge
  | _ => failRead (.corrupt bad)

/-- A function operand. -/
def scalarFnOf (tag : UInt8) : Reader ScalarFn := fun rest =>
  (lift (ScalarFn.fromTag tag)).map fun f => (f, rest)

/-- Both bytes of a collated comparison are read before either is looked at. -/
def readCmp (bad : String) (f : CmpKind → Collation → Instr) : Reader Instr := do
  let k ← readByte
  let c ← readByte
  let kind ← cmpKindOf bad k
  let coll ← collationOf c
  return f kind coll

/-- The type identifiers `by_oid` knows. -/
def pgOids : List ℕ :=
  [16, 17, 18, 19, 20, 21, 23, 25, 26, 114, 700, 701, 1042, 1043, 1082, 1083, 1114,
    1184, 1186, 1266, 1700, 2950, 3802]

/-- What follows an opcode. -/
def readOperands (op : ℕ) : Reader Instr := do
  match op with
  | 1 => return .pushCol (← readU16)
  | 2 => return .pushParam (← readU16)
  | 3 => return .pushConst (← readU16)
  | 4 => return .eq
  | 5 => return .ne
  | 6 => return .lt
  | 7 => return .le
  | 8 => return .gt
  | 9 => return .ge
  | 10 => return .add
  | 11 => return .sub
  | 12 => return .mul
  | 13 => return .div
  | 14 => return .mod
  | 15 => return .neg
  | 16 => return .and
  | 17 => return .or
  | 18 => return .not
  | 19 => return .isNull
  | 20 => return .isNotNull
  | 21 => return .toFloat
  | 22 => return .like (← readU16)
  | 23 => return .inParam (← readU16)
  | 24 => return .inList (← readU16)
  | 25 => return .jumpIfNotTrue (← readU16)
  | 26 => return .jump (← readU16)
  | 27 => return .jumpIfNotNull (← readU16)
  | 28 => return .pop
  | 29 =>
    let f ← readByte
    let argc ← readByte
    return .call (← scalarFnOf f) argc
  | 30 => return .cast (← readAffinity "bad CAST affinity tag")
  | 31 => return .concat
  | 32 => return .isNotDistinct
  | 33 => return .isDistinct
  | 34 => return .glob (← readU16)
  | 35 => return .regexp (← readU16)
  | 36 => readCmp "bad collated-compare op tag" .cmpColl
  | 37 =>
    let x ← readU16
    return .inListColl x (← collationOf (← readByte))
  | 38 => return .likeCs (← readU16)
  | 39 =>
    let name ← readU16
    return .hostCall name (← readU16)
  | 40 => return .affinity (← readAffinity "bad affinity tag")
  | 41 =>
    let p ← readU16
    return .likeEsc p (← readU16)
  | 42 =>
    let p ← readU16
    return .likeCsEsc p (← readU16)
  | 43 => readCmp "bad class-compare op tag" .cmpClass
  | 50 => return .bitAnd
  | 51 => return .bitOr
  | 52 => return .shl
  | 53 => return .shr
  | 54 => return .bitNot
  | 55 => return .regexpDyn
  | 56 => return .likeDyn
  | 57 => return .likeCsDyn
  | 58 => return .likeDynEsc (← readU16)
  | 59 => return .likeCsDynEsc (← readU16)
  | 60 => return .globDyn
  | 61 =>
    let f ← readByte
    let argc ← readByte
    let c ← readByte
    let coll ← collationOf c
    return .callColl (← scalarFnOf f) argc coll
  | 62 =>
    let hash ← readU16
    return .spellCall hash (← readU16)
  | 63 =>
    let x ← readU16
    return .inParamColl x (← collationOf (← readByte))
  | 64 =>
    let n ← readU16
    if n.toNat < 2 then failRead (.corrupt "ConcatN arity below 2")
    return .concatN n
  | 65 => return .divStrict
  | 66 => return .modStrict
  | 67 =>
    let oid ← ByteReader.word truncated 4
    if oid ∉ pgOids then failRead (.corrupt s!"bad CAST PostgreSQL oid {oid}")
    return .castPg (.ofNat oid)
  | 68 => return .enumRank (← readU16)
  | 69 => return .enumValidate (← readU16)
  | op => failRead (.corrupt s!"invalid opcode {op}")

/-- One instruction: its opcode, then its operands. -/
def readInstr : Reader Instr := do
  readOperands (← readByte).toNat

/-- The counts are cut to two and to four bytes as they are. -/
def Program.encodeInto (p : Program) : List UInt8 :=
  le 2 p.consts.length ++ (p.consts.flatMap writeValue ++
    (le 4 p.instrs.length ++ p.instrs.flatMap Instr.encode))

/-- The instructions behind the constants; the program is verified again. -/
def Program.decodeWith (consts : List Datum) : Reader Program := do
  let ninstrs ← ByteReader.word truncated 4
  if ninstrs > 2 ^ 20 then failRead (.corrupt "expression too large")
  let instrs ← ByteReader.times readInstr ninstrs
  fun rest => (Program.new instrs consts).map fun p => (p, rest)

/-- `decode`: constants, then instructions. -/
def Program.decode : Reader Program := do
  let nconsts ← ByteReader.word truncated 2
  let consts ← ByteReader.times readValue nconsts
  Program.decodeWith consts

end Mpedb.Expr
