import Mpedb.Lib.Rekey
import Mpedb.SegmentScan
import Mpedb.Table

/-!
# Table-id compaction

The catalog is one tree: the schema, the directory of the tables' trees, and the system records,
told apart by the first byte of the key. Compaction gives the live tables dense ids and moves the
records that carry an id in their key (`idKeys`): they are collected first, then moved one by one.
The readers of the records are here as well.
-/

namespace Mpedb

open Bytes

/-- A text of ASCII characters as bytes. -/
def ascii (s : String) : Key := s.toList.map fun c => UInt8.ofNat c.toNat

/-- A table of the schema, alive or dropped. -/
structure TableSlot where
  id : ℕ
  name : String
  dead : Bool
  autoincrement : Bool
  types : List ColumnType
  deriving DecidableEq

/-- A schema of tables, each with its place as its id. -/
structure IdSchema where
  tables : List TableSlot
  dense : ∀ (i : ℕ) (t : TableSlot), tables[i]? = some t → t.id = i
  small : tables.length ≤ 2 ^ 32

namespace IdSchema

/-- The live tables with new ids from `next` on. -/
def renumbered (next : ℕ) : List TableSlot → List TableSlot
  | [] => []
  | t :: tables =>
    if t.dead then renumbered next tables else { t with id := next } :: renumbered (next + 1) tables

/-- The old id of every live table with its new one. -/
def idMap (next : ℕ) : List TableSlot → List (ℕ × ℕ)
  | [] => []
  | t :: tables => if t.dead then idMap next tables else (t.id, next) :: idMap (next + 1) tables

theorem renumbered_dense (tables : List TableSlot) : ∀ (next i : ℕ) (t : TableSlot),
    (renumbered next tables)[i]? = some t → t.id = next + i := by
  induction tables with
  | nil => simp [renumbered]
  | cons t₀ tables ih =>
    intro next i t h
    unfold renumbered at h
    split_ifs at h
    · exact ih next i t h
    · rcases i with _ | i
      · cases h
        rfl
      · have := ih (next + 1) i t (by simpa using h)
        omega

theorem length_renumbered (tables : List TableSlot) : ∀ next,
    (renumbered next tables).length ≤ tables.length := by
  induction tables with
  | nil => simp [renumbered]
  | cons t₀ tables ih =>
    intro next
    unfold renumbered
    split_ifs
    · exact (ih next).trans (Nat.le_succ _)
    · simpa using ih (next + 1)

/-- `compacted`: the schema of the live tables and the map from old ids to new ones. -/
def compacted (s : IdSchema) : IdSchema × List (ℕ × ℕ) :=
  (⟨renumbered 0 s.tables, fun i t h => by simpa using renumbered_dense s.tables 0 i t h,
    (length_renumbered s.tables 0).trans s.small⟩, idMap 0 s.tables)

/-- `table_id`: a live table by its name. -/
def tableId (s : IdSchema) (name : String) : Option ℕ :=
  (s.tables.find? fun t => !t.dead && identEq t.name name).map (·.id)

/-- Whether the table with the id is AUTOINCREMENT. -/
def autoincrement (s : IdSchema) (id : ℕ) : Bool :=
  match s.tables[id]? with
  | some t => t.autoincrement
  | none => false

end IdSchema

/-- The catalog tree: records under byte keys. -/
abbrev Catalog := SortedMap Key (List UInt8)

/-- The key of the schema record. -/
def catSchemaKey : Key := [0x00]

/-- `cat_tree_key`: the directory record of a tree. -/
def catTreeKey (tableId indexNo : ℕ) : Key := 0x01 :: (be 4 tableId ++ be 4 indexNo)

/-- The first byte of the keys of system records. -/
def sysPrefixByte : UInt8 := 0x02

/-- The key of a system record. -/
def sysKey (subkey : Key) : Key := sysPrefixByte :: subkey

/-- One family of system records whose key carries a table id: how the key begins, how far behind
that the id stands, and who owns the record. -/
structure IdKey where
  lead : Key
  idAt : ℕ
  owner : String
  deriving DecidableEq

/-- The system records whose key carries a table id, with the place of the id. -/
def idKeys : List IdKey :=
  [⟨ascii "pol/", 0, "row-level-security policy"⟩,
    ⟨ascii "rlsen/", 0, "row-level-security enable flag"⟩,
    ⟨ascii "polep/", 0, "policy epoch"⟩,
    ⟨ascii "park/", 0, "mirror parked conflict"⟩,
    ⟨ascii "skip/", 0, "mirror apply-skip"⟩,
    ⟨ascii "map/", 0, "mirror source mapping"⟩,
    ⟨ascii "imp/", 0, "mirror import watermark"⟩,
    ⟨ascii "cdc" ++ 0 :: ascii "d/", 0, "CDC dirty entry"⟩,
    ⟨ascii "stats" ++ [0], 0, "index statistics"⟩,
    ⟨ascii "pull/", 9, "sync pull cursor"⟩,
    ⟨ascii "push/", 9, "sync push cursor"⟩]

/-- Where the table id stands in a key of a listed family that is long enough to hold one. -/
def idOffset (key : Key) : Option (ℕ × IdKey) :=
  (idKeys.find? fun k => k.lead.isPrefixOf key && k.lead.length + k.idAt + 4 ≤ key.length).map
    fun k => (k.lead.length + k.idAt, k)

/-- The table id in a key. -/
def readId (key : Key) (pos : ℕ) : ℕ := ofBe ((key.drop pos).take 4)

/-- The key with another table id. -/
def rewriteKey (key : Key) (pos newId : ℕ) : Key :=
  key.take pos ++ be 4 newId ++ key.drop (pos + 4)

/-- Reads a directory record; its key must be nine bytes. -/
def parseEntry (e : Key × List UInt8) : Except Error (ℕ × ℕ × List UInt8) :=
  if e.1.length ≠ 9 then
    .error (.corrupt s!"catalog directory key is {e.1.length} bytes, expected 9")
  else .ok (ofBe ((e.1.drop 1).take 4), ofBe ((e.1.drop 5).take 4), e.2)

/-- A directory record moves to its new id, or goes with its dropped table. -/
def rewriteEntry (map : List (ℕ × ℕ)) (cat : Catalog) (e : ℕ × ℕ × List UInt8) :
    Except Error Catalog :=
  let (tid, ino, val) := e
  match map.lookup tid with
  -- a dropped table's leftover
  | none => .ok (cat.erase (catTreeKey tid ino))
  | some new =>
    if new = tid then .ok cat
    else
      let cat := cat.erase (catTreeKey tid ino)
      if cat.lookup (catTreeKey new ino) ≠ none then
        .error (.corrupt s!"catalog entry for table {new} index {ino} already exists")
      else .ok (cat.insert (catTreeKey new ino) val)

/-- `rewrite_catalog`: the directory records, in the order of their old keys. -/
def rewriteCatalog (map : List (ℕ × ℕ)) (cat : Catalog) : Except Error Catalog := do
  let entries ← (cat.entries.filter fun e => [0x01] ≤ e.1 && e.1 < [0x02]).mapM parseEntry
  entries.foldlM (rewriteEntry map) cat

/-- A system record moves to its new id; published plans are dropped. -/
def rewriteRecord (map : List (ℕ × ℕ)) (cat : Catalog) (e : Key × List UInt8) : Catalog :=
  let subkey := e.1.tail
  -- a published plan carries ids in its bytes
  if (ascii "plan/").isPrefixOf subkey then cat.erase (sysKey subkey)
  else if subkey = ascii "plancount" then cat.erase (sysKey subkey)
  else match idOffset subkey with
    | none => cat
    | some (pos, _) =>
      let cat := cat.erase (sysKey subkey)
      match map.lookup (readId subkey pos) with
      | none => cat
      | some new => cat.insert (sysKey (rewriteKey subkey pos new)) e.2

/-- `rewrite_sys`: all system records. -/
def rewriteSys (map : List (ℕ × ℕ)) (cat : Catalog) : Catalog :=
  (cat.entries.filter fun e => [sysPrefixByte] ≤ e.1 && e.1 < [sysPrefixByte + 1]).foldl
    (rewriteRecord map) cat

/-- A committed state. The tree behind a root page answers for its rows and its greatest key, as a
row id. -/
structure CatalogState where
  schema : IdSchema
  catalog : Catalog
  rowsAt : ℕ → List (Key × Row)
  maxRowid : ℕ → Except Error (Option Int64)

/-- The checks of the schema outside its ids, and its bytes. -/
structure SchemaCodec where
  validate : IdSchema → Except Error Unit
  canonicalBytes : IdSchema → List UInt8

/-- `compact_table_ids`: schema, directory and system records get the new ids. -/
def compactTableIds (codec : SchemaCodec) (s : CatalogState) : Except Error CatalogState := do
  let (dense, map) := s.schema.compacted
  codec.validate dense
  let cat ← rewriteCatalog map s.catalog
  let cat := rewriteSys map cat
  return { s with schema := dense, catalog := cat.insert catSchemaKey (codec.canonicalBytes dense) }

/-- `sys_get`. -/
def sysGet (cat : Catalog) (subkey : Key) : Option (List UInt8) := cat.lookup (sysKey subkey)

/-- The root and the counts of a tree from its directory record. -/
def catalogEntry (cat : Catalog) (tableId indexNo : ℕ) : Except Error (ℕ × ℕ × ℕ) :=
  match cat.lookup (catTreeKey tableId indexNo) with
  | none => .error (.corrupt s!"missing catalog entry for table {tableId} index {indexNo}")
  | some bytes =>
    if bytes.length ≠ 16 ∧ bytes.length ≠ 24 then .error (.corrupt "bad catalog entry size")
    else .ok (ofLe (bytes.take 8), ofLe ((bytes.drop 8).take 8),
      if bytes.length = 24 then ofLe ((bytes.drop 16).take 8) else 0)

/-- The key of a row-level security policy. -/
def polSubkey (tableId : ℕ) (name : Key) : Key := ascii "pol/" ++ be 4 tableId ++ ascii "/" ++ name

/-- The key of the flag that row-level security is on. -/
def rlsenKey (tableId : ℕ) : Key := ascii "rlsen/" ++ be 4 tableId

/-- The key of the policy epoch of a table. -/
def polepKey (tableId : ℕ) : Key := ascii "polep/" ++ be 4 tableId

/-- The key of the dirty entry of a row. -/
def dirtyKey (tableId : ℕ) (pkHash : Key) : Key :=
  ascii "cdc" ++ 0 :: ascii "d/" ++ be 4 tableId ++ pkHash

/-- The key of the statistics of an index. -/
def statsKey (tableId indexNo : ℕ) : Key := ascii "stats" ++ [0] ++ be 4 tableId ++ be 4 indexNo

/-- The key of the rowid sequence of a table. -/
def rowidSeqKey (tableId : ℕ) : Key := ascii "rowidseq/" ++ be 4 tableId

/-- The key of the columnar watermark of a table. -/
def colwmSubkey (tableId : ℕ) : Key := 0 :: ascii "w" ++ be 4 tableId

/-- The key of a cursor of a sync link. -/
def cursorKey (tag : String) (link tableId : ℕ) : Key :=
  ascii "sync" ++ [0] ++ ascii tag ++ be 8 link ++ ascii "/" ++ be 4 tableId

/-- The key of the base of a row on a sync link. -/
def baseKey (link tableId : ℕ) (pkHash : Key) : Key :=
  ascii "sync" ++ [0] ++ ascii "b/" ++ be 8 link ++ be 4 tableId ++ pkHash

/-- The records of a mirror: `map/` and `imp/` without a hash, `park/` and `skip/` with one. -/
def mirrorKey (family : String) (tableId : ℕ) (pkHash : Key) : Key :=
  ascii "mir" ++ [0] ++ ascii family ++ be 4 tableId ++ pkHash

/-- The key of the capture control record. -/
def cdcTabsKey : Key := ascii "cdc" ++ 0 :: ascii "tabs"

/-- The tables that are captured and those that are frozen. -/
structure CaptureConfig where
  captured : List ℕ := []
  blocked : List ℕ := []
  generation : ℕ := 0
  deriving DecidableEq

/-- `MAX_TABLES_CEILING`. -/
def maxTablesCeiling : ℕ := 2 ^ 20

/-- A set of ids: their number, then the ids in ascending order; what is left of the bytes. -/
def decodeTableSet (bytes : List UInt8) : Except Error (List ℕ × List UInt8) :=
  if bytes.length < 2 then .error (.corrupt "truncated table set")
  else
    let n := ofLe (bytes.take 2)
    let rest := bytes.drop 2
    if rest.length < 4 * n then
      .error (.corrupt s!"table set claims {n} ids ({4 * n} bytes), {rest.length} available")
    else
      let ids := (List.range n).map fun i => ofLe ((rest.drop (4 * i)).take 4)
      match ids.find? fun id => maxTablesCeiling ≤ id with
      | some id => .error (.corrupt s!"table id {id} out of range")
      | none =>
        if ids.Pairwise (· < ·) then .ok (ids, rest.drop (4 * n))
        else .error (.corrupt "table set ids must be strictly ascending")

/-- `decode` of the capture control record. -/
def CaptureConfig.decode (bytes : List UInt8) : Except Error CaptureConfig := do
  if bytes.length < 8 then throw (.corrupt "truncated cdc control record")
  let (captured, rest) ← decodeTableSet (bytes.drop 8)
  let (blocked, rest) ← decodeTableSet rest
  if rest ≠ [] then throw (.corrupt s!"cdc control record has {rest.length} trailing bytes")
  return ⟨captured, blocked, ofLe (bytes.take 8)⟩

/-- The capture configuration; without a record nothing is captured. -/
def captureConfig (cat : Catalog) : Except Error CaptureConfig :=
  match sysGet cat cdcTabsKey with
  | some bytes => CaptureConfig.decode bytes
  | none => .ok {}

/-- Whether a table is captured, and whether writes to it are blocked. -/
def captureBits (cat : Catalog) (tableId : ℕ) : Except Error (Bool × Bool) := do
  let config ← captureConfig cat
  return (config.captured.contains tableId, config.blocked.contains tableId)

/-- The highest rowid that was given out, 0 without a record. -/
def rowidSeq (cat : Catalog) (tableId : ℕ) : Int64 :=
  match sysGet cat (rowidSeqKey tableId) with
  | some b => if b.length = 8 then Int64.ofUInt64 (UInt64.ofNat (ofLe b)) else 0
  | none => 0

/-- `i64::saturating_add` of one. -/
def succSat (a : Int64) : Int64 := if a = Int64.maxValue then a else a + 1

/-- The id the next row gets, by the greatest id of the tree and the last id handed out. -/
def CatalogState.nextRowidAbove (s : CatalogState) (tableId : ℕ) (stored : Int64) :
    Except Error Int64 := do
  let (root, _) ← catalogEntry s.catalog tableId 0
  let fromTree := (← s.maxRowid root).getD 0
  return if s.schema.autoincrement tableId then succSat (max stored fromTree) else succSat fromTree

/-- `next_rowid`. -/
def CatalogState.nextRowid (s : CatalogState) (tableId : ℕ) : Except Error Int64 :=
  s.nextRowidAbove tableId (rowidSeq s.catalog tableId)

/-- The head of the keys of a column's blocks. -/
def colsegLead (tableId col : ℕ) : Key := ascii "colseg" ++ [0] ++ be 4 tableId ++ be 2 col

/-- The key of one block of a column. -/
def colsegKey (tableId col block : ℕ) : Key := colsegLead tableId col ++ be 4 block

/-- The blocks of a column, up to the first gap. -/
def colsegBlocks (cat : Catalog) (tableId col : ℕ) : List (List UInt8) :=
  let records := cat.entries.filter fun e =>
    (sysKey (colsegLead tableId col)).isPrefixOf e.1 && e.1.length =
      (sysKey (colsegKey tableId col 0)).length
  (records.zipIdx.takeWhile fun e => e.1.1 = sysKey (colsegKey tableId col e.2)).map (·.1.2)

/-- `decode_colwm`. -/
def decodeColwm (v : List UInt8) : Option (ℕ × ℕ × Key) :=
  if v.length < 16 then none else some (ofLe (v.take 8), ofLe ((v.drop 8).take 8), v.drop 16)

/-- The watermark of a table's segments. -/
def columnarWatermark (cat : Catalog) (tableId : ℕ) : Option (ℕ × ℕ × Key) :=
  (sysGet cat (colwmSubkey tableId)).bind decodeColwm

/-- What a scan of a table reads, with the segments that lie under `recordId`. -/
def CatalogState.segSnapshot (s : CatalogState) (tableId recordId : ℕ) : SegSnapshot where
  modGen := (catalogEntry s.catalog tableId 0).map (·.2.2)
  rowCount := (catalogEntry s.catalog tableId 0).map (·.2.1)
  types := (s.schema.tables[tableId]?.map (·.types)).getD []
  blocks := colsegBlocks s.catalog recordId
  watermark := columnarWatermark s.catalog recordId
  rows := ((catalogEntry s.catalog tableId 0).toOption.map fun e => s.rowsAt e.1).getD []

/-- What a query gets: the feed's answer, or that of the scan where the feed declines. -/
def fedOr {σ : Type} (feed : Except Error (σ × Bool)) (scan : Except Error σ) : Option σ :=
  match feed with
  | .ok (s, true) => some s
  | .ok (_, false) => scan.toOption
  | .error _ => none

section Answers

variable {σ : Type} (snap : SegSnapshot)

/-- What a scan of one column answers, from the segments or from the rows. -/
def SegSnapshot.columnAnswer (col : ℕ) (ty : ColumnType) (push : σ → Value → Except Error σ)
    (s : σ) : Option σ :=
  fedOr (snap.feedFromSegments col ty push s) (snap.rowScan col push s)

/-- What a scan of several columns answers. -/
def SegSnapshot.groupAnswer (needed : List (ℕ × ColumnType))
    (push : σ → Row → Except Error σ) (s : σ) :
    Option σ :=
  fedOr (snap.feedGroupFromSegments snap.types.length needed push s)
    (snap.rowScanGroup (needed.map Prod.fst) push s)

/-- What a scan with a filter answers. -/
def SegSnapshot.filteredAnswer (host : ExprHost) (fastOff : Bool) (prog : FilterProgram)
    (params : List Value)
    (aggCol : ℕ) (aggTy predTy : ColumnType) (push : σ → Value → Except Error σ)
    (s : σ) : Option σ :=
  match zonePredicate prog params with
  | some pred => fedOr (snap.feedFilteredFromSegments aggCol aggTy pred predTy push s)
    (snap.rowScanFiltered host fastOff prog params aggCol push s)
  | none => (snap.rowScanFiltered host fastOff prog params aggCol push s).toOption

end Answers

/-- The table of a stored trigger; its name is in the key. -/
def triggerTable (bytes : List UInt8) : Option ℕ :=
  if bytes.take 6 = ascii "MTRG" ++ [1, 0] ∧ 10 ≤ bytes.length then
    some (ofLe ((bytes.drop 6).take 4))
  else none

/-- The triggers of a table by the id in their records. -/
def triggersOf (cat : Catalog) (tableId : ℕ) : List (Key × List UInt8) :=
  ((cat.entries.filter fun e => (sysKey (ascii "trigger/")).isPrefixOf e.1).filter fun e =>
    triggerTable e.2 = some tableId).map fun e => (e.1, e.2.drop 10)

end Mpedb
