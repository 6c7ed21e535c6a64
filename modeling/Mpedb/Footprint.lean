import Mpedb.Optimistic
import Mpedb.Subedit

/-!
# What a write transaction records about its writes

The fields of `WriteTxn` that end in the committed-footprint ring, the calls that fill them
(`engine/write/concurrency.rs`) and the footprint `commit_inner` makes of them.
-/

namespace Mpedb

/-- What a transaction notes as written, for those that check against it. -/
structure Written where
  tables : BitVec 64
  commitPoint : Option (ℕ × BitVec 64)
  regions : BitVec 64
  keys : Option (List (BitVec 64))
  range : Option (ℕ × ℕ)
  delta : ℤ
  cols : BitVec 64
  shard : Option (BitVec 64)
  shardSeen : Bool
  deriving DecidableEq

/-- Addition that stops at the ends of the 64-bit integers. -/
def saturatingAdd (a d : ℤ) : ℤ := max (-2 ^ 63) (min (2 ^ 63 - 1) (a + d))

namespace Written

/-- A transaction that has just begun. `(u32::MAX, 0)` is the identity of the fold of ranges. -/
def fresh : Written where
  tables := 0
  commitPoint := none
  regions := 0
  keys := some []
  range := some (2 ^ 32 - 1, 0)
  delta := 0
  cols := 0
  shard := none
  shardSeen := false

variable (w : Written)

/-- What `set_tree_root` notes of a changed tree. -/
def markTable (table : ℕ) : Written := { w with tables := w.tables ||| foldBit table }

/-- The one row that the commit is known to write. -/
def setCommitPoint (table : ℕ) (keyHash : BitVec 64) : Written :=
  { w with commitPoint := some (table, keyHash) }

/-- The exact set is given up for good once a key cannot be named or the slot is full. -/
def addKey : Option (BitVec 64) → Option (List (BitVec 64)) → Option (List (BitVec 64))
  | some h, some ks =>
    if ks.contains h then some ks
    else if ofpMaxKeys < (ks ++ [h]).length then none else some (ks ++ [h])
  | none, _ => none
  | some _, none => none

/-- Notes the row by its key's hash, or that it may be any. -/
def recordKey (key : Option (BitVec 64)) : Written :=
  { w with
    regions := w.regions ||| (match key with
      | some h => regionBit h
      | none => regionAny)
    keys := addKey key w.keys }

/-- Notes the column, or that it may be any. -/
def recordCol (col : Option ℕ) : Written :=
  { w with cols := w.cols ||| (match col with
      | some c => foldBit c
      | none => colsAny) }

/-- Notes the bytes of the text that were edited, or that they may be any. -/
def recordRange (r : Option (ℕ × ℕ)) : Written :=
  { w with range := match w.range, r with
      | some (a, b), some (c, d) => some (min a c, max b d)
      | _, _ => none }

/-- Notes by how much a text has grown. -/
def recordDelta (d : ℤ) : Written := { w with delta := saturatingAdd w.delta d }

/-- Statements must agree on the shard. -/
def recordShard (shard : Option (BitVec 64)) : Written :=
  if !w.shardSeen then { w with shardSeen := true, shard := shard }
  else if w.shard ≠ shard then { w with shard := none } else w

/-- `kind`, `table_bits` and `key_hash` of the footprint. -/
def summary : OfpKind × BitVec 64 × BitVec 64 :=
  match w.commitPoint with
  | some (table, keyHash) => (.point, foldBit table, keyHash)
  | none =>
    if w.tables = 0 then (.empty, 0, 0)
    else match w.shard with
      | some s => (.shard, w.tables, s)
      | none => (.region, w.tables, if w.regions = 0 then regionAny else w.regions)

/-- `footprint`: what the commit publishes in its ring slot. -/
def footprint : CommitFootprint where
  kind := w.summary.1
  tableBits := w.summary.2.1
  keyHash := w.summary.2.2
  cols := if w.cols = 0 then colsAny else w.cols
  keys := w.keys.filter fun k => k ≠ []
  range := match w.range with
    | some (lo, hi) => if lo ≤ hi then packRange lo hi else rangeAny
    | none => rangeAny
  delta := w.delta

/-- What a transaction records whose one write is `SET col = splice(col, …)` on the row of one
key. -/
def spliceUpdate (table : ℕ) (key : BitVec 64) (col : ℕ) (e : Splice) : Written :=
  (((((fresh.recordKey (some key)).recordCol (some col)).recordRange
    (some (e.offset, e.stop))).recordDelta e.delta).recordShard none).markTable table

end Written

end Mpedb
