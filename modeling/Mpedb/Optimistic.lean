import Mathlib.Logic.Function.Basic
import Mathlib.Data.List.Basic
import Mathlib.Algebra.Order.Ring.Int

/-!
# The ring of committed footprints

Every commit leaves a summary of what it wrote in the slot of its transaction id (`mpedb-core`,
`shm/optimistic.rs`), stored field by field before the meta flip, with the transaction id last;
validators walk the slots of a window of ids under the writer lock.
-/

namespace Mpedb

/-- `OPT_RING_SLOTS`. -/
def optRingSlots : ℕ := 256

/-- `OFP_MAX_KEYS`. -/
def ofpMaxKeys : ℕ := 8

/-- Any column. -/
def colsAny : BitVec 64 := .allOnes 64

/-- Any row. -/
def regionAny : BitVec 64 := .allOnes 64

/-- Any byte. -/
def rangeAny : ℕ := 2 ^ 64 - 1

/-- The kinds of footprint; `other` is a word no arm of the validators knows. -/
inductive OfpKind
  | empty
  | point
  | table
  | region
  | shard
  | other (n : ℕ)
  deriving DecidableEq

/-- The bit of a table or column. -/
def foldBit (id : ℕ) : BitVec 64 := 1#64 <<< (id % 64)

/-- The bit of a row by the hash of its key. -/
def regionBit (keyHash : BitVec 64) : BitVec 64 := 1#64 <<< (keyHash.toNat % 64)

/-- `lo << 32 | hi`, or `rangeAny` where the range does not fit. -/
def packRange (lo hi : ℕ) : ℕ :=
  if lo < 2 ^ 32 ∧ hi < 2 ^ 32 ∧ lo ≤ hi then lo * 2 ^ 32 + hi else rangeAny

/-- What a commit publishes about what it wrote. -/
structure CommitFootprint where
  kind : OfpKind
  tableBits : BitVec 64
  keyHash : BitVec 64
  cols : BitVec 64
  keys : Option (List (BitVec 64))
  range : ℕ
  delta : ℤ
  deriving DecidableEq

/-- A slot of the ring. -/
structure OfpEntry where
  txn : ℕ := 0
  kind : OfpKind := .empty
  tableBits : BitVec 64 := 0
  keyHash : BitVec 64 := 0
  cols : BitVec 64 := 0
  nkeys : ℕ := 0
  keys : ℕ → BitVec 64 := fun _ => 0
  range : ℕ := 0
  delta : ℤ := 0

/-- The ring by its slots. -/
def OptRing : Type := ℕ → OfpEntry

/-- A slot never written. -/
def OptRing.zeroed : OptRing := fun _ => {}

/-- A store to one field of a slot. -/
inductive OfpStore
  | txn (v : ℕ)
  | kind (v : OfpKind)
  | tableBits (v : BitVec 64)
  | keyHash (v : BitVec 64)
  | cols (v : BitVec 64)
  | nkeys (v : ℕ)
  | key (i : ℕ) (v : BitVec 64)
  | range (v : ℕ)
  | delta (v : ℤ)

/-- The slot after a store. -/
def OfpEntry.store (e : OfpEntry) : OfpStore → OfpEntry
  | .txn v => { e with txn := v }
  | .kind v => { e with kind := v }
  | .tableBits v => { e with tableBits := v }
  | .keyHash v => { e with keyHash := v }
  | .cols v => { e with cols := v }
  | .nkeys v => { e with nkeys := v }
  | .key i v => { e with keys := Function.update e.keys i v }
  | .range v => { e with range := v }
  | .delta v => { e with delta := v }

namespace OptRing

variable (ring : OptRing)

/-- The slot of a transaction. -/
def slot (txn : ℕ) : OfpEntry := ring (txn % optRingSlots)

/-- The ring with another slot for a transaction. -/
def setSlot (txn : ℕ) (e : OfpEntry) : OptRing := Function.update ring (txn % optRingSlots) e

/-- The number of keys that a slot names, 0 for too many. -/
def exactKeys (fp : CommitFootprint) : ℕ :=
  match fp.keys with
  | some k => if k ≠ [] ∧ k.length ≤ ofpMaxKeys then k.length else 0
  | none => 0

/-- The stores of the named keys. -/
def keyStores (fp : CommitFootprint) : List OfpStore :=
  (((fp.keys.getD []).take (exactKeys fp)).zipIdx).map fun k => .key k.2 k.1

/-- The stores of a record, the transaction last. -/
def recordStores (txn : ℕ) (fp : CommitFootprint) : List OfpStore :=
  [.cols fp.cols, .kind fp.kind, .tableBits fp.tableBits, .keyHash fp.keyHash] ++ keyStores fp ++
    [.nkeys (exactKeys fp), .range fp.range, .delta fp.delta, .txn txn]

/-- Stores to the slot of a transaction. -/
def storeAll (txn : ℕ) (stores : List OfpStore) : OptRing :=
  ring.setSlot txn (stores.foldl OfpEntry.store (ring.slot txn))

/-- `opt_record`. -/
def optRecord (txn : ℕ) (fp : CommitFootprint) : OptRing :=
  ring.storeAll txn (recordStores txn fp)

/-- The exact keys commit `t` published, padded with zeros to the eight places. -/
def optKeys (t : ℕ) : Option (List (BitVec 64)) :=
  let e := ring.slot t
  if e.nkeys = 0 ∨ ofpMaxKeys < e.nkeys then none
  else some ((List.range ofpMaxKeys).map fun i => if i < e.nkeys then e.keys i else 0)

/-- The commits after a snapshot. -/
def window (snap current : ℕ) : List ℕ := List.range' (snap + 1) (current - snap)

/-- Whether the slot of `t` makes a write of `(table, keyHash)` conflict. -/
def slotConflicts (table : ℕ) (keyHash : BitVec 64) (t : ℕ) : Bool :=
  let e := ring.slot t
  let mine := e.tableBits &&& foldBit table ≠ 0
  if e.txn ≠ t then true
  else match e.kind with
    | .empty => false
    | .table => mine
    | .shard => mine
    | .region => mine && e.keyHash &&& regionBit keyHash ≠ 0
    | .point => mine && e.keyHash = keyHash
    | .other _ => mine

/-- The first-committer-wins test for a write of `(table, keyHash)` prepared at `snap`. -/
def optConflict (snap current table : ℕ) (keyHash : BitVec 64) : Bool :=
  if current ≤ snap then false
  else if optRingSlots < current - snap then true
  else (window snap current).any (ring.slotConflicts table keyHash)

end OptRing

/-- A splice of one cell. -/
structure CellEdit where
  tableBit : BitVec 64
  key : BitVec 64
  colBit : BitVec 64
  start : ℕ
  len : ℕ

/-- Where a splice goes, or that it cannot. -/
inductive RebaseOutcome
  | at (offset : ℕ)
  | collision
  deriving DecidableEq

/-- `checked_add_signed`. -/
def checkedAddSigned (a : ℕ) (d : ℤ) : Option ℕ :=
  if 0 ≤ (a : ℤ) + d ∧ (a : ℤ) + d < 2 ^ 64 then some ((a : ℤ) + d).toNat else none

namespace OptRing

variable (ring : OptRing) (cell : CellEdit)

/-- Whether the commit in slot `t` counts as one that touched the cell. -/
def touchesCell (t : ℕ) : Bool :=
  let e := ring.slot t
  e.kind ≠ .empty && e.tableBits &&& cell.tableBit ≠ 0 &&
    (match ring.optKeys t with
      | some theirs => theirs.contains cell.key
      | none => true) &&
    e.cols &&& cell.colBit ≠ 0

/-- The walk of `opt_rebase` over the window, with the offset carried so far. -/
def rebaseWalk : List ℕ → ℕ → Option RebaseOutcome
  | [], pos => some (.at pos)
  | t :: ts, pos =>
    let e := ring.slot t
    if e.txn ≠ t then none
    else if !ring.touchesCell cell t then rebaseWalk ts pos
    else if e.range = rangeAny then some .collision
    else
      let lo := e.range / 2 ^ 32 % 2 ^ 32
      let hi := e.range % 2 ^ 32
      if pos < hi ∧ lo < (pos + cell.len) % 2 ^ 64 then some .collision
      else if lo ≤ pos then
        match checkedAddSigned pos e.delta with
        | some pos' => rebaseWalk ts pos'
        | none => none
      else rebaseWalk ts pos

/-- `opt_rebase`: moves a splice over the commits since its snapshot. -/
def optRebase (snap current : ℕ) : Option RebaseOutcome :=
  if current ≤ snap then some (.at cell.start)
  else if optRingSlots < current - snap then none
  else ring.rebaseWalk cell (window snap current) cell.start

end OptRing

end Mpedb
