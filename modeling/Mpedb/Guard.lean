import Mpedb.Session

/-!
# The optimistic guard

A guarded session names what it depends on: tables, keys, columns and bytes inside a value. Its
commit is refused if a transaction that committed after its snapshot meets that surface
(`mpedb-core`, `shm/optimistic.rs`, `engine/write/concurrency.rs`). The surface is declared when
the session begins and only grows while statements run.
-/

namespace Mpedb

/-- What a guard claims of the bytes inside the cells of its surface. -/
inductive RangeClaim
  | whole
  | bytes (lo hi : ℕ)
  /-- Decided by the rebase walk when the statement ran. -/
  | settled
  deriving DecidableEq

/-- What a guarded transaction asks the ring about. -/
structure GuardSurface where
  tables : BitVec 64
  regions : BitVec 64
  keys : Option (List (BitVec 64))
  shard : Option (BitVec 64)
  cols : BitVec 64
  range : RangeClaim

/-- What the ring answers. -/
inductive GuardVerdict
  | clear
  | overlap
  | snapshotTooOld
  | ringGap
  deriving DecidableEq

namespace OptRing

variable (ring : OptRing) (g : GuardSurface)

/-- Whether the shard or the keys of the commit in slot `t` meet the surface. Exact key sets are
compared where both sides have one, else their 64-bit summaries. -/
def keysOverlap (t : ℕ) : Bool :=
  let e := ring.slot t
  match e.kind, g.shard with
  | .shard, some mine => e.keyHash = mine
  | .shard, none => true
  | _, some _ => true
  | .region, none => match g.keys, ring.optKeys t with
    | some mine, some theirs => mine.any theirs.contains
    | _, _ => e.keyHash &&& g.regions ≠ 0
  | .point, none => match g.keys, ring.optKeys t with
    | some mine, some theirs => mine.any theirs.contains
    | _, _ => regionBit e.keyHash &&& g.regions ≠ 0
  | _, none => true

/-- The verdict of one slot of the ring. -/
def guardVerdict (t : ℕ) : GuardVerdict :=
  let e := ring.slot t
  if e.txn ≠ t then .ringGap
  else if e.kind = .empty then .clear
  else if e.tableBits &&& g.tables = 0 then .clear
  else if !ring.keysOverlap g t then .clear
  else if e.cols &&& g.cols = 0 then .clear
  else match g.range with
    | .settled => .clear
    | .bytes _ hi => if e.range ≠ rangeAny ∧ hi ≤
        e.range / 2 ^ 32 % 2 ^ 32 then .clear else .overlap
    | .whole => .overlap

/-- `opt_conflict_set`; every verdict but `clear` refuses the commit. -/
def optConflictSet (snap current : ℕ) : GuardVerdict :=
  if current ≤ snap then .clear
  else if optRingSlots < current - snap then .snapshotTooOld
  else (((window snap current).map (ring.guardVerdict g)).find? (· ≠ .clear)).getD .clear

end OptRing

/-- What a session has declared that it reads and writes. -/
structure Guard where
  snapTxn : ℕ
  surface : BitVec 64
  regions : BitVec 64
  keys : Option (List (BitVec 64))
  range : Option (ℕ × ℕ)
  rebased : Bool
  shard : Option (BitVec 64)
  shardSeen : Bool
  cols : BitVec 64

namespace Guard

/-- A guard with nothing declared. -/
def fresh (snap : ℕ) : Guard where
  snapTxn := snap
  surface := 0
  regions := 0
  keys := some []
  range := some (2 ^ 32 - 1, 0)
  rebased := false
  shard := none
  shardSeen := false
  cols := 0

variable (g : Guard)

/-- The table is read or written. -/
def widenTable (table : ℕ) : Guard := { g with surface := g.surface ||| foldBit table }

/-- The row is read or written, or any row. -/
def touchKey (key : Option (BitVec 64)) : Guard :=
  { g with
    regions := g.regions ||| (match key with
      | some h => regionBit h
      | none => regionAny)
    keys := Written.addKey key g.keys }

/-- The column is read or written, or any column. -/
def touchCol (col : Option ℕ) : Guard :=
  { g with cols := g.cols ||| (match col with
      | some c => foldBit c
      | none => colsAny) }

/-- The columns are read or written, or any. -/
def touchCols : Option (List ℕ) → Guard
  | none => g.touchCol none
  | some cols => cols.foldl (fun g c => g.touchCol (some c)) g

/-- The bytes of the text are edited, or any. -/
def touchRange (r : Option (ℕ × ℕ)) : Guard :=
  { g with range := match g.range, r with
      | some (a, b), some (c, d) => some (min a c, max b d)
      | _, _ => none }

/-- The shard of the statement; more than one is none. -/
def touchShard (shard : Option (BitVec 64)) : Guard :=
  if !g.shardSeen then { g with shardSeen := true, shard := shard }
  else if g.shard ≠ shard then { g with shard := none } else g

/-- A splice of the session was moved to fit the commits since its snapshot. -/
def markRebased : Guard := { g with rebased := true }

/-- What `begin_guarded_with` adds for a statement that may run. -/
def declare (table : ℕ) (s : SessionStmt) : Guard :=
  (((g.widenTable table).touchKey s.key).touchRange s.range).touchCols s.cols

/-- What `widen_guard` adds for a statement that runs. -/
def widen (table : ℕ) (s : SessionStmt) : Guard :=
  ((((g.widenTable table).touchKey s.key).touchCols s.cols).touchRange s.range).touchShard s.shard

/-- `claim`: what the guard asks the ring about. -/
def claim : GuardSurface where
  tables := g.surface
  regions := if g.regions = 0 then regionAny else g.regions
  keys := g.keys.filter fun k => k ≠ []
  shard := g.shard
  cols := if g.cols = 0 then colsAny else g.cols
  range := if g.rebased then .settled
    else match g.range with
      | some (lo, hi) => if lo ≤ hi then .bytes lo hi else .whole
      | none => .whole

/-- Where the walk of a pending sub-edit starts: at its own snapshot, never before the guard's. -/
def origin (origin : Option ℕ) : ℕ := (origin.map (max · g.snapTxn)).getD g.snapTxn

end Guard

/-- How a statement of a session fails. -/
inductive StmtError
  | writeConflict
  | failed (e : Error)
  deriving DecidableEq

/-- `rebase_splice_params`: the parameters with the offset of a sub-edit carried forward by `walk`,
`none` where there is nothing to rebase. -/
def SessionStmt.rebaseSpliceParams (walk : CellEdit → Option RebaseOutcome) (table : ℕ)
    (s : SessionStmt) : Except StmtError (Option (List Value)) :=
  match s.set with
  | none => .ok none
  | some clause =>
    match clause.prog.instrs[0]?, clause.prog.instrs[1]?, clause.prog.instrs.getLast? with
    | some (Instr.pushCol c), some (Instr.pushParam slot), some Instr.splice =>
      if c ≠ clause.col then .ok none
      else
        match s.params[slot]? >>= SetClause.nonNegative,
          clause.prog.instrs[2]? >>= clause.constOrParam s.params >>= SetClause.nonNegative,
          s.key with
        | some start, some len, some key =>
          match walk ⟨foldBit table, key, foldBit clause.col, start, len⟩ with
          | some (.at pos) => .ok (some (s.params.set slot (.int (.ofNat pos))))
          | _ => .error .writeConflict
        | _, _, _ => .ok none
    | _, _, _ => .ok none

/-- `rebase_splice`: a guarded session walks from its snapshot, or from that of the statement. A
session without a guard has none to walk from. -/
def OptRing.sessionWalk (ring : OptRing) (current : ℕ) (guard : Option Guard) (origin : Option ℕ)
    (cell : CellEdit) : Option RebaseOutcome :=
  guard.bind fun g => ring.optRebase cell (g.origin origin) current

/-- A call on a session: a plan with its parameters and the snapshot they were computed against, or
a step that does not pass through `exec_prepared`. -/
inductive SessionCall
  | exec (table : ℕ) (plan : List Value → SessionStmt) (params : List Value) (origin : Option ℕ)
  | other (step : SessionStep) (h : ∀ s, step ≠ .stmt s)

/-- What a call does. A statement that is refused has recorded nothing yet. -/
def SessionCall.steps (walk : Option ℕ → CellEdit → Option RebaseOutcome) :
    SessionCall → List SessionStep
  | .exec table plan params origin =>
    match (plan params).rebaseSpliceParams (walk origin) table with
    | .error _ => []
    | .ok moved => [.stmt (plan (moved.getD params))]
  | .other step _ => [step]

/-- The steps of a session that begins when `current` is the newest commit. -/
def sessionSteps (ring : OptRing) (current : ℕ) (guard : Option Guard) (calls : List SessionCall) :
    List SessionStep :=
  calls.flatMap (·.steps (ring.sessionWalk current guard))

end Mpedb
