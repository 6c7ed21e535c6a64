import Mpedb.CommitHistory
import Mpedb.Guard
import Mpedb.Keycode
import Mathlib.Data.List.Sort
import Mathlib.Data.Prod.Lex

/-!
# Batches of sub-edits

`submit_batch` (`mpedb`, `collab.rs`) applies the pending splices of several editors in one guarded
transaction. A member is moved by the members applied before it, carried over the commits it has not
seen, and runs as `UPDATE table SET col = splice(col, $1, $2, $3) WHERE id = $4`. The table has the
key column `id` of type int64; its other constraints and its triggers are left out.
-/

namespace Mpedb

/-- An edit that a client submits: a splice of a text on the snapshot it has seen. -/
structure Submission where
  editor : Int64
  snap : ℕ
  seq : ℕ
  key : Int64
  offset : UInt64
  remove : UInt64
  insert : String
  deriving DecidableEq

namespace Submission

variable (s : Submission)

/-- The order of the counter, which the service hands out. -/
def rank : ℕ ×ₗ ℤ := toLex (s.seq, s.editor.toInt)

/-- `at.saturating_add(remove)`. -/
def stop : ℕ := min (s.offset.toNat + s.remove.toNat) (2 ^ 64 - 1)

/-- `insert.len() as i64 - remove as i64`. -/
def delta : ℤ := (s.insert.utf8ByteSize : ℤ) - s.remove.toInt64.toInt

/-- What the submission asks for, as a splice of the value its editor was shown. -/
def edit : Splice := ⟨s.offset.toNat, s.remove.toNat, s.insert.toByteArray.data.toList⟩

end Submission

/-- What a client is told about its edit. -/
inductive EditVerdict
  | committed
  | provisional (localTxn : ℕ)
  | lost (atTxn : ℕ)
  | deadlineExpired
  deriving DecidableEq

/-- A member that has been applied, in the coordinates it was submitted in. -/
structure Applied where
  start : ℕ
  stop : ℕ
  delta : ℤ

/-- A write session with its guard. -/
structure GuardedSession where
  guard : Guard
  state : SessionState

namespace GuardedSession

variable (ring : OptRing) (current table : ℕ) (g : GuardedSession)

/-- `exec_prepared` of a plan that is a statement for every list of parameters. A statement that
fails when it runs has widened the guard and the written footprint already. -/
def execPrepared (origin : Option ℕ) (plan : List Value → SessionStmt) (params : List Value) :
    GuardedSession × Except StmtError Unit :=
  match (plan params).rebaseSpliceParams (ring.sessionWalk current g.guard origin) table with
  | .error e => (g, .error e)
  | .ok moved =>
    let s := plan (moved.getD params)
    let guard := if moved.isSome then g.guard.markRebased else g.guard
    let next := ⟨guard.widen table s, g.state.step (.stmt s)⟩
    match s.run g.state.contents with
    | .ok _ => (next, .ok ())
    | .error e => (next, .error (.failed e))

end GuardedSession

/-- The commit of a guarded session, `none` for a `WriteConflict`. -/
def OptSystem.commitGuarded (sys : OptSystem) (g : GuardedSession) : Option OptSystem :=
  if sys.ring.optConflictSet g.guard.claim g.guard.snapTxn sys.current = .clear then some
    { ring := sys.ring.optRecord (sys.current + 1) g.state.written.footprint
      current := sys.current + 1
      contents := Function.update sys.contents (sys.current + 1) g.state.contents
      torn := false }
  else none

/-- The primary key of a block. -/
def blockKey (id : Int64) : List UInt8 := encodeKeySpec [.int id] [.forColumn .int64 .binary]

section Batch

variable (table col : ℕ)

/-- `splice(col, $1, $2, $3)`. -/
def spliceProgram : ExprProgram :=
  ⟨[.pushCol col, .pushParam 0, .pushParam 1, .pushParam 2, .splice], []⟩

/-- `UPDATE table SET col = splice(col, $1, $2, $3) WHERE id = $4`. -/
def writePlan (id : Int64) (params : List Value) : SessionStmt where
  writes := true
  key := some (keyHash (blockKey id))
  cols := some [col]
  set := some ⟨col, spliceProgram col, []⟩
  shard := none
  params := params
  run := runUpdate (fun _ _ => .error (.internal "no function")) table (fun _ => [blockKey id]) col
    (spliceProgram col) params
  readOnly h := nomatch h

/-- `SELECT col FROM table WHERE id = $1`, which is declared and never run. -/
def readPlan (id : Int64) : SessionStmt where
  writes := false
  key := some (keyHash (blockKey id))
  cols := some [col]
  set := none
  shard := none
  params := [.int id]
  run _ := .ok []
  readOnly _ _ _ h := by cases h; rfl

/-- The parameters of the UPDATE that writes an edit at `start`. -/
def Submission.params (s : Submission) (start : Int64) : List Value :=
  [.int start, .int s.remove.toInt64, .text s.insert, .int s.key]

/-- The session of a batch, with the reads and writes of all members declared. -/
def beginBatch (contents : Contents) (snap : ℕ) (subs : List Submission) : GuardedSession :=
  let reads := (Guard.fresh snap).declare table
    (readPlan col ((subs.head?.map (·.key)).getD 0))
  ⟨subs.foldl (fun g s => g.declare table (writePlan table col s.key (s.params s.offset.toInt64)))
    reads, .start contents⟩

/-- A batch on its way: the session, the edits applied, the verdicts so far. -/
structure BatchState where
  session : GuardedSession
  applied : List Applied
  out : List EditVerdict
  any : Bool

namespace BatchState

variable (ring : OptRing) (current : ℕ) (b : BatchState)

/-- The member `i` has lost. -/
def lose (i : ℕ) : BatchState := { b with out := b.out.set i (.lost current) }

/-- How far the edits applied before move the place of `s`. -/
def shift (s : Submission) : ℤ :=
  ((b.applied.filter fun a => a.stop ≤ s.offset.toNat).map (·.delta)).sum

/-- `(at as i64).checked_add(shift)`, if it is not negative. -/
def moved (s : Submission) : Option ℤ :=
  let v := s.offset.toInt64.toInt + b.shift s
  if -2 ^ 63 ≤ v ∧ v < 2 ^ 63 ∧ 0 ≤ v then some v else none

/-- One member of a batch: it loses if it meets an applied edit, or is moved and written. -/
def member (x : Submission × ℕ) : Except Error BatchState :=
  let s := x.1
  if b.applied.any fun a => a.start < s.stop && s.offset.toNat <
    a.stop then .ok (b.lose current x.2)
  else match b.moved s with
    | none => .ok (b.lose current x.2)
    | some start =>
      match b.session.execPrepared ring current table (some s.snap) (writePlan table col s.key)
        (s.params (.ofInt start)) with
      | (session, .ok ()) =>
        .ok { b with
          session := session
          applied := b.applied ++ [⟨s.offset.toNat, s.stop, s.delta⟩]
          any := true }
      | (session, .error .writeConflict) => .ok ({ b with session := session }.lose current x.2)
      | (session, .error (.failed (.typeMismatch _))) =>
        .ok ({ b with session := session }.lose current x.2)
      | (_, .error (.failed e)) => .error e

end BatchState

/-- The order in which a batch is applied. -/
def batchOrder (subs : List Submission) : List (Submission × ℕ) :=
  subs.zipIdx.insertionSort fun a b => a.1.rank ≤ b.1.rank

/-- What was called committed becomes `v`. -/
def regrade (v : EditVerdict) (out : List EditVerdict) : List EditVerdict :=
  out.map fun w => if w = .committed then v else w

/-- `replica` is the role whose commits need a confirmation. -/
def submitBatch (replica : Bool) (sys : OptSystem) (subs : List Submission) :
    Except Error (List EditVerdict) × OptSystem :=
  if subs = [] then (.ok [], sys)
  else
    let snap := (subs.map (·.snap)).min?.getD 0
    let start : BatchState :=
      ⟨beginBatch table col (sys.contents sys.current) snap subs, [],
        List.replicate subs.length .committed, false⟩
    match (batchOrder subs).foldlM (BatchState.member table col sys.ring sys.current) start with
    | .error e => (.error e, sys)
    | .ok b =>
      if !b.any then (.ok b.out, sys)
      else match sys.commitGuarded b.session with
        | some sys' =>
          (.ok (if replica then regrade (.provisional sys'.current) b.out else b.out), sys')
        | none => (.ok (regrade (.lost sys.current) b.out), sys)

end Batch

/-- The text of a block in the current commit. -/
def OptSystem.texts (sys : OptSystem) (table col : ℕ) (id : Int64) : Option (List UInt8) :=
  (sys.contents sys.current).cell table (blockKey id) col

/-- The texts by row, the splices applied to each so far, as they were applied, and the places of
the members that landed. -/
structure Merge where
  texts : Int64 → Option (List UInt8)
  applied : List (Int64 × Splice)
  landed : List ℕ

namespace Merge

/-- The splices applied to a block. -/
def on (m : Merge) (id : Int64) : List Splice :=
  (m.applied.filter fun a => a.1 = id).map (·.2)

variable (history : Submission → List Splice)

/-- A member is rebased through the commits on its cell since its snapshot and then through the
members applied to the same cell. -/
def member (m : Merge) (x : Submission × ℕ) : Merge :=
  match x.1.edit.rebaseThrough (history x.1 ++ m.on x.1.key), m.texts x.1.key with
  | .ok e, some text =>
    { texts := Function.update m.texts x.1.key (some (e.apply text))
      applied := m.applied ++ [(x.1.key, e)]
      landed := m.landed ++ [x.2] }
  | _, _ => m

/-- The edits in the order of the batch, each on what the ones before left. -/
def run (texts : Int64 → Option (List UInt8)) (order : List (Submission × ℕ)) : Merge :=
  order.foldl (member history) ⟨texts, [], []⟩

end Merge

end Mpedb
