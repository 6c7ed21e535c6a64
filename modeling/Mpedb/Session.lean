import Mpedb.Footprint
import Mpedb.Value

/-!
# Write sessions and their footprints

Statements and direct row calls change rows, statements that run through `exec_prepared` also record
what their plan says they write (`ring_exec.rs`, `widen_guard`), and savepoints take back rows but
only some of the records. How a statement finds and computes its rows is a parameter (`run`), except
for the one shape that is published as a sub-edit, `SET col = splice(…)`.
-/

namespace Mpedb

/-- The rows by table and encoded key. -/
def Contents : Type := ℕ → List UInt8 → Option Row

/-- A row that is written or deleted. -/
structure RowWrite where
  table : ℕ
  key : List UInt8
  row : Option Row
  deriving DecidableEq

/-- The contents after a write. -/
def Contents.write (c : Contents) (w : RowWrite) : Contents := fun table key =>
  if table = w.table ∧ key = w.key then w.row else c table key

/-- The contents after some writes. -/
def Contents.writeAll (c : Contents) (ws : List RowWrite) : Contents := ws.foldl Contents.write c

/-- FNV-1a over the encoded key, with the low bit set. -/
def keyHash (key : List UInt8) : BitVec 64 :=
  key.foldl (fun h b => (h ^^^ (BitVec.ofNat 64 b.toNat)) * 0x100000001b3#64) 0xcbf29ce484222325#64
    ||| 1#64

/-- Instructions of an expression program without jumps; `call` of any other function is left to
the evaluation's parameter. -/
inductive Instr
  | pushCol (c : ℕ)
  | pushConst (k : ℕ)
  | pushParam (p : ℕ)
  | splice
  | call (f argc : ℕ)
  deriving DecidableEq

/-- A program carries its own constants; the constants of the plan are those of its key parts. -/
structure ExprProgram where
  instrs : List Instr
  consts : List Value

/-- The bytes of a text or a blob. -/
def Value.bytes : Value → Option (List UInt8)
  | .text s => some s.toByteArray.data.toList
  | .blob b => some b
  | _ => none

/-- The bytes of a cell. -/
def Contents.cell (c : Contents) (table : ℕ) (key : List UInt8) (col : ℕ) : Option (List UInt8) :=
  (c table key).bind fun row => row[col]?.bind Value.bytes

/-- The error of a splice outside of its value. -/
def spliceRangeError (start remove len : ℕ) : Error :=
  .typeMismatch s!"splice(): range {start}..{start + remove} is outside a value of {len} bytes"

/-- The bytes of a text around a replacement must be whole characters. -/
def spliceText (s : String) (start stop : ℕ) (ins : List UInt8) : Except Error Value :=
  if ¬ (String.Pos.Raw.mk start).isValid s then
    .error (.typeMismatch s!"splice(): at = {start} is inside a multi-byte character")
  else if ¬ (String.Pos.Raw.mk stop).isValid s then
    .error (.typeMismatch s!"splice(): at + remove = {stop} is inside a multi-byte character")
  else if String.fromUTF8? ⟨ins.toArray⟩ = none then
    .error (.typeMismatch "splice(): inserting non-UTF-8 bytes into text")
  else
    let base := s.toByteArray.data.toList
    match String.fromUTF8? ⟨(base.take start ++ ins ++ base.drop stop).toArray⟩ with
    | some t => .ok (.text t)
    | none => .error (.corrupt "splice(): produced invalid UTF-8 despite boundary checks")

/-- An integer argument of `splice`. -/
def spliceInt (v : Value) : Except Error ℤ :=
  match v with
  | .int x => .ok x.toInt
  | other => .error (.typeMismatch s!"splice() expects an integer, got {other.typeName}")

/-- `splice(x, at, remove, insert)`: strict about its range, NULL where an argument is. -/
def spliceValue (base start remove ins : Value) : Except Error Value := do
  if base.isNull || start.isNull || remove.isNull || ins.isNull then return .null
  let some b := base.bytes
    | .error (.typeMismatch
        s!"splice(): first argument must be text or blob, got {base.typeName}")
  let a ← spliceInt start
  let r ← spliceInt remove
  let some i := ins.bytes
    | .error (.typeMismatch s!"splice(): insert must be text or blob, got {ins.typeName}")
  if a < 0 ∨ r < 0 then
    .error (.typeMismatch s!"splice(): negative offset or length (at={a}, remove={r})")
  else if b.length < a.toNat + r.toNat then .error (spliceRangeError a.toNat r.toNat b.length)
  else match base with
    | .text s => spliceText s a.toNat (a.toNat + r.toNat) i
    | _ => .ok (.blob (b.take a.toNat ++ i ++ b.drop (a.toNat + r.toNat)))

section Eval

variable (callScalar : ℕ → List Value → Except Error Value)

/-- One instruction of a SET program. -/
def evalInstr (consts : List Value) (row : Row) (params : List Value) (stack : List Value) :
    Instr → Except Error (List Value)
  | .pushCol c => match row[c]? with
    | some v => .ok (v :: stack)
    | none => .error (.internal s!"column index {c} out of row bounds")
  | .pushConst k => match consts[k]? with
    | some v => .ok (v :: stack)
    | none => .error (.internal "constant index")
  | .pushParam p => match params[p]? with
    | some v => .ok (v :: stack)
    | none => .error (.bind "wrong parameter count")
  | .splice => match stack with
    | i :: r :: a :: b :: stack => (spliceValue b a r i).map (· :: stack)
    | _ => .error (.internal "stack underflow")
  | .call f argc =>
    (callScalar f (stack.take argc).reverse).map (· :: stack.drop argc)

/-- The value of a SET program. -/
def ExprProgram.eval (prog : ExprProgram) (row : Row) (params : List Value) : Except Error Value :=
  match prog.instrs.foldlM (evalInstr callScalar prog.consts row params) [] with
  | .ok (v :: _) => .ok v
  | .ok [] => .error (.internal "empty program")
  | .error e => .error e

/-- `UPDATE table SET col = prog` of the rows a statement selects. -/
def runUpdate (table : ℕ) (rows : Contents → List (List UInt8)) (col : ℕ) (prog : ExprProgram)
    (params : List Value) (c : Contents) : Except Error (List RowWrite) :=
  (rows c).filterMapM fun key => match c table key with
    | none => .ok none
    | some row => (prog.eval callScalar row params).map fun v =>
        some ⟨table, key, some (row.set col v)⟩

end Eval

/-- The one assignment of an UPDATE that has exactly one, with the constants of its plan. -/
structure SetClause where
  col : ℕ
  prog : ExprProgram
  planConsts : List Value

namespace SetClause

variable (s : SetClause) (params : List Value)

/-- The value an argument instruction stands for. Constants are looked up in the plan. -/
def constOrParam : Instr → Option Value
  | .pushConst k => s.planConsts[k]?
  | .pushParam p => params[p]?
  | _ => none

/-- An integer that is not negative. -/
def nonNegative : Value → Option ℕ
  | .int x => if 0 ≤ x.toInt then some x.toInt.toNat else none
  | _ => none

/-- Whether the program starts with the assigned column and ends with a call of `splice`. -/
def looksSpliced : Bool :=
  s.prog.instrs.head? = some (.pushCol s.col) && s.prog.instrs.getLast? = some .splice

/-- `plan_range`: the bytes of the value the statement rewrites. -/
def planRange : Option (ℕ × ℕ) := do
  guard s.looksSpliced
  let start ← s.prog.instrs[1]? >>= s.constOrParam params >>= nonNegative
  let remove ← s.prog.instrs[2]? >>= s.constOrParam params >>= nonNegative
  guard (start < 2 ^ 32 ∧ remove < 2 ^ 32 ∧ start + remove < 2 ^ 32)
  return (start, start + remove)

/-- `plan_delta`: how the statement changes the length of the value. -/
def planDelta : Option ℤ := do
  guard s.looksSpliced
  let remove ← s.prog.instrs[2]? >>= s.constOrParam params >>= nonNegative
  let ins ← s.prog.instrs[3]? >>= s.constOrParam params >>= Value.bytes
  return (ins.length : ℤ) - remove

end SetClause

/-- A statement of a session: what its plan names (`none` for what it cannot name) and what it
does. -/
structure SessionStmt where
  writes : Bool
  key : Option (BitVec 64)
  cols : Option (List ℕ)
  set : Option SetClause
  shard : Option (BitVec 64)
  params : List Value
  run : Contents → Except Error (List RowWrite)
  readOnly : writes = false → ∀ c ws, run c = .ok ws → ws = []

/-- The bytes that a statement edits, if it is a splice. -/
def SessionStmt.range (s : SessionStmt) : Option (ℕ × ℕ) := s.set.bind (·.planRange s.params)

/-- By how much a statement lets the text grow, if it is a splice. -/
def SessionStmt.delta (s : SessionStmt) : Option ℤ := s.set.bind (·.planDelta s.params)

namespace Written

/-- Notes the columns, or that they may be any. -/
def recordCols (w : Written) : Option (List ℕ) → Written
  | none => w.recordCol none
  | some cols => cols.foldl (fun w c => w.recordCol (some c)) w

/-- The written half of `widen_guard`. -/
def widen (w : Written) (s : SessionStmt) : Written :=
  if s.writes then
    let w := ((w.recordKey s.key).recordCols s.cols).recordRange s.range
    let w := match s.delta with
      | some d => w.recordDelta d
      | none => w
    w.recordShard s.shard
  else w

end Written

/-- What a full savepoint captures of the rows and of the records. -/
structure SessionSavepoint where
  contents : Contents
  tables : BitVec 64
  commitPoint : Option (ℕ × BitVec 64)

/-- A write session: contents, notes and savepoints. -/
structure SessionState where
  base : Contents
  contents : Contents
  written : Written
  savepoints : List SessionSavepoint

/-- One call on a transaction. `direct` stands for the row calls that do not pass through
`exec_prepared`: the typed row API, streaming inserts, statements run by a ring leader or by the
serial path, and the row rewrites of ALTER TABLE. Savepoints are numbered from the outermost. -/
inductive SessionStep
  | stmt (s : SessionStmt)
  | direct (run : Contents → Except Error (List RowWrite))
  | dropTable (table : ℕ)
  | savepoint
  | release (n : ℕ)
  | rollbackTo (n : ℕ)
  | restart

namespace SessionState

/-- A session that has done nothing. -/
def start (c : Contents) : SessionState := ⟨c, c, .fresh, []⟩

variable (st : SessionState)

/-- The rows of a successful call go through `set_tree_root` of their tables; a call that failed
has changed nothing. -/
def applyRows (r : Except Error (List RowWrite)) : SessionState :=
  match r with
  | .ok ws =>
    { st with contents := st.contents.writeAll ws
              written := ws.foldl (fun w x => w.markTable x.table) st.written }
  | .error _ => st

/-- One step of a session. -/
def step : SessionStep → SessionState
  | .stmt s => { st with written := st.written.widen s }.applyRows (s.run st.contents)
  | .direct run => st.applyRows (run st.contents)
  -- the tree is freed and unlinked without a `set_tree_root`
  | .dropTable table =>
    { st with contents := fun t key => if t = table then none else st.contents t key }
  | .savepoint =>
    { st with savepoints :=
        st.savepoints ++ [⟨st.contents, st.written.tables, st.written.commitPoint⟩] }
  | .release n =>
    if n < st.savepoints.length then { st with savepoints := st.savepoints.take n } else st
  | .rollbackTo n =>
    match st.savepoints[n]? with
    | none => st
    | some sp =>
      { st with contents := sp.contents
                written := { st.written with tables := sp.tables, commitPoint := sp.commitPoint }
                savepoints := st.savepoints.take (n + 1) }
  | .restart =>
    { st with contents := st.base
              written := { st.written with tables := 0, commitPoint := none }
              savepoints := [] }

/-- The steps of a session. -/
def run (steps : List SessionStep) : SessionState := steps.foldl step st

end SessionState

end Mpedb
