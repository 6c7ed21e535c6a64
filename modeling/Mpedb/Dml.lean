import Mpedb.ForeignKey

/-!
# Execution of statements

`execStmtTriggered` and the row loops of INSERT, UPDATE and DELETE. A failure carries the flag by
which the executor says whether the statement may have applied a part of its effects: it is false on
the exits that do not set it.
-/

namespace Mpedb

/-- How a statement fails: with the flag that it may have left changes behind. -/
structure Failure where
  partialFlag : Bool
  error : Error
  deriving DecidableEq

/-- A statement of a transaction. -/
abbrev Stmt := Fallible DbTxn Failure

/-- A call whose failure sets the flag to `flag`. -/
def flagged {α : Type} (flag : Bool) (m : TxnCall α) : Stmt α := m.mapFailure fun e => ⟨flag, e⟩

/-- An exit by `?`: the flag is not set. -/
def bare {α : Type} (m : TxnCall α) : Stmt α := flagged false m

/-- `MAX_TRIGGER_DEPTH`. -/
def maxTriggerDepth : ℕ := 32

/-- The errors that a conflict clause answers. -/
def Error.isUniqueness : Error → Bool
  | .primaryKeyViolation .. | .uniqueViolation .. => true
  | _ => false

/-- On a table with row-level security the violations of constraints look alike. -/
def hideConstraintVariant (e : Error) (table : String) (rls : Bool) : Error :=
  match rls, e with
  | true, .primaryKeyViolation .. | true, .uniqueViolation .. | true, .checkViolation .. =>
    .writeRejected table
  | _, _ => e

/-- The failure of a row call: it counts as partial if earlier rows were applied, or if the error is
not one of those that are raised before the first write. -/
def rowFailure (flag : Bool) (e : Error) (table : String) (rls : Bool) : Failure :=
  ⟨flag || !e.isConstraint, hideConstraintVariant e table rls⟩

/-- The error of a plan that does not fit its schema. -/
def internal (msg : String) : Error := .internal s!"validated plan out of bounds: {msg}"

/-- The values that a map takes from the images of the row. -/
def pick (new old : Option Row) (map : RowMap) : Except Error (List Value) :=
  map.mapM fun (side, i) =>
    match (match side with | .new => new | .old => old).bind (·[i]?) with
    | some v => .ok v
    | none => .error (internal "trigger NEW/OLD column out of row bounds")

/-- Whether the WHEN of a trigger or the WHERE of its RAISE holds. -/
def gateHolds (new old : Option Row) : Option (Filter × RowMap) → Except Error Bool
  | none => .ok true
  | some (f, map) => match pick new old map with
    | .error e => .error e
    | .ok params => f [] params

/-- Evaluates expressions for their errors. -/
def evalAll (params : List Value) : List Expr → Except Error Unit
  | [] => .ok ()
  | e :: es => match e [] params with
    | .error e => .error e
    | .ok _ => evalAll params es

/-- How a trigger runs a statement of its body. -/
abbrev Inner := CompiledPlan → List Value → TxnCall ExecResult

/-- The statements of a trigger body, one after the other. -/
def runStmts (run : Inner) (new old : Option Row) : List TriggerStmt → TxnCall FireOutcome
  | [] => return .proceed
  | .dml plan map :: stmts => do
    let params ← Fallible.lift (pick new old map)
    let _ ← run plan params
    runStmts run new old stmts
  | .raise kind msg gate :: stmts => do
    if ← Fallible.lift (gateHolds new old gate) then
      match kind with
      | .abort => Fallible.fail (.raise msg)
      | .ignore => return .skipRow
    else runStmts run new old stmts
  | .eval programs map :: stmts => do
    let params ← Fallible.lift (pick new old map)
    Fallible.lift (evalAll params programs)
    runStmts run new old stmts

/-- A procedural body, which sees the result of each statement it runs. -/
def runProc (run : Inner) : Proc → TxnCall Unit
  | .done result => Fallible.lift result
  | .call plan params next => do
    let r ← (run plan params).attempt
    runProc run (next r)

/-- Either kind of trigger body. -/
def runBody (run : Inner) (new old : Option Row) : TriggerBody → TxnCall FireOutcome
  | .sql stmts => runStmts run new old stmts
  | .proc args body => do
    let args ← Fallible.lift (args new old)
    runProc run (body args)
    return .proceed

variable (c : Context) (rules : WriteRules)

/-- `active` are the triggers whose bodies are running; `inner` runs a statement one level down with
the list it is given. -/
def fireEach (inner : List String → Inner) (active : List String) (new old : Option Row)
    (changed : List ℕ) : List CompiledTrigger → TxnCall FireOutcome
  | [] => return .proceed
  | trig :: trigs => do
    if (!trig.updateOf.isEmpty && !trig.updateOf.any changed.contains) ||
        (!rules.recursive && active.contains trig.name) then
      fireEach inner active new old changed trigs
    else if ← Fallible.lift (gateHolds new old trig.guard) then
      chargeWork c 1 s!"trigger \"{trig.name}\""
      match ← runBody (inner (trig.name :: active)) new old trig.body with
      | .skipRow => return .skipRow
      | .proceed => fireEach inner active new old changed trigs
    else fireEach inner active new old changed trigs

/-- `inner` is `none` at the last level. -/
def fireRowTriggers (inner : Option (List String → Inner)) (active : List String)
    (trigs : List CompiledTrigger) (new old : Option Row) (changed : List ℕ) :
    TxnCall FireOutcome :=
  if trigs.isEmpty then return .proceed
  else match inner with
    | none => Fallible.fail (.unsupported
        s!"trigger recursion too deep (> {maxTriggerDepth} levels)")
    | some inner => fireEach c rules inner active new old changed trigs

/-- One cell of a VALUES row. -/
def insertCell (st : SchemaTable) (params : List Value) (i : ℕ) : InsertSource → Except Error Value
  | .param p => match params[p]? with
    | some v => .ok v
    | none => .error (internal "insert param")
  | .const v => .ok v
  | .default =>
    if i < st.table.columns.length then st.defaultCell i c.now else .error (internal "insert col")
  | .expr program => program [] params

/-- `build_insert_row`. -/
def buildInsertRow (st : SchemaTable) (params : List Value) (spec : List InsertSource) :
    Except Error Row :=
  spec.zipIdx.mapM fun (src, i) => insertCell c st params i src

/-- A row of a source query laid out for the table. -/
def copyRow (st : SchemaTable) (colMap : List (Option ℕ)) (src : Row) : Except Error Row :=
  st.table.columns.zipIdx.mapM fun (cd, i) => match colMap[i]?.join with
    | some j => .ok (c.coerceInsert (src.col j) cd.ty)
    | none => st.defaultCell i c.now

/-- The rows that an INSERT proposes. -/
def builtRows (st : SchemaTable) (params : List Value) : RowSource → TxnCall (List Row)
  | .values rows => Fallible.lift (rows.mapM (buildInsertRow c st params))
  | .select read colMap => do
    let src ← read.run c params
    Fallible.lift (src.mapM (copyRow c st colMap))

/-- `project_row`: a row of RETURNING. -/
def projectRow (proj : List Projection) (row : Row) (params : List Value) : Except Error Row :=
  proj.mapM fun
    | .column i => match row[i]? with
      | some v => .ok v
      | none => .error (internal "RETURNING column out of row bounds")
    | .expr _ program => program row params
    | .setReturning _ => .error (internal "a set-returning RETURNING item reached the executor")

/-- The column names of RETURNING. -/
def projectionNames (proj : List Projection) (st : SchemaTable) : List String :=
  proj.map fun
    | .column i => (st.table.columns[i]?.map (·.name)).getD "?"
    | .expr name _ | .setReturning name => name

/-- What RETURNING gives for one row. -/
def returningRow (returning : Option (List Projection)) (row : Row) (params : List Value) :
    Except Error (List Row) :=
  match returning with
  | none => .ok []
  | some proj => (projectRow proj row params).map fun out => [out]

/-- The result of a statement that writes. -/
def execResult (st : SchemaTable) (returning : Option (List Projection)) (n : ℕ) (out : List Row) :
    ExecResult :=
  match returning with
  | some proj => .rows (projectionNames proj st) out
  | none => .affected n

/-- The SET of an UPDATE: all programs see `seen`. -/
def assign (seen : Row) (params : List Value) : List (ℕ × Expr) → Row → Except Error Row
  | [], row => .ok row
  | (i, program) :: set, row =>
    if i < row.length then match program seen params with
      | .error e => .error e
      | .ok v => assign seen params set (row.set i v)
    else .error (internal "SET column")

/-- The row-level security check of a new row. -/
def checkPolicy (st : SchemaTable) (withCheck : Option Filter) (row : Row) (params : List Value) :
    Except Error Unit :=
  match withCheck with
  | none => .ok ()
  | some f => match f row params with
    | .ok true => .ok ()
    | .ok false => .error (.policyViolation st.table.name)
    | .error e => .error e

/-- Foreign keys to be checked at commit. -/
def pushDeferred (held : List Deferred) : Stmt Unit :=
  Fallible.modify fun s => { s with deferred := s.deferred ++ held }

/-- The parent side of the foreign keys for one phase of a row's change. -/
def parentPhase (st : SchemaTable) (id : ℕ) (phase : Phase) (old : Row) (new : Option Row) :
    TxnCall (List Deferred) :=
  if rules.fks && hasIncoming c st.table.name then
    onParentChange c (maxFkDepth + 1) phase id old new
  else return []

/-- The foreign keys of a new row, if they are enforced. -/
def childCheck (id : ℕ) (row : Row) : TxnCall (List Deferred) :=
  if rules.fks && hasOutgoing c id then checkChild c id row else return []

/-- How far a row loop has come: the rows it has passed, those it has written, and the rows that
RETURNING gives. -/
structure Progress where
  applied : ℕ := 0
  written : ℕ := 0
  out : List Row := []

section

variable (inner : Option (List String → Inner)) (active : List String) (st : SchemaTable) (id : ℕ)
  (params : List Value)

/-- A NULL in the alias of the rowid becomes the next id, which generated columns may read. -/
def assignRowid (flag : Bool) (row : Row) : Stmt Row :=
  match st.rowidAliasCol with
  | none => return row
  | some rc => match row[rc]? with
    | some .null => do
      let next ← bare (nextRowid st id)
      flagged flag (Fallible.lift (st.table.generated (row.set rc (.int next))))
    | some (.int rowid) => do
      bare (noteRowid st id rowid)
      return row
    | _ => return row

/-- A proposed row with its affinities, generated columns and rowid. -/
def prepareRow (flag : Bool) (row : Row) : Stmt Row := do
  let row ← flagged flag (Fallible.lift (st.table.generated (st.table.storeAffinity row)))
  assignRowid st id flag row

/-- The primary keys of the rows with the values of `row` in a unique index. (The source reads a
key part that is an expression out of the bounds of the row, and panics.) -/
def uniqueVictims (t : TableTxn) (row : Row) : ℕ → List IndexDef → Except Error (List (List Value))
  | _, [] => .ok []
  | i, ix :: ixs =>
    let values := ix.columns.map row.col
    if !ix.unique || values.any Value.isNull then uniqueVictims t row (i + 1) ixs
    else match lookupIndex st t i values with
      | .error e => .error e
      | .ok existing => (uniqueVictims t row (i + 1) ixs).map ((existing.map st.pkOf).toList ++ ·)

/-- The primary keys of the rows that OR REPLACE removes. -/
def replaceVictims (t : TableTxn) (row : Row) : Except Error (List (List Value)) :=
  let pk := st.pkOf row
  let own := if pk.any Value.isNull then none
    else t.pk.map.lookup (encodeKeySpec pk st.table.pkSpecs)
  (uniqueVictims st t row 0 t.bundle).map ((own.map st.pkOf).toList ++ ·)

/-- Deletes a row that may be referenced, with the actions of its children. -/
def deleteReferenced (old : Row) (pk : List Value) : TxnCall (List Deferred) := do
  let held ← onParentChange c (maxFkDepth + 1) .guard id old none
  let _ ← onTable id fun t => deleteByPk st.handle t pk
  let held' ← onParentChange c (maxFkDepth + 1) .act id old none
  return held ++ held'

/-- The row to delete, where the foreign keys need it. -/
def referencedRow (pk : List Value) : TxnCall (Option Row) :=
  if rules.fks && hasIncoming c st.table.name then getByPk st id pk else return none

/-- Removes a row in the way of another one, once. -/
def removeVictim (deleted : List (List Value)) (pk : List Value) : Stmt (List (List Value)) := do
  if deleted.contains pk then return deleted
  else
    match ← bare (referencedRow c rules st id pk) with
    | some old =>
      let held ← flagged true (deleteReferenced c st id old pk)
      pushDeferred held
      return deleted ++ [pk]
    | none =>
      let _ ← bare (onTable id fun t => deleteByPk st.handle t pk)
      return deleted ++ [pk]

/-- Removes every row in the way. -/
def removeVictims (row : Row) : Stmt Unit := do
  let pks ← bare (Fallible.reading fun s => replaceVictims st (s.tables id) row)
  let _ ← pks.foldlM (removeVictim c rules st id) []

/-- OR REPLACE makes room for a row before its insert. -/
def makeRoom (onConflict : OnConflict) (row : Row) : Stmt Unit :=
  match onConflict with
  | .replace => removeVictims c rules st id row
  | .error | .doNothing | .doUpdate .. => return

/-- The row that a conflict clause updates. -/
def conflictRow (target : List ℕ) (probe : ConflictProbe) (row : Row) : TxnCall (Option Row) :=
  match probe with
  | .pk => getByPk st id (target.map row.col)
  | .index no => do
    match (← Fallible.reading fun s => .ok (s.tables id).bundle[no - 1]?) with
    | none => Fallible.fail (.internal "conflict probe index out of range")
    | some ix =>
      let values := ix.columns.map row.col
      if values.any Value.isNull then return none else getByIndex st id (no - 1) values

/-- DO UPDATE after the insert of `row` failed with `e`; the rows for RETURNING, or `none` if the
filter leaves the row alone. -/
def doUpdate (flag rls : Bool) (returning : Option (List Projection)) (target : List ℕ)
    (probe : ConflictProbe) (set : List (ℕ × Expr)) (filter : Option Filter)
    (e : Error) (row : Row) :
    Stmt (Option (List Row)) := do
  match ← bare (conflictRow st id target probe row) with
  | none => Fallible.fail (rowFailure flag e st.table.name rls)
  | some existing =>
    let both := existing ++ row
    if ← flagged flag (Fallible.lift (filter.elim (.ok true) fun f => f both params)) then
      let new ← bare (Fallible.lift (assign both params set existing))
      let new ← flagged flag (Fallible.lift (st.table.generated (st.table.storeAffinity new)))
      match ← (onTable id fun t => updateByPk st.handle t new).attempt with
      | .error e => Fallible.fail (rowFailure flag e st.table.name rls)
      | .ok _ => return some (← bare (Fallible.lift (returningRow returning new params)))
    else return none

/-- What a conflict clause makes of a row whose insert failed. -/
def onInsertError (flag rls : Bool) (onConflict : OnConflict) (returning : Option (List Projection))
    (p : Progress) (e : Error) (row : Row) : Stmt Progress :=
  if !e.isUniqueness then Fallible.fail (rowFailure flag e st.table.name rls)
  else match onConflict with
    | .error | .replace => Fallible.fail (rowFailure flag e st.table.name rls)
    | .doNothing => return p
    | .doUpdate target probe set filter => do
      match ← doUpdate st id params flag rls returning target probe set filter e row with
      | none => return p
      | some out => return { p with written := p.written + 1, out := p.out ++ out }

/-- `last_insert_rowid`. -/
def recordRowid (row : Row) : Stmt Unit :=
  match st.rowidAliasCol.bind (row[·]?) with
  | some (.int rowid) => Fallible.modify fun s => { s with lastInsertRowid := some rowid }
  | _ => return

/-- The row is inserted, or its conflict clause is followed. -/
def landRow (flag rls : Bool) (onConflict : OnConflict) (returning : Option (List Projection))
    (p : Progress) (row : Row) : Stmt Progress := do
  match ← (onTable id fun t => insertRow st.handle t row).attempt with
  | .ok () =>
    recordRowid st row
    let out ← bare (Fallible.lift (returningRow returning row params))
    let _ ← flagged true (fireRowTriggers c rules inner active (rules.afterInsert id) (some row)
      none [])
    return { p with written := p.written + 1, out := p.out ++ out }
  | .error e => onInsertError st id params flag rls onConflict returning p e row

/-- One row of an INSERT. -/
def insertStep (withCheck : Option Filter) (onConflict : OnConflict)
    (returning : Option (List Projection)) (p : Progress) (row : Row) : Stmt Progress := do
  let flag := decide (0 < p.applied)
  let p := { p with applied := p.applied + 1 }
  let row ← prepareRow st id flag row
  flagged flag (Fallible.lift (checkPolicy st withCheck row params))
  match ← flagged true (fireRowTriggers c rules inner active (rules.beforeInsert id) (some row)
    none []) with
  | .skipRow => return p
  | .proceed =>
    let held ← flagged flag (childCheck c rules id row)
    pushDeferred held
    makeRoom c rules st id onConflict row
    landRow c rules inner active st id params flag withCheck.isSome onConflict returning p row

/-- The row after SET. -/
def postImage (set : List (ℕ × Expr)) (old : Row) : Except Error Row :=
  match assign old params set old with
  | .error e => .error e
  | .ok new => st.table.generated (st.table.storeAffinity new)

/-- One row of an UPDATE. -/
def updateStep (set : List (ℕ × Expr)) (withCheck : Option Filter)
    (returning : Option (List Projection)) (p : Progress) (old : Row) : Stmt Progress := do
  let flag := decide (0 < p.written)
  let changed := set.map (·.1)
  let new ← flagged flag (Fallible.lift (postImage st params set old))
  flagged flag (Fallible.lift (checkPolicy st withCheck new params))
  match ← flagged true (fireRowTriggers c rules inner active (rules.beforeUpdate id) (some new)
    (some old) changed) with
  | .skipRow => return p
  | .proceed =>
    let held ← flagged flag (childCheck c rules id new)
    let held' ← flagged flag (parentPhase c rules st id .guard old (some new))
    match ← (onTable id fun t => updateByPk st.handle t new).attempt with
    | .error e => Fallible.fail (rowFailure flag e st.table.name withCheck.isSome)
    | .ok false => return p
    | .ok true =>
      let held'' ← flagged true (parentPhase c rules st id .act old (some new))
      pushDeferred (held ++ held' ++ held'')
      let out ← bare (Fallible.lift (returningRow returning new params))
      let _ ← flagged true (fireRowTriggers c rules inner active (rules.afterUpdate id) (some new)
        (some old) changed)
      return { p with written := p.written + 1, out := p.out ++ out }

/-- One row of a DELETE. -/
def deleteStep (returning : Option (List Projection)) (p : Progress) (old : Row) :
    Stmt Progress := do
  let flag := decide (0 < p.written)
  match keyOfRaw old st.table.primaryKey with
  | none => Fallible.fail ⟨flag, internal "PK column"⟩
  | some pk =>
    match ← flagged true (fireRowTriggers c rules inner active (rules.beforeDelete id) none
      (some old) []) with
    | .skipRow => return p
    | .proceed =>
      let held ← flagged flag (parentPhase c rules st id .guard old none)
      match ← (onTable id fun t => deleteByPk st.handle t pk).attempt with
      | .error e => Fallible.fail ⟨true, e⟩
      | .ok false => return p
      | .ok true =>
        let held' ← flagged true (parentPhase c rules st id .act old none)
        pushDeferred (held ++ held')
        let out ← bare (Fallible.lift (returningRow returning old params))
        let _ ← flagged true (fireRowTriggers c rules inner active (rules.afterDelete id) none
          (some old) [])
        return { p with written := p.written + 1, out := p.out ++ out }

/-- The table of a statement. -/
def tableDef (id : ℕ) : Except Error SchemaTable :=
  match c.schema[id]? with
  | some st => .ok st
  | none => .error (internal "table id out of range")

/-- The rows that an UPDATE or DELETE goes over, gathered before the first is written. -/
def gatherRows (id : ℕ) (access : Read (List Key)) (params : List Value) : TxnCall (List Row) := do
  let keys ← access.run c params
  Fallible.reading fun s => .ok (keys.filterMap (s.tables id).pk.map.lookup)

/-- `exec_stmt` once the parameters are known. -/
def execStmtRest (stmt : PlanStmt) : Stmt ExecResult :=
  match stmt with
  | .select read => return .rows [] (← bare (read.run c params))
  | .insert id rows withCheck onConflict returning => do
    let st ← bare (Fallible.lift (tableDef c id))
    let rows ← bare (builtRows c st params rows)
    let p ← rows.foldlM
      (insertStep c rules inner active st id params withCheck onConflict returning) {}
    return execResult st returning p.written p.out
  | .update id access set withCheck returning => do
    let st ← bare (Fallible.lift (tableDef c id))
    let rows ← bare (gatherRows c id access params)
    let p ← rows.foldlM (updateStep c rules inner active st id params set withCheck returning) {}
    return execResult st returning p.written p.out
  | .delete id access returning => do
    let st ← bare (Fallible.lift (tableDef c id))
    let rows ← bare (gatherRows c id access params)
    let p ← rows.foldlM (deleteStep c rules inner active st id params returning) {}
    return execResult st returning p.written p.out

end

/-- `levels` are the levels that triggers may still go down. -/
def execStmtTriggered : (levels : ℕ) → (active : List String) → CompiledPlan →
    List Value → Stmt ExecResult
  | 0, active, plan, params => do
    let params ← bare (plan.params.run c params)
    execStmtRest c rules none active params plan.stmt
  | levels + 1, active, plan, params => do
    let params ← bare (plan.params.run c params)
    execStmtRest c rules (some fun active plan params =>
      (execStmtTriggered levels active plan params).mapFailure (·.error)) active params plan.stmt

end Mpedb
