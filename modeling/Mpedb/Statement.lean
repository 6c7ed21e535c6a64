import Mpedb.Lib.Fallible
import Mpedb.Table

/-!
# Statements of a write transaction

The plans that a write transaction executes, the triggers and foreign keys they obey, and the calls
an execution makes on the tables. What a plan reads is a function of the transaction that also says
how many rows the read visits; a program is its evaluation over a row and the parameters.
-/

namespace Mpedb

/-- A compiled expression on a row and the parameters. -/
abbrev Expr := Row → List Value → Except Error Value

/-- `eval_filter`: whether an expression is exactly TRUE. -/
abbrev Filter := Row → List Value → Except Error Bool

/-- The actions of a foreign key. -/
inductive FkAction
  | noAction | restrict | cascade | setNull | setDefault
  deriving DecidableEq

/-- A foreign key of a table. -/
structure ForeignKeyDef where
  columns : List ℕ
  parent : String
  /-- Empty for the primary key of the parent. -/
  parentColumns : List String := []
  onDelete : FkAction := .noAction
  onUpdate : FkAction := .noAction
  deferred : Bool := false
  name : Option String := none

/-- A table of the schema. Affinity and generated columns overwrite cells of a row, and a column of
the primary key is never nullable. -/
structure SchemaTable where
  handle : Handle
  dead : Bool := false
  autoincrement : Bool := false
  foreignKeys : List ForeignKeyDef := []
  /-- The default of a column at the instant of a statement, NULL where there is none. -/
  defaultCell : ℕ → Int64 → Except Error Value := fun _ _ => .ok .null
  /-- The default of a column if it is a constant, and NULL otherwise. -/
  defaultOf : ℕ → Value := fun _ => .null
  affinity_length : ∀ row, (handle.table.storeAffinity row).length = row.length
  generated_length : ∀ row row', handle.table.generated row = .ok row' → row'.length = row.length
  pk_notNull : ∀ c ∈ handle.table.primaryKey, ∀ cd, handle.table.columns[c]? = some cd →
    cd.nullable = false

namespace SchemaTable

/-- The definition of the table. -/
def table (st : SchemaTable) : TableDef := st.handle.table

/-- The column that is an alias of the rowid: the only one of the primary key, an integer. -/
def rowidAliasCol (st : SchemaTable) : Option ℕ :=
  match st.table.primaryKey with
  | [c] => if st.table.columns[c]?.any (·.ty = .int64) then some c else none
  | _ => none

/-- The primary key of a row. -/
def pkOf (st : SchemaTable) (row : Row) : List Value := st.table.primaryKey.map row.col

end SchemaTable

/-- A violation of a deferred foreign key, held over to the commit. -/
structure Deferred where
  child : ℕ
  fkIndex : ℕ
  key : List Value
  deriving DecidableEq

/-- A transaction on the tables of a database. -/
structure DbTxn where
  tables : ℕ → TableTxn
  /-- The high-water of the ids of an AUTOINCREMENT table. -/
  rowidSeq : ℕ → Option Int64 := fun _ => none
  work : ℕ := 0
  deferred : List Deferred := []
  lastInsertRowid : Option Int64 := none

/-- What a statement's execution runs under. `coerceInsert` is the lossless conversion of a value
that INSERT ... SELECT copies into a column. -/
structure Context where
  schema : List SchemaTable
  workBudget : ℕ := 0
  now : Int64 := 0
  coerceInsert : Value → ColumnType → Value := fun v _ => v

/-- A call in a transaction. -/
abbrev TxnCall := Fallible DbTxn Error

/-- A read: the number of rows it visits, and what it finds. -/
abbrev Read (α : Type) := DbTxn → List Value → ℕ × Except Error α

/-- A column of RETURNING. -/
inductive Projection
  | column (i : ℕ)
  | expr (name : String) (program : Expr)
  | setReturning (name : String)

/-- A cell of a VALUES row. -/
inductive InsertSource
  | param (i : ℕ)
  | const (v : Value)
  | default
  | expr (program : Expr)

/-- Where an INSERT takes its rows from. -/
inductive RowSource
  | values (rows : List (List InsertSource))
  | select (read : Read (List Row)) (colMap : List (Option ℕ))

/-- How DO UPDATE finds its row. -/
inductive ConflictProbe
  | pk
  | index (no : ℕ)

/-- The conflict clauses. -/
inductive OnConflict
  | error
  | doNothing
  | replace
  | doUpdate (target : List ℕ) (probe : ConflictProbe) (set : List (ℕ × Expr))
      (filter : Option Filter)

/-- The statements. -/
inductive PlanStmt
  | select (read : Read (List Row))
  | insert (table : ℕ) (rows : RowSource) (withCheck : Option Filter) (onConflict : OnConflict)
      (returning : Option (List Projection))
  | update (table : ℕ) (access : Read (List Key)) (set : List (ℕ × Expr))
      (withCheck : Option Filter) (returning : Option (List Projection))
  | delete (table : ℕ) (access : Read (List Key)) (returning : Option (List Projection))

/-- A statement with what computes its parameters. -/
structure CompiledPlan where
  stmt : PlanStmt
  /-- The parameters as the plan wants them, with the values of its uncorrelated subqueries. -/
  params : Read (List Value) := fun _ params => (0, .ok params)

/-- What a statement answers. -/
inductive ExecResult
  | affected (n : ℕ)
  | rows (columns : List String) (rows : List Row)
  deriving DecidableEq

/-- NEW or OLD. -/
inductive RowSide
  | new | old
  deriving DecidableEq

/-- The columns that become the parameters of a trigger's statement. -/
abbrev RowMap := List (RowSide × ℕ)

/-- What RAISE does. -/
inductive TriggerRaise
  | abort | ignore

/-- A statement of a trigger body. -/
inductive TriggerStmt
  | dml (plan : CompiledPlan) (map : RowMap)
  | raise (kind : TriggerRaise) (msg : String) (gate : Option (Filter × RowMap))
  | eval (programs : List Expr) (map : RowMap)

/-- A stored procedure as the statements it runs one after the other, each chosen by the outcomes of
those before. -/
inductive Proc
  | done (result : Except Error Unit)
  | call (plan : CompiledPlan) (params : List Value) (next : Except Error ExecResult → Proc)

/-- The arguments of a procedure are computed from the images of the row. -/
inductive TriggerBody
  | sql (stmts : List TriggerStmt)
  | proc (args : Option Row → Option Row → Except Error (List Value)) (run : List Value → Proc)

/-- A trigger. -/
structure CompiledTrigger where
  name : String
  body : TriggerBody
  updateOf : List ℕ := []
  guard : Option (Filter × RowMap) := none

/-- Whether the row goes on after its triggers. -/
inductive FireOutcome
  | proceed | skipRow
  deriving DecidableEq

/-- Foreign keys are enforced if `fks` is set. -/
structure WriteRules where
  beforeInsert : ℕ → List CompiledTrigger := fun _ => []
  beforeUpdate : ℕ → List CompiledTrigger := fun _ => []
  beforeDelete : ℕ → List CompiledTrigger := fun _ => []
  afterInsert : ℕ → List CompiledTrigger := fun _ => []
  afterUpdate : ℕ → List CompiledTrigger := fun _ => []
  afterDelete : ℕ → List CompiledTrigger := fun _ => []
  recursive : Bool := false
  fks : Bool := false

/-- The transaction with another table. -/
def DbTxn.setTable (s : DbTxn) (id : ℕ) (t : TableTxn) : DbTxn :=
  { s with tables := Function.update s.tables id t }

/-- A call on one table. -/
def onTable {α : Type} (id : ℕ) (call : TableTxn → TableTxn × Except Error α) :
    TxnCall α := fun s =>
  let r := call (s.tables id)
  (s.setTable id r.1, r.2)

/-- Charges the work of `n` rows to the execution's budget; a budget of zero has no limit. -/
def chargeWork (c : Context) (n : ℕ) (which : String) : TxnCall Unit := fun s =>
  let used := s.work + n
  ({ s with work := used },
    if c.workBudget ≠ 0 ∧ used > c.workBudget then .error (.runtimeBudget c.workBudget used which)
    else .ok ())

/-- A read charges its work and fails on its own. -/
def Read.run {α : Type} (f : Read α) (c : Context) (params : List Value) : TxnCall α := do
  let r ← Fallible.reading fun s => .ok (f s params)
  chargeWork c r.1 "a read"
  Fallible.lift r.2

/-- `get_by_pk`. -/
def getByPk (st : SchemaTable) (id : ℕ) (pk : List Value) : TxnCall (Option Row) :=
  Fallible.reading fun s => .ok ((s.tables id).pk.map.lookup (encodeKeySpec pk st.table.pkSpecs))

/-- How the entries of an index are encoded. -/
def indexColl (st : SchemaTable) (t : TableTxn) (i : ℕ) : List KeySpec :=
  t.bundle[i]?.elim [] st.table.indexSpecs

/-- The error of an index entry without its row. -/
def danglingEntry : Error := .corrupt "index entry points at a missing row"

/-- The row of a unique index entry. -/
def lookupIndex (st : SchemaTable) (t : TableTxn) (i : ℕ) (values : List Value) :
    Except Error (Option Row) :=
  match t.sec i with
  | none => .error (missingTree st.handle i)
  | some tree => match tree.map.lookup (encodeKeySpec values (indexColl st t i)) with
    | none => .ok none
    | some pk => match t.pk.map.lookup pk with
      | none => .error danglingEntry
      | some row => .ok (some row)

/-- `get_by_index`. -/
def getByIndex (st : SchemaTable) (id i : ℕ) (values : List Value) : TxnCall (Option Row) :=
  Fallible.reading fun s => lookupIndex st (s.tables id) i values

/-- The primary-key bytes of the entries of an index whose key starts with `stem`, in order. -/
def indexEntries (tree : Tree Key) (stem : Key) : List Key :=
  (tree.map.entries.filter fun e => stem.isPrefixOf e.1).map (·.2)

/-- The rows of some primary keys. -/
def rowsOf (t : TableTxn) : List Key → Except Error (List Row)
  | [] => .ok []
  | pk :: pks => match t.pk.map.lookup pk with
    | none => .error danglingEntry
    | some row => match rowsOf t pks with
      | .error e => .error e
      | .ok rows => .ok (row :: rows)

/-- `scan_by_index`: the rows whose index values are these. -/
def scanByIndex (c : Context) (st : SchemaTable) (id i : ℕ) (values : List Value) :
    TxnCall (List Row) := do
  if values.any Value.isNull then return []
  let t ← Fallible.reading fun s => .ok (s.tables id)
  if t.bundle[i]?.any fun ix => ix.unique && ix.columns.length = values.length then
    return (← getByIndex st id i values).toList
  match t.sec i with
  | none => Fallible.fail (missingTree st.handle i)
  | some tree =>
    let pks := indexEntries tree (encodeKeySpec values (indexColl st t i))
    chargeWork c pks.length st.table.name
    Fallible.lift (rowsOf t pks)

/-- `scan_rows_raw`: all rows. -/
def scanRowsRaw (c : Context) (st : SchemaTable) (id : ℕ) : TxnCall (List Row) := do
  let t ← Fallible.reading fun s => .ok (s.tables id)
  chargeWork c t.pk.map.entries.length st.table.name
  return t.pk.map.entries.map (·.2)

/-- `decode_key` of a key with one integer column. -/
def decodeIntKey : Key → Option Value
  | [0x00] => some .null
  | 0x01 :: bytes =>
    if bytes.length = 8 then
      let n := bytes.foldl (fun acc b => acc * 256 + b.toNat) 0
      some (.int (UInt64.ofNat n ^^^ 0x8000000000000000).toInt64)
    else none
  | _ => none

/-- The next integer, or the largest one. -/
def saturatingSucc (x : Int64) : Int64 := if x = Int64.maxValue then x else x + 1

/-- The largest rowid of the tree. -/
def maxRowid (t : TableTxn) : Except Error Int64 :=
  match t.pk.map.entries.getLast? with
  | none => .ok 0
  | some (key, _) => match decodeIntKey key with
    | none => .error (.corrupt "trailing bytes in key")
    | some (.int m) => .ok m
    | some _ => .error (.internal "rowid-alias primary key is not an integer")

/-- `next_rowid`: AUTOINCREMENT never gives an id twice. -/
def nextRowid (st : SchemaTable) (id : ℕ) : TxnCall Int64 := do
  let fromTree ← Fallible.reading fun s => maxRowid (s.tables id)
  if !st.autoincrement then return saturatingSucc fromTree
  let stored ← Fallible.reading fun s => .ok ((s.rowidSeq id).getD 0)
  let next := saturatingSucc (max stored fromTree)
  Fallible.modify fun s => { s with rowidSeq := Function.update s.rowidSeq id (some next) }
  return next

/-- `note_rowid`: an id that was given by hand counts too. -/
def noteRowid (st : SchemaTable) (id : ℕ) (rowid : Int64) : TxnCall Unit := do
  if st.autoincrement then
    Fallible.modify fun s =>
      { s with rowidSeq :=
        Function.update s.rowidSeq id (some (max ((s.rowidSeq id).getD 0) rowid)) }

end Mpedb
