import Mpedb.Statement

/-!
# Foreign keys

The checks of a child row and what happens to the children of a parent row that goes away or changes
its key. A parent's change has two phases: the guard refuses before the row is touched and writes
nothing, the actions run after it.
-/

namespace Mpedb

/-- `MAX_FK_DEPTH`. -/
def maxFkDepth : ℕ := 64

/-- How the parent row of a key is found. -/
inductive ParentProbe
  | pk
  | index (i : ℕ)

/-- A foreign key with its parent table. -/
structure Resolved where
  parentId : ℕ
  parent : SchemaTable
  parentCols : List ℕ
  probe : ParentProbe

/-- Before a parent row changes, or after. -/
inductive Phase
  | guard | act
  deriving DecidableEq

variable (c : Context)

/-- A live table by its id. -/
def tableOf (id : ℕ) : Except Error SchemaTable :=
  match c.schema[id]? with
  | some st => if st.dead then .error (.internal s!"foreign key: unknown table id {id}") else .ok st
  | none => .error (.internal s!"foreign key: unknown table id {id}")

/-- Whether the table has foreign keys. -/
def hasOutgoing (id : ℕ) : Bool :=
  c.schema[id]?.any fun st => !st.dead && !st.foreignKeys.isEmpty

/-- The keys that point at the table `name`: the table of each, and its position there. -/
def incoming (name : String) : List (ℕ × ℕ) :=
  c.schema.zipIdx.flatMap fun (st, id) =>
    if st.dead then []
    else st.foreignKeys.zipIdx.filterMap fun (fk, i) =>
      if identEq fk.parent name then some (id, i) else none

/-- Whether foreign keys point to the table. -/
def hasIncoming (name : String) : Bool := !(incoming c name).isEmpty

/-- The columns of a parent key, `none` if one of the names is not a column. -/
def parentCols (fk : ForeignKeyDef) (parent : SchemaTable) : Option (List ℕ) :=
  if fk.parentColumns.isEmpty then some parent.table.primaryKey
  else fk.parentColumns.mapM fun n => parent.table.columns.findIdx? fun cd => identEq cd.name n

/-- The parent of a key in the live schema. The indexes of the parent are those the transaction
works with. -/
def resolve (s : DbTxn) (child : SchemaTable) (fk : ForeignKeyDef) : Except Error Resolved :=
  match c.schema.findIdx? fun st => !st.dead && identEq st.table.name fk.parent with
  | none => .error (.bind s!"no such table: main.{fk.parent}")
  | some parentId => match c.schema[parentId]? with
    | none => .error (.bind s!"no such table: main.{fk.parent}")
    | some parent =>
      let mismatch := Error.bind
        s!"foreign key mismatch - \"{child.table.name}\" referencing \"{parent.table.name}\""
      let enumOf (st : SchemaTable) (i : ℕ) := (st.table.columns[i]?.bind (·.pgEnum)).map (·.name)
      match parentCols fk parent with
      | none => .error mismatch
      | some cols =>
        if cols.length ≠ fk.columns.length ∨ cols.isEmpty then .error mismatch
        else if (fk.columns.zip cols).any fun (cc, pc) => enumOf child cc != enumOf parent pc then
          .error mismatch
        else if cols = parent.table.primaryKey then .ok ⟨parentId, parent, cols, .pk⟩
        else match (s.tables parentId).bundle.findIdx? fun ix =>
            ix.unique && ix.state = .ready && ix.predicate.isNone && ix.columns = cols with
          | none => .error mismatch
          | some i => .ok ⟨parentId, parent, cols, .index i⟩

/-- `key_of`: the values of a key, none if one of them is NULL. -/
def keyOf (row : Row) (cols : List ℕ) : Option (List Value) :=
  cols.mapM fun i => row[i]?.filter fun v => !v.isNull

/-- `key_of_raw`: the values of a key, NULL or not. -/
def keyOfRaw (row : Row) (cols : List ℕ) : Option (List Value) := cols.mapM fun i => row[i]?

/-- The error of a key without its row. -/
def violation (table : String) (fk : ForeignKeyDef) : Error := .foreignKeyViolation table fk.name

/-- The actions that refuse a change of a referenced key. -/
def FkAction.refuses : FkAction → Bool
  | .noAction | .restrict => true
  | .cascade | .setNull | .setDefault => false

/-- Whether the parent row is there. -/
def parentExists (r : Resolved) (key : List Value) : TxnCall Bool :=
  match r.probe with
  | .pk => return (← getByPk r.parent r.parentId key).isSome
  | .index i => return (← getByIndex r.parent r.parentId i key).isSome

/-- One foreign key of a new row: it holds, is held back to the commit, or fails. -/
def checkKey (id : ℕ) (st : SchemaTable) (row : Row) (held : List Deferred)
    (fk : ForeignKeyDef × ℕ) : TxnCall (List Deferred) := do
  match keyOf row fk.1.columns with
  | none => return held
  | some key =>
    let r ← Fallible.reading fun s => resolve c s st fk.1
    if ← parentExists r key then return held
    else if fk.1.deferred then return held ++ [⟨id, fk.2, key⟩]
    else Fallible.fail (violation st.table.name fk.1)

/-- `check_child`: all foreign keys of a new row. -/
def checkChild (id : ℕ) (row : Row) : TxnCall (List Deferred) := do
  let st ← Fallible.lift (tableOf c id)
  st.foreignKeys.zipIdx.foldlM (checkKey c id st row) []

/-- The child rows with a key, by primary key, by an index, or by a scan. -/
def childrenWithKey (id : ℕ) (child : SchemaTable) (cols : List ℕ) (key : List Value) :
    TxnCall (List Row) := do
  if child.table.primaryKey = cols then return (← getByPk child id key).toList
  let t ← Fallible.reading fun s => .ok (s.tables id)
  match t.bundle.findIdx? fun ix => ix.state = .ready && ix.predicate.isNone &&
    ix.columns = cols with
  | some i => scanByIndex c child id i key
  | none =>
    let rows ← scanRowsRaw c child id
    chargeWork c rows.length s!"unindexed foreign key sweep of \"{child.table.name}\""
    return rows.filter fun row => keyOf row cols == some key

/-- The child row after its key was set to follow `newKey`, to NULL or to the defaults. -/
def rekeyed (child : SchemaTable) (fk : ForeignKeyDef) (action : FkAction)
    (newKey : Option (List Value)) (victim : Row) : Row :=
  fk.columns.zipIdx.foldl (fun row (i, n) => row.set i (match action with
    | .cascade => (newKey.bind (·[n]?)).getD .null
    | .setNull => .null
    | .noAction | .restrict | .setDefault => child.defaultOf i)) victim

/-- A child row is itself the parent of others if its table is referenced. -/
def onChild (recurse : Phase → ℕ → Row → Option Row → TxnCall (List Deferred))
    (phase : Phase) (id : ℕ)
    (child : SchemaTable) (old : Row) (new : Option Row) : TxnCall (List Deferred) :=
  if hasIncoming c child.table.name then recurse phase id old new else return []

/-- What is done to one child row. `recurse` is `onParentChange` one level down. -/
def actOn (recurse : Phase → ℕ → Row → Option Row → TxnCall (List Deferred)) (id : ℕ)
    (child : SchemaTable) (fk : ForeignKeyDef) (action : FkAction) (deleted : Bool)
    (newKey : Option (List Value)) (held : List Deferred) (victim : Row) :
    TxnCall (List Deferred) := do
  chargeWork c 1 s!"foreign key cascade on \"{child.table.name}\""
  if action = .cascade ∧ deleted then
    let held₁ ← onChild c recurse .guard id child victim none
    let _ ← onTable id fun t => deleteByPk child.handle t (child.pkOf victim)
    let held₂ ← onChild c recurse .act id child victim none
    return held ++ held₁ ++ held₂
  else
    let updated := rekeyed child fk action newKey victim
    let held₁ ← onChild c recurse .guard id child victim (some updated)
    let _ ← onTable id fun t => updateByPk child.handle t updated
    let held₂ ← onChild c recurse .act id child victim (some updated)
    let held₃ ← checkChild c id updated
    return held ++ held₁ ++ held₂ ++ held₃

/-- One key that points at a row that goes away (`new` is `none`) or is rewritten. -/
def onReference (recurse : Phase → ℕ → Row → Option Row → TxnCall (List Deferred)) (phase : Phase)
    (old : Row) (new : Option Row) (held : List Deferred) (ref : ℕ × ℕ) :
    TxnCall (List Deferred) := do
  let child ← Fallible.lift (tableOf c ref.1)
  match child.foreignKeys[ref.2]? with
  | none => return held
  | some fk =>
    let r ← Fallible.reading fun s => resolve c s child fk
    match keyOf old r.parentCols with
    | none => return held
    | some oldKey =>
      let newKey := new.bind (keyOfRaw · r.parentCols)
      let action := if new.isNone then fk.onDelete else fk.onUpdate
      -- an update that leaves the key alone is no event, and each phase owns one class of actions
      if new.isSome ∧ newKey = some oldKey then return held
      else if action.refuses ≠ decide (phase = .guard) then return held
      else
        let victims ← childrenWithKey c ref.1 child fk.columns oldKey
        if victims.isEmpty then return held
        else if phase = .guard then
          if fk.deferred then return held ++ victims.map fun _ => ⟨ref.1, ref.2, oldKey⟩
          else Fallible.fail (violation child.table.name fk)
        else victims.foldlM (actOn c recurse ref.1 child fk action new.isNone newKey) held

/-- What is owed to the children of a row of table `id`; `levels` are the levels that a chain of
actions may still go down. -/
def onParentChange : (levels : ℕ) → Phase → (id : ℕ) → (old : Row) → (new : Option Row) →
    TxnCall (List Deferred)
  | 0, _, _, _, _ => Fallible.fail (.unsupported
      (s!"foreign key cascade nested deeper than {maxFkDepth} levels — " ++
        "the chain of ON DELETE/UPDATE actions does not terminate"))
  | levels + 1, phase, id, old, new => do
    let st ← Fallible.lift (tableOf c id)
    (incoming c st.table.name).foldlM (onReference c (onParentChange levels) phase old new) []

end Mpedb
