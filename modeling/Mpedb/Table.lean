import Mathlib.Logic.Function.Basic
import Mpedb.Keycode
import Mpedb.Lib.SortedMap

/-!
# Row calls of a write transaction

One table of a write transaction: the tree of its rows by primary key and one tree per secondary
index, each a finite map from key bytes with its entry count. A call returns its result together
with the state it leaves behind, also when it fails: what it had written before the error stays
written, unless the call takes it back itself. Expressions are their evaluation over a row.
-/

namespace Mpedb

/-- An encoded key. -/
abbrev Key := List UInt8

/-- An expression program, as its evaluation over a row without parameters. -/
abbrev Program := Row → Except Error Value

/-- The labels of an enum type. -/
structure PgEnum where
  name : String
  labels : List String

/-- A column of a table. -/
structure ColumnDef where
  name : String
  ty : ColumnType
  nullable : Bool
  collation : Collation
  affinity : Affinity
  convertsOnStore : Bool
  check : Option (String × Program)
  pgEnum : Option PgEnum

/-- A table. -/
structure TableDef where
  name : String
  columns : List ColumnDef
  primaryKey : List ℕ
  /-- `with_store_affinity`. -/
  storeAffinity : Row → Row
  /-- `with_generated`. -/
  generated : Row → Except Error Row

/-- Whether an index is complete. -/
inductive IndexState
  | ready | building
  deriving DecidableEq

/-- `IndexDef::columns[i]` of a key part that is an expression. -/
def indexExprCol : ℕ := 65535

/-- An index. -/
structure IndexDef where
  columns : List ℕ
  state : IndexState := .ready
  unique : Bool := false
  predicate : Option (String × Program) := none
  name : Option String := none
  /-- Empty, or parallel to `columns`. -/
  exprs : List (Option (String × Program)) := []
  collations : List (Option Collation) := []

/-- An index whose key cannot be compared column by column. -/
def IndexDef.exact (ix : IndexDef) : Bool := ix.predicate.isSome || !ix.exprs.isEmpty

/-- `MAX_KEY`. -/
def maxKey : ℕ := 976

/-- `MAX_INDEXES`. -/
def maxIndexes : ℕ := 32

/-- A tree and the count that the catalog keeps of it. -/
structure Tree (β : Type) where
  map : SortedMap Key β := .empty
  count : ℕ := 0
  deriving DecidableEq

/-- Whether an existing key is left alone or replaced. -/
inductive InsertMode
  | insertOnly | upsert
  deriving DecidableEq

/-- `btree::insert` of a value of `len` bytes: the tree afterwards, and whether the key was
there. -/
def btreeInsert {β : Type} (m : SortedMap Key β) (k : Key) (v : β) (len : ℕ) (mode : InsertMode) :
    Except Error (SortedMap Key β × Bool) :=
  if k.length > maxKey then
    .error (.unsupported s!"encoded key is {k.length} bytes (max {maxKey})")
  else if len > 2 ^ 32 - 1 then .error (.unsupported "value larger than 4 GiB")
  else match m.lookup k, mode with
    | some _, .insertOnly => .ok (m, true)
    | some _, .upsert => .ok (m.insert k v, true)
    | none, _ => .ok (m.insert k v, false)

/-- `btree::delete`: the tree afterwards, and whether the key was there. -/
def btreeDelete {β : Type} (m : SortedMap Key β) (k : Key) : SortedMap Key β × Bool :=
  (m.erase k, (m.lookup k).isSome)

/-- The handle a call runs on: the table, and the engine's settings that its row calls read. -/
structure Handle where
  table : TableDef
  tableId : ℕ := 0
  extentThreshold : Option ℕ := none
  externalExtents : Bool := false
  writeBlocked : Bool := false

/-- `bundle` are the indexes the transaction works with, `published` those in its catalog; `sec i`
is the root of index number `i + 1`. -/
structure TableTxn where
  bundle : List IndexDef
  published : List IndexDef
  pk : Tree Row
  sec : ℕ → Option (Tree Key)

/-- Replaces an index tree. -/
def TableTxn.setTree (t : TableTxn) (i : ℕ) (tree : Tree Key) : TableTxn :=
  { t with sec := Function.update t.sec i (some tree) }

/-- A cell of a row. -/
def Row.col (row : Row) (c : ℕ) : Value := row.getD c .null

/-- How the primary key is encoded. -/
def TableDef.pkSpecs (t : TableDef) : List KeySpec :=
  t.primaryKey.map fun c => match t.columns[c]? with
    | none => {}
    | some cd => .forColumn cd.ty cd.collation

/-- The primary key of a row. -/
def TableDef.pkKey (t : TableDef) (row : Row) : Key :=
  encodeKeySpec (t.primaryKey.map row.col) t.pkSpecs

/-- The primary key of a row once its generated columns are filled. -/
def Handle.rowKey (h : Handle) (values : Row) : Key :=
  match h.table.generated (h.table.storeAffinity values) with
  | .ok row => h.table.pkKey row
  | .error _ => []

/-- The specs of an index's key parts; an expression part has the default one. -/
def TableDef.indexSpecs (t : TableDef) (ix : IndexDef) : List KeySpec :=
  ix.columns.mapIdx fun k c => match t.columns[c]? with
    | none => {}
    | some cd => .forColumn cd.ty ((ix.collations[k]?.join).getD cd.collation)

/-- `index_predicate_admits`: whether a row belongs into the index. -/
def indexPredicateAdmits (pred : Option (String × Program)) (table : String) (row : Row) :
    Except Error Bool :=
  match pred with
  | none => .ok true
  | some (_, prog) => match prog row with
    | .error e => .error e
    | .ok (.bool b) => .ok b
    | .ok .null => .ok false
    | .ok v => .error (.typeMismatch
        s!"partial index predicate on `{table}` evaluated to {v.typeName}, expected bool")

/-- The key parts of an index with expressions, evaluated in order. (`columns` and `exprs` have the
same length, so the plain parts find their column.) -/
def exprParts (row : Row) : List ℕ → List (Option (String × Program)) → Except Error (List Value)
  | _, [] => .ok []
  | cols, none :: es => match exprParts row cols.tail es with
    | .error e => .error e
    | .ok vs => .ok ((cols.head?.elim .null row.col) :: vs)
  | cols, some (_, prog) :: es => match prog row with
    | .error e => .error e
    | .ok v => match exprParts row cols.tail es with
      | .error e => .error e
      | .ok vs => .ok (v :: vs)

/-- The values of a row's entry. -/
def keyParts (ix : IndexDef) (row : Row) : Except Error (List Value) :=
  if ix.exprs.isEmpty then .ok (ix.columns.map row.col) else exprParts row ix.columns ix.exprs

/-- `index_entry_key`: the entry of a row, none if the index does not have it. -/
def indexEntryKey (t : TableDef) (ix : IndexDef) (row : Row) (pkKey : Key) :
    Except Error (Option Key) :=
  match indexPredicateAdmits ix.predicate t.name row with
  | .error e => .error e
  | .ok false => .ok none
  | .ok true => match keyParts ix row with
    | .error e => .error e
    | .ok parts => .ok (indexRowKey ix.unique parts pkKey (t.indexSpecs ix))

/-- An enum column takes its labels only. -/
def checkEnum (v : Value) (c : ColumnDef) : Except Error Unit :=
  match c.pgEnum, v with
  | some e, .text label =>
    if e.labels.contains label then .ok ()
    else .error (.bind s!"invalid input value for enum {e.name}: {repr label}")
  | _, _ => .ok ()

/-- The type and the NULL of a cell. -/
def checkType (t : TableDef) (v : Value) (c : ColumnDef) : Except Error Unit :=
  if v.fits c.ty then
    if v.isNull && !c.nullable then .error (.notNullViolation t.name c.name) else .ok ()
  else
    let why := if c.convertsOnStore then s!" (sqlite's {c.affinity.name} affinity left it a " ++
      s!"{v.typeName}, which this column cannot hold)" else ""
    .error (.typeMismatch
      s!"column `{t.name}.{c.name}` is {c.ty.name}, value is {v.typeName}{why}")

/-- All cells of a row. -/
def checkColumns (t : TableDef) : List Value → List ColumnDef → Except Error Unit
  | v :: vs, c :: cs => match checkEnum v c with
    | .error e => .error e
    | .ok () => match checkType t v c with
      | .error e => .error e
      | .ok () => checkColumns t vs cs
  | _, _ => .ok ()

/-- The CHECKs of the columns. -/
def runChecks (t : TableDef) (values : Row) : List ColumnDef → Except Error Unit
  | [] => .ok ()
  | c :: cs => match c.check with
    | none => runChecks t values cs
    | some (src, prog) => match prog values with
      | .error e => .error e
      | .ok (.bool false) => .error (.checkViolation t.name c.name src)
      | .ok (.bool true) | .ok .null => runChecks t values cs
      | .ok v => .error (.typeMismatch s!"CHECK evaluated to {v.typeName}, expected bool")

/-- `validate_row`. -/
def validateRow (t : TableDef) (values : Row) : Except Error Unit :=
  if values.length ≠ t.columns.length then
    .error (.typeMismatch
      s!"table `{t.name}` has {t.columns.length} columns, row has {values.length}")
  else match checkColumns t values t.columns with
    | .error e => .error e
    | .ok () => runChecks t values t.columns

/-- The length of a value's part of the variable section of a row. -/
def Value.varLen : Value → ℕ
  | .text s | .numeric s => (utf8 s.toList).length
  | .blob b => b.length
  | _ => 0

/-- The bytes of a slot. -/
def fixedWidth : ColumnType → ℕ
  | .bool => 1
  | .any => 9
  | _ => 8

/-- `encoded_len`. -/
def encodedLen (values : Row) (columns : List ColumnDef) : ℕ :=
  (columns.length + 7) / 8 + (columns.map fun c => fixedWidth c.ty).sum +
    (values.map Value.varLen).sum

/-- `encode_row`, as far as it can fail on a valid row. -/
def encodeRow (values : Row) : Except Error Unit :=
  if values.any fun v => v.varLen > 2 ^ 32 - 1 then .error (.unsupported "value larger than 4 GiB")
  else .ok ()

/-- The name of a column in a message. -/
def tableColumnName (t : TableDef) (c : ℕ) : String :=
  match t.columns[c]? with
  | some cd => cd.name
  | none => if c = indexExprCol then "<expression>" else s!"col{c}"

/-- `index_constraint_name`. -/
def indexConstraintName (t : TableDef) (cols : List ℕ) : String :=
  ", ".intercalate (cols.map fun c => s!"{t.name}.{tableColumnName t c}")

/-- `pk_constraint_name`. -/
def pkConstraintName (t : TableDef) : String :=
  ", ".intercalate (t.primaryKey.filterMap fun c => t.columns[c]?.map fun cd =>
    s!"{t.name}.{cd.name}")

/-- The error of an index without its tree. -/
def missingTree (h : Handle) (i : ℕ) : Error :=
  .corrupt s!"missing catalog entry for table {h.tableId} index {i + 1}"

/-- The error of a unique index. -/
def uniqueError (h : Handle) (ix : IndexDef) : Error :=
  .uniqueViolation h.table.name (indexConstraintName h.table ix.columns)

/-- The probes of the unique indexes before a row is written as an extent. -/
def extentPrecheck (h : Handle) (t : TableTxn) (values : Row) :
    ℕ → List IndexDef → Except Error Unit
  | _, [] => .ok ()
  | i, ix :: ixs =>
    if !ix.unique then extentPrecheck h t values (i + 1) ixs
    else match indexEntryKey h.table ix values [] with
      | .error e => .error e
      | .ok none => extentPrecheck h t values (i + 1) ixs
      | .ok (some ikey) => match t.sec i with
        | none => .error (missingTree h i)
        | some tree =>
          if (tree.map.lookup ikey).isSome then .error (uniqueError h ix)
          else extentPrecheck h t values (i + 1) ixs

/-- Takes back a row and the entries of the indexes in `installed`, the latest first. -/
def undoPartialInsert (h : Handle) (key : Key) (values : Row) :
    List (IndexDef × ℕ) → TableTxn → TableTxn × Except Error Unit
  | [], t => match btreeDelete t.pk.map key with
    | (_, false) => (t, .error (.internal "undo_partial_insert: missing PK just installed"))
    | (m, true) => ({ t with pk := ⟨m, t.pk.count - 1⟩ }, .ok ())
  | (ix, i) :: rest, t => match indexEntryKey h.table ix values key with
    | .error e => (t, .error e)
    | .ok none => undoPartialInsert h key values rest t
    | .ok (some ikey) => match t.sec i with
      | none => (t, .error (missingTree h i))
      | some tree => match btreeDelete tree.map ikey with
        | (_, false) =>
          (t, .error (.internal "undo_partial_insert: missing secondary just installed"))
        | (m, true) => undoPartialInsert h key values rest (t.setTree i ⟨m, tree.count - 1⟩)

/-- The entries of a row that is already in the primary-key tree. A collision in a unique index
takes the row back, except on the extent path, where it was probed for before. -/
def insertEntries (h : Handle) (asExtent : Bool) (key : Key) (values : Row) :
    ℕ → List IndexDef → List (IndexDef × ℕ) → TableTxn → TableTxn × Except Error Unit
  | _, [], _, t => (t, .ok ())
  | i, ix :: ixs, installed, t => match indexEntryKey h.table ix values key with
    | .error e => (t, .error e)
    | .ok none => insertEntries h asExtent key values (i + 1) ixs installed t
    | .ok (some ikey) => match t.sec i with
      | none => (t, .error (missingTree h i))
      | some tree => match btreeInsert tree.map ikey key key.length .insertOnly with
        | .error e => (t, .error e)
        | .ok (_, true) =>
          if ix.unique && !asExtent then
            match undoPartialInsert h key values installed t with
            | (t', .error e) => (t', .error e)
            | (t', .ok ()) => (t', .error (uniqueError h ix))
          else (t, .error (.internal "secondary index collision within txn"))
        | .ok (m, false) => insertEntries h asExtent key values (i + 1) ixs ((ix, i) :: installed)
            (t.setTree i ⟨m, tree.count + 1⟩)

/-- The length of the payload that the primary-key tree is given. -/
def payloadLen (h : Handle) (asExtent : Bool) (len : ℕ) : ℕ :=
  if asExtent then if h.externalExtents then 24 else 20 else len

/-- The error of a value that needs too many pages. -/
def pagesError (h : Handle) (asExtent : Bool) (len : ℕ) : Option Error :=
  if asExtent && !h.externalExtents && (len + 4095) / 4096 > 2 ^ 32 - 1 then
    some (.unsupported "value too large for one extent")
  else none

/-- `insert_row`: checks first, then the primary key and every index. -/
def insertRow (h : Handle) (t : TableTxn) (values : Row) : TableTxn × Except Error Unit :=
  if h.writeBlocked then (t, .error (.frozen h.tableId))
  else match h.table.generated (h.table.storeAffinity values) with
    | .error e => (t, .error e)
    | .ok values => match validateRow h.table values with
      | .error e => (t, .error e)
      | .ok () => match encodeRow values with
        | .error e => (t, .error e)
        | .ok () =>
          let key := h.table.pkKey values
          let len := encodedLen values h.table.columns
          let asExtent := h.extentThreshold.any (· < len)
          match (if asExtent then extentPrecheck h t values 0 t.bundle else .ok ()) with
          | .error e => (t, .error e)
          | .ok () =>
            let exists_ := (.primaryKeyViolation h.table.name (pkConstraintName h.table) : Error)
            if asExtent && (t.pk.map.lookup key).isSome then (t, .error exists_)
            else match pagesError h asExtent len with
              | some e => (t, .error e)
              | none => match btreeInsert t.pk.map key values (payloadLen h asExtent len)
                  .insertOnly with
                | .error e => (t, .error e)
                | .ok (_, true) => (t, .error exists_)
                | .ok (m, false) => insertEntries h asExtent key values 0 t.bundle []
                    { t with pk := ⟨m, t.pk.count + 1⟩ }

/-- Runs `f` on the tree of each index in turn; `f` gives the tree afterwards, or `none` to leave it
alone. The trees before the one that fails stay changed. -/
def eachIndex (f : IndexDef → ℕ → Option (Tree Key) → Except Error (Option (Tree Key))) :
    ℕ → List IndexDef → TableTxn → TableTxn × Except Error Unit
  | _, [], t => (t, .ok ())
  | i, ix :: ixs, t => match f ix i (t.sec i) with
    | .error e => (t, .error e)
    | .ok none => eachIndex f (i + 1) ixs t
    | .ok (some tree) => eachIndex f (i + 1) ixs (t.setTree i tree)

/-- The index tree without the entry of a row. -/
def deleteEntry (h : Handle) (key : Key) (old : Row) (ix : IndexDef) (i : ℕ)
    (root : Option (Tree Key)) : Except Error (Option (Tree Key)) :=
  match indexEntryKey h.table ix old key with
  | .error e => .error e
  | .ok none => .ok none
  | .ok (some ikey) => match root with
    | none => .error (missingTree h i)
    | some tree => match btreeDelete tree.map ikey with
      | (_, false) =>
        if ix.state = .ready then .error (.corrupt "missing index entry on delete") else .ok none
      | (m, true) => .ok (some ⟨m, tree.count - 1⟩)

/-- `delete_by_pk`. -/
def deleteByPk (h : Handle) (t : TableTxn) (pkValues : List Value) : TableTxn × Except Error Bool :=
  if h.writeBlocked then (t, .error (.frozen h.tableId))
  else
    let key := encodeKeySpec pkValues h.table.pkSpecs
    match t.pk.map.lookup key with
    | none => (t, .ok false)
    | some old =>
      match eachIndex (deleteEntry h key old) 0 t.bundle
        { t with pk := ⟨t.pk.map.erase key, t.pk.count - 1⟩ } with
      | (t', .error e) => (t', .error e)
      | (t', .ok ()) => (t', .ok true)

/-- Whether two values have the same index key. -/
def indexValueEqual (a b : Value) (spec : KeySpec) : Bool :=
  match a.isNull, b.isNull with
  | true, true => true
  | true, false | false, true => false
  | false, false => encodeValueSpec a spec == encodeValueSpec b spec

/-- Whether a column of the index differs between two rows, as the index sees it. -/
def keyChanged (t : TableDef) (ix : IndexDef) (old new : Row) : Bool :=
  (ix.columns.zip (t.indexSpecs ix)).any fun (c, spec) => match old[c]?, new[c]? with
    | some o, some n => !indexValueEqual o n spec
    | _, _ => true

/-- Whether the row's own entry is already under `ikey`, asked of an index with `exact` only. -/
def ownEntry (h : Handle) (ix : IndexDef) (old : Row) (ikey : Key) : Except Error Bool :=
  if ix.exact then match indexEntryKey h.table ix old [] with
    | .error e => .error e
    | .ok okey => .ok (okey == some ikey)
  else .ok false

/-- The probes of the unique indexes whose key an update may move. -/
def updatePrecheck (h : Handle) (t : TableTxn) (old new : Row) :
    ℕ → List IndexDef → Except Error Unit
  | _, [] => .ok ()
  | i, ix :: ixs =>
    if !ix.unique || (!ix.exact && !keyChanged h.table ix old new) then
      updatePrecheck h t old new (i + 1) ixs
    else match indexEntryKey h.table ix new [] with
      | .error e => .error e
      | .ok none => updatePrecheck h t old new (i + 1) ixs
      | .ok (some ikey) => match ownEntry h ix old ikey with
        | .error e => .error e
        | .ok true => updatePrecheck h t old new (i + 1) ixs
        | .ok false => match t.sec i with
          | none => .error (missingTree h i)
          | some tree =>
            if (tree.map.lookup ikey).isSome then .error (uniqueError h ix)
            else updatePrecheck h t old new (i + 1) ixs

/-- The index tree without the old entry. -/
def dropOldEntry (ix : IndexDef) (tree : Tree Key) : Option Key → Except Error (Tree Key)
  | none => .ok tree
  | some okey => match btreeDelete tree.map okey with
    | (_, false) =>
      if ix.state = .ready then .error (.corrupt "missing index entry on update") else .ok tree
    | (m, true) => .ok ⟨m, tree.count - 1⟩

/-- The index tree with the new entry. -/
def addNewEntry (key : Key) (tree : Tree Key) : Option Key → Except Error (Tree Key)
  | none => .ok tree
  | some nkey => match btreeInsert tree.map nkey key key.length .insertOnly with
    | .error e => .error e
    | .ok (_, true) => .error (.internal "secondary index collision within txn")
    | .ok (m, false) => .ok ⟨m, tree.count + 1⟩

/-- What an UPDATE does to one index. -/
def updateEntry (h : Handle) (key : Key) (old new : Row) (ix : IndexDef) (i : ℕ)
    (root : Option (Tree Key)) : Except Error (Option (Tree Key)) :=
  if !ix.exact && !keyChanged h.table ix old new then .ok none
  else match indexEntryKey h.table ix old key with
    | .error e => .error e
    | .ok okey => match indexEntryKey h.table ix new key with
      | .error e => .error e
      | .ok nkey =>
        if okey = nkey then .ok none
        else match root with
          | none => .error (missingTree h i)
          | some tree => match dropOldEntry ix tree okey with
            | .error e => .error e
            | .ok tree => (addNewEntry key tree nkey).map some

/-- `update_by_pk`. -/
def updateByPk (h : Handle) (t : TableTxn) (newValues : Row) : TableTxn × Except Error Bool :=
  if h.writeBlocked then (t, .error (.frozen h.tableId))
  else match h.table.generated (h.table.storeAffinity newValues) with
    | .error e => (t, .error e)
    | .ok new => match validateRow h.table new with
      | .error e => (t, .error e)
      | .ok () =>
        let key := h.table.pkKey new
        match t.pk.map.lookup key with
        | none => (t, .ok false)
        | some old => match updatePrecheck h t old new 0 t.bundle with
          | .error e => (t, .error e)
          | .ok () => match encodeRow new with
            | .error e => (t, .error e)
            | .ok () =>
              let len := encodedLen new h.table.columns
              let asExtent := h.extentThreshold.any (· < len)
              match pagesError h asExtent len with
              | some e => (t, .error e)
              | none => match btreeInsert t.pk.map key new (payloadLen h asExtent len) .upsert with
                | .error e => (t, .error e)
                | .ok (m, _) =>
                  match eachIndex (updateEntry h key old new) 0 t.bundle
                    { t with pk := ⟨m, t.pk.count⟩ } with
                  | (t', .error e) => (t', .error e)
                  | (t', .ok ()) => (t', .ok true)

/-- What `Schema::validate` compares two indexes of a table by. -/
def IndexDef.shape (ix : IndexDef) : List ℕ × IndexState × Bool × Option String × Option String ×
    List (Option String) × List (Option Collation) :=
  (ix.columns, ix.state, ix.unique, ix.predicate.map (·.1), ix.name, ix.exprs.map (·.map (·.1)),
    ix.collations)

/-- Equality of identifiers. -/
def identEq (a b : String) : Bool := a.toList.map Char.toLower == b.toList.map Char.toLower

/-- `validate` of an index. -/
def validateIndex (t : TableDef) (ix : IndexDef) : Except Error Unit :=
  let cols := ix.columns.filter (· ≠ indexExprCol)
  let srcs := ix.exprs.filterMap (·.map (·.1))
  if ix.columns.isEmpty then .error (.schema s!"empty index column list in `{t.name}`")
  else if ¬ cols.Nodup then .error (.schema s!"duplicate column in an index on `{t.name}`")
  else if ¬ srcs.Nodup then .error (.schema s!"duplicate expression in an index on `{t.name}`")
  else match cols.find? (t.columns.length ≤ ·) with
    | some c => .error (.schema s!"index column ordinal {c} out of range in `{t.name}`")
    | none => .ok ()

/-- The list of indexes with `ix` added, if the schema stays valid. -/
def withAddedIndex (t : TableDef) (ixs : List IndexDef) (ix : IndexDef) :
    Except Error (List IndexDef) :=
  match ix.columns.find? (fun c => c ≠ indexExprCol && t.columns.length ≤ c) with
  | some c => .error (.schema s!"CREATE INDEX on `{t.name}`: column ordinal {c} out of range")
  | none =>
    if ixs.length + 1 > maxIndexes then
      .error (.schema s!"table `{t.name}` has {ixs.length + 1} indexes (max {maxIndexes})")
    else match validateIndex t ix with
      | .error e => .error e
      | .ok () =>
        if ixs.any fun ix' => ix'.shape == ix.shape then
          .error (.schema s!"duplicate index shape on `{t.name}`")
        else match (ixs.filterMap IndexDef.name).find? (fun a => ix.name.any (identEq a)) with
          | some a => .error (.schema s!"duplicate index name `{a}` on `{t.name}`")
          | none => .ok (ixs ++ [ix])

/-- The entries of an index over the rows of a table, in the order of their primary keys. -/
def collectEntries (h : Handle) (ix : IndexDef) : List (Key × Row) → Except Error (List (Key × Key))
  | [] => .ok []
  | (k, row) :: rest => match indexEntryKey h.table ix row k with
    | .error e => .error e
    | .ok okey => match collectEntries h ix rest with
      | .error e => .error e
      | .ok es => .ok (match okey with
        | none => es
        | some ikey => (ikey, k) :: es)

/-- The tree of a new index; only a unique one looks at whether the key was there. -/
def buildTree (h : Handle) (ix : IndexDef) : List (Key × Key) → Tree Key → Except Error (Tree Key)
  | [], tree => .ok tree
  | (ikey, pk) :: es, tree => match btreeInsert tree.map ikey pk pk.length .insertOnly with
    | .error e => .error e
    | .ok (m, existed) =>
      if ix.unique && existed then .error (uniqueError h ix)
      else buildTree h ix es ⟨m, tree.count + 1⟩

/-- `create_index`: the entries are collected and the tree is built. -/
def createIndex (h : Handle) (t : TableTxn) (ix : IndexDef) : TableTxn × Except Error Unit :=
  let ix := { ix with state := .ready }
  match withAddedIndex h.table t.bundle ix with
  | .error e => (t, .error e)
  | .ok ixs => match collectEntries h ix t.pk.map.entries with
    | .error e => (t, .error e)
    | .ok es => match buildTree h ix es {} with
      | .error e => (t, .error e)
      | .ok tree => ({ t.setTree t.bundle.length tree with published := ixs }, .ok ())

/-- Drops the index at `pos` and moves every later one of the bundle down by one. -/
def dropIndex (h : Handle) (t : TableTxn) (pos : ℕ) : TableTxn × Except Error Unit :=
  match t.bundle[pos]? with
  | none => (t, .error (.schema s!"table `{h.table.name}` has no index at position {pos}"))
  | some ix =>
    if ix.name.isNone then
      (t, .error
        (.schema (s!"the index on `{h.table.name}` was derived from a column flag and has " ++
        "no name — drop it by editing the declaration, not with DROP INDEX")))
    else match (List.range t.bundle.length).find? (fun i => pos ≤ i && (t.sec i).isNone) with
      | some i => (t, .error (missingTree h i))
      | none => ({ t with
          published := t.bundle.eraseIdx pos
          sec := fun i =>
            if i < pos then t.sec i
            else if i + 1 < t.bundle.length then t.sec (i + 1)
            else if i + 1 = t.bundle.length then none
            else t.sec i }, .ok ())

/-- `reload_bundle_from_catalog`: the transaction goes on with its own changes to the schema. -/
def reloadBundle (t : TableTxn) : TableTxn := { t with bundle := t.published }

/-- The calls on one table. -/
inductive Call
  | insertRow (values : Row)
  | updateByPk (values : Row)
  | deleteByPk (pkValues : List Value)
  | createIndex (ix : IndexDef)
  | dropIndex (pos : ℕ)
  | reloadBundle

/-- Runs a call. -/
def perform (h : Handle) (t : TableTxn) : Call → TableTxn × Except Error Unit
  | .insertRow values => insertRow h t values
  | .updateByPk values => let r := updateByPk h t values; (r.1, r.2.map fun _ => ())
  | .deleteByPk pkValues => let r := deleteByPk h t pkValues; (r.1, r.2.map fun _ => ())
  | .createIndex ix => createIndex h t ix
  | .dropIndex pos => dropIndex h t pos
  | .reloadBundle => (reloadBundle t, .ok ())

/-- `precheck_failure`: the errors after which a caller takes the transaction to be as before the
call, and goes on. -/
def Error.isConstraint : Error → Bool
  | .typeMismatch _ | .notNullViolation .. | .checkViolation .. | .uniqueViolation ..
  | .primaryKeyViolation .. => true
  | .schema _ | .corrupt _ | .bind _ | .arithmeticOverflow | .unsupported _ | .frozen _
  | .internal _ | .policyViolation _ | .writeRejected _ | .foreignKeyViolation ..
  | .runtimeBudget .. | .raise _ | .wrongParamCount .. | .divisionByZero | .dbFull => false

/-- A call of a sequence: the caller goes on after a success and after a constraint error. -/
def callStep (h : Handle) (t : TableTxn) (call : Call) : Option TableTxn :=
  match perform h t call with
  | (t', .ok ()) => some t'
  | (t', .error e) => if e.isConstraint then some t' else none

end Mpedb
