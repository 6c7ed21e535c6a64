import Mpedb.Capture
import Mpedb.Dml
import Mpedb.KeyAccess
import Mpedb.Lib.Stem

/-!
# Change notifications

A commit publishes for every table it changed a fingerprint of the part of the key space where the
change lies. The part is named by the plans of the statements before they run: a byte prefix of the
keys that a point or a range can reach, folded over the statements of the transaction.
-/

namespace Mpedb

/-- FNV-1a over 64 bits. -/
def fnv (bytes : List UInt8) : UInt64 :=
  bytes.foldl (fun h b => (h ^^^ b.toUInt64) * 0x100000001b3) 0xcbf29ce484222325

/-- The length of a region, up to 255, above the low 56 bits of its hash; zero says nothing. -/
def keyFingerprint (region : Key) : UInt64 :=
  if region.isEmpty then 0
  else
    let len := min region.length 255
    UInt64.ofNat len <<< 56 ||| fnv (region.take len) &&& 0xffffffffffffff

/-- `fingerprint_matches`: whether a key may lie in the published region. -/
def fingerprintMatches (published : UInt64) (key : Key) : Bool :=
  if published = 0 then true
  else
    let len := (published >>> 56).toNat
    if key.length < len then true else keyFingerprint (key.take len) == published

/-- The encoded key of some parts, if they have values. -/
def resolveKeyBytes (params : List Value) (parts : List KeyPart) : Option Key :=
  match parts.mapM (resolvePart params) with
  | .ok vs => some (encodeKey vs)
  | .error _ => none

/-- What all keys that an access reaches start with. -/
def KeyAccess.region (params : List Value) : KeyAccess → Option Key
  | .point parts => resolveKeyBytes params parts
  | .range (some lo) (some hi) =>
    match resolveKeyBytes params lo.parts, resolveKeyBytes params hi.parts with
    | some l, some h => if (Stem.common l h).isEmpty then none else some (Stem.common l h)
    | _, _ => none
  | _ => none

/-- A statement with its access path. -/
inductive KeyedStmt
  | select (read : Read (List Row))
  | insert (table : ℕ) (rows : RowSource) (withCheck : Option Filter) (onConflict : OnConflict)
      (returning : Option (List Projection))
  | update (table : ℕ) (access : AccessPath) (residual : Residual) (set : List (ℕ × Expr))
      (withCheck : Option Filter) (returning : Option (List Projection))
  | delete (table : ℕ) (access : AccessPath) (residual : Residual)
      (returning : Option (List Projection))

/-- A plan with its access path; `params` are the conversions of the parameters to the types that
the plan wants, and the values of its subqueries. -/
structure KeyedPlan where
  stmt : KeyedStmt
  subplans : Bool := false
  params : Read (List Value) := fun _ params => (0, .ok params)

/-- What the statements of a notifying transaction read. -/
structure NotifyEnv extends Context where
  rules : WriteRules
  bridge : Value → ColumnType → Option Value
  isFts : ℕ → Bool := fun _ => false

namespace KeyedPlan

variable (env : NotifyEnv) (p : KeyedPlan)

/-- `tables_written` of the footprint. -/
def written : List ℕ :=
  match p.stmt with
  | .select _ => []
  | .insert id .. | .update id .. | .delete id .. => [id]

/-- The key of the one row of an INSERT whose key columns are parameters or constants. -/
def insertParts (st : SchemaTable) : RowSource → Option (List KeyPart)
  | .values [spec] => st.table.primaryKey.mapM fun c => match spec[c]? with
    | some (InsertSource.param i) => some (KeyPart.param i)
    | some (InsertSource.const v) => some (KeyPart.const v)
    | _ => none
  | _ => none

/-- `key_access` of the footprint. -/
def keyAccess : KeyAccess :=
  if p.subplans then .full
  else match p.stmt with
    | .select _ => .full
    | .insert id rows .. => match env.schema[id]?.bind (insertParts · rows) with
      | some parts => .point parts
      | none => .full
    | .update _ access .. | .delete _ access .. => access.keyAccess

/-- The plan that the executor runs. -/
def compiled : CompiledPlan where
  params := p.params
  stmt := match p.stmt with
    | .select read => .select read
    | .insert id rows withCheck onConflict returning =>
      .insert id rows withCheck onConflict returning
    | .update id access residual set withCheck returning =>
      .update id (gather id access residual) set
        withCheck returning
    | .delete id access residual returning => .delete id (gather id access residual) returning
where
  gather (id : ℕ) (access : AccessPath) (residual : Residual) : Read (List Key) :=
    match env.schema[id]? with
    | some st => access.gather env.bridge st id residual
    | none => fun _ _ => (0, .ok [])

/-- The region of keys that a plan writes, if it writes one table. -/
def region (params : List Value) : Option Key :=
  if p.written.length = 1 then (p.keyAccess env).region params else none

end KeyedPlan

/-- The regions hinted so far by table: `some none` for a table with a hint that names none. -/
abbrev NotifyKeys := ℕ → Option (Option Key)

/-- The region of two hints, `none` if they share nothing. -/
def joinRegions : Option Key → Option Key → Option Key
  | some have_, some add => if (Stem.common have_ add).isEmpty then none else some
      (Stem.common have_ add)
  | _, _ => none

/-- `hint_notify_key`: the region of a table is joined with another one. -/
def hintNotifyKey (keys : NotifyKeys) (id : ℕ) (region : Option Key) : NotifyKeys :=
  Function.update keys id (some (joinRegions ((keys id).getD region) region))

/-- The hint of a plan for every table it writes. -/
def hintNotifyKeys (env : NotifyEnv) (keys : NotifyKeys) (p : KeyedPlan) (params : List Value) :
    NotifyKeys :=
  p.written.foldl (fun keys id => hintNotifyKey keys id (p.region env params)) keys

/-- A write transaction: the state it began on, its own, the tables whose trees it has set, the
hints, and the states that its savepoints hold. -/
structure NotifyTxn where
  base : DbTxn
  txn : DbTxn
  mutated : List ℕ := []
  keys : NotifyKeys := fun _ => none
  savepoints : List DbTxn := []

/-- A step of a transaction. `marked` are tables whose trees it sets though their rows stay as they
are; savepoints are numbered from the outermost. -/
inductive NotifyStep
  | stmt (p : KeyedPlan) (params : List Value) (marked : List ℕ)
  /-- A statement that failed in a batch and was taken back. -/
  | undone (p : KeyedPlan) (params : List Value) (marked : List ℕ)
  /-- A call on rows without a plan: the row API, a streamed insert, an optimistic apply. -/
  | rowCall (id : ℕ) (call : RowCall) (marked : List ℕ)
  | dropTable (id : ℕ)
  | savepoint
  | release (n : ℕ)
  | rollbackTo (n : ℕ)
  | restart

/-- The tables whose rows differ. -/
def changedTables (c : Context) (s s' : DbTxn) : List ℕ :=
  (List.range c.schema.length).filter fun id => (s.tables id).pk.map ≠ (s'.tables id).pk.map

namespace NotifyTxn

variable (env : NotifyEnv) (x : NotifyTxn)

/-- A transaction that has done nothing. -/
def start (s : DbTxn) : NotifyTxn := { base := s, txn := s }

/-- The transaction goes on to `s` and marks the tables that changed. -/
def moveTo (s : DbTxn) (marked : List ℕ) : NotifyTxn :=
  { x with txn := s, mutated := x.mutated ++ changedTables env.toContext x.txn s ++ marked }

/-- A row call outside of a statement. -/
def callRow (id : ℕ) (call : RowCall) : DbTxn :=
  match env.schema[id]? with
  | some st => x.txn.setTable id (call.run st.handle (env.isFts id) (x.txn.tables id)).1
  | none => x.txn

/-- A step; `none` if it leaves a transaction that may not commit. -/
def step : NotifyStep → Option NotifyTxn
  | .stmt p params marked =>
    let x := { x with keys := hintNotifyKeys env x.keys p params }
    match execStmtTriggered env.toContext env.rules maxTriggerDepth [] (p.compiled env)
      params x.txn with
    | (s, .ok _) => some (x.moveTo env s marked)
    -- a session that saw a part of a failed statement applied is poisoned
    | (s, .error f) => if f.partialFlag then none else some (x.moveTo env s marked)
  | .undone p params marked => some
    { x with keys := hintNotifyKeys env x.keys p params, mutated := x.mutated ++ marked }
  | .rowCall id call marked => some (x.moveTo env (x.callRow env id call) marked)
  | .dropTable id => some
    { x with
      txn := x.txn.setTable id { x.txn.tables id with pk := {} }
      mutated := x.mutated.filter (· ≠ id) }
  | .savepoint => some { x with savepoints := x.savepoints ++ [x.txn] }
  | .release n => some { x with savepoints := x.savepoints.take n }
  | .rollbackTo n => match x.savepoints[n]? with
    | some s => some { x with txn := s, savepoints := x.savepoints.take (n + 1) }
    | none => some x
  -- the hints stay
  | .restart => some { x with txn := x.base, mutated := [], savepoints := [] }

/-- The steps of a transaction, none if one does not apply. -/
def run (steps : List NotifyStep) : Option NotifyTxn := steps.foldlM (step env) x

/-- What the commit publishes for a table: nothing, or the fingerprint of the region. -/
def published (id : ℕ) : Option UInt64 :=
  if id ∈ x.mutated then some ((((x.keys id).join).map keyFingerprint).getD 0) else none

end NotifyTxn

end Mpedb
