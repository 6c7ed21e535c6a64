import Mathlib.Data.List.Lex
import Mpedb.Statement

/-!
# Key access

How a plan says which keys of a table a statement reaches, and how the executor turns that into
bytes. A point is looked up with the specs of the key columns. A range becomes a pair of raw bounds
in the plain encoding, after each value has been brought into the domain of its column.
-/

namespace Mpedb

/-- A bound on encoded keys, and whether it is inclusive. -/
abbrev RawBound := Key × Bool

/-- Whether a key is not below the lower bound. -/
def aboveLo (lo : Option RawBound) (key : Key) : Bool :=
  match lo with
  | none => true
  | some (k, inclusive) => if inclusive then k ≤ key else k < key

/-- Whether a key is not above the upper bound. -/
def belowHi (hi : Option RawBound) (key : Key) : Bool :=
  match hi with
  | none => true
  | some (k, inclusive) => if inclusive then key ≤ k else key < k

/-- A part of a key that a plan names, with the constants of the plan in place. -/
inductive KeyPart
  | param (i : ℕ)
  | const (v : Value)

/-- A bound of a range as the plan has it. -/
structure KeyBound where
  parts : List KeyPart
  inclusive : Bool

/-- The access to the primary keys of a table. -/
inductive KeyAccess
  | point (parts : List KeyPart)
  | range (lo hi : Option KeyBound)
  | full

/-- The value of a part of a key. -/
def resolvePart (params : List Value) : KeyPart → Except Error Value
  | .param i => match params[i]? with
    | some v => .ok v
    | none => .error (.internal "validated plan out of bounds: key param")
  | .const v => .ok v

/-- `encode_key`, without the collations and classes of the columns. -/
def encodeKey (vs : List Value) : Key := vs.flatMap encodeValue

/-- Above every key that starts with `vs` and below every larger one. -/
def prefixHi (vs : List Value) : Key := encodeKey vs ++ [0xff]

/-- A value in the domain of a column; `bridge` are the lossless conversions between types. -/
def toKeyDomain (bridge : Value → ColumnType → Option Value) (v : Value) (ty : ColumnType) :
    Option Value :=
  if v.fits ty then some v else bridge v ty

/-- The values of a bound bridged to the types of their columns; none if one cannot be. -/
def boundValues (bridge : Value → ColumnType → Option Value) (params : List Value) :
    List KeyPart → List ColumnType → Except Error (Option (List Value))
  | [], _ => .ok (some [])
  | part :: parts, tys => match resolvePart params part with
    | .error e => .error e
    | .ok v =>
      if v.isNull then .ok none
      else match tys.head?.elim (some v) (toKeyDomain bridge v) with
        | none => .ok none
        | some v => match boundValues bridge params parts tys.tail with
          | .error e => .error e
          | .ok vs => .ok (vs.map (v :: ·))

/-- The values of a bound, which must have parts. -/
def resolveBound (bridge : Value → ColumnType → Option Value) (params : List Value)
    (tys : List ColumnType) (b : KeyBound) : Except Error (Option (List Value)) :=
  if b.parts.isEmpty then .error (.internal "validated plan out of bounds: range bound")
  else boundValues bridge params b.parts tys

/-- One side of a range: `none` if the range is empty. -/
def rawSide (bridge : Value → ColumnType → Option Value) (params : List Value)
    (tys : List ColumnType) (raw : Bool → List Value → RawBound) :
    Option KeyBound → Except Error (Option (Option RawBound))
  | none => .ok (some none)
  | some b => match resolveBound bridge params tys b with
    | .error e => .error e
    | .ok vs => .ok (vs.map fun vs => some (raw b.inclusive vs))

/-- A lower bound on keys that begin with the values. -/
def rawLo (inclusive : Bool) (vs : List Value) : RawBound :=
  (if inclusive then encodeKey vs else prefixHi vs, true)

/-- An upper bound on keys that begin with the values. -/
def rawHi (inclusive : Bool) (vs : List Value) : RawBound :=
  (if inclusive then prefixHi vs else encodeKey vs, false)

/-- The raw bounds of a range over columns of the types `tys`; `none` if nothing can be in it. -/
def rangeBounds (bridge : Value → ColumnType → Option Value) (params : List Value)
    (tys : List ColumnType) (lo hi : Option KeyBound) :
    Except Error (Option (Option RawBound × Option RawBound)) :=
  match rawSide bridge params tys rawLo lo with
  | .error e => .error e
  | .ok none => .ok none
  | .ok (some lo) => match rawSide bridge params tys rawHi hi with
    | .error e => .error e
    | .ok none => .ok none
    | .ok (some hi) => .ok (some (lo, hi))

/-- How UPDATE and DELETE find their rows; `scan` stands for the paths that do not go by the
primary key: probes and ranges of an index, the full scan and the search of a text index. -/
inductive AccessPath
  | pkPoint (parts : List KeyPart)
  | pkRange (lo hi : Option KeyBound)
  | scan (read : Read (List Key))

/-- What a path says about the keys. -/
def AccessPath.keyAccess : AccessPath → KeyAccess
  | .pkPoint parts => .point parts
  | .pkRange lo hi => .range lo hi
  | .scan _ => .full

/-- The types of the primary key. -/
def SchemaTable.pkTypes (st : SchemaTable) : List ColumnType :=
  st.table.primaryKey.map fun c => (st.table.columns[c]?.map (·.ty)).getD .any

/-- The keys that a path reads. -/
def AccessPath.candidates (bridge : Value → ColumnType → Option Value) (st : SchemaTable) (id : ℕ) :
    AccessPath → Read (List Key)
  | .pkPoint parts => fun s params => match parts.mapM (resolvePart params) with
    | .error e => (0, .error e)
    | .ok vs =>
      let key := encodeKeySpec vs st.table.pkSpecs
      (1, .ok (if ((s.tables id).pk.map.lookup key).isSome then [key] else []))
  | .pkRange lo hi => fun s params => match rangeBounds bridge params st.pkTypes lo hi with
    | .error e => (0, .error e)
    | .ok none => (0, .ok [])
    | .ok (some (lo, hi)) =>
      let keys := ((s.tables id).pk.map.entries.map (·.1)).filter fun k =>
        aboveLo lo k && belowHi hi k
      (keys.length, .ok keys)
  | .scan read => read

/-- What is left of the WHERE, its subqueries included. -/
abbrev Residual := DbTxn → List Value → Row → Except Error Bool

/-- The keys that pass a filter, or its first error. -/
def keptKeys (keep : Key → Except Error Bool) : List Key → Except Error (List Key)
  | [] => .ok []
  | k :: ks => match keep k with
    | .error e => .error e
    | .ok b => match keptKeys keep ks with
      | .error e => .error e
      | .ok kept => .ok (if b then k :: kept else kept)

/-- `gather_rows` as the keys of the rows that are left. -/
def AccessPath.gather (bridge : Value → ColumnType → Option Value) (st : SchemaTable) (id : ℕ)
    (access : AccessPath) (residual : Residual) : Read (List Key) := fun s params =>
  match access.candidates bridge st id s params with
  | (n, .error e) => (n, .error e)
  | (n, .ok keys) => (n, keptKeys (fun k => match (s.tables id).pk.map.lookup k with
    | none => .ok false
    | some row => residual s params row) keys)

end Mpedb
