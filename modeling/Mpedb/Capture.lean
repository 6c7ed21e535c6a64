import Mpedb.BtreePage
import Mpedb.Compaction
import Mpedb.Table

/-!
# Change capture

A table that is captured has a dirty set in the catalog: one record for each primary key that was
touched, under a hash of the key, with the last operation, its transaction and the key. Every
mutator of rows writes its record at its own success point: the row calls, the streamed insert and
the blind operations of the optimistic path.
-/

namespace Mpedb

open Bytes

/-- Whether the last change of a row wrote or deleted it. -/
inductive DirtyOp
  | upsert | delete
  deriving DecidableEq

/-- The byte of an operation in a dirty entry. -/
def DirtyOp.tag : DirtyOp → UInt8
  | .upsert => 1
  | .delete => 2

/-- `from_tag`: any other byte is corruption. -/
def DirtyOp.fromTag (tag : UInt8) : Except Error DirtyOp :=
  if tag = 1 then .ok .upsert
  else if tag = 2 then .ok .delete
  else .error (.corrupt s!"bad cdc dirty op {tag}")

/-- What the log of changes holds for one row: its last change. -/
structure DirtyEntry where
  op : DirtyOp
  lastTxn : UInt64
  wallUs : Int64
  pkKeycode : Key
  deriving DecidableEq

namespace DirtyEntry

/-- `encode`: operation, transaction and clock, big-endian, then the key. -/
def encode (e : DirtyEntry) : List UInt8 :=
  e.op.tag :: (be 8 e.lastTxn.toNat ++ (be 8 e.wallUs.toUInt64.toNat ++ e.pkKeycode))

/-- `decode`, which refuses an entry that is too short or has a wrong operation. -/
def decode (bytes : List UInt8) : Except Error DirtyEntry := do
  if bytes.length < 17 then
    throw (.corrupt s!"cdc dirty entry is {bytes.length} bytes (need >= 17)")
  let op ← DirtyOp.fromTag (bytes.headD 0)
  return ⟨op, .ofNat (ofBe ((bytes.drop 1).take 8)),
    (UInt64.ofNat (ofBe ((bytes.drop 9).take 8))).toInt64, bytes.drop 17⟩

end DirtyEntry

/-- What a streamed column gets: the length its source declares, and the value the bytes spell, or
the error the source ends with. -/
structure BlobSource where
  len : ℕ
  value : Except Error Value

/-- The last column that holds a text or a blob. -/
def lastVarlen (values : Row) : Option ℕ :=
  (values.zipIdx.filterMap fun e => match e.1 with
    | .text _ | .blob _ => some e.2
    | _ => none).getLast?

/-- `encode_row_head_for_stream`: the streamed column must be the last one of variable length. -/
def encodeRowHeadForStream (values : Row) (streamCol streamLen : ℕ) : Except Error Unit := do
  if (lastVarlen values).any (streamCol < ·) then
    throw (.unsupported "the streamed column must be the last variable-length column in the row")
  encodeRow values
  if streamLen > 2 ^ 32 - 1 then throw (.unsupported "value larger than 4 GiB")

/-- A row whose column `streamCol` is pulled from `src`. It is refused where an index needs the
value, and it makes no dirty record. -/
def insertRowStreaming (h : Handle) (isFts : Bool) (t : TableTxn) (values : Row) (streamCol : ℕ)
    (src : BlobSource) : TableTxn × Except Error Unit :=
  if h.writeBlocked then (t, .error (.frozen h.tableId))
  else match h.table.generated (h.table.storeAffinity values) with
    | .error e => (t, .error e)
    | .ok values => match validateRow h.table values with
      | .error e => (t, .error e)
      | .ok () =>
        if isFts then (t, .error (.unsupported
          "streaming insert into an FTS table (tokenization needs the full text resident)"))
        else if !t.bundle.isEmpty then (t, .error (.unsupported
          "streaming insert into a table with a secondary UNIQUE index"))
        else
          let key := h.table.pkKey values
          match encodeRowHeadForStream values streamCol src.len with
          | .error e => (t, .error e)
          | .ok () =>
            let exists_ := (.primaryKeyViolation h.table.name (pkConstraintName h.table) : Error)
            let len := encodedLen values h.table.columns + src.len
            let asExtent := h.extentThreshold.any (· < len)
            if (t.pk.map.lookup key).isSome then (t, .error exists_)
            else if t.pk.map.entries.isEmpty && !asExtent && len ≤ Btree.maxInlineVal then
              -- the first cell of a tree is made from the pieces of the payload, and a stream has
              -- none: the cell lacks its bytes and cannot be read, which the empty row stands for
              match btreeInsert t.pk.map key [] len .insertOnly with
              | .error e => (t, .error e)
              | .ok (m, _) => ({ t with pk := ⟨m, t.pk.count + 1⟩ }, .ok ())
            else match pagesError h asExtent len, src.value with
              | some e, _ | none, .error e => (t, .error e)
              | none, .ok v =>
                match btreeInsert t.pk.map key (values.set streamCol v) (payloadLen h asExtent len)
                  .insertOnly with
                | .error e => (t, .error e)
                | .ok (_, true) => (t, .error exists_)
                | .ok (m, false) => ({ t with pk := ⟨m, t.pk.count + 1⟩ }, .ok ())

/-- A row by its key, without its indexes; a row of `len` bytes that was checked before. -/
def optimisticInsert (h : Handle) (t : TableTxn) (key : Key) (row : Row) (len : ℕ) :
    TableTxn × Except Error Bool :=
  if h.writeBlocked then (t, .error (.frozen h.tableId))
  else match btreeInsert t.pk.map key row len .insertOnly with
    | .error e => (t, .error e)
    | .ok (_, true) => (t, .ok false)
    | .ok (m, false) => ({ t with pk := ⟨m, t.pk.count + 1⟩ }, .ok true)

/-- `optimistic_upsert`: the row is stored under the key, whatever was there. -/
def optimisticUpsert (h : Handle) (t : TableTxn) (key : Key) (row : Row) (len : ℕ) :
    TableTxn × Except Error Unit :=
  if h.writeBlocked then (t, .error (.frozen h.tableId))
  else match btreeInsert t.pk.map key row len .upsert with
    | .error e => (t, .error e)
    | .ok (m, _) => ({ t with pk := ⟨m, t.pk.count⟩ }, .ok ())

/-- `optimistic_delete`: whether there was a row. -/
def optimisticDelete (h : Handle) (t : TableTxn) (key : Key) : TableTxn × Except Error Bool :=
  if h.writeBlocked then (t, .error (.frozen h.tableId))
  else match btreeDelete t.pk.map key with
    | (_, false) => (t, .ok false)
    | (m, true) => ({ t with pk := ⟨m, t.pk.count - 1⟩ }, .ok true)

/-- The calls of the engine that write one row. -/
inductive RowCall
  | insertRow (values : Row)
  | insertRowStreaming (values : Row) (streamCol : ℕ) (src : BlobSource)
  | updateByPk (values : Row)
  | deleteByPk (pkValues : List Value)
  | optimisticInsert (key : Key) (row : Row) (len : ℕ)
  | optimisticUpsert (key : Key) (row : Row) (len : ℕ)
  | optimisticDelete (key : Key)

/-- The primary key under which a call writes. -/
def RowCall.key (h : Handle) : RowCall → Key
  | .insertRow values | .insertRowStreaming values _ _ | .updateByPk values => h.rowKey values
  | .deleteByPk pkValues => encodeKeySpec pkValues h.table.pkSpecs
  | .optimisticInsert key _ _ | .optimisticUpsert key _ _ | .optimisticDelete key => key

/-- A call and the record it makes, if it makes one. -/
def RowCall.run (h : Handle) (isFts : Bool) (t : TableTxn) (c : RowCall) :
    TableTxn × Except Error (Option DirtyOp) :=
  match c with
  | .insertRow values => let r := Mpedb.insertRow h t values; (r.1, r.2.map fun _ => some .upsert)
  | .insertRowStreaming values streamCol src =>
    let r := Mpedb.insertRowStreaming h isFts t values streamCol src; (r.1, r.2.map fun _ => none)
  | .updateByPk values =>
    let r := Mpedb.updateByPk h t values;
      (r.1, r.2.map fun found => if found then some .upsert else none)
  | .deleteByPk pkValues =>
    let r := Mpedb.deleteByPk h t pkValues;
      (r.1, r.2.map fun found => if found then some .delete else none)
  | .optimisticInsert key row len =>
    let r := Mpedb.optimisticInsert h t key row len
    (r.1, r.2.map fun added => if added then some .upsert else none)
  | .optimisticUpsert key row len =>
    let r := Mpedb.optimisticUpsert h t key row len; (r.1, r.2.map fun _ => some .upsert)
  | .optimisticDelete key =>
    let r := Mpedb.optimisticDelete h t key
    (r.1, r.2.map fun found => if found then some .delete else none)

/-- What capture reads that does not change in a transaction. -/
structure CaptureEnv where
  table : ℕ → Handle
  isFts : ℕ → Bool
  captureEnabled : Bool
  /-- The transaction begun on; the one that commits is the next. -/
  txnId : UInt64
  xxh3 : Key → BitVec 128

/-- The tables by id, and the catalog. -/
structure CaptureTxn where
  tables : ℕ → TableTxn
  catalog : Catalog

namespace CaptureEnv

variable (env : CaptureEnv)

/-- The handle of a table, frozen where the configuration blocks it. -/
def handle (config : CaptureConfig) (id : ℕ) : Handle :=
  { env.table id with tableId := id, writeBlocked := config.blocked.contains id }

/-- The key of the dirty entry of a row. -/
def dirtyKey (id : ℕ) (key : Key) : Key := Mpedb.dirtyKey id (be 16 (env.xxh3 key).toNat)

/-- `capture_dirty`: notes the change of a row if its table is captured. -/
def captureDirty (config : CaptureConfig) (id : ℕ) (key : Key) (op : DirtyOp) (wallUs : Int64)
    (cat : Catalog) : Catalog :=
  if !env.captureEnabled then cat
  else if !config.captured.contains id then cat
  else cat.insert (sysKey (env.dirtyKey id key))
    (DirtyEntry.encode ⟨op, env.txnId + 1, wallUs, key⟩)

/-- One call on the table `id`, at the time `wallUs`. -/
structure Mutation where
  id : UInt32
  call : RowCall
  wallUs : Int64

/-- One write of a row: the configuration is read, the row is written and its change is noted. -/
def mutate (s : CaptureTxn) (m : Mutation) : CaptureTxn × Except Error Unit :=
  match captureConfig s.catalog with
  | .error e => (s, .error e)
  | .ok config =>
    let h := env.handle config m.id.toNat
    let r := m.call.run h (env.isFts m.id.toNat) (s.tables m.id.toNat)
    let tables := Function.update s.tables m.id.toNat r.1
    match r.2 with
    | .error e => (⟨tables, s.catalog⟩, .error e)
    | .ok none => (⟨tables, s.catalog⟩, .ok ())
    | .ok (some op) =>
      (⟨tables, env.captureDirty config m.id.toNat (m.call.key h) op m.wallUs s.catalog⟩, .ok ())

/-- The caller goes on after a success and after a constraint error. -/
def mutationStep (s : CaptureTxn) (m : Mutation) : Option CaptureTxn :=
  match env.mutate s m with
  | (s', .ok ()) => some s'
  | (s', .error e) => if e.isConstraint then some s' else none

/-- The writes of a transaction, up to a failed one that is not taken back. -/
def runMutations (s : CaptureTxn) (ms : List Mutation) : Option CaptureTxn :=
  ms.foldlM env.mutationStep s

end CaptureEnv

end Mpedb
