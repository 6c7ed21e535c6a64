import Mpedb.Lib.Transition
import Mpedb.Pages

/-!
# Commits through the log: `durability = wal` and `durability = async`

A commit writes one record, the images of the pages it wrote and the new meta, to the log and then
stores the meta into the mapping; `wal` syncs the log in between, `async` leaves that to a flusher.
Extent pages are in no record, they are synced before it is written. A checkpoint syncs the mapping
and moves the start of the log up to its end.

An offset counts the records below it. The checksum of a record is bound to its offset, so a record
written over a longer or shorter one makes what follows unreadable. At a power loss unsynced pages
may hold anything, an unsynced meta may be torn, and any end of the unsynced log may be missing.
-/

namespace Mpedb.Wal

variable {V : Type*}

/-- The modes with a log: synced with every commit, or later. -/
inductive Durability
  | wal
  | async
  deriving DecidableEq, Repr

/-- A transaction as its commit publishes it. The record carries the pages of `dirty`; `extents` are
the extent pages the transaction wrote, and `runs` the extent pages its trees reach. -/
structure Commit (V : Type*) extends Published V where
  dirty : List ℕ
  extents : List ℕ
  runs : List ℕ

/-- A record of the log. -/
structure Rec (V : Type*) where
  txnId : ℕ
  pages : List (ℕ × V)
  catalogRoot : ℕ
  freelistRoot : ℕ
  highWater : ℕ
  extentMapRoot : ℕ

/-- The record of a commit. -/
def Commit.record (c : Commit V) : Rec V :=
  { txnId := c.snap.txnId
    pages := c.dirty.map fun p => (p, c.image p)
    catalogRoot := c.snap.catalogRoot
    freelistRoot := c.snap.freelistRoot
    highWater := c.snap.highWater
    extentMapRoot := c.snap.extentMapRoot }

/-- The meta that replaying a record gives. -/
def Rec.snap (r : Rec V) : MetaSnapshot :=
  { txnId := r.txnId
    catalogRoot := r.catalogRoot
    freelistRoot := r.freelistRoot
    highWater := r.highWater
    extentMapRoot := r.extentMapRoot
    schemaGen := 0 }

/-- How far the commit, and the checkpoint after it, have come. A checkpoint carries its target. -/
inductive Stage (V : Type*)
  | working
  | planned (c : Commit V)
  | extentsSynced (c : Commit V)
  | written (c : Commit V)
  | logSynced (c : Commit V)
  | lenStored (c : Commit V)
  | bodyStored (c : Commit V)
  | flipped (c : Commit V)
  | acked
  | ckptSynced (target : ℕ)
  | ckptLen (target : ℕ)
  | ckptStored (target : ℕ)
  | ckptDurable (target : ℕ)

/-- The holder of the writer lock. `slot` is where the meta it started from is, `live` are the pages
that meta's trees reach and `runs` the extent pages among them. -/
structure Writer (V : Type*) where
  base : MetaSnapshot
  slot : Bool
  live : List ℕ
  runs : List ℕ
  txn : Txn
  stage : Stage V

/-- The writer lock of the file. -/
inductive Lock (V : Type*)
  | free
  | orphaned
  | held (x : Writer V)

/-- The positions that the lock page keeps. -/
structure LockArea where
  walCkpt : ℕ
  walLen : ℕ
  deriving DecidableEq, Repr

/-- The records below `synced` are durable; those above may be. `flushes` are the ends of the log
that flushers have synced and not yet published. `hist n` is transaction `n` as the last record with
that number has it, up to number `top`, and `shift` more than an offset is the number of the last
transaction below it. `acked` is the newest transaction that was acknowledged as durable: its commit
returned (`wal`), or a flush or checkpoint that covers it was completed (`async`). -/
structure Store (V : Type*) where
  dataStart : ℕ
  mem : ℕ → V
  disk : ℕ → V
  memMeta : MetaSlots
  diskMeta : MetaSlots
  memLock : LockArea
  diskLock : LockArea
  walAppended : ℕ
  durableTxn : ℕ
  log : ℕ → Option (Rec V)
  logEnd : ℕ
  synced : ℕ
  flushes : List ℕ
  hist : ℕ → Commit V
  top : ℕ
  shift : ℕ
  acked : ℕ

/-- The store with its lock. -/
structure World (V : Type*) extends Store V where
  lock : Lock V

/-- What the processes, the crash and the scheduler can do. -/
inductive Label (V : Type*)
  | begin
  | refill (bound : ℕ)
  | alloc (p : ℕ)
  | allocRun (p : ℕ)
  | store (p : ℕ) (v : V)
  | free (p : ℕ)
  | freeExtent (p : ℕ)
  | enterFreelistOp
  | plan (q : Plan)
  | abort
  | syncExtents
  | writeRecord (aligned : Bool)
  | syncLog
  | storeLen
  | storeBody
  | storeChecksum
  | ack
  | ckptSync
  | ckptLen
  | ckptStore
  | ckptSyncLock
  | punch
  | unlock
  | die
  | flushSync (appended : ℕ)
  | flushDone (appended : ℕ)
  | writeback (p : ℕ)
  | writebackMeta (s : Bool)
  | writebackLock
  | powerLoss (garbage : ℕ → Option V) (torn : Bool → Bool) (keep : ℕ)

/-- The meta of a new file. -/
def genesis (dataStart : ℕ) : MetaSnapshot := ⟨0, 0, 0, dataStart, 0, 0⟩

/-- A new file. -/
def World.init (mem : ℕ → V) (dataStart : ℕ) : World V :=
  { dataStart := dataStart
    mem := mem
    disk := mem
    memMeta := fun _ => some (genesis dataStart)
    diskMeta := fun _ => some (genesis dataStart)
    memLock := ⟨0, 0⟩
    diskLock := ⟨0, 0⟩
    walAppended := 0
    durableTxn := 0
    log := fun _ => none
    logEnd := 0
    synced := 0
    flushes := []
    lock := .free
    hist := fun _ => ⟨⟨genesis dataStart, [], mem⟩, [], [], []⟩
    top := 0
    shift := 0
    acked := 0 }

/-- A record written at an offset; `aligned` if it has the length of the one it replaces. -/
def writeAt (log : ℕ → Option (Rec V)) (off : ℕ) (r : Rec V) (aligned : Bool) :
    ℕ → Option (Rec V) := fun i =>
  if i < off then log i else if i = off then some r else if aligned then log i else none

/-- The records that recovery replays: whole ones, numbered one after the other, with no image of a
control page. -/
def scan (log : ℕ → Option (Rec V)) (dataStart : ℕ) : ℕ → ℕ → Option ℕ → List (Rec V)
  | 0, _, _ => []
  | n + 1, off, prevTxn =>
    match log off with
    | none => []
    | some r =>
      if prevTxn.any (fun t => r.txnId ≠ t + 1) then []
      else if r.pages.any (fun i => i.1 < dataStart) then []
      else r :: scan log dataStart n (off + 1) (some r.txnId)

/-- The pages after records are replayed. -/
def replay (mem : ℕ → V) (recs : List (Rec V)) : ℕ → V :=
  recs.foldl (fun mem r => r.pages.foldl (fun mem i => Function.update mem i.1 i.2) mem) mem

/-- The meta of the last record goes into both slots. -/
def replayMeta (slots : MetaSlots) (recs : List (Rec V)) : MetaSlots :=
  match recs.getLast? with
  | some r => fun _ => some r.snap
  | none => slots

/-- The mapping, the log and the lock page as a power loss leaves them. -/
def crash [DecidableEq V] (w : Store V) (garbage : ℕ → Option V) (torn : Bool → Bool)
    (keep : ℕ) : Store V :=
  let disk := fun p => if w.mem p = w.disk p then w.disk p else (garbage p).getD (w.disk p)
  let diskMeta := fun s => if w.memMeta s ≠ w.diskMeta s ∧ torn s then none else w.diskMeta s
  { w with
    mem := disk
    disk := disk
    memMeta := diskMeta
    diskMeta := diskMeta
    memLock := w.diskLock
    log := fun i => if i < w.synced ∨ i < keep then w.log i else none
    flushes := [] }

/-- `none` is the `Corrupt` error: the log ends below the length on disk. -/
def walRecover (w : Store V) : Option (Store V) :=
  let recs := scan w.log w.dataStart w.logEnd w.memLock.walCkpt none
  let off := w.memLock.walCkpt + recs.length
  if off < w.memLock.walLen then none
  else
    let mem := replay w.mem recs
    let metas := replayMeta w.memMeta recs
    let newest := ((newestMetaUngated metas).map (·.1.txnId)).getD 0
    some { w with
      mem := mem
      disk := mem
      memMeta := metas
      diskMeta := metas
      memLock := ⟨off, off⟩
      diskLock := ⟨off, off⟩
      walAppended := off
      durableTxn := newest
      synced := off
      top := newest
      shift := newest - off }

/-- In `wal` mode the successor of a dead writer takes the newest valid meta for durable. -/
def recoverAfterOwnerDeath (w : World V) : Option (World V) :=
  (newestMetaUngated w.memMeta).map fun m =>
    { w with durableTxn := max w.durableTxn m.1.txnId, lock := .free }

/-- The newest meta that counts. -/
def newestMeta (d : Durability) (w : Store V) : Option (MetaSnapshot × Bool) :=
  match d with
  | .wal => newestMetaGated w.memMeta w.durableTxn
  | .async => newestMetaUngated w.memMeta

/-- `begin_write`. -/
def beginWrite (fmt : PageFormat V) (d : Durability) (w : World V) : Option (World V) :=
  match newestMeta d w.toStore with
  | none => none
  | some (m, s) =>
    some { w with
      lock := .held
        { base := m
          slot := s
          live := (w.hist m.txnId).live
          runs := (w.hist m.txnId).runs
          txn := Txn.start (fmt.freelist w.mem m.freelistRoot) m.highWater
          stage := .working } }

/-- The durable frontier that the reuse of extent runs waits for. -/
def frontier (d : Durability) (w : Store V) : Option ℕ :=
  match d with
  | .wal => none
  | .async => some w.durableTxn

/-- Where the next record goes. -/
def appendOffset (d : Durability) (w : Store V) : ℕ :=
  match d with
  | .wal => w.memLock.walLen
  | .async => w.walAppended

/-- The writer with another transaction. -/
def Writer.withTxn (x : Writer V) (t : Txn) : Writer V := { x with txn := t }

/-- The commit that a plan gives. -/
def Writer.commit (x : Writer V) (mem : ℕ → V) (q : Plan) : Commit V :=
  { snap := q.snap x.base x.txn
    live := q.live
    image := mem
    dirty := x.txn.dirty
    extents := x.txn.allocatedRuns
    runs := q.live.filter (· ∈ x.runs ++ x.txn.allocatedRuns) }

/-- The next freelist entry lists pages of the data region only. -/
def nextInDataRegion (dataStart : ℕ) (t : Txn) : Bool :=
  (t.entries[t.cursor]?).all fun e => e.ids.all (dataStart ≤ ·)

/-- What a transaction does before it commits. -/
def stepTxn (fmt : PageFormat V) (d : Durability) (w : World V) (x : Writer V) :
    Label V → Option (World V)
  | .refill bound =>
    if nextInDataRegion w.dataStart x.txn then
      (x.txn.refillReusable bound (frontier d w.toStore)).map fun t =>
        { w with lock := .held (x.withTxn t) }
    else none
  | .alloc p => (x.txn.alloc p).map fun t => { w with lock := .held (x.withTxn t) }
  | .allocRun p => (x.txn.allocRun p).map fun t => { w with lock := .held (x.withTxn t) }
  | .store p v =>
    if p ∈ x.txn.dirty ++ x.txn.allocatedRuns then
      some { w with mem := Function.update w.mem p v }
    else none
  | .free p =>
    if (p ∈ x.txn.dirty ∨ p ∈ x.live) ∧ p ∉ x.txn.freedRuns then
      (x.txn.free p).map fun t => { w with lock := .held (x.withTxn t) }
    else none
  | .freeExtent p =>
    if p ∈ x.txn.allocatedRuns ∨ p ∈ x.runs ∧ p ∉ x.txn.freed ++ x.txn.freedRuns then
      some { w with lock := .held (x.withTxn (x.txn.freeExtent p)) }
    else none
  | .enterFreelistOp =>
    some { w with lock := .held (x.withTxn { x.txn with inFreelistOp := true }) }
  | .plan q =>
    if x.txn.inFreelistOp ∧ q.OK fmt w.mem x.base x.live x.txn then
      some { w with lock := .held { x with stage := .planned (x.commit w.mem q) } }
    else none
  | .abort => some { w with lock := .free }
  | _ => none

/-- What a commit does, stage by stage. -/
def stepCommit (d : Durability) (w : World V) (x : Writer V) :
    Stage V → Label V → Option (World V)
  | .planned c, .syncExtents =>
    some { w with
      disk := fun p => if p ∈ c.extents then w.mem p else w.disk p
      lock := .held { x with stage := .extentsSynced c } }
  | .extentsSynced c, .writeRecord aligned =>
    let off := appendOffset d w.toStore
    some { w with
      log := writeAt w.log off c.record aligned
      logEnd := max w.logEnd (off + 1)
      synced := min w.synced off
      hist := Function.update w.hist c.snap.txnId c
      top := c.snap.txnId
      lock := .held { x with stage := .written c } }
  | .written c, .syncLog =>
    if d = .wal then
      some { w with
        synced := w.memLock.walLen + 1
        lock := .held { x with stage := .logSynced c } }
    else none
  | .written c, .storeLen =>
    if d = .async then
      some { w with
        walAppended := w.walAppended + 1
        lock := .held { x with stage := .lenStored c } }
    else none
  | .logSynced c, .storeLen =>
    some { w with
      memLock := { w.memLock with walLen := w.memLock.walLen + 1 }
      lock := .held { x with stage := .lenStored c } }
  | .lenStored c, .storeBody =>
    some { w with
      memMeta := Function.update w.memMeta (!x.slot) none
      lock := .held { x with stage := .bodyStored c } }
  | .bodyStored c, .storeChecksum =>
    some { w with
      memMeta := Function.update w.memMeta (!x.slot) (some c.snap)
      lock := .held { x with stage := .flipped c } }
  | .flipped c, .ack =>
    match d with
    | .wal =>
      some { w with
        durableTxn := max w.durableTxn c.snap.txnId
        acked := c.snap.txnId
        lock := .held { x with stage := .acked } }
    | .async => some { w with lock := .held { x with stage := .acked } }
  | _, _ => none

/-- What a checkpoint does, stage by stage. -/
def stepCkpt (d : Durability) (w : World V) (x : Writer V) : Stage V → Label V → Option (World V)
  | .acked, .unlock => some { w with lock := .free }
  | .acked, .ckptSync =>
    some { w with
      disk := w.mem
      diskMeta := w.memMeta
      diskLock := w.memLock
      lock := .held { x with stage := .ckptSynced (appendOffset d w.toStore) } }
  | .ckptSynced t, .ckptLen =>
    if d = .async then
      some { w with
        memLock := { w.memLock with walLen := max w.memLock.walLen t }
        lock := .held { x with stage := .ckptLen t } }
    else none
  | .ckptSynced t, .ckptStore =>
    if d = .wal then
      some { w with
        memLock := { w.memLock with walCkpt := t }
        lock := .held { x with stage := .ckptStored t } }
    else none
  | .ckptLen t, .ckptStore =>
    some { w with
      memLock := { w.memLock with walCkpt := t }
      lock := .held { x with stage := .ckptStored t } }
  | .ckptStored t, .ckptSyncLock =>
    some { w with
      diskLock := w.memLock
      acked := if d = .async then max w.acked (t + w.shift) else w.acked
      lock := .held { x with stage := .ckptDurable t } }
  | .ckptDurable t, .punch =>
    some { w with log := fun i => if i < t then none else w.log i, lock := .free }
  | .ckptDurable _, .unlock => some { w with lock := .free }
  | _, _ => none

/-- The steps of the writer. -/
def stepWriter (fmt : PageFormat V) (d : Durability) (w : World V) (x : Writer V) (a : Label V) :
    Option (World V) :=
  match x.stage with
  | .working => stepTxn fmt d w x a
  | .acked | .ckptSynced _ | .ckptLen _ | .ckptStored _ | .ckptDurable _ =>
    stepCkpt d w x x.stage a
  | _ => stepCommit d w x x.stage a

/-- Every step of the system; a label that does not apply is refused. -/
def step [DecidableEq V] (fmt : PageFormat V) (d : Durability) (w : World V) (a : Label V) :
    Option (World V) :=
  match a, w.lock with
  | .begin, .free => beginWrite fmt d w
  | .begin, .orphaned => (recoverAfterOwnerDeath w).bind (beginWrite fmt d)
  | .die, .held _ => some { w with lock := .orphaned }
  | .flushSync a, _ =>
    if d = .async ∧ a ≤ w.walAppended then
      some { w with synced := max w.synced w.walAppended, flushes := a :: w.flushes }
    else none
  | .flushDone a, _ =>
    if a ∈ w.flushes then
      some { w with
        memLock := { w.memLock with walLen := max w.memLock.walLen a }
        flushes := w.flushes.erase a
        acked := max w.acked (a + w.shift) }
    else none
  | .writeback p, _ => some { w with disk := Function.update w.disk p (w.mem p) }
  | .writebackMeta s, _ => some { w with diskMeta := Function.update w.diskMeta s (w.memMeta s) }
  | .writebackLock, _ => some { w with diskLock := w.memLock }
  | .powerLoss garbage torn keep, _ =>
    (walRecover (crash w.toStore garbage torn keep)).map fun s => { s with lock := .free }
  | a, .held x => stepWriter fmt d w x a
  | _, _ => none

/-- The newest meta is that of a committed transaction not older than the last acknowledged one, and
every page reached from its roots holds what that transaction published. -/
def Recovered (fmt : PageFormat V) (w : Store V) : Prop :=
  ∃ n ≤ w.top, w.acked ≤ n ∧
    (newestMetaUngated w.memMeta).map (·.1.trees) = some (w.hist n).snap.trees ∧
    ∀ p, Reach fmt.refs w.mem (w.hist n).snap.roots p → w.mem p = (w.hist n).image p

/-- The holder of the lock. -/
def World.writer (w : World V) : Option (Writer V) :=
  match w.lock with
  | .held x => some x
  | _ => none

/-- The record of a transaction that was never published is not followed by another one, and no
page of an extent it wrote is stored to. -/
def Continues (w : World V) : Label V → Prop
  | .writeRecord _ => ∀ x ∈ w.writer, ∀ i < w.memLock.walLen, w.memLock.walCkpt ≤ i →
      (w.log i).all (·.txnId ≤ x.base.txnId) = true
  | .store p _ => ∀ x ∈ w.writer, x.base.txnId < w.top → p ∉ (w.hist w.top).extents
  | _ => True

instance (w : World V) : (a : Label V) → Decidable (Continues w a)
  | .writeRecord _ => inferInstanceAs (Decidable (∀ x ∈ w.writer, ∀ i < _, _ → _))
  | .store _ _ => inferInstanceAs (Decidable (∀ x ∈ w.writer, _ → _))
  | .begin | .refill _ | .alloc _ | .allocRun _ | .free _ | .freeExtent _ => isTrue trivial
  | .enterFreelistOp | .plan _ | .abort | .syncExtents | .syncLog | .storeLen => isTrue trivial
  | .storeBody | .storeChecksum | .ack | .ckptSync | .ckptLen | .ckptStore => isTrue trivial
  | .ckptSyncLock | .punch | .unlock | .die | .flushSync _ | .flushDone _ => isTrue trivial
  | .writeback _ | .writebackMeta _ | .writebackLock | .powerLoss _ _ _ => isTrue trivial

/-- The transactions that recovery is sure to have: those whose records are durable, and those below
the checkpoint on disk. -/
def Store.covered (w : Store V) : ℕ := max w.synced w.diskLock.walCkpt + w.shift

/-- Pages are reused only if the transaction that freed them is covered. A slot that holds no valid
meta, or one past the checkpoint on disk, is written back only if some record past the checkpoint
is durable, and the lock page only if its log length is covered; no slot is torn. No writer dies. -/
def Covered (w : World V) : Label V → Prop
  | .refill _ => ∀ x ∈ w.writer, ∀ e ∈ x.txn.entries[x.txn.cursor]?,
      e.kind = .pages → e.txn ≤ w.covered
  | .writebackMeta s => w.diskLock.walCkpt < w.synced ∨
      (w.memMeta s).any (·.txnId ≤ w.diskLock.walCkpt + w.shift) = true
  | .writebackLock => w.memLock.walLen ≤ max w.synced w.memLock.walCkpt
  | .powerLoss _ torn _ => ∀ s, torn s = false
  | .die => False
  | _ => True

instance (w : World V) : (a : Label V) → Decidable (Covered w a)
  | .refill _ => inferInstanceAs (Decidable (∀ x ∈ w.writer, ∀ e ∈ _, _ → _))
  | .writebackMeta _ => inferInstanceAs (Decidable (_ ∨ _))
  | .writebackLock => inferInstanceAs (Decidable (_ ≤ _))
  | .powerLoss _ torn _ => inferInstanceAs (Decidable (∀ s, torn s = false))
  | .die => isFalse id
  | .begin | .alloc _ | .allocRun _ | .store _ _ | .free _ | .freeExtent _ => isTrue trivial
  | .enterFreelistOp | .plan _ | .abort | .syncExtents | .writeRecord _ => isTrue trivial
  | .syncLog | .storeLen | .storeBody | .storeChecksum | .ack | .ckptSync => isTrue trivial
  | .ckptLen | .ckptStore | .ckptSyncLock | .punch | .unlock => isTrue trivial
  | .flushSync _ | .flushDone _ | .writeback _ => isTrue trivial

/-- What may happen under each mode. -/
def Admissible : Durability → World V → Label V → Prop
  | .wal => Continues
  | .async => Covered

end Mpedb.Wal
