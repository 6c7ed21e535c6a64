import Mpedb.Lib.Transition
import Mpedb.Pages

/-!
# Commits with `durability = commit`

The mapping (`mem`) is written in place and reaches the disk at a sync or whenever the kernel
writes a page back. A commit syncs the pages it took, stores the new meta into the slot that does
not hold the current one, the checksum last, and syncs that slot. A sync may fail: the commit then
returns an error and the lock is dropped, with the new meta in the mapping when it was the second
one. A successor of a dead writer syncs both slots. At a power loss unsynced pages may hold anything
and an unsynced slot may be torn.
-/

namespace Mpedb.CommitMode

variable {V : Type*}

/-- How far a commit has come. -/
inductive Stage (V : Type*)
  | working
  | planned (c : Published V)
  | synced (c : Published V)
  | recorded (c : Published V)
  | bodyStored (c : Published V)
  | flipped (c : Published V)
  | metaSynced (c : Published V)

/-- The holder of the writer lock. `slot` is where the meta it started from is, and `live` are the
pages that meta's trees reach. -/
structure Writer (V : Type*) where
  base : MetaSnapshot
  slot : Bool
  live : List ℕ
  txn : Txn
  stage : Stage V

/-- The writer lock of the file. -/
inductive Lock (V : Type*)
  | free
  | orphaned
  | held (w : Writer V)

/-- `committed` are the published transactions, newest first, and `acked` is the newest one whose
commit returned. -/
structure World (V : Type*) where
  mem : ℕ → V
  disk : ℕ → V
  memMeta : MetaSlots
  diskMeta : MetaSlots
  durableTxn : ℕ
  lock : Lock V
  committed : List (Published V)
  acked : ℕ

/-- What the processes, the crash and the scheduler can do. -/
inductive Label (V : Type*)
  | begin
  | refill (bound : ℕ)
  | alloc (p : ℕ)
  | allocRun (p : ℕ)
  | store (p : ℕ) (v : V)
  | free (p : ℕ)
  | freeExtent (p : ℕ)
  | enterFreelistOp
  | plan (q : Plan)
  | syncData
  | record
  | storeBody
  | storeChecksum
  | syncMeta
  | ack
  | syncFails
  | abort
  | die
  | writeback (p : ℕ)
  | writebackMeta (s : Bool)
  | powerLoss (garbage : ℕ → Option V) (torn : Bool → Bool)

/-- The meta of a new file. -/
def genesis (dataStart : ℕ) : MetaSnapshot := ⟨0, 0, 0, dataStart, 0, 0⟩

/-- A new file with one commit. -/
def World.init (mem : ℕ → V) (dataStart : ℕ) : World V :=
  { mem := mem
    disk := mem
    memMeta := fun _ => some (genesis dataStart)
    diskMeta := fun _ => some (genesis dataStart)
    durableTxn := 0
    lock := .free
    committed := [⟨genesis dataStart, [], mem⟩]
    acked := 0 }

/-- The successor of a dead writer syncs both slots and takes the newest valid meta. -/
def recoverAfterOwnerDeath (w : World V) : Option (World V) :=
  (newestMetaUngated w.memMeta).map fun m =>
    { w with diskMeta := w.memMeta, durableTxn := max w.durableTxn m.1.txnId, lock := .free }

/-- `begin_write`: the writer starts on the newest meta that its snapshot can be found for. -/
def beginWrite (fmt : PageFormat V) (w : World V) : Option (World V) :=
  match newestMetaGated w.memMeta w.durableTxn with
  | none => none
  | some (m, s) =>
    (w.committed.find? (·.snap = m)).map fun c =>
      { w with
        lock := .held
          { base := m
            slot := s
            live := c.live
            txn := Txn.start (fmt.freelist w.mem m.freelistRoot) m.highWater
            stage := .working } }

/-- The writer with another transaction. -/
def Writer.withTxn (x : Writer V) (t : Txn) : Writer V := { x with txn := t }

/-- What a transaction does before it commits. -/
def stepTxn (fmt : PageFormat V) (w : World V) (x : Writer V) : Label V → Option (World V)
  | .refill bound =>
    (x.txn.refillReusable bound none).map fun t => { w with lock := .held (x.withTxn t) }
  | .alloc p => (x.txn.alloc p).map fun t => { w with lock := .held (x.withTxn t) }
  | .allocRun p => (x.txn.allocRun p).map fun t => { w with lock := .held (x.withTxn t) }
  | .store p v =>
    if p ∈ x.txn.dirty ++ x.txn.allocatedRuns then
      some { w with mem := Function.update w.mem p v }
    else none
  | .free p =>
    if (p ∈ x.txn.dirty ∨ p ∈ x.live) ∧ p ∉ x.txn.freedRuns then
      (x.txn.free p).map fun t => { w with lock := .held (x.withTxn t) }
    else none
  | .freeExtent p =>
    if p ∈ x.txn.allocatedRuns ∨ p ∈ x.live ∧ p ∉ x.txn.freed ++ x.txn.freedRuns then
      some { w with lock := .held (x.withTxn (x.txn.freeExtent p)) }
    else none
  | .enterFreelistOp =>
    some { w with lock := .held (x.withTxn { x.txn with inFreelistOp := true }) }
  | .plan q =>
    if x.txn.inFreelistOp ∧ q.OK fmt w.mem x.base x.live x.txn then
      some { w with lock := .held { x with stage := .planned ⟨q.snap x.base x.txn,
        q.live, w.mem⟩ } }
    else none
  | .abort => some { w with lock := .free }
  | _ => none

/-- What a commit does, stage by stage. -/
def stepCommit (w : World V) (x : Writer V) : Stage V → Label V → Option (World V)
  | .planned c, .syncData =>
    some { w with
      disk := fun p => if p ∈ x.txn.dirty ++ x.txn.allocatedRuns then w.mem p else w.disk p
      lock := .held { x with stage := .synced c } }
  | .synced c, .record => some { w with lock := .held { x with stage := .recorded c } }
  | .recorded c, .storeBody =>
    some { w with
      memMeta := Function.update w.memMeta (!x.slot) none
      lock := .held { x with stage := .bodyStored c } }
  | .bodyStored c, .storeChecksum =>
    some { w with
      memMeta := Function.update w.memMeta (!x.slot) (some c.snap)
      committed := c :: w.committed
      lock := .held { x with stage := .flipped c } }
  | .flipped c, .syncMeta =>
    some { w with
      diskMeta := Function.update w.diskMeta (!x.slot) (w.memMeta (!x.slot))
      lock := .held { x with stage := .metaSynced c } }
  | .metaSynced c, .ack =>
    some { w with
      durableTxn := max w.durableTxn c.snap.txnId
      acked := c.snap.txnId
      lock := .free }
  | .planned _, .syncFails => some { w with lock := .free }
  -- `msync_page(new_slot)?`: the new meta stays valid in the mapping, above `durable_txn`
  | .flipped _, .syncFails => some { w with lock := .free }
  | _, _ => none

/-- The first attach after a power loss: the mapping is what the disk holds. -/
def crash [DecidableEq V] (w : World V) (garbage : ℕ → Option V) (torn : Bool → Bool) : World V :=
  let disk := fun p => if w.mem p = w.disk p then w.disk p else (garbage p).getD (w.disk p)
  let diskMeta := fun s =>
    if w.memMeta s ≠ w.diskMeta s ∧ torn s then none else w.diskMeta s
  let newest := ((newestMetaUngated diskMeta).map (·.1.txnId)).getD 0
  { mem := disk
    disk := disk
    memMeta := diskMeta
    diskMeta := diskMeta
    durableTxn := newest
    lock := .free
    committed := w.committed.filter (·.snap.txnId ≤ newest)
    acked := w.acked }

/-- Every step of the system; a label that does not apply is refused. -/
def step [DecidableEq V] (fmt : PageFormat V) (w : World V) (a : Label V) : Option (World V) :=
  match a, w.lock with
  | .begin, .free => beginWrite fmt w
  | .begin, .orphaned => (recoverAfterOwnerDeath w).bind (beginWrite fmt)
  -- the sync of `recover_after_owner_death` failed: the mutex is consistent again and unlocked
  | .syncFails, .orphaned => some { w with lock := .free }
  | .die, .held _ => some { w with lock := .orphaned }
  | .writeback p, _ => some { w with disk := Function.update w.disk p (w.mem p) }
  | .writebackMeta s, _ => some { w with diskMeta := Function.update w.diskMeta s (w.memMeta s) }
  | .powerLoss garbage torn, _ => some (crash w garbage torn)
  | a, .held x =>
    match x.stage with
    | .working => stepTxn fmt w x a
    | s => stepCommit w x s a
  | _, _ => none

/-- No writer starts from a free lock over a meta that a failed sync left in the mapping above
`durable_txn`. -/
def World.untroubled (w : World V) : Label V → Bool
  | .begin =>
    match w.lock with
    | .free => (newestMetaUngated w.memMeta).all (·.1.txnId ≤ w.durableTxn)
    | _ => true
  | _ => true

/-- The meta chosen at attach is that of a committed transaction not older than the last
acknowledged one, and every page reached from its roots holds what that transaction published. -/
def Recovered (fmt : PageFormat V) (w : World V) : Prop :=
  ∃ c ∈ w.committed, (newestMetaUngated w.memMeta).map Prod.fst = some c.snap ∧
    w.acked ≤ c.snap.txnId ∧
    ∀ p, Reach fmt.refs w.mem c.snap.roots p → w.mem p = c.image p

end Mpedb.CommitMode
