import Mpedb.Pages
import Mpedb.Readers

/-!
# Snapshots of private in-memory databases

A private database keeps its pins in an array of its own: a reader loads the newest meta and puts
its transaction into a free cell. A writer that finds no pin writes its pages in place, and keeps
readers out with a flag meanwhile; a writer that finds one copies pages as on disk. How deep a
thread is nested in such sections is a counter of the thread.
-/

namespace Mpedb.Private

open Readers (Bound TxnCall)

variable {V : Type*}

/-- `PRIV_PIN_SLOTS`. -/
def privPinSlots : ℕ := 64

/-- A cell of the pin array. The array itself holds the transaction only: `owner` is the thread that
put it there and `returned` says that its `claim_and_pin_private` has returned. -/
structure PinCell where
  txn : ℕ
  owner : ℕ
  returned : Bool
  deriving DecidableEq, Repr

/-- A committed transaction: the roots of its trees, the pages they reach with what they held, its
freelist and high water mark. -/
structure Snapshot (V : Type*) where
  roots : List ℕ
  live : List ℕ
  image : ℕ → V
  entries : List FreeEntry
  highWater : ℕ

/-- Where a write transaction is: in `try_begin_exclusive_write`, at work, or past its commit or
abort. -/
inductive Stage
  | setFlag
  | scanPins (i : ℕ)
  | clearFlag
  | working
  | finishing
  | unlocking
  deriving DecidableEq

/-- The holder of the writer lock. `live` are the committed pages it has not adopted, `undo` what
the adopted ones held. -/
structure Writer (V : Type*) where
  thread : ℕ
  base : ℕ
  live : List ℕ
  undo : List (ℕ × V)
  txn : Txn
  inPlace : Bool
  recomputed : Bool
  bound : Bound
  stage : Stage

/-- A private database: its pins, its pages and its writer. -/
structure Db (V : Type*) where
  flag : Bool
  pins : ℕ → Option PinCell
  mem : ℕ → V
  current : ℕ
  snaps : ℕ → Snapshot V
  cache : ℕ
  writer : Option (Writer V)

/-- The call a thread is in: the accesses of `claim_and_pin_private` on database `d` with the spin
count so far, or `try_begin_exclusive_write`. -/
inductive Call
  | idle
  | spin (d spins : ℕ)
  | readMeta (d spins : ℕ)
  | tryPin (d spins i t : ℕ)
  | check (d spins i t : ℕ)
  | unpin (d spins i : ℕ)
  | begin (d : ℕ)
  deriving DecidableEq

/-- A thread: how deep it is in its own writers, and its call. -/
structure Thread where
  depth : ℕ
  call : Call

/-- The databases and the threads. -/
structure System (V : Type*) where
  db : ℕ → Db V
  thread : ℕ → Thread

/-- What a commit decides: the roots, the live pages and the chunks of the free list. -/
structure Plan where
  roots : List ℕ
  live : List ℕ
  pageChunks : List (List ℕ)
  runChunks : List (List ℕ)

/-- What a writer does. -/
inductive WriteOp (V : Type*)
  | call (c : TxnCall)
  | store (p : ℕ) (v : V)
  | adopt (p : ℕ)
  | refill
  | scan
  | draw (frontier : Option ℕ)
  | commit (q : Plan)
  | abort
  | close
  | unlock

/-- Undoes the writes in place, the last one first. -/
def restore (undo : List (ℕ × V)) (mem : ℕ → V) : ℕ → V :=
  undo.foldr (fun x m => Function.update m x.1 x.2) mem

namespace Db

variable (D : Db V)

/-- The current snapshot. -/
def snap : Snapshot V := D.snaps D.current

/-- Sets a pin. -/
def setPin (i : ℕ) (c : Option PinCell) : Db V := { D with pins := Function.update D.pins i c }

/-- Sets the writer. -/
def setWriter (w : Writer V) : Db V := { D with writer := some w }

/-- The writer that the thread begins. -/
def lock (θ : ℕ) : Db V := D.setWriter
  { thread := θ
    base := D.current
    live := D.snap.live
    undo := []
    txn := Txn.start D.snap.entries D.snap.highWater
    inPlace := false
    recomputed := false
    bound := .none
    stage := .setFlag }

/-- A step of `try_begin_exclusive_write`, and whether the section is open after it. -/
def tryBegin (w : Writer V) : Option (Db V) :=
  match w.stage with
  | .setFlag => some ({ D with flag := true }.setWriter { w with stage := .scanPins 0 })
  | .scanPins i =>
    if privPinSlots ≤ i then some (D.setWriter { w with inPlace := true, stage := .working })
    else if (D.pins i).isSome then some (D.setWriter { w with stage := .clearFlag })
    else some (D.setWriter { w with stage := .scanPins (i + 1) })
  | .clearFlag => some ({ D with flag := false }.setWriter { w with stage := .working })
  | _ => none

/-- Pages are freed that the trees have, and only once. -/
def callOK (w : Writer V) : TxnCall → Bool
  | .free p => (p ∈ w.txn.dirty ∨ p ∈ w.live) ∧ p ∉ w.txn.freedRuns
  | .freeExtent p => p ∈ w.txn.allocatedRuns ∨ p ∈ w.live ∧ p ∉ w.txn.freed ++ w.txn.freedRuns
  | _ => true

/-- `adopt_inplace`: a committed page is written in place from now on. -/
def adopt (w : Writer V) (p : ℕ) : Writer V :=
  { w with
    live := w.live.filter (· ≠ p)
    undo := (p, D.mem p) :: w.undo
    txn := { w.txn with dirty := p :: w.txn.dirty } }

/-- `compute_oldest_pinned`, one cell at a time. -/
def scan (w : Writer V) : Option (Db V) :=
  match w.bound with
  | .scan i oldest =>
    some (D.setWriter { w with
      bound :=
        if privPinSlots ≤ i then .publish oldest
        else .scan (i + 1) (((D.pins i).map fun c => min oldest c.txn).getD oldest) })
  | .publish oldest =>
    some ({ D with cache := max D.cache oldest }.setWriter { w with bound := .known oldest })
  | _ => none

/-- Asks for a bound on what may be used again. -/
def refill (w : Writer V) : Option (Db V) :=
  match w.bound, w.txn.entries[w.txn.cursor]? with
  | .none, some e =>
    if w.txn.inFreelistOp then none
    else if D.cache < e.txn ∧ w.recomputed = false then
      some (D.setWriter { w with recomputed := true, bound := .scan 0 w.base })
    else some (D.setWriter { w with bound := .known D.cache })
  | _, _ => none

/-- Draws pages up to the bound. -/
def draw (w : Writer V) (frontier : Option ℕ) : Option (Db V) :=
  match w.bound with
  | .known b =>
    some (D.setWriter { w with
      txn := (w.txn.refillReusable b frontier).getD w.txn
      bound := .none })
  | _ => none

/-- The trees of the commit are closed under the pointers of their pages and made of committed pages
that were not freed and of pages the transaction took. -/
def PlanOK (refs : V → List ℕ) (w : Writer V) (q : Plan) : Prop :=
  ClosedUnder refs D.mem q.roots q.live ∧
  ∀ p ∈ q.live, (p ∈ w.live ∧ p ∉ w.txn.freed ++ w.txn.freedRuns) ∨
    p ∈ w.txn.dirty ++ w.txn.allocatedRuns

instance (refs : V → List ℕ) (w : Writer V) (q : Plan) : Decidable (D.PlanOK refs w q) :=
  inferInstanceAs (Decidable (_ ∧ _))

/-- The commit: a new snapshot and a new free list. -/
def commit (refs : V → List ℕ) (w : Writer V) (q : Plan) : Option (Db V) :=
  if D.PlanOK refs w q then
    (w.txn.freelistPlan (w.base + 1) q.pageChunks q.runChunks).map fun es =>
      { D with
        current := w.base + 1
        snaps := Function.update D.snaps (w.base + 1) ⟨q.roots, q.live, D.mem, es, w.txn.highWater⟩
        writer := some { w with stage := .finishing } }
  else none

/-- What a writer does while it works. -/
def work (refs : V → List ℕ) (w : Writer V) : WriteOp V → Option (Db V)
  | .call c =>
    if callOK w c then (c.run w.txn).map fun t => D.setWriter { w with txn := t } else none
  | .store p v =>
    if p ∈ w.txn.dirty ++ w.txn.allocatedRuns then some { D with mem := Function.update D.mem p v }
    else none
  | .adopt p =>
    if w.inPlace ∧ p ∈ w.live ∧ p ∉ w.txn.freed ++ w.txn.freedRuns then
      some (D.setWriter (D.adopt w p))
    else none
  | .refill => D.refill w
  | .scan => D.scan w
  | .draw frontier => D.draw w frontier
  | .commit q => D.commit refs w q
  | .abort =>
    some ({ D with mem := restore w.undo D.mem }.setWriter { w with stage := .finishing })
  | _ => none

end Db

/-- What the threads can do. -/
inductive Label (V : Type*)
  | pin (θ d : ℕ)
  /-- The next access of the call of `θ`; `fail` says that the meta could not be read. -/
  | run (θ : ℕ) (fail : Bool)
  | release (d i : ℕ)
  | begin (θ d : ℕ)
  | write (d : ℕ) (op : WriteOp V)

namespace System

variable (s : System V)

/-- Replaces a database. -/
def setDb (d : ℕ) (D : Db V) : System V := { s with db := Function.update s.db d D }

/-- Replaces a thread. -/
def setThread (θ : ℕ) (x : Thread) : System V := { s with thread := Function.update s.thread θ x }

/-- Replaces the call of a thread. -/
def setCall (θ : ℕ) (c : Call) : System V := s.setThread θ { s.thread θ with call := c }

/-- The spin count goes back to 0 when the thread yields. -/
def spun (spins : ℕ) : ℕ := if 4000000 < spins + 1 then 0 else spins + 1

/-- The end of a round of `claim_and_pin_private` that has not pinned. -/
def nextRound (d spins : ℕ) : Call := if 256 < spins then .idle else .spin d (spins + 1)

/-- A foreign exclusive section is open, as far as the thread can tell. -/
def foreign (θ d : ℕ) : Bool := (s.db d).flag && (s.thread θ).depth = 0

/-- The next access of a call that pins. -/
def runCall (θ : ℕ) (fail : Bool) : Call → Option (System V)
  | .idle => none
  | .spin d k =>
    some (s.setCall θ (if s.foreign θ d then .spin d (spun k) else .readMeta d k))
  | .readMeta d k => some (s.setCall θ (if fail then .idle else .tryPin d k 0 (s.db d).current))
  | .tryPin d k i t =>
    if privPinSlots ≤ i then some (s.setCall θ (nextRound d k))
    else if ((s.db d).pins i).isNone then
      some ((s.setDb d ((s.db d).setPin i (some ⟨t, θ, false⟩))).setCall θ (.check d k i t))
    else some (s.setCall θ (.tryPin d k (i + 1) t))
  | .check d k i t =>
    if s.foreign θ d then some (s.setCall θ (.unpin d k i))
    else some ((s.setDb d ((s.db d).setPin i (some ⟨t, θ, true⟩))).setCall θ .idle)
  | .unpin d k i => some ((s.setDb d ((s.db d).setPin i none)).setCall θ (nextRound d k))
  | .begin d =>
    (s.db d).writer.bind fun w =>
      ((s.db d).tryBegin w).map fun D =>
        -- the depth is raised with the last load of the scan that finds no pin
        let opened := D.writer.any fun w => w.inPlace
        let done := D.writer.all fun w => w.stage = .working
        (s.setDb d D).setThread θ
          ⟨if opened then min ((s.thread θ).depth + 1) (2 ^ 32 - 1) else (s.thread θ).depth,
            if done then .idle else .begin d⟩

/-- `end_exclusive_write`, if the transaction has opened a section: the flag goes down only with the
depth at 0. -/
def close (d : ℕ) (w : Writer V) : System V :=
  let D := s.db d
  let w' := { w with stage := .unlocking }
  if w.inPlace then
    let depth := (s.thread w.thread).depth - 1
    (s.setDb d ({ D with flag := if depth = 0 then false else D.flag }.setWriter w')).setThread
      w.thread { s.thread w.thread with depth := depth }
  else s.setDb d (D.setWriter w')

/-- A step of a writer, by its stage. -/
def stepWrite (refs : V → List ℕ) (d : ℕ) (w : Writer V) (op : WriteOp V) : Option (System V) :=
  match w.stage, op with
  | .working, op => ((s.db d).work refs w op).map (s.setDb d)
  | .finishing, .close => some (s.close d w)
  | .unlocking, .unlock => some (s.setDb d { s.db d with writer := none })
  | _, _ => none

/-- Every step of the system. -/
def step (refs : V → List ℕ) : Label V → Option (System V)
  | .pin θ d => if (s.thread θ).call = .idle then some (s.setCall θ (.spin d 0)) else none
  | .run θ fail => s.runCall θ fail (s.thread θ).call
  | .release d i =>
    match (s.db d).pins i with
    | some c =>
      if c.returned ∧ (s.thread c.owner).call = .idle then
        some (s.setDb d ((s.db d).setPin i none))
      else none
    | none => none
  | .begin θ d =>
    if (s.db d).writer.isNone ∧ (s.thread θ).call = .idle then
      some ((s.setDb d ((s.db d).lock θ)).setCall θ (.begin d))
    else none
  | .write d op =>
    (s.db d).writer.bind fun w =>
      if (s.thread w.thread).call = .idle then s.stepWrite refs d w op else none

/-- Databases with one commit each, no page, and nothing going on. -/
def start (mem : ℕ → ℕ → V) (dataStart : ℕ) : System V where
  db d :=
    { flag := false
      pins := fun _ => none
      mem := mem d
      current := 0
      snaps := fun _ => ⟨[], [], mem d, [], dataStart⟩
      cache := 0
      writer := none }
  thread _ := ⟨0, .idle⟩

end System

/-- The writer overwrites pages in place and has not finished. -/
def Writer.Open (w : Writer V) : Prop := w.inPlace = true ∧ w.stage ≠ .unlocking

/-- The thread holds a pin of the snapshot. -/
def System.Holds (s : System V) (θ d t : ℕ) : Prop := ∃ i, (s.db d).pins i = some ⟨t, θ, true⟩

end Mpedb.Private
