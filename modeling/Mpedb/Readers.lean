import Mathlib.Data.BitVec
import Mathlib.Logic.Function.Basic
import Mpedb.Freelist

/-!
# The reader table of a shared database

A read transaction owns a slot of a table in shared memory and stores there the transaction it
reads. Slots are taken and given back by compare-and-exchange on a word made of the owner's pid and
a generation number of 32 bits; the slots of dead processes are freed by whoever sweeps the table. A
writer scans for the oldest pin. Each access to shared memory is a step of its own.
-/

namespace Mpedb.Readers

/-- The largest transaction id. -/
def u64Max : ℕ := 2 ^ 64 - 1

/-- Set in the pid half of a word while the claimer initializes the slot. -/
def claiming : BitVec 32 := 1 <<< 31

/-- The word of a slot, which changes in one store. -/
structure SlotWord where
  pid : BitVec 32
  seq : BitVec 32
  deriving DecidableEq, Repr

/-- A slot of the table. `gen` is not in the table: it counts the changes of the generation number
without wrapping. -/
structure Slot where
  word : SlotWord
  txn : ℕ
  pidStart : ℕ
  gen : ℕ
  deriving Repr

/-- A process as the kernel names it. A pid is positive and below `PID_MAX_LIMIT`. -/
structure Proc where
  pid : BitVec 32
  start : ℕ
  pid_pos : pid ≠ 0
  pid_small : pid &&& claiming = 0
  deriving DecidableEq

/-- Where a scan of `claim_slot` is: its first slot, how many it has passed, the tries at this one,
and whether it is the scan after a sweep. -/
structure Claim where
  start : ℕ
  i : ℕ
  tries : ℕ
  retried : Bool
  deriving DecidableEq

/-- The slot that a claim looks at. -/
def Claim.idx (c : Claim) (n : ℕ) : ℕ := (c.start + c.i) % n

/-- The next access of a thread in `claim_and_pin`, in `release_slot` (from `pinned`, or from `drop`
when the meta could not be read) or in `sweep_dead_readers`, which is also a part of
`claim_and_pin`. `seen` is the generation count at the load of the word. -/
inductive Pc
  | claim (retried : Bool)
  | load (c : Claim)
  | cas (c : Claim) (w : SlotWord)
  | initTxn (c : Claim) (seq : BitVec 32)
  | initStart (c : Claim) (seq : BitVec 32)
  | goLive (c : Claim) (seq : BitVec 32)
  | pinMeta (i : ℕ) (w : SlotWord)
  | pinStore (i : ℕ) (w : SlotWord) (t : ℕ)
  | pinCheck (i : ℕ) (w : SlotWord) (t : ℕ)
  | pinned (i : ℕ) (w : SlotWord) (t : ℕ)
  | drop (i : ℕ) (w : SlotWord)
  | sweep (claims : Bool) (i : ℕ)
  | sweepPid (claims : Bool) (i : ℕ) (w : SlotWord) (seen : ℕ)
  | sweepStart (claims : Bool) (i : ℕ) (w : SlotWord) (seen : ℕ)
  | sweepAlive (claims : Bool) (i : ℕ) (w : SlotWord) (seen start : ℕ)
  | sweepFree (claims : Bool) (i : ℕ) (w : SlotWord) (seen : ℕ)
  deriving DecidableEq

/-- The claim goes on to the next slot. -/
def Claim.next (c : Claim) : Pc := .load { c with i := c.i + 1, tries := 0 }

/-- After a lost race the slot is tried again, four times in all. -/
def Claim.again (c : Claim) : Pc :=
  if c.tries + 1 < 4 then .load { c with tries := c.tries + 1 } else c.next

/-- How far the writer is in `refill_reusable`: `scan` and `scanTxn` are in `compute_oldest_pinned`,
before the load of a slot's word and of its transaction. -/
inductive Bound
  | none
  | scan (i oldest : ℕ)
  | scanTxn (i oldest : ℕ)
  | publish (oldest : ℕ)
  | known (bound : ℕ)
  deriving DecidableEq

/-- The writer, with the bound below which freed pages may be used again. -/
structure Writer where
  proc : Proc
  base : ℕ
  txn : Txn
  recomputed : Bool
  bound : Bound

/-- The reader table, the processes and their threads, and the writer. -/
structure System where
  slot : ℕ → Slot
  live : List Proc
  thread : ℕ → Option (Proc × Pc)
  current : ℕ
  cache : ℕ
  entries : List FreeEntry
  highWater : ℕ
  writer : Option Writer

/-- A store to a slot. -/
inductive SlotWrite
  | word (w : SlotWord)
  | txn (t : ℕ)
  | pidStart (start : ℕ)

/-- The slot after a store. -/
def Slot.write (x : Slot) : SlotWrite → Slot
  | .word w => { x with word := w, gen := if w.seq = x.word.seq then x.gen else x.gen + 1 }
  | .txn t => { x with txn := t }
  | .pidStart start => { x with pidStart := start }

/-- One access: the store it makes and where the thread goes on; `none` is a return. -/
structure Turn where
  write : Option (ℕ × SlotWrite)
  pc : Option Pc

namespace System

variable (n : ℕ) (s : System)

/-- No process with this pid is there (`kill` answers `ESRCH`). -/
def pidDefinitelyDead (pid : BitVec 32) : Bool := s.live.all (·.pid ≠ pid)

/-- `pid_alive_identity`: whether the process with this start time lives. -/
def pidAliveIdentity (pid : BitVec 32) (start : ℕ) : Bool :=
  s.live.any fun p => p.pid = pid ∧ p.start = start

/-- A compare-and-swap of a slot's word. -/
def cas (i : ℕ) (old new : SlotWord) (won lost : Option Pc) : Turn :=
  if (s.slot i).word = old then ⟨some (i, .word new), won⟩ else ⟨none, lost⟩

/-- The next access of a thread of process `p`. `choice` is the salt of the scan's start and `fail`
says that the meta could not be read. -/
def turn (p : Proc) (choice : ℕ) (fail : Bool) : Pc → Turn
  | .claim r => ⟨none, some (.load ⟨choice, 0, 0, r⟩)⟩
  | .load c =>
    if n ≤ c.i then ⟨none, if c.retried then none else some (.sweep true 0)⟩
    else
      let w := (s.slot (c.idx n)).word
      ⟨none, some (if w.pid ≠ 0 then c.next else .cas c w)⟩
  | .cas c w =>
    s.cas (c.idx n) w ⟨p.pid ||| claiming, w.seq + 1⟩ (some (.initTxn c (w.seq + 1))) (some c.again)
  | .initTxn c q => ⟨some (c.idx n, .txn u64Max), some (.initStart c q)⟩
  | .initStart c q => ⟨some (c.idx n, .pidStart p.start), some (.goLive c q)⟩
  | .goLive c q =>
    s.cas (c.idx n) ⟨p.pid ||| claiming, q⟩ ⟨p.pid, q⟩ (some (.pinMeta (c.idx n) ⟨p.pid, q⟩))
      (some c.next)
  | .pinMeta i w => ⟨none, some (if fail then .drop i w else .pinStore i w s.current)⟩
  | .pinStore i w t => ⟨some (i, .txn t), some (.pinCheck i w t)⟩
  | .pinCheck i w t =>
    ⟨none, some (if fail then .drop i w else if s.current = t then .pinned i w t else .pinMeta i w)⟩
  | .pinned i w _ => s.cas i w ⟨0, w.seq + 1⟩ none none
  | .drop i w => s.cas i w ⟨0, w.seq + 1⟩ none none
  | .sweep b i =>
    if n ≤ i then ⟨none, if b then some (.claim true) else none⟩
    else
      let x := s.slot i
      ⟨none, some (if x.word.pid = 0 then .sweep b (i + 1)
        else if x.word.pid &&& claiming ≠ 0 then .sweepPid b i x.word x.gen
        else .sweepStart b i x.word x.gen)⟩
  | .sweepPid b i w g =>
    ⟨none, some (if s.pidDefinitelyDead (w.pid &&& ~~~claiming) then .sweepFree b i w g
      else .sweep b (i + 1))⟩
  | .sweepStart b i w g => ⟨none, some (.sweepAlive b i w g (s.slot i).pidStart)⟩
  | .sweepAlive b i w g start =>
    ⟨none, some (if s.pidAliveIdentity w.pid start then .sweep b (i + 1) else .sweepFree b i w g)⟩
  | .sweepFree b i w _ =>
    s.cas i w ⟨0, w.seq + 1⟩ (some (.sweep b (i + 1))) (some (.sweep b (i + 1)))

/-- The slots after a store. -/
def store : Option (ℕ × SlotWrite) → ℕ → Slot
  | none => s.slot
  | some (i, x) => Function.update s.slot i ((s.slot i).write x)

end System

/-- What a writer does to its free pages. -/
inductive TxnCall
  | alloc (p : ℕ)
  | allocRun (p : ℕ)
  | free (p : ℕ)
  | freeExtent (p : ℕ)
  | enterFreelistOp

/-- Runs a call. -/
def TxnCall.run (t : Txn) : TxnCall → Option Txn
  | .alloc p => t.alloc p
  | .allocRun p => t.allocRun p
  | .free p => t.free p
  | .freeExtent p => some (t.freeExtent p)
  | .enterFreelistOp => some { t with inFreelistOp := true }

/-- What processes, threads and the writer can do. -/
inductive Label
  | spawn (p : Proc)
  | die (p : Proc)
  | pin (θ : ℕ) (p : Proc)
  | sweep (θ : ℕ) (p : Proc)
  | run (θ choice : ℕ) (fail : Bool)
  | begin (p : Proc)
  | call (c : TxnCall)
  | refill
  | scan
  | draw (frontier : Option ℕ)
  | commit (pageChunks runChunks : List (List ℕ))
  | abort

namespace System

variable (n : ℕ) (s : System)

/-- One slot of the writer's scan for the oldest reader. -/
def scanStep (w : Writer) : Option System :=
  match w.bound with
  | .scan i oldest =>
    some { s with
      writer := some { w with
        bound :=
          if n ≤ i then .publish oldest
          else if (s.slot i).word.pid = 0 then .scan (i + 1) oldest
          else .scanTxn i oldest } }
  | .scanTxn i oldest =>
    let t := (s.slot i).txn
    let effective := if t = u64Max then w.base else t
    some { s with writer := some { w with bound := .scan (i + 1) (min oldest effective) } }
  | .publish oldest =>
    some { s with
      cache := max s.cache oldest
      writer := some { w with bound := .known oldest } }
  | _ => none

/-- A step of the writer. `refill` loads the cached bound and starts a scan if the next entry is
newer than that, once in a transaction; `draw` takes the entry or leaves it. -/
def stepWriter (w : Writer) : Label → Option System
  | .call c =>
    match w.bound with
    | .none => (c.run w.txn).map fun t => { s with writer := some { w with txn := t } }
    | _ => none
  | .refill =>
    match w.bound, w.txn.entries[w.txn.cursor]? with
    | .none, some e =>
      if w.txn.inFreelistOp then none
      else if s.cache < e.txn ∧ w.recomputed = false then
        some { s with writer := some { w with recomputed := true, bound := .scan 0 w.base } }
      else some { s with writer := some { w with bound := .known s.cache } }
    | _, _ => none
  | .scan => s.scanStep n w
  | .draw frontier =>
    match w.bound with
    | .known b =>
      let t := (w.txn.refillReusable b frontier).getD w.txn
      some { s with writer := some { w with txn := t, bound := .none } }
    | _ => none
  | .commit pc rc =>
    match w.bound with
    | .none =>
      if w.base + 1 ≤ u64Max then
        (w.txn.freelistPlan (w.base + 1) pc rc).map fun es =>
          { s with current := w.base + 1, entries := es, highWater := w.txn.highWater, writer :=
            none }
      else none
    | _ => none
  | .abort => some { s with writer := none }
  | _ => none

/-- Every step of the system. -/
def step (a : Label) : Option System :=
  match a with
  | .spawn p => if s.pidDefinitelyDead p.pid then some { s with live := p :: s.live } else none
  | .die p => some
    { s with
      live := s.live.filter (· ≠ p)
      thread := fun θ => (s.thread θ).filter (·.1 ≠ p)
      writer := s.writer.filter (·.proc ≠ p) }
  | .pin θ p =>
    if s.thread θ = none ∧ p ∈ s.live then
      some { s with thread := Function.update s.thread θ (some (p, .claim false)) }
    else none
  | .sweep θ p =>
    if s.thread θ = none ∧ p ∈ s.live then
      some { s with thread := Function.update s.thread θ (some (p, .sweep false 0)) }
    else none
  | .run θ choice fail =>
    (s.thread θ).map fun x =>
      let turn := s.turn n x.1 choice fail x.2
      { s with
        slot := s.store turn.write
        thread := Function.update s.thread θ (turn.pc.map (x.1, ·)) }
  | .begin p =>
    if s.writer.isNone ∧ p ∈ s.live then
      some { s with writer := some ⟨p, s.current, Txn.start s.entries s.highWater, false, .none⟩ }
    else none
  | a => s.writer.bind fun w => s.stepWriter n w a

/-- A database at transaction `current`, its table zeroed and no process attached. -/
def start (current : ℕ) (entries : List FreeEntry) (highWater : ℕ) : System :=
  { slot := fun _ => ⟨⟨0, 0⟩, 0, 0, 0⟩
    live := []
    thread := fun _ => none
    current := current
    cache := 0
    entries := entries
    highWater := highWater
    writer := none }

end System

/-- The slot a thread owns, from the exchange that claims it to the one that gives it back. -/
def Pc.slot (n : ℕ) : Pc → Option ℕ
  | .initTxn c _ => some (c.idx n)
  | .initStart c _ => some (c.idx n)
  | .goLive c _ => some (c.idx n)
  | .pinMeta i _ => some i
  | .pinStore i _ _ => some i
  | .pinCheck i _ _ => some i
  | .pinned i _ _ => some i
  | .drop i _ => some i
  | _ => none

end Mpedb.Readers
