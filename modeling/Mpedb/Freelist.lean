import Mathlib.Data.List.Nodup
import Mathlib.Data.List.Perm.Basic
import Mathlib.Data.Option.Basic

/-!
# The page allocator of a write transaction

A commit lists the pages it freed under its own number. A later transaction draws entries into a
private pool without removing them, takes pages out of the pool or from the high water mark, and at
commit rewrites each drawn entry with what is left of it.

Which page of the pool an allocation takes, and how the pages a commit lists are cut into entries,
is left open.
-/

namespace Mpedb

/-- Single pages, or pages of extents. -/
inductive EntryKind
  | pages
  | runs
  deriving DecidableEq, Repr

/-- An entry of the free list: pages that a commit freed. -/
structure FreeEntry where
  txn : ℕ
  kind : EntryKind
  chunk : ℕ
  ids : List ℕ
  deriving DecidableEq, Repr

/-- All pages of some entries. -/
def pagesOf (es : List FreeEntry) : List ℕ := es.flatMap (·.ids)

/-- The allocator's state. `cursor` counts the entries drawn. A page of a drawn run that was never
taken is in `runPool`, one that was taken and freed again in `runOwn`. -/
structure Txn where
  entries : List FreeEntry
  cursor : ℕ
  reusable : List ℕ
  runPool : List ℕ
  runOwn : List ℕ
  dirty : List ℕ
  allocatedRuns : List ℕ
  freed : List ℕ
  freedRuns : List ℕ
  highWater : ℕ
  inFreelistOp : Bool
  deriving DecidableEq, Repr

namespace Txn

/-- A transaction that has taken nothing yet. -/
def start (entries : List FreeEntry) (highWater : ℕ) : Txn :=
  { entries := entries
    cursor := 0
    reusable := []
    runPool := []
    runOwn := []
    dirty := []
    allocatedRuns := []
    freed := []
    freedRuns := []
    highWater := highWater
    inFreelistOp := false }

/-- Draws the next entry if the snapshots that need its pages are gone. `frontier` is the newest
durable transaction where the mode defers durability; the reuse of runs waits for it. -/
def refillReusable (t : Txn) (bound : ℕ) (frontier : Option ℕ) : Option Txn :=
  if t.inFreelistOp then none
  else match t.entries[t.cursor]? with
    | none => none
    | some e =>
      if e.txn > bound then none
      else match e.kind with
        | .pages => some { t with reusable := t.reusable ++ e.ids, cursor := t.cursor + 1 }
        | .runs =>
          if frontier.any (e.txn > ·) then none
          else some { t with runPool := t.runPool ++ e.ids, cursor := t.cursor + 1 }

/-- Takes a page from the pool, or the next one at the high water mark when the pool is empty. -/
def alloc (t : Txn) (p : ℕ) : Option Txn :=
  if p ∈ t.reusable then
    some { t with reusable := t.reusable.erase p, dirty := p :: t.dirty }
  else if t.reusable = [] ∧ p = t.highWater then
    some { t with dirty := p :: t.dirty, highWater := t.highWater + 1 }
  else none

/-- `alloc_run`: a page of an extent. -/
def allocRun (t : Txn) (p : ℕ) : Option Txn :=
  if p ∈ t.runPool then
    some { t with runPool := t.runPool.erase p, allocatedRuns := p :: t.allocatedRuns }
  else if p ∈ t.runOwn then
    some { t with runOwn := t.runOwn.erase p, allocatedRuns := p :: t.allocatedRuns }
  else if p = t.highWater then
    some { t with allocatedRuns := p :: t.allocatedRuns, highWater := t.highWater + 1 }
  else none

/-- A page this transaction took goes back to the pool, unless the freelist is being written. -/
def free (t : Txn) (p : ℕ) : Option Txn :=
  if p ∈ t.dirty ∧ t.inFreelistOp = false then
    some { t with dirty := t.dirty.erase p, reusable := p :: t.reusable }
  else if p ∈ t.freed then none
  else some { t with dirty := t.dirty.erase p, freed := p :: t.freed }

/-- `free_extent`, page by page: a run of this transaction can be used again at once. -/
def freeExtent (t : Txn) (p : ℕ) : Txn :=
  if p ∈ t.allocatedRuns then
    { t with allocatedRuns := t.allocatedRuns.erase p, runOwn := p :: t.runOwn }
  else { t with freedRuns := p :: t.freedRuns }

/-- The entries taken from the list. -/
def taken (t : Txn) : List FreeEntry := t.entries.take t.cursor

/-- The single pages of the entries taken. -/
def takenPages (t : Txn) : List ℕ := pagesOf (t.taken.filter (·.kind = .pages))

/-- What is left of an entry that was taken. -/
def kept (t : Txn) (e : FreeEntry) : List ℕ :=
  match e.kind with
  | .pages => e.ids.filter (· ∈ t.reusable)
  | .runs => e.ids.filter (· ∈ t.runPool)

/-- A drawn entry as the commit leaves it; an entry drawn dry goes away. -/
def writeBack (t : Txn) : List FreeEntry :=
  t.taken.filterMap fun e => if t.kept e = [] then none else some { e with ids := t.kept e }

/-- The single pages that this commit frees. -/
def ownPages (t : Txn) : List ℕ := t.freed ++ t.reusable.filter (· ∉ t.takenPages)

/-- The extent pages that this commit frees. -/
def ownRuns (t : Txn) : List ℕ := t.freedRuns ++ t.runOwn

/-- The entries of a commit for the pages that it frees, chunk by chunk. -/
def ownEntries (newTxn : ℕ) (kind : EntryKind) (chunks : List (List ℕ)) : List FreeEntry :=
  chunks.zipIdx.map fun c => ⟨newTxn, kind, c.2, c.1⟩

/-- `freelist_plan`: the list after the commit. -/
def freelistPlan (t : Txn) (newTxn : ℕ) (pageChunks runChunks : List (List ℕ)) :
    Option (List FreeEntry) :=
  if pageChunks.flatten.isPerm t.ownPages ∧ runChunks.flatten.isPerm t.ownRuns then
    some (t.writeBack ++ t.entries.drop t.cursor ++ ownEntries newTxn .pages pageChunks ++
      ownEntries newTxn .runs runChunks)
  else none

end Txn

end Mpedb
