import Mpedb.Session

/-!
# Histories of commits over the footprint ring

Writers take the writer lock one after another. Each records its footprint in the slot of the next
transaction id and then flips the meta; one that dies before the flip leaves some of its stores in
the slot, and the next writer works under the same id.
-/

namespace Mpedb

/-- A transaction that commits: the calls of a session (a ring leader, a serial statement, a
streaming insert and DDL among them), or the blind apply of one row by the optimistic path. -/
inductive OptCommit
  | session (steps : List SessionStep)
  | optimistic (w : RowWrite)

/-- What a commit leaves and what it notes as written. -/
def OptCommit.run (c : Contents) : OptCommit → Contents × Written
  | .session steps =>
    (((SessionState.start c).run steps).contents, ((SessionState.start c).run steps).written)
  | .optimistic w =>
    (c.write w, (Written.fresh.markTable w.table).setCommitPoint w.table (keyHash w.key))

/-- The ring, the newest committed transaction id, the rows each id left, and whether a writer has
died since the last commit with stores made. -/
structure OptSystem where
  ring : OptRing
  current : ℕ
  contents : ℕ → Contents
  torn : Bool

namespace OptSystem

/-- The system after the commit `n`, with nothing in the ring. -/
def start (n : ℕ) (c : Contents) : OptSystem := ⟨.zeroed, n, fun _ => c, false⟩

/-- What writers do to the ring. -/
inductive Step
  | commit (x : OptCommit)
  /-- A writer dies after its first `k` stores to the slot, the meta flip not made. -/
  | die (x : OptCommit) (k : ℕ)

variable (s : OptSystem)

/-- The footprint of the commit that comes next. -/
def next (x : OptCommit) : CommitFootprint := (x.run (s.contents s.current)).2.footprint

/-- A commit writes its slot and flips the meta; a writer that dies leaves a torn slot. -/
def step : Step → Option OptSystem
  | .commit x => some
    { ring := s.ring.optRecord (s.current + 1) (s.next x)
      current := s.current + 1
      contents := Function.update s.contents (s.current + 1) (x.run (s.contents s.current)).1
      torn := false }
  | .die x k => some
    { s with
      ring := s.ring.storeAll (s.current + 1)
        ((OptRing.recordStores (s.current + 1) (s.next x)).take k)
      torn := s.torn || 0 < k }

end OptSystem

end Mpedb
