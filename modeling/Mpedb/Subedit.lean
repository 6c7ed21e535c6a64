import Mathlib.Data.List.Basic
import Mathlib.Data.Int.Cast.Defs

/-!
# Sub-edits

A splice removes bytes of a value and puts others in their place. One that was decided against an
older version is rebased through the splices that were committed since (`mpedb-types`,
`subedit.rs`). Offsets are `u64`s in the source; where a sum can leave that range, the results say
so.
-/

namespace Mpedb

/-- Remove `remove` bytes at `offset` and put `insert` there. -/
structure Splice where
  offset : ℕ
  remove : ℕ
  insert : List UInt8
  deriving DecidableEq, Repr

/-- Why a splice cannot be moved. -/
inductive Clash
  | removedSpansOverlap
  | insertedInsideMyRemoval
  | myPositionWasRemoved
  deriving DecidableEq, Repr

namespace Splice

/-- The end of what a splice removes. -/
def stop (e : Splice) : ℕ := e.offset + e.remove

/-- By how much a splice lets the text grow. -/
def delta (e : Splice) : ℤ := (e.insert.length : ℤ) - e.remove

/-- Why `mine` cannot be carried past `earlier`; two pure insertions never clash. -/
def clash (mine earlier : Splice) : Option Clash :=
  if 0 < mine.remove ∧ 0 < earlier.remove then
    if mine.offset < earlier.stop ∧ earlier.offset < mine.stop then
      some .removedSpansOverlap else none
  else if 0 < mine.remove then
    if mine.offset < earlier.offset ∧ earlier.offset < mine.stop then
      some .insertedInsideMyRemoval else none
  else if 0 < earlier.remove then
    if earlier.offset < mine.offset ∧ mine.offset < earlier.stop then
      some .myPositionWasRemoved else none
  else none

/-- An edit that ended at or before the start of `mine` moves it by its change of length. -/
def shift (mine earlier : Splice) : Splice :=
  { mine with offset := if earlier.stop ≤ mine.offset
      then mine.offset + earlier.insert.length - earlier.remove else mine.offset }

/-- The splice to apply to the value that `earlier` left. -/
def rebase (mine earlier : Splice) : Except Clash Splice :=
  match clash mine earlier with
  | some c => .error c
  | none => .ok (shift mine earlier)

/-- `rebase_through`: over a list of splices, one after the other. -/
def rebaseThrough (mine : Splice) (history : List Splice) : Except Clash Splice :=
  history.foldlM rebase mine

/-- Out-of-range offsets are clamped. -/
def apply (e : Splice) (buf : List UInt8) : List UInt8 :=
  let lo := min e.offset buf.length
  let hi := min (lo + e.remove) buf.length
  buf.take lo ++ e.insert ++ buf.drop hi

end Splice

end Mpedb
