import Mathlib.Data.List.InsertIdx
import Mpedb.Lib.Bytes

/-!
# Slotted pages

A page with a header, then an array of two-byte slots, one for each cell, in the order of the cells.
The cells lie anywhere at or above `start`, and the slots say where.
-/

/-- The slots, the lowest place of a cell and the bytes of a page. -/
structure Slotted where
  slots : List ℕ
  start : ℕ
  body : ℕ → UInt8

namespace Slotted

/-- The `n` bytes at `off`. -/
def read (b : ℕ → UInt8) (off : ℕ) : ℕ → List UInt8
  | 0 => []
  | n + 1 => b off :: read b (off + 1) n

/-- Overwrites the bytes at `pos`. -/
def write (b : ℕ → UInt8) (pos : ℕ) (l : List UInt8) : ℕ → UInt8 := fun i =>
  if pos ≤ i then l[i - pos]?.getD (b i) else b i

/-- Writes a cell below the others and inserts its slot. -/
def place (i : ℕ) (c : List UInt8) (s : Slotted) : Slotted :=
  { slots := s.slots.insertIdx i (s.start - c.length)
    start := s.start - c.length
    body := write s.body (s.start - c.length) c }

/-- Forgets a slot; the bytes of the cell stay. -/
def dropSlot (i : ℕ) (s : Slotted) : Slotted := { s with slots := s.slots.eraseIdx i }

/-- The cells one after the other, from the page's end downwards. -/
def pack (size : ℕ) (cells : List (List UInt8)) (s : Slotted) : Slotted :=
  cells.foldl (fun t c => t.place t.slots.length c) { s with slots := [], start := size }

/-- `l` over a part of cell `i` that starts at its byte `k`. -/
def patch (i k : ℕ) (l : List UInt8) (s : Slotted) : Slotted :=
  { s with body := write s.body (s.slots.getD i 0 + k) l }

end Slotted
