import Mpedb.Lib.Slotted
import Mpedb.Lib.Fallible
import Mpedb.Value

/-!
# Pages of the B+tree

A leaf cell is a key length, the kind of the value, the key and the value or a reference to it; a
branch cell is a key length, a separator and the child that holds the keys from the separator on.
The pages may be corrupt, so every read of a cell is checked.
-/

namespace Mpedb.Btree

/-- `PAGE_SIZE`. -/
abbrev pageSize : ℕ := 4096

/-- `MAX_KEY`, in bytes of the encoded key. -/
abbrev maxKey : ℕ := 976

/-- `MAX_INLINE_VAL`: longer values go to overflow pages. -/
abbrev maxInlineVal : ℕ := 1024

/-- The length of the header of a node. -/
abbrev hdr : ℕ := 16

/-- The bytes of a value in one overflow page. -/
abbrev overflowCap : ℕ := pageSize - hdr
/-- Of a reference to a run of pages: first page, length, number of pages. -/
abbrev extentRefLen : ℕ := 20
/-- Of a reference to a payload outside the file: hash of the contents, length. -/
abbrev externalRefLen : ℕ := 24

/-- `blank` is every byte that is no node's: a zeroed page has it. -/
inductive PageKind
  | blank
  | branch
  | leaf
  | overflow
  deriving DecidableEq, Repr

/-- `extra` is the leftmost child of a branch and the next page of an overflow chain. -/
structure Page extends Slotted where
  kind : PageKind
  payloadLen : ℕ
  extra : ℕ

/-- The error of a damaged tree. -/
def corrupt (msg : String) : Error := .corrupt ("btree: " ++ msg)

namespace Page

/-- A page of zeros. -/
def zeroed : Page :=
  { slots := [], start := 0, body := fun _ => 0, kind := .blank, payloadLen := 0, extra := 0 }

/-- The number of cells. -/
def nkeys (p : Page) : ℕ := p.slots.length

/-- The offset of a cell. -/
def slot (p : Page) (i : ℕ) : ℕ := p.slots.getD i 0

/-- Sets the leftmost child of a branch or the next page of a chain. -/
def setExtra (id : ℕ) (p : Page) : Page := { p with extra := id }

/-- Clears the header; the bytes after it stay. -/
def initNode (k : PageKind) (p : Page) : Page :=
  { p with slots := [], start := pageSize, kind := k, payloadLen := 0, extra := 0 }

/-- `check_node`: the kind is known and the slots lie before the cells. -/
def checkNode (p : Page) : Except Error Unit :=
  match p.kind with
  | .overflow => .ok ()
  | .blank => .error (corrupt "bad page kind")
  | _ =>
    if (pageSize - hdr) / 2 < p.nkeys ∨ ¬(hdr ≤ p.start ∧ p.start ≤ pageSize) ∨
        p.start < hdr + p.nkeys * 2 then
      .error (corrupt "corrupt node header")
    else .ok ()

/-- The bytes from the start of a cell to the end of the page. -/
def cellBytes (p : Page) (i : ℕ) : Except Error (List UInt8) :=
  if hdr ≤ p.slot i ∧ p.slot i < pageSize then
    .ok (Slotted.read p.body (p.slot i) (pageSize - p.slot i))
  else .error (corrupt "cell offset out of range")

end Page

/-- A value as a leaf cell holds it. -/
inductive LeafVal
  | inline (bytes : List UInt8)
  | overflow (totalLen firstPage : ℕ)
  | extent (startPage totalLen npages : ℕ)
  | external (hash totalLen : ℕ)
  deriving DecidableEq, Repr

/-- The `n` bytes at `off` as a little-endian number. -/
def leAt (rest : List UInt8) (off n : ℕ) : ℕ := Bytes.ofLe ((rest.drop off).take n)

/-- An extent reference is checked: its pages must hold just its bytes. -/
def extentOf (startPage totalLen npages : ℕ) : Except Error LeafVal :=
  -- the sums are checked in 64 bits
  if 2 ^ 64 ≤ totalLen + (pageSize - 1) then .error (corrupt "extent length overflow")
  else if npages ≠ (totalLen + (pageSize - 1)) / pageSize ∨ npages = 0 then
    .error (corrupt "extent length/page-count mismatch")
  else if 2 ^ 64 ≤ startPage + npages then
    .error (corrupt "extent run overflows the page space")
  else .ok (.extent startPage totalLen npages)

/-- Reads the value of a leaf cell by its kind. -/
def leafValOf (vkind : ℕ) (rest : List UInt8) : Except Error LeafVal :=
  match vkind with
  | 0 =>
    if rest.length < 2 then .error (corrupt "truncated inline len")
    else if rest.length < 2 + leAt rest 0 2 then .error (corrupt "truncated inline value")
    else .ok (.inline ((rest.drop 2).take (leAt rest 0 2)))
  | 1 =>
    if rest.length < 12 then .error (corrupt "truncated overflow ref")
    else .ok (.overflow (leAt rest 0 4) (leAt rest 4 8))
  | 4 =>
    if rest.length < externalRefLen then .error (corrupt "truncated external ref")
    else if leAt rest 16 8 = 0 then .error (corrupt "external ref of zero length")
    else .ok (.external (leAt rest 0 16) (leAt rest 16 8))
  | 2 =>
    if rest.length < extentRefLen then .error (corrupt "truncated extent ref")
    else extentOf (leAt rest 0 8) (leAt rest 8 8) (leAt rest 16 4)
  | 3 => .error (corrupt "extent kind base+diff is reserved but not yet supported")
  | _ => .error (corrupt "bad vkind")

/-- `leaf_cell` on the bytes of the cell. -/
def leafCellOf (c : List UInt8) : Except Error (List UInt8 × LeafVal) :=
  if c.length < 3 then .error (corrupt "truncated leaf cell")
  else if c.length < 3 + leAt c 0 2 then .error (corrupt "truncated key")
  else do
    let val ← leafValOf (leAt c 2 1) (c.drop (3 + leAt c 0 2))
    .ok ((c.drop 3).take (leAt c 0 2), val)

/-- `branch_cell` on the bytes of the cell. -/
def branchCellOf (c : List UInt8) : Except Error (List UInt8 × ℕ) :=
  if c.length < 2 then .error (corrupt "truncated branch cell")
  else if c.length < 2 + leAt c 0 2 then .error (corrupt "truncated key")
  else if c.length < 2 + leAt c 0 2 + 8 then .error (corrupt "truncated child")
  else .ok ((c.drop 2).take (leAt c 0 2), leAt c (2 + leAt c 0 2) 8)

/-- The bytes that a value takes in its cell. -/
def LeafVal.cellLen : LeafVal → ℕ
  | .inline v => 2 + v.length
  | .overflow .. => 12
  | .extent .. => extentRefLen
  | .external .. => externalRefLen

namespace Page

/-- `leaf_cell`: key and value of a cell. -/
def leafCell (p : Page) (i : ℕ) : Except Error (List UInt8 × LeafVal) := do
  let c ← p.cellBytes i
  leafCellOf c

/-- `leaf_cell_len`. -/
def leafCellLen (p : Page) (i : ℕ) : Except Error ℕ := do
  let (key, val) ← p.leafCell i
  .ok (3 + key.length + val.cellLen)

/-- `branch_cell`: key and child of a cell. -/
def branchCell (p : Page) (i : ℕ) : Except Error (List UInt8 × ℕ) := do
  let c ← p.cellBytes i
  branchCellOf c

/-- `branch_cell_len`. -/
def branchCellLen (p : Page) (i : ℕ) : Except Error ℕ := do
  let (key, _) ← p.branchCell i
  .ok (2 + key.length + 8)

/-- `branch_child`: the child 0 is the leftmost one, the others stand in the cells. -/
def branchChild (p : Page) : ℕ → Except Error ℕ
  | 0 => .ok p.extra
  | i + 1 => do
    let (_, child) ← p.branchCell i
    .ok child

/-- `set_branch_child`: overwrites a child in its place. -/
def setBranchChild (idx child : ℕ) : Fallible Page Error Unit := fun p =>
  match idx with
  | 0 => (p.setExtra child, .ok ())
  | i + 1 =>
    let klen := Bytes.ofLe (Slotted.read p.body (p.slot i) 2)
    if pageSize < p.slot i + 2 + klen + 8 then (p, .error (corrupt "child pointer out of range"))
    else ({ p with toSlotted := p.toSlotted.patch i (2 + klen) (Bytes.le 8 child) }, .ok ())

/-- The bytes between the slots and the cells. -/
def freeSpace (p : Page) : ℕ := p.start - (hdr + p.nkeys * 2)

/-- The length of a cell of either kind of node. -/
def cellLen (p : Page) (i : ℕ) : Except Error ℕ :=
  if p.kind = .leaf then p.leafCellLen i else p.branchCellLen i

/-- `used_cell_bytes`. -/
def usedCellBytes (p : Page) : Except Error ℕ :=
  (List.range p.nkeys).foldlM (fun total i => do
    let len ← p.cellLen i
    .ok (total + len)) 0

/-- `all_cells`: the bytes of every cell, in the order of the slots. -/
def allCells (p : Page) : Except Error (List (List UInt8)) :=
  (List.range p.nkeys).mapM fun i => do
    let len ← p.cellLen i
    .ok (Slotted.read p.body (p.slot i) len)

/-- Rewrites all cells packed against the page's end. -/
def compact : Fallible Page Error Unit := fun p =>
  match p.allCells with
  | .ok cells => ({ p with toSlotted := p.toSlotted.pack pageSize cells }, .ok ())
  | .error e => (p, .error e)

/-- A cell is written below the others, and its slot is inserted. -/
def placeCell (p : Page) (i : ℕ) (cell : List UInt8) : Page :=
  { p with toSlotted := p.toSlotted.place i cell }

/-- A cell at slot `i`, after packing the others where the free space is in pieces. -/
def insertCell (i : ℕ) (cell : List UInt8) : Fallible Page Error Unit := fun p =>
  if cell.length + 2 ≤ p.freeSpace then (p.placeCell i cell, .ok ())
  else match compact p with
    | (p', .error e) => (p', .error e)
    | (p', .ok ()) =>
      if cell.length + 2 ≤ p'.freeSpace then (p'.placeCell i cell, .ok ())
      else (p', .error (.internal "insert_cell without space"))

/-- The cell's bytes stay as fragmentation. -/
def removeCell (i : ℕ) (p : Page) : Page := { p with toSlotted := p.toSlotted.dropSlot i }

/-- `fits`: whether there is room for a cell, as the page is or once it is compacted. -/
def fits (p : Page) (cellLen : ℕ) : Except Error Bool :=
  if cellLen + 2 ≤ p.freeSpace then .ok true
  else do
    let used ← p.usedCellBytes
    .ok (cellLen ≤ pageSize - (hdr + (p.nkeys + 1) * 2 + used) : Bool)

/-- Where a key is, or where it would be. -/
inductive Search
  | hit (i : ℕ)
  | gap (i : ℕ)
  deriving DecidableEq, Repr

/-- `key_at`. -/
def keyAt (p : Page) (i : ℕ) : Except Error (List UInt8) := do
  if p.kind = .leaf then
    let (key, _) ← p.leafCell i
    .ok key
  else
    let (key, _) ← p.branchCell i
    .ok key

/-- The binary search; each round makes `hi - lo` smaller, so `nkeys` rounds are enough. -/
def searchLoop (p : Page) (key : List UInt8) : ℕ → ℕ → ℕ → Except Error Search
  | 0, lo, _ => .ok (.gap lo)
  | fuel + 1, lo, hi =>
    if lo < hi then do
      let k ← p.keyAt ((lo + hi) / 2)
      if k < key then p.searchLoop key fuel ((lo + hi) / 2 + 1) hi
      else if key < k then p.searchLoop key fuel lo ((lo + hi) / 2)
      else .ok (.hit ((lo + hi) / 2))
    else .ok (.gap lo)

/-- `search`: binary search over the keys of the node. -/
def search (p : Page) (key : List UInt8) : Except Error Search :=
  p.searchLoop key p.nkeys 0 p.nkeys

/-- `descent_index`: the child that a key leads to. -/
def descentIndex (p : Page) (key : List UInt8) : Except Error ℕ := do
  match ← p.search key with
  | .hit i => .ok (i + 1)
  | .gap i => .ok i

end Page

/-- Tries the split before cell `s`, where `acc` bytes stand before the last cell that goes left.
`sizes` starts with that cell. A branch's cell `s` goes to neither side. -/
def splitLoop (leaf : Bool) (total : ℕ) :
    ℕ → ℕ → Option (ℕ × ℕ) → List ℕ → Option (ℕ × ℕ)
  | s, acc, best, a :: b :: sizes =>
    let right := if leaf then total - (acc + a) else total - (acc + a) - b
    let d := (acc + a - total / 2) + (total / 2 - (acc + a))
    let best :=
      if acc + a ≤ pageSize - hdr ∧ right ≤ pageSize - hdr ∧ best.all (fun b => d < b.2) then
        some (s, d)
      else best
    splitLoop leaf total (s + 1) (acc + a) best (b :: sizes)
  | _, _, best, _ => best

/-- The most balanced split of cells of these lengths, slots not counted, into two pages. -/
def splitPoint (leaf : Bool) (lens : List ℕ) : Option ℕ :=
  let sizes := lens.map (· + 2)
  (splitLoop leaf sizes.sum 1 0 none sizes).map Prod.fst

end Mpedb.Btree
