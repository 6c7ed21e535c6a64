import Mpedb.PageStore

/-!
# The copy-on-write B+tree

Every change copies the pages from the root to the leaf, apart from those that are dirty. Root 0 is
the empty tree. Values above `maxInlineVal` bytes go to a chain of overflow pages. The recursion
goes down the tree by page numbers, so it takes the number of levels it may visit.
-/

namespace Mpedb.Btree

open PageStore

variable {σ : Type} [PageStore σ]

/-- A value that is produced on demand. It fails when it is asked past byte `failAt`. -/
structure BlobSource where
  bytes : List UInt8
  failAt : Option ℕ

/-- What a value is handed over as: bytes, slices of bytes, a stream, or a reference to pages or
content. -/
inductive Payload
  | flat (bytes : List UInt8)
  | parts (pieces : List (List UInt8))
  | stream (head : List UInt8) (src : BlobSource)
  | extentRef (startPage totalLen npages : ℕ)
  | externalRef (hash totalLen : ℕ)

namespace Payload

/-- The length that the limits are checked against; for a reference it is the length of the
reference. -/
def len : Payload → ℕ
  | flat b => b.length
  | parts ps => (ps.map List.length).sum
  | stream head src => head.length + src.bytes.length
  | extentRef .. => extentRefLen
  | externalRef .. => externalRefLen

/-- The bytes of a value that is not a stream or a reference. -/
def pieces : Payload → List (List UInt8)
  | flat b => [b]
  | parts ps => ps
  | _ => []

end Payload

/-- What is left of a payload: the pieces, or a source and how far it has been read. -/
inductive PayloadReader
  | slices (pieces : List (List UInt8))
  | stream (src : BlobSource) (done : ℕ)

namespace PayloadReader

/-- The next `n` bytes of the pieces. -/
def fillSlices : ℕ → List (List UInt8) → Except Error (List UInt8 × List (List UInt8))
  | 0, ps => .ok ([], ps)
  | _ + 1, [] => .error (corrupt "payload shorter than its own length")
  | n + 1, p :: ps =>
    if n + 1 ≤ p.length then .ok (p.take (n + 1), p.drop (n + 1) :: ps)
    else do
      let (more, ps') ← fillSlices (n + 1 - p.length) ps
      .ok (p ++ more, ps')

/-- The next `n` bytes of the payload; a stream may fail on the way. -/
def fill (n : ℕ) : PayloadReader → Except Error (List UInt8 × PayloadReader)
  | slices ps => do
    let (b, ps') ← fillSlices n ps
    .ok (b, slices ps')
  | stream src done =>
    if src.failAt.any (· < done + n) then .error (.internal "blob source failed")
    else .ok ((src.bytes.drop done).take n, stream src (done + n))

end PayloadReader

/-- The row head that precedes a source's bytes, and the reader of the rest. -/
def Payload.reader : Payload → List UInt8 × PayloadReader
  | stream head src => (head, .stream src 0)
  | val => ([], .slices val.pieces)

/-- Fills an overflow page with `take` bytes: first of what is left of the head, then of the
reader. The bytes after them are zeroed. -/
def fillOverflow (take : ℕ) (head : List UInt8) (r : PayloadReader) :
    Fallible Page Error (List UInt8 × PayloadReader) := do
  Fallible.modify fun p => { p.initNode .overflow with payloadLen := take }
  let n := min take head.length
  Fallible.modify fun p => { p with body := Slotted.write p.body hdr (head.take n) }
  let (b, r') ← Fallible.lift (if n < take then r.fill (take - n) else .ok ([], r))
  Fallible.modify fun p =>
    { p with
      body := Slotted.write (Slotted.write p.body (hdr + n) b) (hdr + take)
        (List.replicate (pageSize - (hdr + take)) 0) }
  pure (head.drop n, r')

/-- The page before, if there is one, gets its successor. -/
def linkPage (first prev id : ℕ) : Fallible σ Error Unit :=
  if first = 0 then pure () else update prev (Fallible.modify (Page.setExtra id))

/-- Writes `left` bytes, a page each round, and links each page to the one before it. -/
def writeOverflowLoop : ℕ → ℕ → List UInt8 → PayloadReader → ℕ → ℕ → Fallible σ Error ℕ
  | 0, _, _, _, _, _ => Fallible.fail (.internal "overflow rounds")
  | fuel + 1, left, head, r, first, prev => do
    let take := min overflowCap left
    let id ← allocRaw
    let (head', r') ← update id (fillOverflow take head r)
    linkPage first prev id
    let first' := if first = 0 then id else first
    if left - take = 0 then pure first'
    else writeOverflowLoop fuel (left - take) head' r' first' id

/-- `write_overflow`: the value goes to a new chain of pages; the result is the first page. -/
def writeOverflow (val : Payload) : Fallible σ Error ℕ :=
  let (head, r) := val.reader
  writeOverflowLoop (val.len / overflowCap + 1) val.len head r 0 0

/-- The chain for a value that is too long for a cell, else 0. -/
def spill (val : Payload) : Fallible σ Error ℕ :=
  if maxInlineVal < val.len then writeOverflow val else pure 0

/-- Frees a chain; a chain of more pages than `left` is taken for a cycle. -/
def freeOverflowLoop : ℕ → ℕ → Fallible σ Error Unit
  | left, id =>
    if id = 0 then pure ()
    else match left with
      | 0 => Fallible.fail (corrupt "overflow chain cycle")
      | left + 1 => do
        let p ← load id
        if p.kind ≠ .overflow then
          Fallible.fail (corrupt "free_overflow reached a non-overflow page")
        else do
          free id
          freeOverflowLoop left p.extra

/-- The pages of a chain that `free_overflow` can free: it gives up before the next. -/
abbrev maxChain : ℕ := pageSize * 16 + 1

/-- `free_overflow`: frees the chain, page by page. -/
def freeOverflow (firstPage : ℕ) : Fallible σ Error Unit := freeOverflowLoop maxChain firstPage

/-- What a leaf cell owns outside the tree's nodes is given back. -/
def freeOldVal : LeafVal → Fallible σ Error Unit
  | .inline _ => pure ()
  | .overflow _ first => freeOverflow first
  | .extent start _ npages => freeExtent start npages
  | .external hash _ => releaseExternal hash

/-- `make_leaf_cell`: the length of the key, the kind of the value, the key, and the value. -/
def makeLeafCell (key : List UInt8) (val : Payload) (overflowPage : ℕ) : List UInt8 :=
  match val with
  | .extentRef start total npages =>
    Bytes.le 2 key.length ++ 2 :: key ++ Bytes.le 8 start ++ Bytes.le 8 total ++ Bytes.le 4 npages
  | .externalRef hash total =>
    Bytes.le 2 key.length ++ 4 :: key ++ Bytes.le 16 hash ++ Bytes.le 8 total
  | _ =>
    if overflowPage = 0 then
      Bytes.le 2 key.length ++ 0 :: key ++ Bytes.le 2 val.len ++ val.pieces.flatten
    else Bytes.le 2 key.length ++ 1 :: key ++ Bytes.le 4 val.len ++ Bytes.le 8 overflowPage

/-- `make_branch_cell`: the length of the key, the key, and the child to its right. -/
def makeBranchCell (key : List UInt8) (child : ℕ) : List UInt8 :=
  Bytes.le 2 key.length ++ key ++ Bytes.le 8 child

/-- Cells that are inserted one behind the other, from the slot `i` on. -/
def appendCells : ℕ → List (List UInt8) → Fallible Page Error Unit
  | _, [] => pure ()
  | i, c :: cells => do
    Page.insertCell i c
    appendCells (i + 1) cells

/-- `rebuild`: the node is initialised and its cells are written again. -/
def rebuild (kind : PageKind) (cells : List (List UInt8)) (leftmost : ℕ) :
    Fallible Page Error Unit := do
  Fallible.modify fun p =>
    if kind = .branch then (p.initNode kind).setExtra leftmost else p.initNode kind
  appendCells 0 cells

/-- Spreads `cells`, those of a node that is too full, over `pageId` and a fresh page. Gives the
first key of the right node and the right node. -/
def splitDirty (pageId : ℕ) (kind : PageKind) (cells : List (List UInt8)) (leftmost : ℕ) :
    Fallible σ Error (List UInt8 × ℕ) :=
  match splitPoint (kind = .leaf) (cells.map List.length) with
  | none => Fallible.fail (corrupt "no feasible split point (oversized cells)")
  | some splitAt => do
    let rightId ← alloc
    let c := cells.getD splitAt []
    let klen := leAt c 0 2
    if kind = .leaf then do
      update pageId (rebuild kind (cells.take splitAt) leftmost)
      update rightId (rebuild kind (cells.drop splitAt) 0)
      pure ((c.drop 3).take klen, rightId)
    else do
      -- the separator moves up: its child becomes the right node's leftmost
      update pageId (rebuild kind (cells.take splitAt) leftmost)
      update rightId (rebuild kind (cells.drop (splitAt + 1)) (leAt c (2 + klen) 8))
      pure ((c.drop 2).take klen, rightId)

/-- Whether an existing key is left alone or replaced. -/
inductive InsertMode
  | insertOnly
  | upsert
  deriving DecidableEq, Repr

/-- What became of a node: it is now `id`, or it was split at `sep`. -/
inductive Ins
  | done (id : ℕ) (existed : Bool)
  | split (left : ℕ) (sep : List UInt8) (right : ℕ) (existed : Bool)

/-- The bytes of a stream that is short enough for a cell, read in one go. -/
def drain (val : Payload) : Except Error (Option (List UInt8)) :=
  match val with
  | .stream head src =>
    if head.length + src.bytes.length ≤ maxInlineVal then
      if src.bytes = [] then .ok (some head)
      else do
        let (b, _) ← (PayloadReader.stream src 0).fill src.bytes.length
        .ok (some (head ++ b))
    else .ok none
  | _ => .ok none

/-- The cell of a value, which spills what does not fit inline. -/
def writeCell (key : List UInt8) (val : Payload) : Fallible σ Error (List UInt8) := do
  match ← Fallible.lift (drain val) with
  | some b => pure (makeLeafCell key (.flat b) 0)
  | none =>
    match val with
    | .extentRef .. => pure (makeLeafCell key val 0)
    | .externalRef .. => pure (makeLeafCell key val 0)
    | _ => do
      let op ← spill val
      pure (makeLeafCell key val op)

/-- The cell is inserted into the node, or the node is split around it. -/
def addCell (id pos : ℕ) (kind : PageKind) (cell : List UInt8) (existed : Bool) :
    Fallible σ Error Ins := do
  let p ← load id
  if ← Fallible.lift (p.fits cell.length) then
    update id (Page.insertCell pos cell)
    pure (.done id existed)
  else do
    let cells ← Fallible.lift p.allCells
    let leftmost := if kind = .branch then p.extra else 0
    let (sep, right) ← splitDirty id kind (cells.insertIdx pos cell) leftmost
    pure (.split id sep right existed)

/-- The old cell and what it owns are given back. -/
def dropCell (id pos : ℕ) : Fallible σ Error Unit := do
  let p ← load id
  let (_, old) ← Fallible.lift (p.leafCell pos)
  freeOldVal old
  update id (Fallible.modify (Page.removeCell pos))

/-- The leaf level of `insert_rec`. -/
def insertLeaf (pageId : ℕ) (key : List UInt8) (val : Payload) (mode : InsertMode) :
    Fallible σ Error Ins := do
  let p ← load pageId
  match ← Fallible.lift (p.search key) with
  | .hit pos =>
    if mode = .insertOnly then pure (.done pageId true)
    else do
      let id ← cow pageId
      dropCell id pos
      let cell ← writeCell key val
      addCell id pos .leaf cell true
  | .gap pos => do
    let id ← cow pageId
    let cell ← writeCell key val
    addCell id pos .leaf cell false

/-- What a branch does with the result of its child. -/
def insertBranch (pageId idx child : ℕ) : Ins → Fallible σ Error Ins
  | .done id existed => do
    let dirty ← Fallible.reading fun s : σ => .ok (isDirty s pageId)
    if id = child ∧ dirty = false then pure (.done pageId existed)
    else do
      let myId ← cow pageId
      update myId (Page.setBranchChild idx id)
      pure (.done myId existed)
  | .split left sep right existed => do
    let myId ← cow pageId
    update myId (Page.setBranchChild idx left)
    addCell myId idx .branch (makeBranchCell sep right) existed

/-- `insert_rec`: down to the leaf and back with splits. -/
def insertRec : ℕ → ℕ → List UInt8 → Payload → InsertMode → Fallible σ Error Ins
  | 0, _, _, _, _ => Fallible.fail (.internal "recursion limit")
  | fuel + 1, pageId, key, val, mode => do
    let p ← load pageId
    Fallible.lift p.checkNode
    match p.kind with
    | .leaf => insertLeaf pageId key val mode
    | .branch => do
      let p ← load pageId
      let idx ← Fallible.lift (p.descentIndex key)
      let child ← Fallible.lift (p.branchChild idx)
      let res ← insertRec fuel child key val mode
      insertBranch pageId idx child res
    | _ => Fallible.fail (corrupt "unexpected page kind in insert")

/-- The new root, and whether the key was there. -/
structure Outcome where
  newRoot : ℕ
  existed : Bool
  deriving DecidableEq, Repr

/-- The first leaf. The cell is made from the payload as it is. -/
def insertFirst (key : List UInt8) (val : Payload) : Fallible σ Error Outcome := do
  let id ← alloc
  update id (Fallible.modify (Page.initNode .leaf))
  let op ← spill val
  update id (Page.insertCell 0 (makeLeafCell key val op))
  pure ⟨id, false⟩

/-- A split of the root gets a new root above it. -/
def growRoot : Ins → Fallible σ Error Outcome
  | .done id existed => pure ⟨id, existed⟩
  | .split left sep right existed => do
    let newRoot ← alloc
    update newRoot (Fallible.modify fun p => (p.initNode .branch).setExtra left)
    update newRoot (Page.insertCell 0 (makeBranchCell sep right))
    pure ⟨newRoot, existed⟩

/-- `insert`: checks the limits of key and value, and inserts from the root. -/
def insert (levels root : ℕ) (key : List UInt8) (val : Payload) (mode : InsertMode) :
    Fallible σ Error Outcome :=
  if maxKey < key.length then
    Fallible.fail (.unsupported s!"encoded key is {key.length} bytes (max {maxKey})")
  else if 2 ^ 32 ≤ val.len then Fallible.fail (.unsupported "value larger than 4 GiB")
  else if root = 0 then insertFirst key val
  else do
    let ins ← insertRec levels root key val mode
    growRoot ins

/-- The page is compacted if the cell does not fit into its free space. -/
def compactFor (id : ℕ) (cell : List UInt8) : Fallible σ Error Unit := do
  let p ← load id
  if p.freeSpace < cell.length + 2 then update id Page.compact else pure ()

/-- The cells of the right leaf move into the left one, from the slot `i` on. -/
def mergeCells (left : ℕ) : ℕ → List (List UInt8) → Fallible σ Error Unit
  | _, [] => pure ()
  | i, c :: cells => do
    compactFor left c
    update left (Page.insertCell i c)
    mergeCells left (i + 1) cells

/-- Merges the children `li` and `li + 1` of a branch where both are leaves whose cells fit one
page. -/
def mergeLeaves (branchId li : ℕ) : Fallible σ Error Unit := do
  let b ← load branchId
  let left ← Fallible.lift (b.branchChild li)
  let right ← Fallible.lift (b.branchChild (li + 1))
  let l ← load left
  Fallible.lift l.checkNode
  let r ← load right
  Fallible.lift r.checkNode
  if l.kind ≠ .leaf ∨ r.kind ≠ .leaf then pure ()
  else do
    let usedLeft ← Fallible.lift l.usedCellBytes
    let usedRight ← Fallible.lift r.usedCellBytes
    if pageSize - hdr < usedLeft + usedRight + (l.nkeys + r.nkeys) * 2 then pure ()
    else do
      let left ← cow left
      let r ← load right
      let rightCells ← Fallible.lift r.allCells
      let l ← load left
      mergeCells left l.nkeys rightCells
      free right
      update branchId do
        Page.setBranchChild li left
        -- the separator between the two
        Fallible.modify (Page.removeCell li)

/-- Merges child `idx` with a sibling where it is a leaf that is under-filled: with the right
sibling if there is one, else with the left. -/
def tryMergeLeaves (branchId idx : ℕ) : Fallible σ Error Unit := do
  let b ← load branchId
  let child ← Fallible.lift (b.branchChild idx)
  let c ← load child
  Fallible.lift c.checkNode
  if c.kind ≠ .leaf then pure ()
  else do
    let used ← Fallible.lift c.usedCellBytes
    if (pageSize - hdr) / 4 ≤ used + c.nkeys * 2 then pure ()
    else if idx < b.nkeys then mergeLeaves branchId idx
    else if 0 < idx then mergeLeaves branchId (idx - 1)
    else pure ()

/-- The node that takes a node's place, 0 where it became empty and was freed. -/
structure Del where
  newId : ℕ
  existed : Bool

/-- The leaf level of `delete_rec`: a leaf without cells is freed. -/
def deleteLeaf (pageId : ℕ) (key : List UInt8) : Fallible σ Error Del := do
  let p ← load pageId
  match ← Fallible.lift (p.search key) with
  | .gap _ => pure ⟨pageId, false⟩
  | .hit pos => do
    let id ← cow pageId
    dropCell id pos
    let p ← load id
    if p.nkeys = 0 then do
      free id
      pure ⟨0, true⟩
    else pure ⟨id, true⟩

/-- A branch forgets the child `idx`, which has become empty. -/
def dropChild (myId idx : ℕ) (existed : Bool) : Fallible σ Error Del := do
  let p ← load myId
  match idx with
  | 0 =>
    if p.nkeys = 0 then do
      free myId
      pure ⟨0, existed⟩
    else do
      let (_, newLeftmost) ← Fallible.lift (p.branchCell 0)
      update myId (Fallible.modify fun p => (p.setExtra newLeftmost).removeCell 0)
      pure ⟨myId, existed⟩
  | i + 1 => do
    update myId (Fallible.modify (Page.removeCell i))
    pure ⟨myId, existed⟩

/-- What a branch does with the result of its child: replace it, try to merge, or forget it. -/
def deleteBranch (pageId idx child : ℕ) (res : Del) : Fallible σ Error Del := do
  let dirty ← Fallible.reading fun s : σ => .ok (isDirty s pageId)
  if res.existed = false ∧ res.newId = child ∧ dirty = false then pure ⟨pageId, false⟩
  else do
    let myId ← cow pageId
    if res.newId ≠ 0 then do
      update myId (Page.setBranchChild idx res.newId)
      tryMergeLeaves myId idx
      pure ⟨myId, res.existed⟩
    else dropChild myId idx res.existed

/-- `delete_rec`: down to the leaf and back. -/
def deleteRec : ℕ → ℕ → List UInt8 → Fallible σ Error Del
  | 0, _, _ => Fallible.fail (.internal "recursion limit")
  | fuel + 1, pageId, key => do
    let p ← load pageId
    Fallible.lift p.checkNode
    match p.kind with
    | .leaf => deleteLeaf pageId key
    | .branch => do
      let p ← load pageId
      let idx ← Fallible.lift (p.descentIndex key)
      let child ← Fallible.lift (p.branchChild idx)
      let res ← deleteRec fuel child key
      deleteBranch pageId idx child res
    | _ => Fallible.fail (corrupt "unexpected page kind in delete")

/-- A root branch without separators gives way to its child, as often as that holds. -/
def collapseRoot : ℕ → ℕ → Fallible σ Error ℕ
  | 0, _ => Fallible.fail (.internal "recursion limit")
  | fuel + 1, root =>
    if root = 0 then pure 0
    else do
      let p ← load root
      if p.kind = .branch ∧ p.nkeys = 0 then do
        free root
        collapseRoot fuel p.extra
      else pure root

/-- `delete`: deletes from the root and collapses it while it has one child. -/
def delete (levels root : ℕ) (key : List UInt8) : Fallible σ Error Outcome :=
  if root = 0 then pure ⟨0, false⟩
  else do
    let res ← deleteRec levels root key
    let newRoot ← collapseRoot levels res.newId
    pure ⟨newRoot, res.existed⟩

end Mpedb.Btree
