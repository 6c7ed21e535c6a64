import Mpedb.Btree

/-!
# Reading a B+tree

A reader sees the pages and the payloads outside them. `contentHash` is the hash that names an
external payload.
-/

namespace Mpedb.Btree

/-- What a reader sees of a snapshot: its pages, the bytes of extents and external content. -/
structure Reader where
  page : ℕ → Except Error Page
  readExtent : ℕ → ℕ → Except Error (List UInt8)
  readExternal : ℕ → ℕ → Except Error (List UInt8)
  contentHash : List UInt8 → ℕ

namespace Reader

/-- A chain's bytes; `left` more pages may follow. -/
def readOverflowLoop (r : Reader) : ℕ → ℕ → Except Error (List UInt8)
  | left, id =>
    if id = 0 then .ok []
    else match left with
      | 0 => .error (corrupt "overflow chain too long")
      | left + 1 => do
        let p ← r.page id
        if p.kind ≠ .overflow then .error (corrupt "bad overflow page kind")
        else if overflowCap < p.payloadLen then .error (corrupt "overflow chunk too large")
        else do
          let more ← r.readOverflowLoop left p.extra
          .ok (Slotted.read p.body hdr p.payloadLen ++ more)

/-- `read_overflow`: the bytes of a chain, which must be as many as the cell says. -/
def readOverflow (r : Reader) (firstPage totalLen : ℕ) : Except Error (List UInt8) := do
  let out ← r.readOverflowLoop (totalLen / overflowCap + 3) firstPage
  if out.length ≠ totalLen then .error (corrupt "overflow length mismatch") else .ok out

/-- External content is checked against its length and its hash. -/
def readExternalChecked (r : Reader) (hash totalLen : ℕ) : Except Error (List UInt8) := do
  let out ← r.readExternal hash totalLen
  if out.length ≠ totalLen then .error (corrupt "external read returned wrong length")
  else if r.contentHash out ≠ hash then
    .error (corrupt "external payload does not match its content hash")
  else .ok out

/-- `read_leaf_val`: the bytes of a value wherever they are. -/
def readLeafVal (r : Reader) : LeafVal → Except Error (List UInt8)
  | .inline v => .ok v
  | .overflow total first => r.readOverflow first total
  | .extent start total _ => do
    let out ← r.readExtent start total
    if out.length ≠ total then .error (corrupt "extent read returned wrong length") else .ok out
  | .external hash total => r.readExternalChecked hash total

/-- The leaf that a descent reaches within `levels` nodes. `next` picks the child of a branch. -/
def descend (r : Reader) (next : Page → Except Error ℕ) (badKind : String) :
    ℕ → ℕ → Except Error Page
  | 0, _ => .error (corrupt "tree too deep (cycle?)")
  | levels + 1, id => do
    let p ← r.page id
    p.checkNode
    match p.kind with
    | .branch => do
      let child ← next p
      r.descend next badKind levels child
    | .leaf => .ok p
    | _ => .error (corrupt badKind)

/-- The step of a descent towards a key. -/
def towards (key : List UInt8) (p : Page) : Except Error ℕ := do
  let idx ← p.descentIndex key
  p.branchChild idx

/-- `get`: the value under a key. -/
def get (r : Reader) (root : ℕ) (key : List UInt8) : Except Error (Option (List UInt8)) :=
  if root = 0 then .ok none
  else do
    let p ← r.descend (towards key) "unexpected page kind in descent" 64 root
    match ← p.search key with
    | .hit i => do
      let (_, val) ← p.leafCell i
      let v ← r.readLeafVal val
      .ok (some v)
    | .gap _ => .ok none

/-- `value_loc`: where the value of a key is, without its bytes. -/
def valueLoc (r : Reader) (root : ℕ) (key : List UInt8) : Except Error (Option LeafVal) :=
  if root = 0 then .ok none
  else do
    let p ← r.descend (towards key) "unexpected page kind in descent" 64 root
    match ← p.search key with
    | .hit i => do
      let (_, val) ← p.leafCell i
      .ok (some val)
    | .gap _ => .ok none

/-- The length of the value at a location. -/
def locLen : LeafVal → ℕ
  | .inline v => v.length
  | .overflow total _ => total
  | .extent _ total _ => total
  | .external _ total => total

/-- `want` bytes of a chain after the first `skip`. -/
def rangeLoop (r : Reader) : ℕ → ℕ → ℕ → ℕ → Except Error (List UInt8)
  | left, id, skip, want =>
    if id = 0 ∨ want = 0 then .ok []
    else match left with
      | 0 => .error (corrupt "overflow chain too long")
      | left + 1 => do
        let p ← r.page id
        if p.kind ≠ .overflow then .error (corrupt "bad overflow page kind")
        else if overflowCap < p.payloadLen then .error (corrupt "overflow chunk too large")
        else if p.payloadLen ≤ skip then r.rangeLoop left p.extra (skip - p.payloadLen) want
        else do
          let take := min (p.payloadLen - skip) want
          let more ← r.rangeLoop left p.extra 0 (want - take)
          .ok (Slotted.read p.body (hdr + skip) take ++ more)

/-- `read_value_range`: some bytes of a value; a range past its end is refused. -/
def readValueRange (r : Reader) (loc : LeafVal) (off want : ℕ) : Except Error (List UInt8) :=
  if want = 0 then .ok []
  else if 2 ^ 64 ≤ off + want then .error (corrupt "value range overflows")
  else if locLen loc < off + want then .error (corrupt "value range past the end of the value")
  else match loc with
    | .inline v => .ok ((v.drop off).take want)
    | .overflow total first => do
      let out ← r.rangeLoop (total / overflowCap + 3) first off want
      if out.length < want then .error (corrupt "overflow chain shorter than its total_len")
      else .ok out
    | .extent start _ _ => do
      let skip := off % pageSize
      let scratch ← r.readExtent (start + off / pageSize) (skip + want)
      if scratch.length ≠ skip + want then .error (corrupt "extent read returned wrong length")
      else .ok (scratch.drop skip)
    | .external hash total => do
      let whole ← r.readExternalChecked hash total
      .ok ((whole.drop off).take want)

end Reader

/-- An end of a scan. -/
structure Bound where
  key : List UInt8
  inclusive : Bool

/-- The branches above the leaf with the next child of each, innermost first, and the leaf with the
next cell. -/
structure Cursor where
  stack : List (ℕ × ℕ)
  leaf : Option (ℕ × ℕ)
  hi : Option Bound
  finished : Bool

namespace Reader

/-- The child in which a scan begins. -/
def firstChild (lo : Option Bound) (p : Page) : Except Error ℕ :=
  match lo with
  | none => .ok 0
  | some b => p.descentIndex b.key

/-- The cell at which a scan begins. -/
def firstCell (lo : Option Bound) (p : Page) : Except Error ℕ :=
  match lo with
  | none => .ok 0
  | some b => do
    match ← p.search b.key with
    | .hit i => .ok (if b.inclusive then i else i + 1)
    | .gap i => .ok i

/-- Down to the leaf where the scan begins, with the branches still to visit on the stack. -/
def cursorDescend (r : Reader) (lo hi : Option Bound) :
    ℕ → ℕ → List (ℕ × ℕ) → Except Error Cursor
  | 0, _, _ => .error (corrupt "tree too deep (cycle?)")
  | levels + 1, id, stack => do
    let p ← r.page id
    p.checkNode
    match p.kind with
    | .branch => do
      let idx ← firstChild lo p
      let child ← p.branchChild idx
      r.cursorDescend lo hi levels child ((id, idx + 1) :: stack)
    | .leaf => do
      let start ← firstCell lo p
      .ok ⟨stack, some (id, start), hi, false⟩
    | _ => .error (corrupt "unexpected page kind in cursor descent")

/-- `cursor`: an empty tree has nothing to scan. -/
def cursor (r : Reader) (root : ℕ) (lo hi : Option Bound) : Except Error Cursor :=
  if root = 0 then .ok ⟨[], none, hi, true⟩
  else r.cursorDescend lo hi 64 root []

/-- Down to the leftmost leaf below a page. -/
def leftmostLeaf (r : Reader) : ℕ → ℕ → List (ℕ × ℕ) → Except Error (ℕ × List (ℕ × ℕ))
  | 0, _, _ => .error (corrupt "tree too deep (cycle?)")
  | levels + 1, id, stack => do
    let q ← r.page id
    q.checkNode
    match q.kind with
    | .branch => do
      let child ← q.branchChild 0
      r.leftmostLeaf levels child ((id, 1) :: stack)
    | .leaf => .ok (id, stack)
    | _ => .error (corrupt "bad page kind in scan")

/-- Up to a branch with a child that has not been visited, then down to that child's first leaf. -/
def climb (r : Reader) (c : Cursor) : List (ℕ × ℕ) → Except Error Cursor
  | [] => .ok { c with stack := [], finished := true }
  | (branchId, next) :: stack => do
    let p ← r.page branchId
    if next ≤ p.nkeys then do
      let child ← p.branchChild next
      let (leaf, stack') ← r.leftmostLeaf 64 child ((branchId, next + 1) :: stack)
      .ok { c with stack := stack', leaf := some (leaf, 0) }
    else r.climb c stack

/-- Whether a key lies behind the upper end. -/
def beyond (hi : Option Bound) (key : List UInt8) : Bool :=
  match hi with
  | none => false
  | some b => if key < b.key then false else if key = b.key then !b.inclusive else true

/-- `next`: the next entry of a scan, with the leaves that have none skipped. -/
def next (r : Reader) : ℕ → Cursor → Except Error (Option (List UInt8 × List UInt8) × Cursor)
  | 0, _ => .error (.internal "scan rounds")
  | fuel + 1, c =>
    if c.finished then .ok (none, c)
    else match c.leaf with
      | some (leafId, pos) => do
        let p ← r.page leafId
        p.checkNode
        if pos < p.nkeys then do
          let (key, val) ← p.leafCell pos
          if beyond c.hi key then .ok (none, { c with finished := true })
          else do
            let v ← r.readLeafVal val
            .ok (some (key, v), { c with leaf := some (leafId, pos + 1) })
        else do
          let c' ← r.climb { c with leaf := none } c.stack
          r.next fuel c'
      | none => do
        let c' ← r.climb c c.stack
        r.next fuel c'

/-- All entries that are left. -/
def drainCursor (r : Reader) (rounds : ℕ) :
    ℕ → Cursor → Except Error (List (List UInt8 × List UInt8))
  | 0, _ => .error (.internal "scan rounds")
  | n + 1, c => do
    match ← r.next rounds c with
    | (none, _) => .ok []
    | (some kv, c') => do
      let more ← r.drainCursor rounds n c'
      .ok (kv :: more)

/-- `scan`: every entry between the ends. -/
def scan (r : Reader) (rounds n root : ℕ) (lo hi : Option Bound) :
    Except Error (List (List UInt8 × List UInt8)) := do
  let c ← r.cursor root lo hi
  r.drainCursor rounds n c

end Reader

/-- The pages that a page leads to. -/
def Page.refs (p : Page) : List ℕ :=
  match p.kind with
  | .branch =>
    p.extra :: (List.range p.nkeys).filterMap fun i => (p.branchCell i).toOption.map Prod.snd
  | .leaf => (List.range p.nkeys).filterMap fun i =>
    match p.leafCell i with
    | .ok (_, .overflow _ first) => if first = 0 then none else some first
    | _ => none
  | .overflow => if p.extra = 0 then [] else [p.extra]
  | .blank => []

/-- A snapshot of the committed pages. -/
def StoreView.snapshot {σ : Type} [StoreView σ] (contentHash : List UInt8 → ℕ) (s : σ) : Reader :=
  { page := fun id => .ok (mem s id)
    readExtent := extents s
    readExternal := externals s
    contentHash }

/-- A write of a tree. -/
inductive TreeOp
  | insert (root : ℕ) (key : List UInt8) (val : Payload) (mode : InsertMode)
  | delete (root : ℕ) (key : List UInt8)

/-- Runs a write with `levels` levels to go down. -/
def TreeOp.run {σ : Type} [PageStore σ] (levels : ℕ) : TreeOp → Fallible σ Error Outcome
  | insert root key val mode => Btree.insert levels root key val mode
  | delete root key => Btree.delete levels root key

end Mpedb.Btree
