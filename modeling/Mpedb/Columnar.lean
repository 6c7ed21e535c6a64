import Mpedb.Lib.Transition
import Mpedb.SegmentScan

/-!
# The history of a table with column segments

A commit changes rows or columns and raises the table's generation by one; a change of a row at or
below the watermark that the mutator notes, and every change of the columns, deletes the watermark.
The pass that builds segments reads an earlier commit and writes what it built in a commit of its
own.
-/

namespace Mpedb

/-- Whether a row can be stored in a table with these columns. -/
def rowFits (types : List ColumnType) (row : Row) : Bool :=
  row.length = types.length && (row.zip types).all fun e => e.1.fits e.2 && e.1.varLen < 2 ^ 32

/-- The columns of a table and its rows by primary key. -/
structure TableContent where
  types : List ColumnType
  rows : SortedMap Key Row
  fits : ∀ e ∈ rows.entries, rowFits types e.2 = true

/-- The content of a table at a generation. -/
structure TableVersion where
  gen : ℕ
  content : TableContent

/-- A table with the segments over it, and its earlier contents. -/
structure ColumnarTable where
  content : TableContent
  gen : ℕ
  segments : ℕ → List (List UInt8)
  watermark : Option (ℕ × ℕ × Key)
  past : List TableVersion

namespace ColumnarTable

/-- A new table. -/
def init (types : List ColumnType) : ColumnarTable :=
  let content : TableContent := ⟨types, .empty, by simp [SortedMap.empty]⟩
  ⟨content, 0, fun _ => [], none, [⟨0, content⟩]⟩

/-- What a scan sees of the table. -/
def snapshot (s : ColumnarTable) : SegSnapshot where
  modGen := .ok s.gen
  rowCount := .ok s.content.rows.size
  types := s.content.types
  blocks := s.segments
  watermark := s.watermark
  rows := s.content.rows.entries

end ColumnarTable

/-- A change within a transaction. A mutator of rows notes its change at its success point; an index
expression that cannot be evaluated ends it before that, with the row already changed (`noted` is
false). A new column's value may depend on the row (`fill`). -/
inductive TxnOp
  | put (key : Key) (row : Row) (noted : Bool)
  | del (key : Key) (noted : Bool)
  | addColumn (idx : ℕ) (ty : ColumnType) (fill : Row → Value)
  | dropColumn (idx : ℕ)

/-- Every row rewritten; `none` if one does not fit. -/
def TableContent.rewrite (c : TableContent) (types : List ColumnType) (f : Row → Row) :
    Option TableContent :=
  let rows : SortedMap Key Row := ⟨c.rows.entries.map fun e => (e.1, f e.2),
    c.rows.sorted.map (fun e : Key × Row => (e.1, f e.2)) fun _ _ h => h⟩
  if h : ∀ e ∈ rows.entries, rowFits types e.2 = true then some ⟨types, rows, h⟩ else none

/-- A change of a row at or below the watermark deletes the watermark. -/
def noteColumnarMutation (watermark : Option (ℕ × ℕ × Key)) (key : Key) : Option (ℕ × ℕ × Key) :=
  match watermark with
  | some (g0, covered, wmPk) => if wmPk.isEmpty ∨ key ≤ wmPk then none else some (g0, covered, wmPk)
  | none => none

/-- The rows and the watermark after a change, `none` if a row does not fit. -/
def applyOp (s : TableContent × Option (ℕ × ℕ × Key)) : TxnOp →
    Option (TableContent × Option (ℕ × ℕ × Key))
  | .put key row noted =>
    if h : rowFits s.1.types row = true then
      some (⟨s.1.types, s.1.rows.insert key row, fun e he => by
        rcases SortedMap.mem_insertList he with rfl | he
        · exact h
        · exact s.1.fits e he⟩, if noted then noteColumnarMutation s.2 key else s.2)
    else none
  | .del key noted =>
    some (⟨s.1.types, s.1.rows.erase key, fun e he =>
      s.1.fits e ((SortedMap.eraseList_sublist key _).subset he)⟩,
      if noted then noteColumnarMutation s.2 key else s.2)
  | .addColumn idx ty fill =>
    (s.1.rewrite (s.1.types.insertIdx idx ty) fun row => row.insertIdx idx (fill row)).map (·, none)
  | .dropColumn idx => (s.1.rewrite (s.1.types.eraseIdx idx) fun row => row.eraseIdx idx).map
      (·, none)

/-- The groups in which a fold hands over what it collects: `size` at a time, then what is left. -/
def groupsOf {α : Type} (size : ℕ) : List α → List α → List (List α)
  | [], buf => if buf.isEmpty then [] else [buf]
  | a :: l, buf =>
    if (buf ++ [a]).length = size then (buf ++ [a]) :: groupsOf size l
      [] else groupsOf size l (buf ++ [a])

/-- The blocks of one column of a version. -/
def buildColumn (orders : ℕ → HashOrder) (v : TableVersion) (ci : ℕ) (ty : ColumnType) :
    Except Error (List (List UInt8)) := do
  let vals ← v.content.rows.entries.mapM fun e =>
    if v.content.types.length ≤ ci then .error (.internal s!"column {ci} out of range") else .ok
      (e.2.col ci)
  (groupsOf blockRows vals []).zipIdx.mapM fun b => encodeBlock (orders b.2) v.gen ty b.1

/-- The columns of the schema the pass works with, as far as they can be built. -/
def buildColumns (orders : ℕ → ℕ → HashOrder) (v : TableVersion) :
    List (ColumnType × ℕ) → Except Error (List (ℕ × List (List UInt8)))
  | [] => .ok []
  | (ty, ci) :: cols =>
    if !segmentable ty then buildColumns orders v cols
    else match buildColumn (orders ci) v ci ty with
      | .ok blocks => (buildColumns orders v cols).map ((ci, blocks) :: ·)
      | .error (.unsupported _) => buildColumns orders v cols
      | .error e => .error e

/-- The watermark of a pass that read `v`. -/
def setWatermark (s : ColumnarTable) (v : TableVersion) : Option (ℕ × ℕ × Key) :=
  match v.content.rows.entries.getLast? with
  | none => none
  | some (pk, _) =>
    if v.content.rows.size = 0 ∨ pk.isEmpty then s.watermark
    else if s.gen ≠ v.gen then s.watermark
    else some (v.gen, v.content.rows.size, pk)

/-- `compact_table`: the columns of an earlier version become the segments. -/
def compactTable (s : ColumnarTable) (orders : ℕ → ℕ → HashOrder) (v : TableVersion)
    (columns : List ColumnType) : Except Error ColumnarTable := do
  let built ← buildColumns orders v columns.zipIdx
  if built.isEmpty then return s
  return { s with
    segments := fun c => (built.lookup c).getD (s.segments c)
    watermark := setWatermark s v }

/-- The commits of a history. A pass names the commit it read and the schema it worked with; after a
compaction of the table ids the table is found with the segments that lie under its new id. -/
inductive ColumnarStep
  | commit (ops : List TxnOp)
  | compact (orders : ℕ → ℕ → HashOrder) (version : ℕ) (columns : List ColumnType)
  | dropSegments
  | renumber (segments : ℕ → List (List UInt8)) (watermark : Option (ℕ × ℕ × Key))

namespace ColumnarTable

/-- One commit or one pass that builds segments. -/
def step (s : ColumnarTable) : ColumnarStep → Option ColumnarTable
  | .commit ops => do
    let (content, watermark) ← ops.foldlM applyOp (s.content, s.watermark)
    let gen := (s.gen + 1) % 2 ^ 64
    return { s with
      content := content
      watermark := watermark
      gen := gen
      past := s.past ++ [⟨gen, content⟩] }
  | .compact orders version columns => do
    match compactTable s orders (← s.past[version]?) columns with
    | .ok s' => some s'
    | .error _ => some s
  | .dropSegments => some { s with segments := fun _ => [], watermark := none }
  | .renumber segments watermark => some { s with segments := segments, watermark := watermark }

end ColumnarTable

end Mpedb
