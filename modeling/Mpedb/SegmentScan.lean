import Mpedb.ColumnSegment
import Mpedb.Table

/-!
# Aggregates fed from column segments

Three scans push the values of a column, the values of a column where a filter holds, or rows with
the columns a grouped aggregate reads. Each first tries the segments at the table's generation, then
the segments below the watermark with the rows above it, and declines otherwise. The zone maps
decide one comparison of a column with a constant.
-/

namespace Mpedb

/-- The instructions of a filter that the model has. -/
inductive FilterInstr
  | pushCol (c : ℕ)
  | pushParam (p : ℕ)
  | pushConst (k : ℕ)
  | eq | ne | lt | le | gt | ge
  | and | or | not
  | other (op : ℕ)
  deriving DecidableEq

/-- A filter. `fastOk` is what its construction found: every instruction is one the fast path
has. -/
structure FilterProgram where
  instrs : List FilterInstr
  consts : List Value
  fastOk : Bool

/-- The other instructions, and the leading number of a text. -/
structure ExprHost where
  exec : ℕ → List Value → Except Error (List Value)
  toReal : Value → F64

/-- What a comparison instruction asks of the order. -/
def FilterInstr.holds : FilterInstr → Option (Ordering → Bool)
  | .eq => some (· = .eq)
  | .ne => some (· ≠ .eq)
  | .lt => some (· = .lt)
  | .le => some (· ≠ .gt)
  | .gt => some (· = .gt)
  | .ge => some (· ≠ .lt)
  | _ => none

/-- AND in three-valued logic. -/
def kleeneAnd (a b : Option Bool) : Option Bool :=
  if a = some false ∨ b = some false then some false
  else if a = some true ∧ b = some true then some true else none

/-- OR in three-valued logic. -/
def kleeneOr (a b : Option Bool) : Option Bool :=
  if a = some true ∨ b = some true then some true
  else if a = some false ∧ b = some false then some false else none

/-- A truth value as a value. -/
def Value.ofTruth : Option Bool → Value
  | some b => .bool b
  | none => .null

section Eval

variable (host : ExprHost)

/-- `truthy3`: the truth of a value. -/
def truthy3 : Value → Option Bool
  | .null => none
  | .bool b => some b
  | .int i => some (i ≠ 0)
  | v => some !(host.toReal v).isZero

/-- One instruction of a filter. -/
def filterStep (consts params : List Value) (cols : Row) (stack : List Value)
    (instr : FilterInstr) :
    Except Error (List Value) :=
  match instr, stack with
  | .pushCol c, _ => match cols[c]? with
    | some v => .ok (v :: stack)
    | none => .error (.internal s!"column index {c} out of row bounds")
  | .pushParam p, _ => match params[p]? with
    | some v => .ok (v :: stack)
    | none => .error (.bind "wrong parameter count")
  | .pushConst k, _ => match consts[k]? with
    | some v => .ok (v :: stack)
    | none => .error (.internal "constant index")
  | .and, b :: a :: stack => .ok (.ofTruth (kleeneAnd (truthy3 host a) (truthy3 host b)) :: stack)
  | .or, b :: a :: stack => .ok (.ofTruth (kleeneOr (truthy3 host a) (truthy3 host b)) :: stack)
  | .not, a :: stack => .ok (.ofTruth ((truthy3 host a).map (!·)) :: stack)
  | .other op, _ => host.exec op stack
  | instr, b :: a :: stack => match instr.holds with
    | some holds => (a.sqlCmp b).map fun o => .ofTruth (o.map holds) :: stack
    | none => .error (.internal "stack underflow")
  | _, _ => .error (.internal "stack underflow")

/-- The value of a filter on a row. -/
def FilterProgram.eval (prog : FilterProgram) (cols : Row) (params : List Value) :
    Except Error Value := do
  match ← prog.instrs.foldlM (filterStep host prog.consts params cols) [] with
  | v :: _ => return v
  | [] => throw (.internal "empty program")

end Eval

/-- A slot of the fast path: what it does not hold makes it decline. -/
inductive Num
  | null
  | i (x : Int64)
  | f (x : F64)
  | b (x : Bool)

namespace Num

/-- The number of a value. -/
def of : Value → Option Num
  | .null => some .null
  | .int x => some (.i x)
  | .float x => some (.f x)
  | .bool x => some (.b x)
  | _ => none

/-- The truth of a number. -/
def truthy : Num → Option Bool
  | .null => none
  | .b x => some x
  | .i x => some (x ≠ 0)
  | .f x => some !x.isZero

/-- A truth value as a number. -/
def ofTruth : Option Bool → Num
  | some x => .b x
  | none => .null

/-- `none` where the comparison is refused. -/
def cmp3 : Num → Num → Option (Option Ordering)
  | .null, _ | _, .null => some none
  | .i x, .i y => some (some (compare x y))
  | .f x, .f y => some (some (floatTotalCmp x y))
  | .i x, .f y => some (some (intFloatCmp x y))
  | .f x, .i y => some (some (intFloatCmp y x).swap)
  | .b x, .b y => some (some (compare x y))
  | _, _ => none

end Num

/-- The depth of the fixed stack. -/
def numDepth : ℕ := 32

/-- Pushes a number, if there is room. -/
def pushNum (stack : List Num) (v : Option Value) : Option (List Num) := do
  let n ← Num.of (← v)
  if numDepth ≤ stack.length then none else return n :: stack

/-- One instruction of the fast path. -/
def numericStep (consts params : List Value) (cols : Row) (stack : List Num) (instr : FilterInstr) :
    Option (List Num) :=
  match instr, stack with
  | .pushCol c, _ => pushNum stack cols[c]?
  | .pushParam p, _ => pushNum stack params[p]?
  | .pushConst k, _ => pushNum stack consts[k]?
  | .and, b :: a :: stack => some (.ofTruth (kleeneAnd a.truthy b.truthy) :: stack)
  | .or, b :: a :: stack => some (.ofTruth (kleeneOr a.truthy b.truthy) :: stack)
  | .not, a :: stack => some (.ofTruth (a.truthy.map (!·)) :: stack)
  | instr, b :: a :: stack => do
    let holds ← instr.holds
    return .ofTruth ((← a.cmp3 b).map holds) :: stack
  | _, _ => none

/-- `numeric_filter`: the verdict of the fast path, none if it gives up. -/
def numericFilter (prog : FilterProgram) (cols : Row) (params : List Value) : Option Bool :=
  match prog.instrs.foldlM (numericStep prog.consts params cols) [] with
  | some [n] => some (n.truthy = some true)
  | _ => none

/-- Whether a row passes. `fastOff` is the switch of the environment. -/
def FilterProgram.evalFilter (host : ExprHost) (fastOff : Bool) (prog : FilterProgram) (cols : Row)
    (params : List Value) : Except Error Bool :=
  let general := (prog.eval host cols params).map fun v => decide (truthy3 host v = some true)
  if prog.fastOk && !fastOff then
    match numericFilter prog cols params with
    | some hit => .ok hit
    | none => general
  else general

/-- The columns that a filter reads, in order. -/
def FilterProgram.readColumns (prog : FilterProgram) : List ℕ :=
  (prog.instrs.filterMap fun
    | .pushCol c => some c
    | _ => none).dedup.insertionSort (· ≤ ·)

/-- The comparisons that a zone map can answer. -/
inductive ZoneCmp
  | lt | le | gt | ge | eq
  deriving DecidableEq

/-- A column compared with an integer. -/
structure ZonePred where
  col : ℕ
  op : ZoneCmp
  k : Int64
  deriving DecidableEq

/-- The comparison of an instruction. -/
def ZoneCmp.ofInstr : FilterInstr → Option ZoneCmp
  | .lt => some .lt
  | .le => some .le
  | .gt => some .gt
  | .ge => some .ge
  | .eq => some .eq
  | _ => none

/-- The comparison with its sides exchanged. -/
def ZoneCmp.mirror : ZoneCmp → ZoneCmp
  | .lt => .gt
  | .le => .ge
  | .gt => .lt
  | .ge => .le
  | .eq => .eq

/-- The value of a constant or a parameter. -/
def FilterProgram.operand (prog : FilterProgram) (params : List Value) : FilterInstr → Option Value
  | .pushConst x => prog.consts[x]?
  | .pushParam x => params[x]?
  | _ => none

/-- What the column of a one-comparison filter is compared with. -/
def FilterProgram.zoneOperand (prog : FilterProgram) (params : List Value) : Option Value :=
  match prog.instrs with
  | [.pushCol _, rhs, _] => prog.operand params rhs
  | [lhs, .pushCol _, _] => prog.operand params lhs
  | _ => none

/-- An integer or a time stamp; which of the two is forgotten. -/
def Value.zoneConst : Value → Option Int64
  | .int v | .timestamp v => some v
  | _ => none

/-- `zone_predicate`: a filter that is one comparison with an integer. -/
def zonePredicate (prog : FilterProgram) (params : List Value) : Option ZonePred :=
  match prog.instrs with
  | [a, b, c] => do
    let op ← ZoneCmp.ofInstr c
    match a, b with
    | .pushCol col, rhs => return ⟨col, op, ← (← prog.operand params rhs).zoneConst⟩
    | lhs, .pushCol col => return ⟨col, op.mirror, ← (← prog.operand params lhs).zoneConst⟩
    | _, _ => none
  | _ => none

/-- What a zone map says about its block. -/
inductive Verdict
  | none | all | some
  deriving DecidableEq

/-- `zone_verdict`. -/
def zoneVerdict (b : Block) (p : ZonePred) : Verdict :=
  if b.nRows = 0 then .none
  else match b.intBounds with
    | Option.none => if b.isIntColumn then .none else .some
    | Option.some (lo, hi) =>
      let (all, no) := match p.op with
        | .ge => (decide (p.k ≤ lo), decide (hi < p.k))
        | .gt => (decide (p.k < lo), decide (hi ≤ p.k))
        | .le => (decide (hi ≤ p.k), decide (p.k < lo))
        | .lt => (decide (hi < p.k), decide (p.k ≤ lo))
        | .eq => (decide (lo = p.k ∧ hi = p.k), decide (p.k < lo ∨ hi < p.k))
      if no then .none else if all && b.nullFree then .all else .some

/-- `zone_pred_pass`: the predicate on one value. -/
def zonePredPass (v : Value) (pred : ZonePred) : Bool :=
  match v with
  | .int x | .timestamp x => match pred.op with
    | .lt => x < pred.k
    | .le => x ≤ pred.k
    | .gt => pred.k < x
    | .ge => pred.k ≤ x
    | .eq => x = pred.k
  | _ => false

/-- What a scan reads of one table: its directory entry, the records of its segments up to the first
missing block, the watermark (generation, rows covered, last key covered), and its rows in the order
of their keys. -/
structure SegSnapshot where
  modGen : Except Error ℕ
  rowCount : Except Error ℕ
  types : List ColumnType
  blocks : ℕ → List (List UInt8)
  watermark : Option (ℕ × ℕ × Key)
  rows : List (Key × Row)

namespace SegSnapshot

variable (snap : SegSnapshot) {σ : Type}

/-- `decode_column` of a stored row. -/
def decodeColumn (row : Row) (col : ℕ) : Except Error Value :=
  if snap.types.length ≤ col then .error (.internal s!"column {col} out of range") else .ok
    (row.col col)

/-- The rows behind the watermark. -/
def tail (pk : Key) : List (Key × Row) := snap.rows.filter fun e => pk < e.1

/-- One column of some rows. -/
def foldColumn (rows : List (Key × Row)) (col : ℕ) (push : σ → Value → Except Error σ) (s : σ) :
    Except Error σ :=
  rows.foldlM (fun s e => do push s (← snap.decodeColumn e.2 col)) s

/-- A row of the table's width with only these columns filled. -/
def fill (cols : List ℕ) (row : Row) : Row :=
  (List.range snap.types.length).map fun c => if c ∈ cols then row.col c else .null

/-- Some columns of the rows, in a buffer of the table's width. -/
def foldColumns (rows : List (Key × Row)) (cols : List ℕ)
    (push : σ → Row → Except Error σ) (s : σ) :
    Except Error σ :=
  if cols.any fun c => snap.types.length ≤ c then .error (.internal "fold column out of row bounds")
  else rows.foldlM (fun s e => push s (snap.fill cols e.2)) s

/-- The scan of one column over the rows. -/
def rowScan (col : ℕ) (push : σ → Value → Except Error σ) (s : σ) : Except Error σ :=
  snap.foldColumn snap.rows col push s

/-- The columns that a filtered scan decodes. -/
def filterColumns (prog : FilterProgram) (col : ℕ) : List ℕ :=
  if col ∈ prog.readColumns then prog.readColumns
  else (prog.readColumns ++ [col]).insertionSort (· ≤ ·)

/-- The filtered scan over the rows. -/
def rowScanFiltered (host : ExprHost) (fastOff : Bool) (prog : FilterProgram) (params : List Value)
    (col : ℕ) (push : σ → Value → Except Error σ) (s : σ) : Except Error σ :=
  snap.foldColumns snap.rows (filterColumns prog col) (fun s buf => do
    if ← prog.evalFilter host fastOff buf params then push s (buf.col col) else return s) s

/-- The scan of several columns over the rows. -/
def rowScanGroup (needed : List ℕ) (push : σ → Row → Except Error σ) (s : σ) : Except Error σ :=
  snap.foldColumns snap.rows needed push s

/-- What the blocks of a column cover. -/
inductive Coverage
  | stale | tooMany | rows (n : ℕ)
  deriving DecidableEq

/-- The rows that the blocks cover, if they are of this generation. -/
def coverage (gen want : ℕ) (ty : ColumnType) : List (List UInt8) → ℕ → Except Error Coverage
  | [], covered => .ok (.rows covered)
  | bytes :: blocks, covered => do
    match ← decodeBlock bytes gen ty with
    | some b =>
      if want < covered + b.nRows then return .tooMany
      else coverage gen want ty blocks (covered + b.nRows)
    | none => return .stale

/-- The blocks of a column, if they cover just the rows wanted. -/
def loadColumn (col : ℕ) (ty : ColumnType) (gen want : ℕ) :
    Except Error (Option (List (List UInt8))) := do
  if !segmentable ty then return none
  match ← coverage gen want ty (snap.blocks col) 0 with
  | .rows n => return if (snap.blocks col).isEmpty ∨ n ≠ want then none else some (snap.blocks col)
  | _ => return none

/-- A block that was seen before; it must still be there. -/
def decodeFresh (bytes : List UInt8) (gen : ℕ) (ty : ColumnType) : Except Error Block := do
  match ← decodeBlock bytes gen ty with
  | some b => return b
  | none => throw (.corrupt "column segment changed mid-scan")

/-- Every value of some blocks. -/
def stream (gen : ℕ) (ty : ColumnType) (push : σ → Value → Except Error σ)
    (blocks : List (List UInt8))
    (s : σ) : Except Error σ :=
  blocks.foldlM (fun s bytes => do (← decodeFresh bytes gen ty).forEach push s) s

/-- `feed_from_segments` with a tail: the blocks, then the rows behind the watermark. -/
def feedFromSegmentsTail (col : ℕ) (ty : ColumnType) (push : σ → Value → Except Error σ) (s : σ) :
    Except Error (σ × Bool) :=
  match snap.watermark with
  | none => .ok (s, false)
  | some (g0, covered, wmPk) => do
    match ← snap.loadColumn col ty g0 covered with
    | none => return (s, false)
    | some recs =>
      let s ← stream g0 ty push recs s
      let s ← snap.foldColumn (snap.tail wmPk) col push s
      return (s, true)

/-- `feed_from_segments`: the whole column from blocks, or with a tail, or not at all. -/
def feedFromSegments (col : ℕ) (ty : ColumnType) (push : σ → Value → Except Error σ) (s : σ) :
    Except Error (σ × Bool) :=
  if !segmentable ty then .ok (s, false)
  else match snap.modGen, snap.rowCount with
    | .ok wantGen, .ok wantRows => do
      match ← coverage wantGen wantRows ty (snap.blocks col) 0 with
      | .stale => snap.feedFromSegmentsTail col ty push s
      | .tooMany => return (s, false)
      | .rows n =>
        if (snap.blocks col).isEmpty ∨ n ≠ wantRows then snap.feedFromSegmentsTail col ty push s
        else return (← stream wantGen ty push (snap.blocks col) s, true)
    | _, _ => .ok (s, false)

/-- One block of every column, and how many rows all of them have. -/
def groupBlock (gen bi : ℕ) : List ((ℕ × ColumnType) × List (List UInt8)) → Option ℕ →
    Except Error (Option ℕ × List (List Value))
  | [], n => .ok (n, [])
  | ((_, ty), recs) :: cols, n => do
    let blk ← decodeFresh (recs.getD bi []) gen ty
    if n.any (· ≠ blk.nRows) then throw (.corrupt "group column segments disagree on block size")
    let vals ← blk.forEach (fun acc v => .ok (acc ++ [v])) []
    let (n, rest) ← groupBlock gen bi cols (some (n.getD blk.nRows))
    return (n, vals :: rest)

/-- Row `r` of a block, in a buffer of NULLs. -/
def synthRow (width : ℕ) (needed : List (ℕ × ColumnType)) (cols : List (List Value))
    (r : ℕ) : Row :=
  (needed.zip cols).foldl (fun synth e => synth.set e.1.1 (e.2.getD r .null))
  (List.replicate width .null)

/-- The blocks of several columns side by side. -/
def emitGroupSegments (width : ℕ) (needed : List (ℕ × ColumnType)) (gen covered : ℕ)
    (push : σ → Row → Except Error σ) (s : σ) : Except Error (σ × Bool) := do
  let some recs ← loadAll needed | return (s, false)
  let nBlocks := (recs.headD []).length
  if recs.any (·.length ≠ nBlocks) then return (s, false)
  let s ← (List.range nBlocks).foldlM (fun s bi => do
    let (n, cols) ← groupBlock gen bi (needed.zip recs) none
    (List.range (n.getD 0)).foldlM (fun s r => push s (synthRow width needed cols r)) s) s
  return (s, true)
where
  /-- The segments of every column, if all can be used. -/
  loadAll : List (ℕ × ColumnType) → Except Error (Option (List (List (List UInt8))))
    | [] => .ok (some [])
    | (col, ty) :: needed => do
      let some recs ← snap.loadColumn col ty gen covered | return none
      return (← loadAll needed).map (recs :: ·)

/-- `feed_group_from_segments`. -/
def feedGroupFromSegments (width : ℕ) (needed : List (ℕ × ColumnType))
    (push : σ → Row → Except Error σ)
    (s : σ) : Except Error (σ × Bool) :=
  if needed.isEmpty || needed.any fun c => !segmentable c.2 then .ok (s, false)
  else do
    let (s, fed) ← match snap.modGen, snap.rowCount with
      | .ok wantGen, .ok wantRows => snap.emitGroupSegments width needed wantGen wantRows push s
      | _, _ => .ok (s, false)
    if fed then return (s, true)
    match snap.watermark with
    | none => return (s, false)
    | some (g0, covered, wmPk) =>
      let (s, fed) ← snap.emitGroupSegments width needed g0 covered push s
      if !fed then return (s, false)
      return (← snap.foldColumns (snap.tail wmPk) (needed.map Prod.fst) push s, true)

/-- One block of the aggregate's column beside the same block of the predicate's column. -/
def emitFilteredBlock (gen : ℕ) (aggTy predTy : ColumnType) (pred : ZonePred)
    (push : σ → Value → Except Error σ) (s : σ) (recs : List UInt8 × List UInt8) :
    Except Error σ := do
  let ablk ← decodeFresh recs.1 gen aggTy
  let pblk ← decodeFresh recs.2 gen predTy
  if ablk.nRows ≠ pblk.nRows then
    throw (.corrupt "paired column segments disagree on block size")
  match zoneVerdict pblk pred with
  | .none => return s
  | .all => ablk.forEach push s
  | .some =>
    let (mask, _) ← pblk.forEach (fun m v => .ok (BitMask.mark 64 m (zonePredPass v pred)))
      (BitMask.empty 64 ablk.nRows, 0)
    let (s, _) ← ablk.forEach (fun sj v => do
      if BitMask.get 64 mask sj.2 then return (← push sj.1 v, sj.2 + 1) else return (sj.1,
        sj.2 + 1)) (s, 0)
    return s

/-- The blocks of the column and of the predicate side by side. -/
def emitFilteredSegments (aggCol : ℕ) (aggTy : ColumnType) (pred : ZonePred) (predTy : ColumnType)
    (gen covered : ℕ) (push : σ → Value → Except Error σ) (s : σ) : Except Error (σ × Bool) := do
  let some aggRecs ← snap.loadColumn aggCol aggTy gen covered | return (s, false)
  let some predRecs ← (if pred.col = aggCol ∧ predTy = aggTy then .ok (some aggRecs)
    else snap.loadColumn pred.col predTy gen covered) | return (s, false)
  if predRecs.length ≠ aggRecs.length then return (s, false)
  return (← (aggRecs.zip predRecs).foldlM (emitFilteredBlock gen aggTy predTy pred push) s, true)

/-- `feed_filtered_from_segments`. -/
def feedFilteredFromSegments (aggCol : ℕ) (aggTy : ColumnType) (pred : ZonePred)
    (predTy : ColumnType)
    (push : σ → Value → Except Error σ) (s : σ) : Except Error (σ × Bool) :=
  if !segmentable aggTy || !segmentable predTy then .ok (s, false)
  else do
    let (s, fed) ← match snap.modGen, snap.rowCount with
      | .ok wantGen, .ok wantRows =>
        snap.emitFilteredSegments aggCol aggTy pred predTy wantGen wantRows push s
      | _, _ => .ok (s, false)
    if fed then return (s, true)
    match snap.watermark with
    | none => return (s, false)
    | some (g0, covered, wmPk) =>
      let (s, fed) ← snap.emitFilteredSegments aggCol aggTy pred predTy g0 covered push s
      if !fed then return (s, false)
      let s ← snap.foldColumns (snap.tail wmPk) [aggCol, pred.col] (fun s row =>
        if zonePredPass (row.col pred.col) pred then push s (row.col aggCol) else return s) s
      return (s, true)

end SegSnapshot

end Mpedb
