import Mpedb.Compare
import Mpedb.KeyAccess
import Mpedb.Lib.StableSort

/-!
# ORDER BY

Rows are compared key by key. NULLs are placed before the direction is applied; values that have no
order between them, and rows that lack the column, count as equal. For ORDER BY with LIMIT the rows
of a scan go through a heap that holds at most `keep` of them.
-/

namespace Mpedb.OrderBy

open StableSort

/-- A row of a result. -/
abbrev Tuple := List Datum

/-- The direction of a sort key. -/
structure SortDir where
  desc : Bool
  nullsFirst : Bool

/-- Ascending, with the NULLs first. -/
def SortDir.asc : SortDir := ⟨false, true⟩

/-- A collation of the engine or of the host. -/
inductive OrderColl
  | native (coll : Collation)
  | host (name : String)

/-- A sort key. -/
structure OrderKey where
  col : ℕ
  dir : SortDir
  coll : OrderColl

/-- The collating sequences registered on a connection. -/
structure HostColls where
  has : String → Bool
  compare : String → String → String → Ordering

/-- `sort_cmp`; lists have no order. -/
def sortCmp (coll : Collation) : Datum → Datum → Option Ordering
  | .scalar a, .scalar b => a.sortCmp b coll
  | _, _ => none

/-- `cmp_order`: values without an order count as equal. -/
def cmpOrder (a b : Datum) (coll : OrderColl) (colls : Option HostColls) : Ordering :=
  match coll with
  | .native coll => (sortCmp coll a b).getD .eq
  | .host name => match a, b, colls with
    | .scalar (.text x), .scalar (.text y), some t => t.compare name x y
    | _, _, _ => (sortCmp .binary a b).getD .eq

/-- The order by one key. -/
def cmpKey (colls : Option HostColls) (key : OrderKey) (a b : Tuple) : Ordering :=
  match a[key.col]?, b[key.col]? with
  | some x, some y =>
    match x.isNull, y.isNull with
    | true, true => .eq
    | true, false => if key.dir.nullsFirst then .lt else .gt
    | false, true => if key.dir.nullsFirst then .gt else .lt
    | false, false =>
      let ord := cmpOrder x y key.coll colls
      if key.dir.desc then ord.swap else ord
  | _, _ => .eq

/-- `cmp_rows`: the order by all keys. -/
def cmpRows (colls : Option HostColls) : List OrderKey → Tuple → Tuple → Ordering
  | [], _, _ => .eq
  | key :: orderBy, a, b => (cmpKey colls key a b).then (cmpRows colls orderBy a b)

/-- `sort_rows`. -/
def sortRows (colls : Option HostColls) (orderBy : List OrderKey) (rows : List Tuple) :
    List Tuple :=
  sortBy (cmpRows colls orderBy) rows

/-- `check_order_colls`: the host must have its collations. -/
def checkOrderColls (colls : Option HostColls) : List OrderKey → Except Error Unit
  | [] => .ok ()
  | key :: orderBy => match key.coll with
    | .native _ => checkOrderColls colls orderBy
    | .host name =>
      if colls.any (·.has name) then checkOrderColls colls orderBy
      else .error (.unsupported s!"no such collation sequence: {name}")

/-- What `eval_filter_host` answers for a row; a plan without a filter keeps every row. -/
abbrev Filter := Tuple → Except Error Bool

/-- What a transaction gives to the executor. The read transaction streams its scans. -/
structure TxnCtx where
  streams : Bool
  hostColls : Option HostColls
  scanRowsRaw : Option RawBound → Option RawBound → Except Error (List Tuple)

/-- The rows that pass the filter. -/
def keepRows (filter : Filter) : List Tuple → Except Error (List Tuple)
  | [] => .ok []
  | row :: rows => match filter row with
    | .error e => .error e
    | .ok false => keepRows filter rows
    | .ok true => match keepRows filter rows with
      | .error e => .error e
      | .ok kept => .ok (row :: kept)

/-- The bounded heap: every row that passes is offered, and the greatest goes when there are too
many. -/
def offerRows (colls : Option HostColls) (orderBy : List OrderKey) (filter : Filter) (keep : ℕ) :
    List Tuple → List (Tuple × ℕ) → ℕ → Except Error (List (Tuple × ℕ))
  | [], heap, _ => .ok heap
  | row :: rows, heap, seq => match filter row with
    | .error e => .error e
    | .ok false => offerRows colls orderBy filter keep rows heap seq
    | .ok true => offerRows colls orderBy filter keep rows
        (offer (ranked (cmpRows colls orderBy)) keep heap (row, seq)) (seq + 1)

/-- `scan_rows_topk` of the read transaction. -/
def streamRowsTopk (ctx : TxnCtx) (lo hi : Option RawBound) (filter : Filter)
    (orderBy : List OrderKey) (keep : ℕ) : Except Error (List Tuple) :=
  match checkOrderColls ctx.hostColls orderBy with
  | .error e => .error e
  | .ok () =>
    if keep = 0 then .ok []
    else match ctx.scanRowsRaw lo hi with
      | .error e => .error e
      | .ok rows => match offerRows ctx.hostColls orderBy filter keep rows [] 0 with
        | .error e => .error e
        | .ok heap => .ok ((sortBy (ranked (cmpRows ctx.hostColls orderBy)) heap).map Prod.fst)

/-- `scan_rows_topk` as the other transactions have it. -/
def sortRowsTopk (ctx : TxnCtx) (lo hi : Option RawBound) (filter : Filter)
    (orderBy : List OrderKey) (keep : ℕ) : Except Error (List Tuple) :=
  match checkOrderColls ctx.hostColls orderBy with
  | .error e => .error e
  | .ok () => match ctx.scanRowsRaw lo hi with
    | .error e => .error e
    | .ok rows => match keepRows filter rows with
      | .error e => .error e
      | .ok kept => .ok ((sortRows ctx.hostColls orderBy kept).take keep)

/-- `scan_rows_topk`, streamed or sorted. -/
def scanRowsTopk (ctx : TxnCtx) (lo hi : Option RawBound) (filter : Filter)
    (orderBy : List OrderKey) (keep : ℕ) : Except Error (List Tuple) :=
  if ctx.streams then streamRowsTopk ctx lo hi filter orderBy keep
  else sortRowsTopk ctx lo hi filter orderBy keep

/-- `bounds` are what `range_bounds` answers. `gathered` stands for point and index probes, the
series and the text search: what `gather_rows` answers for them, filter included. -/
inductive Access
  | pkRange (bounds : Except Error (Option (Option RawBound × Option RawBound)))
  | fullScan
  | gathered (rows : Except Error (List Tuple))

/-- `scan_rows`. -/
def scanRows (ctx : TxnCtx) (lo hi : Option RawBound) (filter : Filter) :
    Except Error (List Tuple) :=
  match ctx.scanRowsRaw lo hi with
  | .error e => .error e
  | .ok rows => keepRows filter rows

/-- `gather_rows` without a cap. -/
def gatherRows (ctx : TxnCtx) (access : Access) (filter : Filter) : Except Error (List Tuple) :=
  match access with
  | .pkRange bounds => match bounds with
    | .error e => .error e
    | .ok none => .ok []
    | .ok (some (lo, hi)) => scanRows ctx lo hi filter
  | .fullScan => scanRows ctx none none filter
  | .gathered rows => rows

/-- `gather_topk` by its access path. -/
def gatherTopk (ctx : TxnCtx) (access : Access) (filter : Filter) (orderBy : List OrderKey)
    (keep : ℕ) : Except Error (List Tuple) :=
  match checkOrderColls ctx.hostColls orderBy with
  | .error e => .error e
  | .ok () => match access with
    | .pkRange bounds => match bounds with
      | .error e => .error e
      | .ok none => .ok []
      | .ok (some (lo, hi)) => scanRowsTopk ctx lo hi filter orderBy keep
    | .fullScan => scanRowsTopk ctx none none filter orderBy keep
    | .gathered rows => match gatherRows ctx (.gathered rows) filter with
      | .error e => .error e
      | .ok rows => .ok ((sortRows ctx.hostColls orderBy rows).take keep)

end Mpedb.OrderBy
