import Mpedb.Lowering
import Mpedb.Table

/-!
# Partial indexes

Whether a partial index may answer a query: the conjuncts of the WHERE clause have to imply the
predicate of the index, or a scan of the index misses rows. The test puts both sides into atoms over
one column and looks for an atom of the query that entails each atom of the predicate.
-/

namespace Mpedb.Partial

open Lowering Checked

/-- `==` of floats: the zeros are equal, and a NaN equals nothing. -/
def floatEq (a b : F64) : Bool :=
  !a.isNan && !b.isNan && (a.bits == b.bits || a.isZero && b.isZero)

/-- Equality of values as `PartialEq` has it. -/
def valueEq : Value → Value → Bool
  | .float a, .float b => floatEq a b
  | a, b => a = b

mutual

/-- Equality of constants. -/
def datumEq : Datum → Datum → Bool
  | .scalar a, .scalar b => valueEq a b
  | .list a, .list b => datumsEq a b
  | _, _ => false

/-- Equality of lists of constants. -/
def datumsEq : List Datum → List Datum → Bool
  | [], [] => true
  | a :: as, b :: bs => datumEq a b && datumsEq as bs
  | _, _ => false

end

/-- A conjunct that the implication test understands. -/
inductive PAtom
  | isNull (c : UInt16)
  | isNotNull (c : UInt16)
  /-- A column against a constant that is not null. -/
  | cmp (c : UInt16) (op : BinOp) (v : Datum)

/-- The comparison operators. -/
def isCmp : BinOp → Bool
  | .eq | .ne | .lt | .le | .gt | .ge => true
  | _ => false

/-- The comparison with its sides exchanged. -/
def flipped : BinOp → BinOp
  | .lt => .gt
  | .le => .ge
  | .gt => .lt
  | .ge => .le
  | op => op

/-- The atom of a conjunct, `none` for what the test does not reason about. -/
def canonAtom : BExpr → Option PAtom
  | .unary .isNull (.col c) => some (.isNull c)
  | .unary .isNotNull (.col c) => some (.isNotNull c)
  | .binary op (.col c) (.const v) =>
    if isCmp op && !v.isNull then some (.cmp c op v) else none
  | .binary op (.const v) (.col c) =>
    if isCmp op && !v.isNull then some (.cmp c (flipped op) v) else none
  | _ => none

/-- The conjuncts of an expression. -/
def splitAnd : BExpr → List BExpr
  | .binary .and l r => splitAnd l ++ splitAnd r
  | e => [e]

/-- Whether an atom of the query implies one of the index. -/
def entails (q p : PAtom) : Bool :=
  match p, q with
  | .isNull pc, .isNull qc => pc = qc
  | .isNotNull pc, .isNotNull qc => pc = qc
  | .isNotNull pc, .cmp qc op v => pc = qc && op ≠ .ne && !v.isNull
  | .cmp pc pop pv, .cmp qc qop qv => pc = qc && pop = qop && datumEq pv qv
  | _, _ => false

/-- Parsing and binding of the source of an expression, and how an error is rendered. -/
structure Frontend where
  Ast : Type
  parseExprOnly : String → Except Error (Ast × ℕ)
  bindCheck : TableDef → Ast → Except Error BExpr
  display : Error → String

variable (F : Frontend)

/-- The atoms of an index predicate, if all its conjuncts are atoms. -/
def predicateAtoms (t : TableDef) (src : String) : Option (List PAtom) :=
  match F.parseExprOnly src with
  | .error _ => none
  | .ok (expr, nParams) =>
    if nParams > 0 then none
    else match F.bindCheck t expr with
      | .error _ => none
      | .ok bound => (splitAnd bound).mapM canonAtom

/-- `index_usable`: every atom of the predicate follows from a conjunct of the query. -/
def indexUsable (t : TableDef) (ix : IndexDef) (conjuncts : List BExpr) : Bool :=
  match ix.predicate with
  | none => true
  | some (src, _) => match predicateAtoms F t src with
    | none => false
    | some atoms => atoms.all fun p => (conjuncts.filterMap canonAtom).any (entails · p)

/-- `compile_check`. -/
def compileCheck (src : String) (t : TableDef) : Expr.Res Expr.Program := do
  let (expr, nParams) ← Expr.lift (F.parseExprOnly src)
  if nParams > 0 then fail (.bind "parameters are not allowed in CHECK expressions")
  let bound ← Expr.lift (F.bindCheck t expr)
  compileProgram F.display bound

/-- `compile_index_predicate`. -/
def compileIndexPredicate (src : String) (t : TableDef) : Expr.Res Expr.Program :=
  compileCheck F src t

/-- A program over rows. It has no parameters, so it never yields a list, and a verified program
does not panic. -/
def onRow (b : Expr.Builtins) (p : Expr.Program) : Program := fun row =>
  match evalWithStack b p (row.map .scalar) [] with
  | .ok (.scalar v) => .ok v
  | .ok (.list _) => .error (.typeMismatch "a list is not a value of a column")
  | .error (.err e) => .error e
  | .error .panic => .error (.internal "the program panicked")

/-- Whether a conjunct is true on a row. -/
def isTrue (b : Expr.Builtins) (params : List Datum) (row : Row) (c : BExpr) : Bool :=
  match compileProgram F.display c with
  | .error _ => false
  | .ok p => match evalWithStack b p (row.map .scalar) params with
    | .error _ => false
    | .ok v => b.truthy3 v = some true

end Mpedb.Partial
