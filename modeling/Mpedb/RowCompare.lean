import Mpedb.Expression
import Mpedb.SegmentScan

/-!
# Comparisons of row values

A comparison of two rows is rewritten, before it is bound, to comparisons of their elements joined
by AND, OR and NOT. `ι` are the operand expressions.
-/

namespace Mpedb.RowValue

open Mpedb.Expr (CmpKind)

/-- What row comparisons are desugared to. -/
inductive BoolExpr (ι : Type)
  | lit (b : Bool)
  | cmp (kind : CmpKind) (l r : ι)
  | and (l r : BoolExpr ι)
  | or (l r : BoolExpr ι)
  | not (e : BoolExpr ι)

section Desugar

variable {ι : Type}

/-- All pairs are equal. -/
def eqAll (p : ι × ι) (ps : List (ι × ι)) : BoolExpr ι :=
  ps.foldl (fun acc q => .and acc (.cmp .eq q.1 q.2)) (.cmp .eq p.1 p.2)

/-- A strict comparison at every element but the last. -/
def chain (strict last : CmpKind) : ι × ι → List (ι × ι) → BoolExpr ι
  | p, [] => .cmp last p.1 p.2
  | p, q :: ps => .or (.cmp strict p.1 p.2) (.and (.cmp .eq p.1 p.2) (chain strict last q ps))

/-- `desugar_row_cmp`. -/
def desugarRowCmp (op : CmpKind) (p : ι × ι) (ps : List (ι × ι)) : BoolExpr ι :=
  match op with
  | .eq => eqAll p ps
  | .ne => .not (eqAll p ps)
  | .lt => chain .lt .lt p ps
  | .le => chain .lt .le p ps
  | .gt => chain .gt .gt p ps
  | .ge => chain .gt .ge p ps

/-- `bind_row_value_cmp`: both sides must have the same number of columns. -/
def bindRowValueCmp (op : CmpKind) (l r : List ι) : Except Error (BoolExpr ι) :=
  if l.length ≠ r.length then .error (.bind
    s!"row values have an unequal number of columns: left has {l.length}, right has {r.length}")
  else match l.zip r with
    | [] => .error (.bind "row value misused")
    | p :: ps => .ok (desugarRowCmp op p ps)

/-- `bind_row_value_in`: a comparison with each item. -/
def bindRowValueIn (l : List ι) (items : List (List ι)) (negated : Bool) :
    Except Error (BoolExpr ι) :=
  match items with
  | [] => .ok (.lit negated)
  | item :: items => do
    let first ← bindRowValueCmp .eq l item
    let acc ← items.foldlM (fun acc item => do
      let arm ← bindRowValueCmp .eq l item
      return BoolExpr.or acc arm) first
    return if negated then .not acc else acc

end Desugar

variable {ι α : Type} [Ord α] (env : ι → Option α)

/-- How two operands compare, if neither is NULL. -/
def pairCmp (p : ι × ι) : Option Ordering := do
  return compare (← env p.1) (← env p.2)

/-- The truth of a desugared comparison, by three-valued logic. -/
def BoolExpr.eval : BoolExpr ι → Option Bool
  | .lit b => some b
  | .cmp kind l r => (pairCmp env (l, r)).map kind.holds
  | .and l r => kleeneAnd l.eval r.eval
  | .or l r => kleeneOr l.eval r.eval
  | .not e => e.eval.map (!·)

end Mpedb.RowValue
