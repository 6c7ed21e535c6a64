import Mpedb.Compare
import Mpedb.Expression

/-!
# From bound expressions to programs

`compileProgram` emits the code of a bound expression, operands first, and has it verified. The
nodes that branch or carry data of their own (`Case`, `Call`, `InList`, `Like`, the collated and the
storage-class comparisons, …) are what they emit.
-/

namespace Mpedb.Lowering

open Mpedb.Expr Checked

/-- The unary operators of a bound expression. -/
inductive UnOp
  | neg | not | isNull | isNotNull | toFloat | bitNot
  deriving DecidableEq

/-- The binary operators of a bound expression. -/
inductive BinOp
  | add | sub | mul | div | mod | divStrict | modStrict | eq | ne | lt | le | gt | ge | concat
  | and | or | jsonArrow | jsonArrowText | bitAnd | bitOr | shl | shr
  deriving DecidableEq

/-- A program while it is compiled. -/
structure Code where
  instrs : List Instr
  consts : List Datum

/-- A bound expression. -/
inductive BExpr
  | const (v : Datum)
  | param (i : UInt16)
  | col (i : UInt16)
  | unary (op : UnOp) (e : BExpr)
  | binary (op : BinOp) (l r : BExpr)
  | other (emit : Code → Except Error Code)

/-- The instruction of a unary operator. -/
def UnOp.instr : UnOp → Instr
  | .neg => .neg
  | .not => .not
  | .isNull => .isNull
  | .isNotNull => .isNotNull
  | .toFloat => .toFloat
  | .bitNot => .bitNot

/-- The accessors of JSON are bound to calls. -/
def BinOp.instr : BinOp → Except Error Instr
  | .add => .ok .add
  | .sub => .ok .sub
  | .mul => .ok .mul
  | .div => .ok .div
  | .mod => .ok .mod
  | .divStrict => .ok .divStrict
  | .modStrict => .ok .modStrict
  | .eq => .ok .eq
  | .ne => .ok .ne
  | .lt => .ok .lt
  | .le => .ok .le
  | .gt => .ok .gt
  | .ge => .ok .ge
  | .concat => .ok .concat
  | .and => .ok .and
  | .or => .ok .or
  | .bitAnd => .ok .bitAnd
  | .bitOr => .ok .bitOr
  | .shl => .ok .shl
  | .shr => .ok .shr
  | .jsonArrow | .jsonArrowText =>
    .error (.bind "internal: a JSON accessor reached the binary emitter")

/-- The constants are not shared. -/
def pushConst (consts : List Datum) (v : Datum) : Except Error (UInt16 × List Datum) :=
  if consts.length ≥ 65535 then .error (.bind "expression has too many constants")
  else .ok (.ofNat consts.length, consts ++ [v])

/-- Appends an instruction. -/
def Code.push (c : Code) (i : Instr) : Code := { c with instrs := c.instrs ++ [i] }

/-- `emit`: the code of an expression behind the code so far. -/
def emit : BExpr → Code → Except Error Code
  | .const v, c => do
    let (i, consts) ← pushConst c.consts v
    return Code.push { c with consts } (.pushConst i)
  | .param i, c => .ok (c.push (.pushParam i))
  | .col i, c => .ok (c.push (.pushCol i))
  | .unary op e, c => do
    let c ← emit e c
    return c.push op.instr
  | .binary op l r, c => do
    let c ← emit l c
    let c ← emit r c
    let i ← op.instr
    return c.push i
  | .other emit, c => emit c

/-- `display` renders an error. -/
def compileProgram (display : Error → String) (e : BExpr) : Res Program := do
  let c ← lift (emit e ⟨[], []⟩)
  match Program.new c.instrs c.consts with
  | .error (.err e) => fail (.internal s!"codegen produced invalid program: {display e}")
  | r => r

/-- `eval_with_stack`. A verified program has ended after as many steps as it has instructions. -/
def evalWithStack (b : Builtins) (p : Program) (cols params : List Datum) : Res Datum :=
  (eval b p cols params p.instrs.length).getD Checked.panic

/-- `sql_cmp` on the values of the stack. -/
def sqlCmp : Datum → Datum → Except Error (Option Ordering)
  | .scalar .null, _ | _, .scalar .null => .ok none
  | .list _, _ | _, .list _ => .error (.typeMismatch
      "a context list supports only `IN` membership, not comparison")
  | .scalar a, .scalar b => a.sqlCmp b

/-- `truthy3`: the truth of a value. -/
def truthy3 (toReal : Value → F64) : Datum → Option Bool
  | .scalar .null => none
  | .scalar (.bool b) => some b
  | .scalar (.int i) => some (i ≠ 0)
  | .list _ => some false
  | .scalar v => some !(toReal v).isZero

/-- The operators, with comparisons and truth as the values have them. -/
def withValues (b : Builtins) (toReal : Value → F64) : Builtins :=
  { b with sqlCmp, truthy3 := truthy3 toReal }

end Mpedb.Lowering
