import Mpedb.Lowering
import Mpedb.SegmentScan

/-!
# The fast path of a filter

`numericFilter` runs a program over slots that hold no heap: nulls, integers, floats and booleans.
It declines at any other value or instruction, and where `sql_cmp` refuses a comparison; the
evaluator then decides.
-/

namespace Mpedb.Lowering

open Mpedb.Expr Checked

/-- `leading` is the number at the start of some bytes. -/
def toReal (b : Builtins) (leading : List UInt8 → F64) : Value → F64
  | .int i | .timestamp i | .date i | .time i => b.intToFloat i
  | .float f => f
  | .bool x => if x then ⟨0x3FF0000000000000⟩ else ⟨0⟩
  | .numeric s | .text s => leading (utf8 s.toList)
  | .blob bytes => leading bytes
  | .null => ⟨0⟩

/-- The number of a value, if it is one. -/
def slotOf : Datum → Option Num
  | .scalar v => Num.of v
  | .list _ => none

/-- Pushes onto the fixed stack, if there is room. -/
def pushSlot (stack : List Num) (n : Num) : Option (List Num) :=
  if numDepth ≤ stack.length then none else some (n :: stack)

/-- Pushes a value that is there and is a number. -/
def pushDatum (stack : List Num) (d : Option Datum) : Option (List Num) := do
  pushSlot stack (← slotOf (← d))

/-- An instruction on the topmost slot. -/
def unarySlot (f : Num → Num) : List Num → Option (List Num)
  | a :: stack => pushSlot stack (f a)
  | [] => none

/-- An instruction on the two topmost slots. -/
def binarySlot (f : Num → Num → Option Num) : List Num → Option (List Num)
  | b :: a :: stack => f a b >>= pushSlot stack
  | _ => none

/-- A comparison of two slots. -/
def cmpSlot (kind : CmpKind) (x y : Num) : Option Num :=
  (x.cmp3 y).map fun o => .ofTruth (o.map kind.holds)

/-- One instruction of the fast path. -/
def numericExec (consts cols params : List Datum) (stack : List Num) :
    Expr.Instr → Option (List Num)
  | .pushCol i => pushDatum stack cols[i.toNat]?
  | .pushParam i => pushDatum stack params[i.toNat]?
  | .pushConst i => pushDatum stack consts[i.toNat]?
  | .eq => binarySlot (cmpSlot .eq) stack
  | .ne => binarySlot (cmpSlot .ne) stack
  | .lt => binarySlot (cmpSlot .lt) stack
  | .le => binarySlot (cmpSlot .le) stack
  | .gt => binarySlot (cmpSlot .gt) stack
  | .ge => binarySlot (cmpSlot .ge) stack
  | .and => binarySlot (fun x y => some (.ofTruth (Mpedb.kleeneAnd x.truthy y.truthy))) stack
  | .or => binarySlot (fun x y => some (.ofTruth (Mpedb.kleeneOr x.truthy y.truthy))) stack
  | .not => unarySlot (fun x => .ofTruth (x.truthy.map (!·))) stack
  | _ => none

/-- `numeric_filter`: the verdict of the fast path, none if it gives up. -/
def numericFilter (p : Expr.Program) (cols params : List Datum) : Option Bool :=
  match p.instrs.foldlM (numericExec p.consts cols params) [] with
  | some [n] => some (n.truthy = some true)
  | _ => none

/-- The instructions that the fast path knows. -/
def fastInstr : Expr.Instr → Bool
  | .pushCol _ | .pushParam _ | .pushConst _ | .eq | .ne | .lt | .le | .gt | .ge | .and
  | .or | .not => true
  | _ => false

/-- What the construction of a program notes for the fast path. -/
def fastOk (p : Expr.Program) : Bool := p.maxStack ≤ numDepth && p.instrs.all fastInstr

/-- Whether a row passes. `fastOff` is the switch of the environment. -/
def evalFilterHost (b : Builtins) (leading : List UInt8 → F64) (fastOff : Bool) (p : Expr.Program)
    (cols params : List Datum) : Res Bool :=
  match if fastOk p && !fastOff then numericFilter p cols params else none with
  | some hit => .ok hit
  | none => do
    let v ← evalWithStack (withValues b (toReal b leading)) p cols params
    return truthy3 (toReal b leading) v = some true

end Mpedb.Lowering
