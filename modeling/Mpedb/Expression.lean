import Mpedb.Keycode
import Mpedb.Lib.Checked
import Mpedb.ScalarFn

/-!
# Expression programs

A compiled expression is a list of instructions for a stack machine and its constants. `validate`
accepts a program if every instruction is reached, at one depth, with its operands on the stack and
its constants in range; jumps go forward. The evaluator relies on that: it pops with `expect`,
indexes and splits. What an operator computes is a parameter (`Builtins`).
-/

namespace Mpedb.Expr

open Checked

/-- The comparison operators. -/
inductive CmpKind
  | eq | ne | lt | le | gt | ge
  deriving DecidableEq

/-- The instructions of an expression program. -/
inductive Instr
  | pushCol (i : UInt16)
  | pushParam (i : UInt16)
  | pushConst (i : UInt16)
  | eq | ne | lt | le | gt | ge
  | add | sub | mul | div | mod | divStrict | modStrict
  | neg | and | or | not | isNull | isNotNull | isNotDistinct | isDistinct | toFloat
  | cast (aff : Affinity)
  | castPg (oid : UInt32)
  | enumRank (slot : UInt16)
  | enumValidate (slot : UInt16)
  | concat
  | like (pattern : UInt16)
  | likeCs (pattern : UInt16)
  | likeEsc (pattern esc : UInt16)
  | likeCsEsc (pattern esc : UInt16)
  | glob (pattern : UInt16)
  | regexp (pattern : UInt16)
  | inParam (i : UInt16)
  | inParamColl (i : UInt16) (coll : Collation)
  | concatN (n : UInt16)
  | inList (n : UInt16)
  | jumpIfNotTrue (t : UInt16)
  | jump (t : UInt16)
  | jumpIfNotNull (t : UInt16)
  | pop
  | call (f : ScalarFn) (argc : UInt8)
  | callColl (f : ScalarFn) (argc : UInt8) (coll : Collation)
  | cmpColl (kind : CmpKind) (coll : Collation)
  | inListColl (n : UInt16) (coll : Collation)
  | hostCall (name argc : UInt16)
  | spellCall (hash argc : UInt16)
  | affinity (aff : Affinity)
  | cmpClass (kind : CmpKind) (coll : Collation)
  | bitAnd | bitOr | shl | shr | bitNot
  | regexpDyn | likeDyn | likeCsDyn
  | likeDynEsc (esc : UInt16)
  | likeCsDynEsc (esc : UInt16)
  | globDyn

/-- What the evaluator returns: a value, an error, or a panic. -/
abbrev Res (α : Type) : Type := Checked Error α

/-- An error of a built-in is an error of the evaluator. -/
def lift {α : Type} : Except Error α → Res α
  | .ok a => .ok a
  | .error e => fail e

/-- A text on the stack. -/
def text (s : String) : Datum := .scalar (.text s)

/-- A truth value on the stack. -/
def bool (b : Bool) : Datum := .scalar (.bool b)

/-- `escape_char`: ESCAPE takes a text of one character. -/
def escapeChar (d : Datum) : Except Error Char :=
  match d with
  | .scalar (.text s) => match s.toList with
    | [c] => .ok c
    | _ => .error (.corrupt "ESCAPE expression must be a single character")
  | _ => .error (.corrupt "ESCAPE expression must be a single character")

/-- The error of an operand that is no constant. -/
def outOfRange : Error := .corrupt "const index out of range"

/-- The error of an instruction with too few values. -/
def underflow : Error := .corrupt "expression stack underflow"

/-- Whether a constant is a text. -/
def isText : Datum → Bool
  | .scalar (.text _) => true
  | _ => false

/-- The operands an instruction pops and the results it pushes, jumps apart. -/
def effect (consts : List Datum) : Instr → Except Error (ℕ × ℕ)
  | .pushCol _ | .pushParam _ => .ok (0, 1)
  | .pushConst c => if c.toNat ≥ consts.length then .error outOfRange else .ok (0, 1)
  | .like c | .likeCs c | .glob c | .regexp c =>
    if c.toNat ≥ consts.length then .error outOfRange else .ok (1, 1)
  | .likeEsc p e | .likeCsEsc p e =>
    if p.toNat ≥ consts.length ∨ e.toNat ≥ consts.length then .error outOfRange
    else (escapeChar (consts.getD e.toNat .null)).map fun _ => (1, 1)
  | .likeDynEsc e | .likeCsDynEsc e =>
    if e.toNat ≥ consts.length then .error outOfRange
    else (escapeChar (consts.getD e.toNat .null)).map fun _ => (2, 1)
  | .inParam _ | .inParamColl .. => .ok (1, 1)
  | .enumRank slot | .enumValidate slot => match consts[slot.toNat]? with
    | some (.list labels) =>
      if labels.isEmpty ∨ !labels.all isText then .error (.corrupt "bad enum rank labels")
      else .ok (1, 1)
    | _ => .error (.corrupt "bad enum rank constant")
  | .cast _ | .castPg _ | .affinity _ => .ok (1, 1)
  | .concat => .ok (2, 1)
  | .concatN n => .ok (n.toNat, 1)
  | .inList n | .inListColl n _ => .ok (n.toNat + 1, 1)
  | .neg | .not | .isNull | .isNotNull | .toFloat | .bitNot => .ok (1, 1)
  | .pop => .ok (1, 0)
  | .call f argc | .callColl f argc _ =>
    if f.arityOk argc.toNat then .ok (argc.toNat, 1)
    else .error (.corrupt s!"{f.name}() called with {argc.toNat} argument(s)")
  | .hostCall name argc =>
    if name.toNat ≥ consts.length then .error (.corrupt "host-call name index out of range")
    else .ok (argc.toNat, 1)
  | .spellCall hash argc => match consts[hash.toNat]? with
    | some (.scalar (.blob b)) =>
      if b.length = 32 then .ok (argc.toNat, 1)
      else .error (.corrupt "spell-call constant is not a 32-byte hash")
    | _ => .error (.corrupt "spell-call constant is not a 32-byte hash")
  | _ => .ok (2, 1)

/-- The depth on entry to `t`, which must be the same on every path. -/
def merge (depthAt : List (Option ℕ)) (t d : ℕ) : Res (List (Option ℕ)) := do
  match ← index depthAt t with
  | none => return depthAt.set t (some d)
  | some prev =>
    if prev = d then return depthAt
    else fail (.corrupt
      s!"stack depth disagrees at instruction {t}: {prev} on one path, {d} on another")

/-- A jump goes forward, at most to the end. -/
def checkTarget (n i t : ℕ) : Res Unit :=
  if t ≤ i then fail (.corrupt s!"backward jump {i} -> {t}: expression programs must terminate")
  else if t > n then fail (.corrupt s!"jump target {t} past end of program")
  else .ok ()

/-- One instruction of the walk: the depths known so far and the greatest of them. -/
def visit (n : ℕ) (consts : List Datum) (s : List (Option ℕ) × ℕ) (instr : Instr) (i : ℕ) :
    Res (List (Option ℕ) × ℕ) := do
  let some d ← index s.1 i | fail (.corrupt s!"instruction {i} is unreachable")
  let max := Nat.max s.2 d
  match instr with
  | .jump t =>
    checkTarget n i t.toNat
    let depthAt ← merge s.1 t.toNat d
    return (depthAt, max)
  | .jumpIfNotTrue t =>
    checkTarget n i t.toNat
    if d < 1 then fail underflow
    let depthAt ← merge s.1 t.toNat (d - 1)
    let depthAt ← merge depthAt (i + 1) (d - 1)
    return (depthAt, max)
  | .jumpIfNotNull t =>
    checkTarget n i t.toNat
    if d < 1 then fail underflow
    let depthAt ← merge s.1 t.toNat d
    let depthAt ← merge depthAt (i + 1) d
    return (depthAt, max)
  | instr =>
    let (pops, pushes) ← lift (effect consts instr)
    if d < pops then fail underflow
    let nd := d - pops + pushes
    let depthAt ← merge s.1 (i + 1) nd
    return (depthAt, Nat.max max nd)

/-- The depth of the stack before each instruction, from instruction `i` on. -/
def visitAll (n : ℕ) (consts : List Datum) : ℕ → List (Option ℕ) × ℕ → List Instr →
    Res (List (Option ℕ) × ℕ)
  | _, s, [] => .ok s
  | i, s, instr :: instrs => do
    let s ← visit n consts s instr i
    visitAll n consts (i + 1) s instrs

/-- The greatest stack depth of a program, if its discipline can be shown. -/
def validate (instrs : List Instr) (consts : List Datum) : Res ℕ := do
  if instrs.isEmpty then fail (.corrupt "empty expression program")
  let n := instrs.length
  let s ← visitAll n consts 0 ((List.replicate (n + 1) none).set 0 (some 0), 0) instrs
  match ← index s.1 n with
  | some 1 => return s.2
  | some other =>
    fail (.corrupt s!"expression program must leave exactly one value, leaves {other}")
  | none => fail (.corrupt "expression program never reaches its end")

/-- A program that the verifier accepts, with the depth of its stack. -/
structure Program where
  instrs : List Instr
  consts : List Datum
  maxStack : ℕ
  valid : validate instrs consts = .ok maxStack

/-- `new`: verifies the program. -/
def Program.new (instrs : List Instr) (consts : List Datum) : Res Program :=
  match h : validate instrs consts with
  | .ok maxStack => .ok ⟨instrs, consts, maxStack, h⟩
  | .error e => .error e

/-- What the operators compute, and the functions of the host that are in scope. -/
structure Builtins where
  sqlCmp : Datum → Datum → Except Error (Option Ordering)
  sqlCmpCollated : Datum → Datum → Collation → Except Error (Option Ordering)
  sortCmp : Datum → Datum → Collation → Option Ordering
  truthy3 : Datum → Option Bool
  arith : Instr → Datum → Datum → Except Error Datum
  bitwise : Instr → Datum → Datum → Except Error Datum
  bitI64 : Datum → Except Error (Option Int64)
  intToFloat : Int64 → F64
  floatPrefix : String → F64
  castValue : Datum → Affinity → Except Error Datum
  castPg : Datum → UInt32 → Except Error Datum
  storeAffinity : Affinity → Datum → Datum
  concatValue : Datum → Datum → Except Error Datum
  concatBytesN : List Datum → Except Error Datum
  likeMatch : String → String → Option Char → Bool
  likeMatchCs : String → String → Option Char → Bool
  pgLikeMatch : String → String → Char → Except Error Bool
  globMatch : String → String → Bool
  regexpMatch : String → String → Except Error Bool
  inList3vl : Datum → Datum → Collation → Except Error Datum
  inItems3vl : Datum → List Datum → Collation → Except Error Datum
  callScalar : ScalarFn → List Datum → Except Error Datum
  callScalarCollated : ScalarFn → List Datum → Collation → Except Error Datum
  debugText : String → String
  host : Option (String → List Datum → Except Error Datum)
  spell : Option (List UInt8 → List Datum → Except Error Datum)

/-- `stack.pop().expect("validated")`, the top first. -/
def popTop : List Datum → Res (Datum × List Datum)
  | [] => Checked.panic
  | a :: stack => .ok (a, stack)

/-- `stack.split_off(stack.len() - n)`, the deepest first. -/
def splitOff (n : ℕ) (stack : List Datum) : Res (List Datum × List Datum) :=
  if n ≤ stack.length then .ok ((stack.take n).reverse, stack.drop n) else Checked.panic

/-- An instruction on the top of the stack. -/
def unary (f : Datum → Except Error Datum) (stack : List Datum) : Res (List Datum) := do
  let (a, stack) ← popTop stack
  let v ← lift (f a)
  return v :: stack

/-- An instruction on the two topmost values. -/
def binary (f : Datum → Datum → Except Error Datum) (stack : List Datum) : Res (List Datum) := do
  let (b, stack) ← popTop stack
  let (a, stack) ← popTop stack
  let v ← lift (f a b)
  return v :: stack

/-- An instruction on the `n` topmost values. -/
def nary (n : ℕ) (f : List Datum → Except Error Datum) (stack : List Datum) : Res (List Datum) := do
  let (args, stack) ← splitOff n stack
  let v ← lift (f args)
  return v :: stack

/-- Whether an order answers a comparison. -/
def CmpKind.holds : CmpKind → Ordering → Bool
  | .eq, ord => ord = .eq
  | .ne, ord => ord ≠ .eq
  | .lt, ord => ord = .lt
  | .le, ord => ord ≠ .gt
  | .gt, ord => ord = .gt
  | .ge, ord => ord ≠ .lt

/-- The answer of a comparison; NULL where there is no order. -/
def verdict (kind : CmpKind) : Option Ordering → Datum
  | none => .null
  | some ord => bool (kind.holds ord)

/-- A three-valued truth value on the stack. -/
def ofTruth : Option Bool → Datum
  | none => .null
  | some b => bool b

/-- LIKE and its kin: null if an operand is, and only on texts. -/
def textMatch (what : String) (f : String → String → Except Error Bool) (a pattern : Datum) :
    Except Error Datum :=
  match a, pattern with
  | .scalar .null, _ | _, .scalar .null => .ok .null
  | .scalar (.text s), .scalar (.text p) => (f p s).map bool
  | _, _ => .error (.typeMismatch (what ++ " requires text operands"))

section Eval

variable (b : Builtins)

/-- Unary minus. -/
def negate (a : Datum) : Except Error Datum :=
  match a with
  | .scalar .null => .ok .null
  | .scalar (.int x) => if x = Int64.minValue then .error .arithmeticOverflow else .ok
      (.scalar (.int (-x)))
  | .scalar (.float x) => .ok (.scalar (.float ⟨x.bits ^^^ 0x8000000000000000⟩))
  | v => .error (.typeMismatch s!"cannot negate {v.typeName}")

/-- The value as a float. -/
def toFloat (a : Datum) : Except Error Datum :=
  match a with
  | .scalar .null => .ok .null
  | .scalar (.int x) => .ok (.scalar (.float (b.intToFloat x)))
  | .scalar (.float x) => .ok (.scalar (.float x))
  | .scalar (.numeric n) => .ok (.scalar (.float (b.floatPrefix n)))
  | v => .error (.typeMismatch s!"cannot cast {v.typeName} to float")

/-- AND in three-valued logic. -/
def kleeneAnd (x y : Datum) : Datum :=
  match b.truthy3 x, b.truthy3 y with
  | some false, _ | _, some false => bool false
  | some true, some true => bool true
  | _, _ => .null

/-- OR in three-valued logic. -/
def kleeneOr (x y : Datum) : Datum :=
  match b.truthy3 x, b.truthy3 y with
  | some true, _ | _, some true => bool true
  | some false, some false => bool false
  | _, _ => .null

/-- `IS`: NULL is the same as NULL only. -/
def same (x y : Datum) : Except Error Bool :=
  match x.isNull, y.isNull with
  | true, true => .ok true
  | true, false | false, true => .ok false
  | false, false => (b.sqlCmp x y).map (· = some .eq)

/-- A comparison across storage classes under a collation. -/
def cmpClass (kind : CmpKind) (coll : Collation) (x y : Datum) : Except Error Datum :=
  if x.isNull || y.isNull then .ok .null
  else match b.sortCmp x y coll with
    | some ord => .ok (bool (kind.holds ord))
    | none => .error (.typeMismatch s!"cannot compare {x.typeName} with {y.typeName}")

/-- The rank of an enum label, or the label itself if the enum has it. -/
def enumLabel (rank : Bool) (name : String) (labels : List Datum) (a : Datum) :
    Except Error Datum :=
  match a with
  | .scalar .null => .ok .null
  | .scalar (.text label) =>
    match labels.findIdx? (fun d => match d with
      | .scalar (.text s) => s = label
      | _ => false) with
    | some r => .ok (if rank then .scalar (.int (.ofNat r)) else text label)
    | none => .error (.bind s!"invalid input value for enum {name}: {b.debugText label}")
  | _ => .error (.typeMismatch "enum label must be text")

/-- The definition of an enumeration in the constants: its name and its labels. -/
def enumDef (consts : List Datum) (slot : UInt16) : Res (String × List Datum) := do
  match ← index consts slot.toNat with
  | .list (.scalar (.text name) :: labels) => return (name, labels)
  | _ => Checked.panic

/-- LIKE with an escape: the dialect without case folding reports a pattern that ends in it. -/
def likeEscape (ci : Bool) (esc : Char) (p s : String) : Except Error Bool :=
  if ci then .ok (b.likeMatch p s (some esc)) else b.pgLikeMatch p s esc

/-- LIKE, GLOB or REGEXP with a constant pattern. -/
def matchConst (consts : List Datum) (i : UInt16) (f : Datum → Datum → Except Error Datum)
    (stack : List Datum) : Res (List Datum) := do
  let (a, stack) ← popTop stack
  let pattern ← index consts i.toNat
  let v ← lift (f a pattern)
  return v :: stack

/-- LIKE with a constant pattern and ESCAPE. -/
def matchEscape (consts : List Datum) (ci : Bool) (p e : UInt16) (stack : List Datum) :
    Res (List Datum) := do
  let (a, stack) ← popTop stack
  let pattern ← index consts p.toNat
  let esc ← lift (escapeChar (← index consts e.toNat))
  let v ← lift (textMatch "LIKE" (likeEscape b ci esc) a pattern)
  return v :: stack

/-- LIKE with a pattern from the stack and a constant ESCAPE. -/
def matchDynEscape (consts : List Datum) (ci : Bool) (e : UInt16) (stack : List Datum) :
    Res (List Datum) := do
  let (pattern, stack) ← popTop stack
  let (a, stack) ← popTop stack
  let esc ← lift (escapeChar (← index consts e.toNat))
  let v ← lift (textMatch "LIKE" (likeEscape b ci esc) a pattern)
  return v :: stack

/-- IN with the list in a parameter. -/
def inParam (params : List Datum) (i : UInt16) (coll : Collation) (stack : List Datum) :
    Res (List Datum) := do
  let (probe, stack) ← popTop stack
  let list ← get (.corrupt "IN list parameter index out of range") params i.toNat
  let v ← lift (b.inList3vl probe list coll)
  return v :: stack

/-- IN with the list on the stack. -/
def inList (n : UInt16) (coll : Collation) (stack : List Datum) : Res (List Datum) := do
  let (items, stack) ← splitOff n.toNat stack
  let (probe, stack) ← popTop stack
  let v ← lift (b.inItems3vl probe items coll)
  return v :: stack

/-- What an instruction that does not jump does to the stack. -/
def exec (consts cols params : List Datum) (instr : Instr) (stack : List Datum) :
    Res (List Datum) :=
  match instr with
  | .pushCol i => do
    let v ← get (.internal s!"column index {i.toNat} out of row bounds") cols i.toNat
    return v :: stack
  | .pushParam i => do
    let v ← get (.wrongParamCount (i.toNat + 1) params.length) params i.toNat
    return v :: stack
  | .pushConst i => do
    let v ← index consts i.toNat
    return v :: stack
  | .eq => binary (fun x y => (b.sqlCmp x y).map (verdict .eq)) stack
  | .ne => binary (fun x y => (b.sqlCmp x y).map (verdict .ne)) stack
  | .lt => binary (fun x y => (b.sqlCmp x y).map (verdict .lt)) stack
  | .le => binary (fun x y => (b.sqlCmp x y).map (verdict .le)) stack
  | .gt => binary (fun x y => (b.sqlCmp x y).map (verdict .gt)) stack
  | .ge => binary (fun x y => (b.sqlCmp x y).map (verdict .ge)) stack
  | .add | .sub | .mul | .div | .mod | .divStrict | .modStrict => binary (b.arith instr) stack
  | .bitAnd | .bitOr | .shl | .shr => binary (b.bitwise instr) stack
  | .bitNot => unary (fun x => (b.bitI64 x).map fun
    | none => .null
    | some i => .scalar (.int (~~~i))) stack
  | .neg => unary negate stack
  | .and => binary (fun x y => .ok (kleeneAnd b x y)) stack
  | .or => binary (fun x y => .ok (kleeneOr b x y)) stack
  | .not => unary (fun x => .ok (ofTruth ((b.truthy3 x).map (!·)))) stack
  | .isNull => unary (fun x => .ok (bool x.isNull)) stack
  | .isNotNull => unary (fun x => .ok (bool !x.isNull)) stack
  | .isNotDistinct => binary (fun x y => (same b x y).map bool) stack
  | .isDistinct => binary (fun x y => (same b x y).map fun e => bool !e) stack
  | .toFloat => unary (toFloat b) stack
  | .cast t => unary (b.castValue · t) stack
  | .enumRank slot => do
    let (name, labels) ← enumDef consts slot
    unary (enumLabel b true name labels) stack
  | .enumValidate slot => do
    let (name, labels) ← enumDef consts slot
    unary (enumLabel b false name labels) stack
  | .castPg oid => unary (b.castPg · oid) stack
  | .concat => binary b.concatValue stack
  | .concatN n => nary n.toNat b.concatBytesN stack
  | .like p => matchConst consts p (textMatch "LIKE" fun p s => .ok (b.likeMatch p s none)) stack
  | .likeCs p => matchConst consts p (textMatch "LIKE" fun p s => .ok (b.likeMatchCs p s none))
      stack
  | .likeEsc p e => matchEscape b consts true p e stack
  | .likeCsEsc p e => matchEscape b consts false p e stack
  | .glob p => matchConst consts p (textMatch "GLOB" fun p s => .ok (b.globMatch p s)) stack
  | .regexp p => matchConst consts p (textMatch "REGEXP" b.regexpMatch) stack
  | .likeDyn => binary (textMatch "LIKE" fun p s => .ok (b.likeMatch p s none)) stack
  | .likeCsDyn => binary (textMatch "LIKE" fun p s => .ok (b.likeMatchCs p s none)) stack
  | .likeDynEsc e => matchDynEscape b consts true e stack
  | .likeCsDynEsc e => matchDynEscape b consts false e stack
  | .globDyn => binary (textMatch "GLOB" fun p s => .ok (b.globMatch p s)) stack
  | .regexpDyn => binary (textMatch "REGEXP" b.regexpMatch) stack
  | .inParam i => inParam b params i .binary stack
  | .inParamColl i coll => inParam b params i coll stack
  | .inList n => inList b n .binary stack
  | .inListColl n coll => inList b n coll stack
  | .pop => do
    let (_, stack) ← popTop stack
    return stack
  | .call f argc => nary argc.toNat (b.callScalar f) stack
  | .callColl f argc coll => nary argc.toNat (b.callScalarCollated f · coll) stack
  | .cmpColl kind coll => binary (fun x y => (b.sqlCmpCollated x y coll).map (verdict kind)) stack
  | .affinity aff => unary (fun x => .ok (b.storeAffinity aff x)) stack
  | .cmpClass kind coll => binary (cmpClass b kind coll) stack
  | .hostCall name argc => do
    match ← index consts name.toNat with
    | .scalar (.text s) => nary argc.toNat (fun args => match b.host with
      | some call => call s args
      | none =>
        .error (.unsupported s!"host function {s}() is not in scope for this execution")) stack
    | _ => fail (.corrupt "host-call name constant is not text")
  | .spellCall hash argc => do
    match ← index consts hash.toNat with
    | .scalar (.blob h) =>
      if h.length = 32 then nary argc.toNat (fun args => match b.spell with
        | some call => call h args
        | none => .error (.unsupported "stored function is not in scope for this execution")) stack
      else fail (.corrupt "spell-call hash constant is not 32 bytes")
    | _ => fail (.corrupt "spell-call hash constant is not a blob")
  | .jump _ | .jumpIfNotTrue _ | .jumpIfNotNull _ => .ok stack

/-- The evaluator between two instructions. -/
structure Machine where
  pc : ℕ
  stack : List Datum

/-- One instruction. -/
def step (p : Program) (cols params : List Datum) (m : Machine) : Res Machine := do
  let instr ← index p.instrs m.pc
  match instr with
  | .jumpIfNotTrue t =>
    let (c, stack) ← popTop m.stack
    return ⟨if b.truthy3 c ≠ some true then t.toNat else m.pc + 1, stack⟩
  | .jump t => return ⟨t.toNat, m.stack⟩
  | .jumpIfNotNull t =>
    let (v, _) ← popTop m.stack
    return ⟨if v.isNull then m.pc + 1 else t.toNat, m.stack⟩
  | instr =>
    let stack ← exec b p.consts cols params instr m.stack
    return ⟨m.pc + 1, stack⟩

/-- The loop, for at most `fuel` instructions: `none` if it has not ended by then. -/
def run (p : Program) (cols params : List Datum) : ℕ → Machine → Option (Res Machine)
  | fuel, m =>
    if m.pc < p.instrs.length then
      match fuel with
      | 0 => none
      | fuel + 1 => match step b p cols params m with
        | .ok m => run p cols params fuel m
        | .error e => some (.error e)
    else some (.ok m)

/-- The value of the program, if `fuel` instructions are enough. -/
def eval (p : Program) (cols params : List Datum) (fuel : ℕ) : Option (Res Datum) :=
  (run b p cols params fuel ⟨0, []⟩).map fun r => do
    let m ← r
    let (v, _) ← popTop m.stack
    return v

end Eval

end Mpedb.Expr
