import Mpedb.Lib.Interval
import Mpedb.Value

/-!
# Islands

The interval that the conjuncts of a WHERE clause confine a column to: a comparison with a constant
is pushed backward through the expression to the column. The contract is one-sided, no value that
satisfies the conjuncts may be outside. Floats and exact numerics are read as numbers of a field
`K`; integers are those of the evaluator.
-/

namespace Mpedb.Island

open Interval

variable {K : Type} [Field K] [LinearOrder K]

/-- A value, with numbers in the field `K`. -/
inductive Val (K : Type)
  | null
  | bool (b : Bool)
  | int (i : Int64)
  | float (q : K)
  | numeric (q : K)
  /-- A text, a blob, a float that is not finite, and so on, by its number. -/
  | other (n : ℕ)
  deriving DecidableEq

/-- `other` stands for the remainder, the concatenation, the bit operators and the access to
JSON. -/
inductive BinOp
  | add | sub | mul | div | divStrict | eq | ne | lt | le | gt | ge | and | or
  | other (n : ℕ)
  deriving DecidableEq

/-- `other` stands for NOT, the tests for NULL and the bitwise complement. -/
inductive UnOp
  | neg | toFloat
  | other (n : ℕ)
  deriving DecidableEq

/-- A row by its columns. -/
abbrev Row (K : Type) := ℕ → Val K

/-- A bound expression. `other` is any node that the analysis does not look into (`InList`, `Case`,
`Call`, the collated comparisons, …), by its value on a row. -/
inductive BExpr (K : Type)
  | const (v : Val K)
  | param (i : ℕ)
  | col (c : ℕ)
  | unary (op : UnOp) (e : BExpr K)
  | binary (op : BinOp) (a b : BExpr K)
  | cast (e : BExpr K) (affinity : Affinity)
  | other (run : Row K → Except Error (Val K))

/-- The parameters of a statement and what the operators outside of the analysis compute. Exact
numerics have a bounded number of digits, and a quotient of them is rounded. -/
structure Env (K : Type) where
  param : ℕ → Except Error (Val K)
  unary : ℕ → Val K → Except Error (Val K)
  binary : ℕ → Val K → Val K → Except Error (Val K)
  cast : Affinity → Val K → Except Error (Val K)
  cmpOther : Val K → Val K → Except Error (Option Ordering)
  truthyOther : ℕ → Bool
  fitsNumeric : K → Bool
  divNumeric : K → K → K

/-- An integer result, if it fits into 64 bits. -/
def checked (i : ℤ) : Except Error (Val K) :=
  if -2 ^ 63 ≤ i ∧ i < 2 ^ 63 then .ok (.int (Int64.ofInt i)) else .error .arithmeticOverflow

/-- Arithmetic on integers. -/
def intArith (op : BinOp) (x y : Int64) : Except Error (Val K) :=
  match op with
  | .add => checked (x.toInt + y.toInt)
  | .sub => checked (x.toInt - y.toInt)
  | .mul => checked (x.toInt * y.toInt)
  | .div => if y.toInt = 0 then .ok .null else checked (x.toInt.tdiv y.toInt)
  | _ => if y.toInt = 0 then .error .divisionByZero else checked (x.toInt.tdiv y.toInt)

/-- Arithmetic on floats, exact here. -/
def floatArith (op : BinOp) (x y : K) : Except Error (Val K) :=
  match op with
  | .add => .ok (.float (x + y))
  | .sub => .ok (.float (x - y))
  | .mul => .ok (.float (x * y))
  | .div => if y = 0 then .ok .null else .ok (.float (x / y))
  | _ => if y = 0 then .error .divisionByZero else .ok (.float (x / y))

/-- A decimal result, if it has at most 38 digits. -/
def exactNumeric (env : Env K) (q : K) : Except Error (Val K) :=
  if env.fitsNumeric q then .ok (.numeric q)
  else .error (.unsupported "exact decimal arithmetic needs more than 38 significant digits")

/-- Arithmetic on decimals. -/
def numericArith (env : Env K) (op : BinOp) (x y : K) : Except Error (Val K) :=
  match op with
  | .add => exactNumeric env (x + y)
  | .sub => exactNumeric env (x - y)
  | .mul => exactNumeric env (x * y)
  | .div => if y = 0 then .ok .null else exactNumeric env (env.divNumeric x y)
  | _ => if y = 0 then .error .divisionByZero else exactNumeric env (env.divNumeric x y)

/-- A pair with a float is computed in floats, a numeric with an integer in numerics. -/
def arith (env : Env K) (op : BinOp) : Val K → Val K → Except Error (Val K)
  | .null, _ | _, .null => .ok .null
  | .int x, .int y => intArith op x y
  | .float x, .float y => floatArith op x y
  | .int x, .float y => floatArith op x.toInt y
  | .float x, .int y => floatArith op x y.toInt
  | .numeric x, .numeric y => numericArith env op x y
  | .numeric x, .int y => numericArith env op x y.toInt
  | .int x, .numeric y => numericArith env op x.toInt y
  | _, _ => .error (.typeMismatch "arithmetic (binder should have coerced)")

/-- The order of two values, none with NULL. -/
def cmp (env : Env K) : Val K → Val K → Except Error (Option Ordering)
  | .null, _ | _, .null => .ok none
  | .int x, .int y => .ok (some (compare x.toInt y.toInt))
  | .float x, .float y => .ok (some (compare x y))
  | .int x, .float y => .ok (some (compare (x.toInt : K) y))
  | .float x, .int y => .ok (some (compare x (y.toInt : K)))
  | .numeric x, .numeric y => .ok (some (compare x y))
  | .bool x, .bool y => .ok (some (compare x y))
  | .other x, .other y => env.cmpOther (.other x) (.other y)
  | _, _ => .error (.typeMismatch "cannot compare")

/-- The truth of a value. -/
def truthy3 (env : Env K) : Val K → Option Bool
  | .null => none
  | .bool b => some b
  | .int i => some (i.toInt ≠ 0)
  | .float q | .numeric q => some (q ≠ 0)
  | .other n => some (env.truthyOther n)

/-- The comparison operators. -/
def isCmp : BinOp → Bool
  | .eq | .ne | .lt | .le | .gt | .ge => true
  | _ => false

/-- Whether an order answers a comparison. -/
def accepts : BinOp → Ordering → Bool
  | .eq, o => o = .eq
  | .ne, o => o ≠ .eq
  | .lt, o => o = .lt
  | .le, o => o ≠ .gt
  | .gt, o => o = .gt
  | .ge, o => o ≠ .lt
  | _, _ => false

/-- AND and OR in three-valued logic. -/
def logic : BinOp → Option Bool → Option Bool → Val K
  | .and, some false, _ | .and, _, some false => .bool false
  | .and, some true, some true => .bool true
  | .or, some true, _ | .or, _, some true => .bool true
  | .or, some false, some false => .bool false
  | _, _, _ => .null

/-- A binary operator on values. -/
def binOp (env : Env K) (op : BinOp) (a b : Val K) : Except Error (Val K) :=
  match op with
  | .add | .sub | .mul | .div | .divStrict => arith env op a b
  | .and | .or => .ok (logic op (truthy3 env a) (truthy3 env b))
  | .other n => env.binary n a b
  | op => match cmp env a b with
    | .error e => .error e
    | .ok none => .ok .null
    | .ok (some o) => .ok (.bool (accepts op o))

/-- A unary operator on values. -/
def unOp (env : Env K) (op : UnOp) (a : Val K) : Except Error (Val K) :=
  match op, a with
  | .neg, .null | .toFloat, .null => .ok .null
  | .neg, .int x => checked (-x.toInt)
  | .neg, .float x => .ok (.float (-x))
  | .neg, _ => .error (.typeMismatch "cannot negate")
  | .toFloat, .int x => .ok (.float x.toInt)
  | .toFloat, .float x | .toFloat, .numeric x => .ok (.float x)
  | .toFloat, _ => .error (.typeMismatch "cannot cast to float")
  | .other n, a => env.unary n a

/-- The value of an expression on a row. -/
def eval (env : Env K) (row : Row K) : BExpr K → Except Error (Val K)
  | .const v => .ok v
  | .param i => env.param i
  | .col c => .ok (row c)
  | .unary op e => match eval env row e with
    | .error e => .error e
    | .ok v => unOp env op v
  | .binary op a b => match eval env row a with
    | .error e => .error e
    | .ok x => match eval env row b with
      | .error e => .error e
      | .ok y => binOp env op x y
  | .cast e affinity => match eval env row e with
    | .error e => .error e
    | .ok v => env.cast affinity v
  | .other run => run row

/-- The number of a constant. -/
def numOf : Val K → Option K
  | .int i => some i.toInt
  | .float q => some q
  | _ => none

/-- The number of a constant expression. -/
def num : BExpr K → Option K
  | .const v => numOf v
  | _ => none

/-- Structural equality, on the shapes that the analysis inverts. -/
def same : BExpr K → BExpr K → Bool
  | .col x, .col y => x = y
  | .param x, .param y => x = y
  | .const x, .const y => x = y
  | .binary o a b, .binary o' a' b' => o = o' && same a a' && same b b'
  | .unary o a, .unary o' a' => o = o' && same a a'
  | .cast a x, .cast a' x' => x = x' && same a a'
  | _, _ => false

/-- Not negative on any row, by its construction. -/
def nonneg : BExpr K → Bool
  | .const v => (numOf v).any (0 ≤ ·)
  | .binary .mul a b => same a b || nonneg a && nonneg b
  | .binary .add a b => nonneg a && nonneg b
  | _ => false

/-- Where a value lies that compares so with `k`. -/
def target (op : BinOp) (k : K) : Iv K :=
  match op with
  | .lt | .le => .upto k
  | .gt | .ge => .atLeast k
  | .eq => .point k
  | _ => .all

/-- The comparison with its sides exchanged. -/
def flip : BinOp → BinOp
  | .lt => .gt
  | .le => .ge
  | .gt => .lt
  | .ge => .le
  | op => op

/-- Where an expression lies whose multiple by `k` lies in `t`. -/
def divTarget (t : Iv K) (k : K) : Iv K := if k = 0 then .all else (t.scale k⁻¹).sane

/-- Where a factor lies whose product with `k` lies in `t`. -/
def mulTarget (t : Iv K) (k : K) : Iv K := (t.scale k).sane

/-- The end of a target that bounds it from above by a number. -/
def upperEnd (t : Iv K) : Option K :=
  match t.hi with
  | .fin h => some h
  | _ => none

/-- Given that `e` lies in `t`, where the column lies. -/
def back (R : Roots K) (col : ℕ) : BExpr K → Iv K → Iv K
  | .col c, t => if t.isAll then .all else if c = col then t.sane else .all
  | .binary .add a b, t =>
    if t.isAll then .all
    else match num b, num a with
      | some k, _ => back R col a (t.shift (-k)).sane
      | none, some k => back R col b (t.shift (-k)).sane
      | none, none => match upperEnd t with
        | some h =>
          if nonneg a && nonneg b then
            ((back R col a (.upto h)).meet (back R col b (.upto h))).sane
          else .all
        | none => .all
  | .binary .sub a b, t =>
    if t.isAll then .all
    else match num b, num a with
      | some k, _ => back R col a (t.shift k).sane
      -- `k - b` in `t`: the ends swap
      | none, some k => back R col b (t.neg.shift k).sane
      | none, none => .all
  | .binary .mul a b, t =>
    if t.isAll then .all
    else if same a b then
      if t.hi.lt (.fin 0) then ⟨.fin 1, .fin (-1)⟩
      else match upperEnd t with
        | some h => back R col a (Iv.sane ⟨.fin (-R.sqrt h), .fin (R.sqrt h)⟩)
        | none => .all
    else match num b, num a with
      | some k, _ => back R col a (divTarget t k)
      | none, some k => back R col b (divTarget t k)
      | none, none => .all
  | .binary .div a b, t | .binary .divStrict a b, t =>
    if t.isAll then .all
    else match num b with
      | some k => if k = 0 then .all else back R col a (mulTarget t k)
      | none => .all
  | .unary .neg a, t => if t.isAll then .all else back R col a t.neg.sane
  | .unary .toFloat a, t => if t.isAll then .all else back R col a t
  | _, _ => .all

/-- `from_pred`: where the column lies if the predicate holds. -/
def fromPred (R : Roots K) (col : ℕ) : BExpr K → Iv K
  | .binary .and a b => (fromPred R col a).meet (fromPred R col b)
  | .binary .or a b => (fromPred R col a).join (fromPred R col b)
  | .binary op l r =>
    if isCmp op then match num r, num l with
      | some k, _ => back R col l (target op k)
      | none, some k => back R col r (target (flip op) k)
      | none, none => .all
    else .all
  | _ => .all

/-- The interval that the conjuncts confine the column to, `none` if they do not bound it. -/
def island (R : Roots K) (conjuncts : List (BExpr K)) (col : ℕ) : Option (Iv K) :=
  let acc := (conjuncts.foldl (fun acc c => Iv.meet acc (fromPred R col c)) .all).sane
  if acc.isAll then none else some acc

end Mpedb.Island
