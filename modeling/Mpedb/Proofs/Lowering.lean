import Mpedb.Lowering
import Mpedb.Proofs.Expression

/-!
# Programs compute what their expressions mean

The code of an expression, run from its first instruction on any stack, pushes the value of the
expression or ends with its error (`emit_spec`). So a compiled expression evaluates to its meaning.
Both are stated for the nodes whose code is known (`Plain`).
-/

namespace Mpedb.Lowering

open Mpedb.Expr Checked List Outcome

section Meaning

variable (b : Builtins) (cols params : List Datum)

/-- What a unary operator means. -/
def unValue (op : UnOp) (x : Datum) : Except Error Datum :=
  match op with
  | .neg => negate x
  | .not => .ok (ofTruth ((b.truthy3 x).map (!·)))
  | .isNull => .ok (bool x.isNull)
  | .isNotNull => .ok (bool !x.isNull)
  | .toFloat => toFloat b x
  | .bitNot => (b.bitI64 x).map fun
    | none => .null
    | some i => .scalar (.int (~~~i))

/-- What a binary operator means. -/
def binValue (op : BinOp) (x y : Datum) : Except Error Datum :=
  match op with
  | .add => b.arith .add x y
  | .sub => b.arith .sub x y
  | .mul => b.arith .mul x y
  | .div => b.arith .div x y
  | .mod => b.arith .mod x y
  | .divStrict => b.arith .divStrict x y
  | .modStrict => b.arith .modStrict x y
  | .eq => (b.sqlCmp x y).map (verdict .eq)
  | .ne => (b.sqlCmp x y).map (verdict .ne)
  | .lt => (b.sqlCmp x y).map (verdict .lt)
  | .le => (b.sqlCmp x y).map (verdict .le)
  | .gt => (b.sqlCmp x y).map (verdict .gt)
  | .ge => (b.sqlCmp x y).map (verdict .ge)
  | .concat => b.concatValue x y
  | .and => .ok (kleeneAnd b x y)
  | .or => .ok (kleeneOr b x y)
  | .bitAnd => b.bitwise .bitAnd x y
  | .bitOr => b.bitwise .bitOr x y
  | .shl => b.bitwise .shl x y
  | .shr => b.bitwise .shr x y
  | .jsonArrow | .jsonArrowText => .ok .null

/-- What an expression means on a row: both sides of an operator are evaluated, left before
right. -/
def meaning : BExpr → Res Datum
  | .const v => .ok v
  | .param i => get (.wrongParamCount (i.toNat + 1) params.length) params i.toNat
  | .col i => get (.internal s!"column index {i.toNat} out of row bounds") cols i.toNat
  | .unary op e => do
    let x ← meaning e
    lift (unValue b op x)
  | .binary op l r => do
    let x ← meaning l
    let y ← meaning r
    lift (binValue b op x y)
  | .other _ => .ok .null

end Meaning

/-- An expression of columns, parameters, constants and operators. -/
def Plain : BExpr → Prop
  | .unary _ e => Plain e
  | .binary _ l r => Plain l ∧ Plain r
  | .other _ => False
  | _ => True

variable {b : Builtins} {p : Program} {cols params consts : List Datum}

/-- Goes on with a value, or ends with an error. -/
def andThen {α : Type} (r : Res α) (k : α → Option (Res Machine)) : Option (Res Machine) :=
  match r with
  | .ok a => k a
  | .error e => some (.error e)

theorem andThen_bind {α β : Type} (r : Res α) (f : α → Res β) (k : β → Option (Res Machine)) :
    andThen (r >>= f) k = andThen r fun a => andThen (f a) k := by
  cases r <;> rfl

theorem run_instr {m : Machine} {instr : Instr} (hi : p.instrs[m.pc]? = some instr)
    (hj : instr.jumps = false) (fuel : ℕ) : run b p cols params (fuel + 1) m =
      andThen (exec b p.consts cols params instr m.stack) fun stack =>
        run b p cols params fuel ⟨m.pc + 1, stack⟩ := by
  have hlt : m.pc < p.instrs.length := (List.getElem?_eq_some_iff.1 hi).1
  rw [run, if_pos hlt, step_of_not_jumps hi hj]
  cases exec b p.consts cols params instr m.stack <;> rfl

theorem exec_unary (op : UnOp) (x : Datum) (stack : List Datum) :
    exec b consts cols params op.instr (x :: stack) = (do
      let v ← lift (unValue b op x)
      return v :: stack) := by
  cases op <;> rfl

variable {i : Instr}

theorem exec_binary {op : BinOp} (h : op.instr = .ok i) (x y : Datum) (stack : List Datum) :
    exec b consts cols params i (y :: x :: stack) = (do
      let v ← lift (binValue b op x y)
      return v :: stack) := by
  cases op <;> cases h <;> rfl

theorem jumps_unary (op : UnOp) : op.instr.jumps = false := by
  cases op <;> rfl

theorem jumps_binary {op : BinOp} (h : op.instr = .ok i) : i.jumps = false := by
  cases op <;> cases h <;> rfl

variable {c c' c'' : Code}

/-- What follows `c` in `c'` pushes the value of the expression. -/
def Pushes (b : Builtins) (cols params : List Datum) (e : BExpr) (c c' : Code) : Prop :=
  ∃ instrs, c'.instrs = c.instrs ++ instrs ∧ c.consts <+: c'.consts ∧
    ∀ p : Program, c'.instrs <+: p.instrs → c'.consts <+: p.consts → ∀ stack fuel,
      run b p cols params (instrs.length + fuel) ⟨c.instrs.length, stack⟩ =
        andThen (meaning b cols params e) fun v =>
          run b p cols params fuel ⟨c'.instrs.length, v :: stack⟩

theorem getElem?_of_isPrefix_snoc {α : Type} {xs ys : List α} {x : α} (h : xs ++ [x] <+: ys) :
    ys[xs.length]? = some x := by
  obtain ⟨zs, rfl⟩ := h
  simp

theorem run_push (hj : i.jumps = false) (hp : (c.push i).instrs <+: p.instrs)
    (stack : List Datum) (fuel : ℕ) : run b p cols params (1 + fuel) ⟨c.instrs.length, stack⟩ =
      andThen (exec b p.consts cols params i stack) fun stack =>
        run b p cols params fuel ⟨(c.push i).instrs.length, stack⟩ := by
  rw [add_comm, run_instr (getElem?_of_isPrefix_snoc hp) hj]
  simp [Code.push]

variable {e : BExpr}

theorem pushes_leaf {consts : List Datum} (hj : i.jumps = false)
    (hconsts : c.consts <+: consts)
    (hexec : ∀ consts', consts <+: consts' → ∀ stack,
      exec b consts' cols params i stack = meaning b cols params e >>= fun v => .ok (v :: stack)) :
    Pushes b cols params e c (Code.push { c with consts } i) := by
  refine ⟨[i], rfl, hconsts, fun p hi hc stack fuel => ?_⟩
  refine (run_push (c := { c with consts }) hj hi stack fuel).trans ?_
  rw [hexec _ hc, andThen_bind]
  rfl

/-- By recursion on the expression: its code pushes its value and leaves the rest of the stack. -/
theorem emit_spec : ∀ {e : BExpr}, Plain e → ∀ {c c' : Code}, emit e c = .ok c' →
    Pushes b cols params e c c'
  | .const v, _, c, c', h => by
    unfold emit pushConst at h
    split_ifs at h with hlen
    · cases h
    · cases h
      refine pushes_leaf rfl (prefix_append ..) fun consts hc stack => ?_
      have hi : (UInt16.ofNat c.consts.length).toNat = c.consts.length := by
        rw [UInt16.toNat_ofNat']
        omega
      rw [exec, hi, index, getElem?_of_isPrefix_snoc hc]
      rfl
  | .param i, _, c, c', h | .col i, _, c, c', h => by
    cases h
    exact pushes_leaf rfl (prefix_refl _) fun consts _ stack => rfl
  | .unary op e, hp, c, c', h => by
    obtain ⟨c₁, h₁, h⟩ := bind_eq_ok.1 h
    cases h
    obtain ⟨instrs, hinstrs, hconsts, hrun⟩ := emit_spec (e := e) hp h₁
    refine ⟨instrs ++ [op.instr], by simp [Code.push, hinstrs], hconsts,
      fun p hi hc stack fuel => ?_⟩
    rw [length_append, add_assoc, hrun p ((prefix_append ..).trans hi) hc, meaning, andThen_bind]
    congr 1
    funext x
    rw [length_singleton, run_push (jumps_unary op) hi, exec_unary, andThen_bind]
    rfl
  | .binary op l r, hp, c, c', h => by
    obtain ⟨c₁, h₁, h⟩ := bind_eq_ok.1 h
    obtain ⟨c₂, h₂, h⟩ := bind_eq_ok.1 h
    obtain ⟨i, hop, h⟩ := bind_eq_ok.1 h
    cases h
    obtain ⟨is₁, hi₁, hc₁, hrun₁⟩ := emit_spec hp.1 h₁
    obtain ⟨is₂, hi₂, hc₂, hrun₂⟩ := emit_spec hp.2 h₂
    refine ⟨is₁ ++ (is₂ ++ [i]), by simp [Code.push, hi₁, hi₂], hc₁.trans hc₂,
      fun p hi hc stack fuel => ?_⟩
    have hpre₂ : c₂.instrs <+: p.instrs := (prefix_append ..).trans hi
    have hpre₁ : c₁.instrs <+: p.instrs := .trans ⟨_, hi₂.symm⟩ hpre₂
    rw [length_append, length_append, add_assoc, add_assoc,
      hrun₁ p hpre₁ (hc₂.trans hc), meaning, andThen_bind]
    congr 1
    funext x
    rw [hrun₂ p hpre₂ hc, andThen_bind]
    congr 1
    funext y
    rw [length_singleton, run_push (jumps_binary hop) hi, exec_binary hop, andThen_bind]
    rfl

theorem compileProgram_eq_ok {display : Error → String} (h : compileProgram display e = .ok p) :
    emit e ⟨[], []⟩ = .ok ⟨p.instrs, p.consts⟩ := by
  obtain ⟨c, hc, h⟩ := bind_eq_ok.1 h
  rw [lift_eq_ok hc]
  unfold Program.new at h
  split at h
  · next e heq =>
    split at heq <;> cases heq
    cases h
  · split at h <;> cases h
    rfl

theorem evalWithStack_eq {display : Error → String} (hp : Plain e)
    (h : compileProgram display e = .ok p) :
    evalWithStack b p cols params = meaning b cols params e := by
  obtain ⟨instrs, hinstrs, -, hrun⟩ : Pushes b cols params e ⟨[], []⟩ ⟨p.instrs, p.consts⟩ :=
    emit_spec hp (compileProgram_eq_ok h)
  obtain rfl : instrs = p.instrs := hinstrs.symm
  have hend (stack : List Datum) : run b p cols params 0 ⟨p.instrs.length, stack⟩ =
      some (.ok ⟨p.instrs.length, stack⟩) := by
    rw [run, if_neg (lt_irrefl _)]
  have hall : run b p cols params p.instrs.length ⟨0, []⟩ = _ :=
    hrun p (prefix_refl _) (prefix_refl _) [] 0
  rw [evalWithStack, eval, hall]
  cases meaning b cols params e with
  | ok v =>
    simp only [hend]
    rfl
  | error err => rfl

end Mpedb.Lowering
