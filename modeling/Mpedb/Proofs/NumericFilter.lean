import Mpedb.NumericFilter
import Mpedb.Proofs.Lowering

/-!
# The fast path of a filter answers as the evaluator does

Each slot stands for a value, and each instruction the fast path has does to the slots what the
evaluator does to the values (`exec_slots`). The fast path has no jumps, so the two walk the program
in step.
-/

namespace Mpedb.Lowering

open Mpedb.Expr Checked Option

/-- The value a slot stands for. -/
def datum : Num → Datum
  | .null => .null
  | .i x => .scalar (.int x)
  | .f x => .scalar (.float x)
  | .b x => Expr.bool x

variable {b : Builtins} {leading : List UInt8 → F64} {p : Expr.Program}
  {cols params consts : List Datum}
  {stack stack' : List Num} {x y n : Num} {d : Option Datum}

theorem truthy3_datum (n : Num) :
    (withValues b (toReal b leading)).truthy3 (datum n) = n.truthy := by
  cases n <;> rfl

theorem datum_ofTruth (t : Option Bool) : datum (.ofTruth t) = Expr.ofTruth t := by
  cases t <;> rfl

theorem sqlCmp_datum {o : Option Ordering} (h : x.cmp3 y = some o) :
    sqlCmp (datum x) (datum y) = .ok o := by
  cases x <;> cases y <;> cases h <;> rfl

theorem kleeneAnd_datum (x y : Num) :
    Expr.kleeneAnd (withValues b (toReal b leading)) (datum x) (datum y) =
    Expr.ofTruth (Mpedb.kleeneAnd x.truthy y.truthy) := by
  rw [Expr.kleeneAnd, truthy3_datum, truthy3_datum]
  rcases x.truthy with _ | _ | _ <;> rcases y.truthy with _ | _ | _ <;> rfl

theorem kleeneOr_datum (x y : Num) :
    Expr.kleeneOr (withValues b (toReal b leading)) (datum x) (datum y) =
    Expr.ofTruth (Mpedb.kleeneOr x.truthy y.truthy) := by
  rw [Expr.kleeneOr, truthy3_datum, truthy3_datum]
  rcases x.truthy with _ | _ | _ <;> rcases y.truthy with _ | _ | _ <;> rfl

theorem pushSlot_eq_some (h : pushSlot stack n = some stack') : stack' = n :: stack := by
  rw [pushSlot] at h
  split_ifs at h
  exact (Option.some.inj h).symm

theorem pushDatum_eq_some (h : pushDatum stack d = some stack') :
    ∃ n, d = some (datum n) ∧ stack' = n :: stack := by
  obtain ⟨v, rfl, h⟩ := bind_eq_some_iff.1 h
  obtain ⟨n, hn, h⟩ := bind_eq_some_iff.1 h
  refine ⟨n, ?_, pushSlot_eq_some h⟩
  rcases v with v | _
  · cases v <;> cases hn <;> rfl
  · cases hn

theorem binary_datum {f : Num → Num → Option Num} {g : Datum → Datum → Except Error Datum}
    (hfg : ∀ x y n, f x y = some n → g (datum x) (datum y) = .ok (datum n))
    (h : binarySlot f stack = some stack') :
    binary g (stack.map datum) = .ok (stack'.map datum) := by
  match stack with
  | [] | [_] => cases h
  | y :: x :: stack =>
    obtain ⟨n, hn, h⟩ := bind_eq_some_iff.1 h
    rw [pushSlot_eq_some h]
    change (lift (g (datum x) (datum y)) >>= fun v => .ok (v :: stack.map datum)) = _
    rw [hfg x y n hn]
    rfl

theorem cmp_datum (kind : CmpKind) (x y n : Num) (h : cmpSlot kind x y = some n) :
    (sqlCmp (datum x) (datum y)).map (verdict kind) = .ok (datum n) := by
  obtain ⟨o, ho, rfl⟩ := map_eq_some_iff.1 h
  rw [sqlCmp_datum ho]
  cases o <;> rfl

theorem exec_slots {instr : Expr.Instr}
    (h : numericExec consts cols params stack instr = some stack') :
    instr.jumps = false ∧ exec (withValues b (toReal b leading)) consts cols params instr
    (stack.map datum) =
      .ok (stack'.map datum) := by
  cases instr with
  | pushCol i | pushParam i | pushConst i =>
    obtain ⟨n, hn, rfl⟩ := pushDatum_eq_some h
    refine ⟨rfl, ?_⟩
    simp only [exec, index, Checked.get, hn]
    rfl
  | eq | ne | lt | le | gt | ge =>
    rw [exec]
    exact ⟨rfl, binary_datum (cmp_datum _) h⟩
  | and | or =>
    rw [exec]
    refine ⟨rfl, binary_datum (fun x y n hn => ?_) h⟩
    cases hn
    simp only [kleeneAnd_datum, kleeneOr_datum, datum_ofTruth]
  | not =>
    cases stack with
    | nil => cases h
    | cons x stack =>
      rw [pushSlot_eq_some h]
      refine ⟨rfl, ?_⟩
      rw [List.map_cons, List.map_cons, datum_ofTruth, ← truthy3_datum]
      rfl
  | _ => cases h

theorem run_slots {instrs : List Expr.Instr} :
    ∀ {stack : List Num} {pc : ℕ}, p.instrs.drop pc = instrs →
    instrs.foldlM (numericExec p.consts cols params) stack = some stack' →
    run (withValues b (toReal b leading)) p cols params instrs.length ⟨pc, stack.map datum⟩ =
      some (.ok ⟨pc + instrs.length, stack'.map datum⟩) := by
  induction instrs with
  | nil =>
    intro stack pc hdrop h
    cases h
    rw [List.length_nil, run, if_neg (not_lt.2 (List.drop_eq_nil_iff.1 hdrop))]
    rfl
  | cons instr instrs ih =>
    intro stack pc hdrop h
    obtain ⟨next, hnext, h⟩ := bind_eq_some_iff.1 h
    obtain ⟨hjump, hexec⟩ := exec_slots hnext
    have hi : p.instrs[pc]? = some instr := by
      rw [← List.head?_drop, hdrop]
      rfl
    have hrest : p.instrs.drop (pc + 1) = instrs := by
      rw [← List.tail_drop, hdrop]
      rfl
    rw [List.length_cons, run_instr hi hjump, hexec]
    exact (ih hrest h).trans (by rw [add_right_comm, add_assoc])

theorem evalWithStack_of_numericFilter (b : Builtins) (leading : List UInt8 → F64) {hit : Bool}
    (h : numericFilter p cols params = some hit) :
    ∃ n, evalWithStack (withValues b (toReal b leading)) p cols params = .ok (datum n) ∧
      hit = decide (n.truthy = some true) := by
  unfold numericFilter at h
  split at h
  · next n hn =>
    refine ⟨n, ?_, (Option.some.inj h).symm⟩
    have hrun : run (withValues b (toReal b leading)) p cols params _ ⟨0, [].map datum⟩ = _ :=
      run_slots List.drop_zero hn
    rw [List.map_nil] at hrun
    rw [evalWithStack, eval, hrun]
    rfl
  · cases h

/-- Where the fast path answers, the evaluator gives a value that is TRUE just if the answer is yes;
so a filter passes the same rows with the fast path and without. -/
theorem numeric_filter_agrees (b : Builtins) (leading : List UInt8 → F64) (p : Expr.Program)
    (cols params : List Datum) :
    (∀ hit, numericFilter p cols params = some hit →
      ∃ v, evalWithStack (withValues b (toReal b leading)) p cols params = .ok v ∧
        (truthy3 (toReal b leading) v = some true ↔ hit = true)) ∧
    ∀ fastOff, evalFilterHost b leading fastOff p cols params = evalFilterHost b leading true p
    cols params := by
  refine ⟨fun hit h => ?_, fun fastOff => ?_⟩
  · obtain ⟨n, hn, rfl⟩ := evalWithStack_of_numericFilter b leading h
    exact ⟨_, hn, by rw [decide_eq_true_iff, ← truthy3_datum]; rfl⟩
  · simp only [evalFilterHost, Bool.not_true, Bool.and_false, Bool.false_eq_true, if_false]
    split_ifs with hfast
    · rcases h : numericFilter p cols params with _ | hit
      · rfl
      · obtain ⟨n, hn, rfl⟩ := evalWithStack_of_numericFilter b leading h
        rw [hn]
        rw [← truthy3_datum]
        rfl
    · rfl

/-- `NOT (c0 < 5)`. -/
def negated : Expr.Program :=
  ⟨[.pushCol 0, .pushConst 0, .lt, .not], [.scalar (.int 5)], 2, rfl⟩

/-- The fast path and the evaluator let a row with `c0 = 7.0` pass `NOT (c0 < 5)`. -/
theorem numeric_filter_agrees_negated :
    numericFilter negated [.scalar (.float ⟨0x401c000000000000⟩)] [] = some true ∧
      ∀ b leading, ∃ v, evalWithStack (withValues b (toReal b leading)) negated
        [.scalar (.float ⟨0x401c000000000000⟩)] [] = .ok v ∧
          (truthy3 (toReal b leading) v = some true ↔ true = true) := by
  have hfast : numericFilter negated [.scalar (.float ⟨0x401c000000000000⟩)] [] = some true := by
    decide
  exact ⟨hfast, fun b leading => (numeric_filter_agrees b leading ..).1 true hfast⟩

/-! ## The filters of a segment scan -/

/-- An instruction as the filters of `SegmentScan` have it. -/
def filterInstr : Expr.Instr → FilterInstr
  | .pushCol i => .pushCol i.toNat
  | .pushParam i => .pushParam i.toNat
  | .pushConst i => .pushConst i.toNat
  | .eq => .eq
  | .ne => .ne
  | .lt => .lt
  | .le => .le
  | .gt => .gt
  | .ge => .ge
  | .and => .and
  | .or => .or
  | .not => .not
  | _ => .other 0

section Segments

variable {consts params : List Value} {row : Row}

theorem pushNum_eq (stack : List Num) (l : List Value) (i : ℕ) :
    pushNum stack l[i]? = pushDatum stack (l.map .scalar)[i]? := by
  rw [List.getElem?_map]
  rcases l[i]? with _ | v
  · rfl
  · rcases hn : Num.of v with _ | n <;>
      simp only [pushNum, pushDatum, slotOf, pushSlot, Option.map_some, hn, bind, Option.bind]
    rfl

theorem pushSlot_of_lt {stack : List Num} (h : stack.length < numDepth) (n : Num) :
    pushSlot stack n = some (n :: stack) :=
  if_neg (Nat.not_le_of_lt h)

theorem numericStep_cmp {kind : CmpKind} {i : FilterInstr} (hi : i.holds = some kind.holds)
    (x y : Num) {stack : List Num} (h : stack.length < numDepth) :
    (i.holds >>= fun holds => x.cmp3 y >>= fun o => some (Num.ofTruth (o.map holds) :: stack)) =
      binarySlot (cmpSlot kind) (y :: x :: stack) := by
  rw [binarySlot, cmpSlot, hi]
  rcases x.cmp3 y with _ | o
  · rfl
  · exact (pushSlot_of_lt h _).symm

/-- The two models of an instruction do the same to a stack that fits: what takes slots off the
stack leaves room for what it pushes. -/
theorem numericStep_eq {stack : List Num} (h : stack.length ≤ numDepth) (i : Expr.Instr) :
    numericStep consts params row stack (filterInstr i) =
      numericExec (consts.map .scalar) (row.map .scalar) (params.map .scalar) stack i := by
  cases i
  case pushCol i => exact pushNum_eq stack row i.toNat
  case pushParam i => exact pushNum_eq stack params i.toNat
  case pushConst i => exact pushNum_eq stack consts i.toNat
  all_goals rcases stack with _ | ⟨y, _ | ⟨x, stack⟩⟩
  all_goals first | rfl | rw [List.length_cons, List.length_cons] at h
  all_goals have hroom : stack.length < numDepth := by omega
  case and.cons.cons | or.cons.cons => exact (pushSlot_of_lt hroom _).symm
  case not.cons.cons => exact (pushSlot_of_lt (by rwa [List.length_cons]) _).symm
  all_goals exact numericStep_cmp rfl x y hroom

theorem length_pushSlot {stack stack' : List Num} {n : Num} (h : pushSlot stack n = some stack') :
    stack'.length ≤ numDepth := by
  unfold pushSlot at h
  split_ifs at h with hroom
  cases h
  exact Nat.lt_of_not_le hroom

theorem length_binarySlot {f : Num → Num → Option Num} {stack stack' : List Num}
    (h : binarySlot f stack = some stack') : stack'.length ≤ numDepth := by
  rcases stack with _ | ⟨y, _ | ⟨x, stack⟩⟩
  · cases h
  · cases h
  · obtain ⟨n, -, hn⟩ := Option.bind_eq_some_iff.1 h
    exact length_pushSlot hn

theorem length_pushDatum {stack stack' : List Num} {d : Option Datum}
    (h : pushDatum stack d = some stack') : stack'.length ≤ numDepth := by
  obtain ⟨v, -, hv⟩ := Option.bind_eq_some_iff.1 h
  obtain ⟨n, -, hn⟩ := Option.bind_eq_some_iff.1 hv
  exact length_pushSlot hn

/-- Every instruction checks the depth of the stack that it leaves. -/
theorem length_numericExec {consts cols params : List Datum} {stack stack' : List Num}
    {i : Expr.Instr} (hi : numericExec consts cols params stack i = some stack') :
    stack'.length ≤ numDepth := by
  cases i
  case pushCol | pushParam | pushConst => exact length_pushDatum hi
  case eq | ne | lt | le | gt | ge | and | or => exact length_binarySlot hi
  case not =>
    rcases stack with _ | ⟨x, stack⟩
    · cases hi
    · exact length_pushSlot hi
  all_goals cases hi

/-- `SegmentScan`'s model of `numeric_filter` is this one, on programs whose constants are no
lists. -/
theorem numericFilter_eq (p : Expr.Program) (hconsts : p.consts = consts.map .scalar) (row : Row)
    (params : List Value) :
    Mpedb.numericFilter ⟨p.instrs.map filterInstr, consts, fastOk p⟩ row params =
      numericFilter p (row.map .scalar) (params.map .scalar) := by
  have hfold : ∀ (is : List Expr.Instr) (stack : List Num), stack.length ≤ numDepth →
      (is.map filterInstr).foldlM (numericStep consts params row) stack =
        is.foldlM (numericExec p.consts (row.map .scalar) (params.map .scalar)) stack := by
    intro is
    induction is with
    | nil => exact fun _ _ => rfl
    | cons i is ih =>
      intro stack hstack
      rw [List.map_cons, List.foldlM_cons, List.foldlM_cons, numericStep_eq hstack, hconsts]
      rcases hi : numericExec (consts.map .scalar) (row.map .scalar) (params.map .scalar) stack i
        with _ | stack'
      · rfl
      · rw [← hconsts]
        exact ih stack' (length_numericExec hi)
  have hrun := hfold p.instrs [] (Nat.zero_le _)
  rcases hr : p.instrs.foldlM (numericExec p.consts (row.map .scalar) (params.map .scalar)) []
    with _ | _ | ⟨n, _ | ⟨m, stack⟩⟩ <;>
  simp only [numericFilter, Mpedb.numericFilter, hrun, hr]

end Segments

end Mpedb.Lowering
