import Mpedb.Lib.Outcome
import Mpedb.Proofs.Lowering
import Mpedb.RowCompare

/-!
# A row comparison is the SQL comparison of the rows

The order of two rows is that of their first unequal elements. A pair with a NULL can compare in any
way: where the answer is the same whatever way that is, the rewritten expression gives it, and NULL
where it is not. The rewritten expression, bound and compiled, has the value that its logic says
(`meaning_lower`).
-/

namespace Mpedb.RowValue

open List BoolExpr
open Mpedb.Expr (CmpKind)

/-- The order of two rows whose elements compare so. -/
def rowOrder (os : List Ordering) : Ordering := os.foldr Ordering.then .eq

/-- The pairs with a NULL compare in some way. -/
def Completes (os : List Ordering) (ps : List (Option Ordering)) : Prop :=
  List.Forall₂ (fun o p => ∀ x ∈ p, o = x) os ps

/-- The answer `t`, whatever the NULLs stand for. -/
def Decides (op : CmpKind) (ps : List (Option Ordering)) (t : Bool) : Prop :=
  ∀ os, Completes os ps → op.holds (rowOrder os) = t

variable {op : CmpKind} {ps : List (Option Ordering)} {o : Ordering} {t : Bool}

theorem exists_completes : ∀ ps, ∃ os, Completes os ps
  | [] => ⟨[], .nil⟩
  | p :: ps => by
    obtain ⟨os, h⟩ := exists_completes ps
    exact ⟨p.getD .eq :: os, .cons (by rintro x rfl; rfl) h⟩

theorem decides_nil : Decides op [] t ↔ op.holds .eq = t := by
  refine ⟨fun h => h [] .nil, ?_⟩
  rintro h os ⟨⟩
  exact h

theorem decides_cons {p : Option Ordering} :
    Decides op (p :: ps) t ↔ ∀ o, (∀ x ∈ p, o = x) → ∀ os, Completes os ps → op.holds
    (o.then (rowOrder os)) = t := by
  refine ⟨fun h o ho os hos => h (o :: os) (.cons ho hos), ?_⟩
  rintro h (_ | ⟨o, os⟩) (_ | ⟨ho, hos⟩)
  exact h o ho os hos

theorem decides_eq_cons : Decides op (some .eq :: ps) t ↔ Decides op ps t := by
  rw [decides_cons]
  exact ⟨fun h os hos => h .eq (by simp) os hos, fun h o ho os hos => by
    rw [ho .eq rfl]; exact h os hos⟩

theorem decides_ne_cons (ho : o ≠ .eq) : Decides op (some o :: ps) t ↔ op.holds o = t := by
  obtain ⟨os, hos⟩ := exists_completes ps
  have hthen : ∀ x : Ordering, o.then x = o := by cases o <;> simp_all
  rw [decides_cons]
  refine ⟨fun h => hthen (rowOrder os) ▸ h o (by simp) os hos, fun h o' ho' os' _ => ?_⟩
  rw [ho' o rfl, hthen]
  exact h

theorem decides_null_cons : Decides op (none :: ps) t ↔
    op.holds .lt = t ∧ op.holds .gt = t ∧ Decides op ps t := by
  obtain ⟨os, hos⟩ := exists_completes ps
  rw [decides_cons]
  constructor
  · intro h
    exact ⟨h .lt (by simp) os hos, h .gt (by simp) os hos, h .eq (by simp)⟩
  · rintro ⟨hlt, hgt, heq⟩ (_ | _ | _) - os hos
    exacts [hlt, heq os hos, hgt]

theorem decides_ne : Decides .ne ps t ↔ Decides .eq ps (!t) :=
  forall₂_congr fun os _ => by cases rowOrder os <;> cases t <;> decide

theorem kleeneAnd_assoc (x y z : Option Bool) :
    kleeneAnd (kleeneAnd x y) z = kleeneAnd x (kleeneAnd y z) := by
  rcases x with _ | _ | _ <;> rcases y with _ | _ | _ <;> rcases z with _ | _ | _ <;> rfl

theorem kleeneOr_assoc (x y z : Option Bool) :
    kleeneOr (kleeneOr x y) z = kleeneOr x (kleeneOr y z) := by
  rcases x with _ | _ | _ <;> rcases y with _ | _ | _ <;> rcases z with _ | _ | _ <;> rfl

/-- The conjunction of the equalities of the elements. -/
def equalities (ps : List (Option Ordering)) : Option Bool :=
  ps.foldr (fun p acc => kleeneAnd (p.map CmpKind.eq.holds) acc) (some true)

theorem equalities_eq_some : ∀ {ps t}, equalities ps = some t ↔ Decides .eq ps t
  | [], t => by simp [equalities, decides_nil, CmpKind.holds]
  | p :: ps, t => by
    have ih := @equalities_eq_some ps
    change kleeneAnd (p.map CmpKind.eq.holds) (equalities ps) = some t ↔ _
    rcases p with _ | o
    · rw [decides_null_cons, ← ih]
      cases t <;> simp [kleeneAnd, CmpKind.holds]
    · by_cases ho : o = .eq
      · subst ho
        rw [decides_eq_cons, ← ih]
        rcases equalities ps with _ | _ | _ <;> cases t <;> simp [kleeneAnd, CmpKind.holds]
      · rw [decides_ne_cons ho]
        cases t <;> simp [kleeneAnd, CmpKind.holds, ho]

section Run

variable {ι α : Type} [Ord α] (env : ι → Option α)

theorem eval_andAll (qs : List (ι × ι)) (acc : BoolExpr ι) :
    (qs.foldl (fun acc q => .and acc (.cmp .eq q.1 q.2)) acc).eval env =
      kleeneAnd (acc.eval env) (equalities (qs.map (pairCmp env))) := by
  induction qs generalizing acc with
  | nil =>
    change acc.eval env = kleeneAnd (acc.eval env) (some true)
    rcases acc.eval env with _ | _ | _ <;> rfl
  | cons q qs ih =>
    rw [foldl_cons, ih]
    exact kleeneAnd_assoc _ _ _

theorem eval_eqAll (p : ι × ι) (qs : List (ι × ι)) :
    (eqAll p qs).eval env = equalities ((p :: qs).map (pairCmp env)) :=
  eval_andAll env qs _

/-- `strict` decides at the elements before the last: it agrees with the operator wherever those
differ. -/
theorem eval_chain {strict last : CmpKind}
    (hstrict : ∀ o, o ≠ .eq → strict.holds o = last.holds o) (hequal : strict.holds .eq = false)
    (hopen : last.holds .lt ≠ last.holds .gt) : ∀ (p : ι × ι) (qs : List (ι × ι)) {t : Bool},
    (chain strict last p qs).eval env = some t ↔ Decides last ((p :: qs).map (pairCmp env)) t
  | p, [], t => by
    change (pairCmp env p).map last.holds = some t ↔ Decides last [pairCmp env p] t
    rcases pairCmp env p with _ | o
    · rw [decides_null_cons]
      refine ⟨nofun, fun h => (hopen (h.1.trans h.2.1.symm)).elim⟩
    · by_cases ho : o = .eq
      · rw [ho, decides_eq_cons, decides_nil]
        simp
      · rw [decides_ne_cons ho]
        simp
  | p, q :: qs, t => by
    have ih := @eval_chain strict last hstrict hequal hopen q qs
    change kleeneOr ((pairCmp env p).map strict.holds)
      (kleeneAnd ((pairCmp env p).map CmpKind.eq.holds) ((chain strict last q qs).eval env)) =
        some t ↔ _
    rw [map_cons]
    rcases pairCmp env p with _ | o
    · rw [decides_null_cons]
      refine ⟨fun h => ?_, fun h => (hopen (h.1.trans h.2.1.symm)).elim⟩
      -- The NULL leaves neither the strict comparison nor the equality true.
      rcases (chain strict last q qs).eval env with _ | _ | _ <;> simp [kleeneOr, kleeneAnd] at h
    · by_cases ho : o = .eq
      · rw [ho, decides_eq_cons, ← ih]
        have heq : CmpKind.eq.holds .eq = true := rfl
        rcases (chain strict last q qs).eval env with _ | _ | _ <;>
          simp [kleeneOr, kleeneAnd, hequal, heq]
      · rw [decides_ne_cons ho, ← hstrict o ho]
        have hne : CmpKind.eq.holds o = false := decide_eq_false ho
        cases h : strict.holds o <;> simp [kleeneOr, kleeneAnd, hne, h]

theorem eval_desugarRowCmp (op : CmpKind) (p : ι × ι) (qs : List (ι × ι)) (t : Bool) :
    (desugarRowCmp op p qs).eval env = some t ↔ Decides op ((p :: qs).map (pairCmp env)) t := by
  cases op with
  | eq => rw [desugarRowCmp, eval_eqAll, equalities_eq_some]
  | ne =>
    rw [desugarRowCmp, eval, eval_eqAll, decides_ne, ← equalities_eq_some]
    rcases equalities _ with _ | _ | _ <;> cases t <;> decide
  | lt | le | gt | ge => exact eval_chain env (by decide) rfl (by decide) p qs

theorem bindRowValueCmp_eq {op : CmpKind} {l r : List ι}
    (hlen : l.length = r.length) (hl : l ≠ []) :
    ∃ e, bindRowValueCmp op l r = .ok e ∧
      ∀ t, e.eval env = some t ↔ Decides op ((l.zip r).map (pairCmp env)) t := by
  rw [bindRowValueCmp, if_neg (not_not.mpr hlen)]
  cases hz : l.zip r with
  | nil =>
    have := congrArg List.length hz
    rw [length_zip, ← hlen, Nat.min_self, length_nil, length_eq_zero_iff] at this
    exact absurd this hl
  | cons p qs => exact ⟨_, rfl, eval_desugarRowCmp env op p qs⟩

/-- The disjunction of the arms. -/
def anyOf (arms : List (Option Bool)) : Option Bool := arms.foldr kleeneOr (some false)

theorem eval_orAll (arms : List (BoolExpr ι)) (first : BoolExpr ι) :
    (arms.foldl .or first).eval env = anyOf ((first :: arms).map (·.eval env)) := by
  induction arms generalizing first with
  | nil =>
    change first.eval env = kleeneOr (first.eval env) (some false)
    rcases first.eval env with _ | _ | _ <;> rfl
  | cons arm arms ih =>
    rw [foldl_cons, ih]
    exact kleeneOr_assoc _ _ _

theorem foldlM_arms {l : List ι} {items : List (List ι)} {arms : List (BoolExpr ι)}
    (h : List.Forall₂ (fun item arm => bindRowValueCmp .eq l item = .ok arm) items arms)
    (acc : BoolExpr ι) :
    items.foldlM (fun acc item => do
      let arm ← bindRowValueCmp .eq l item
      return or acc arm) acc = .ok (arms.foldl .or acc) := by
  induction h generalizing acc with
  | nil => rfl
  | cons harm _ ih =>
    rw [foldlM_cons, harm]
    exact ih _

/-- A comparison of rows of equal length gives an answer exactly when it is the same whatever the
NULLs stand for, and IN is the disjunction of the row equalities. -/
theorem row_comparison_three_valued :
    (∀ (op : CmpKind) (l r : List ι), l ≠ [] → l.length = r.length →
      ∃ e, bindRowValueCmp op l r = .ok e ∧
      ∀ t, e.eval env = some t ↔ Decides op ((l.zip r).map (pairCmp env)) t) ∧
    ∀ (l : List ι) (items : List (List ι)) (negated : Bool),
      l ≠ [] → (∀ item ∈ items, l.length = item.length) →
      ∃ arms, List.Forall₂ (fun item arm => bindRowValueCmp .eq l item = .ok arm) items arms ∧
        ∃ e, bindRowValueIn l items negated = .ok e ∧
          e.eval env = bif negated then (anyOf (arms.map (·.eval env))).map (!·)
            else anyOf (arms.map (·.eval env)) := by
  refine ⟨fun op l r hl hlen => bindRowValueCmp_eq env hlen hl, fun l items negated hl hitems => ?_⟩
  obtain ⟨arms, harms⟩ :=
    Outcome.exists_forall₂ (R := fun item arm => bindRowValueCmp .eq l item = .ok arm)
    fun item hitem => (bindRowValueCmp_eq env (hitems item hitem) hl).imp fun _ h => h.1
  refine ⟨arms, harms, ?_⟩
  cases harms with
  | nil => exact ⟨_, rfl, by cases negated <;> rfl⟩
  | @cons _ first _ rest hfirst hrest =>
    refine ⟨_, Outcome.bind_eq_ok.mpr
      ⟨first, hfirst, Outcome.bind_eq_ok.mpr ⟨_, foldlM_arms hrest first, rfl⟩⟩, ?_⟩
    rw [← eval_orAll]
    cases negated <;> rfl

end Run

/-- `(1, NULL) < (1, 2)` and `(1, NULL) IN ((1, 2))`. -/
theorem row_comparison_three_valued_null :
    (∃ e, bindRowValueCmp .lt [some 1, none] [some 1, some 2] = .ok e ∧
      ∀ t, e.eval id = some t ↔ Decides .lt [some .eq, none] t) ∧
    ∃ (arms : List (BoolExpr (Option ℕ))) (e : _),
      bindRowValueIn [some 1, none] [[some 1, some 2]] false = .ok e ∧
      e.eval id = anyOf (arms.map (·.eval id)) := by
  refine ⟨(row_comparison_three_valued id).1 .lt _ _ (by decide) rfl, ?_⟩
  obtain ⟨arms, -, e, he, heval⟩ :=
    (row_comparison_three_valued id).2 [some 1, none] [[some 1, some 2]] false
    (by decide) (by decide)
  exact ⟨arms, e, he, heval⟩

/-! ## The bound expression -/

section Bound

open Lowering Outcome

/-- The operator of a comparison. -/
def binOp : CmpKind → Lowering.BinOp
  | .eq => .eq
  | .ne => .ne
  | .lt => .lt
  | .le => .le
  | .gt => .gt
  | .ge => .ge

/-- What the rewritten expression is bound to, over bound operands. -/
def BoolExpr.lower : BoolExpr BExpr → BExpr
  | .lit b => .const (Expr.bool b)
  | .cmp kind l r => .binary (binOp kind) l r
  | .and l r => .binary .and l.lower r.lower
  | .or l r => .binary .or l.lower r.lower
  | .not e => .unary .not e.lower

variable (b : Expr.Builtins) (toReal : Value → F64) (cols params : List Datum) {α : Type} [Ord α]
  (env : BExpr → Option α)

/-- The operands of every comparison have values, which compare as `env` says. -/
def Compares : BoolExpr BExpr → Prop
  | .lit _ => True
  | .cmp _ l r => ∃ x y, meaning (withValues b toReal) cols params l = .ok x ∧
      meaning (withValues b toReal) cols params r = .ok y ∧
      Lowering.sqlCmp x y = .ok (pairCmp env (l, r))
  | .and l r | .or l r => Compares l ∧ Compares r
  | .not e => Compares e

theorem truthy3_ofTruth (t : Option Bool) :
    (withValues b toReal).truthy3 (Expr.ofTruth t) = t := by
  rcases t with _ | _ <;> rfl

/-- The value of the bound expression is the truth of the rewritten one. -/
theorem meaning_lower {e : BoolExpr BExpr} (h : Compares b toReal cols params env e) :
    meaning (withValues b toReal) cols params e.lower = .ok (Expr.ofTruth (e.eval env)) := by
  induction e with
  | lit x => rfl
  | cmp kind l r =>
    obtain ⟨x, y, hx, hy, hcmp⟩ := h
    have hvalue : binValue (withValues b toReal) (binOp kind) x y =
        (Lowering.sqlCmp x y).map (Expr.verdict kind) := by
      cases kind <;> rfl
    refine bind_eq_ok.2 ⟨x, hx, bind_eq_ok.2 ⟨y, hy, ?_⟩⟩
    rw [hvalue, hcmp, BoolExpr.eval]
    rcases pairCmp env (l, r) with _ | o <;> rfl
  | and l r ihl ihr =>
    refine bind_eq_ok.2 ⟨_, ihl h.1, bind_eq_ok.2 ⟨_, ihr h.2, ?_⟩⟩
    show Expr.lift (.ok (Expr.kleeneAnd _ _ _)) = _
    rw [Expr.kleeneAnd, truthy3_ofTruth, truthy3_ofTruth, BoolExpr.eval]
    rcases l.eval env with _ | _ | _ <;> rcases r.eval env with _ | _ | _ <;> rfl
  | or l r ihl ihr =>
    refine bind_eq_ok.2 ⟨_, ihl h.1, bind_eq_ok.2 ⟨_, ihr h.2, ?_⟩⟩
    show Expr.lift (.ok (Expr.kleeneOr _ _ _)) = _
    rw [Expr.kleeneOr, truthy3_ofTruth, truthy3_ofTruth, BoolExpr.eval]
    rcases l.eval env with _ | _ | _ <;> rcases r.eval env with _ | _ | _ <;> rfl
  | not e ih =>
    refine bind_eq_ok.2 ⟨_, ih h, ?_⟩
    show Expr.lift (.ok (Expr.ofTruth (Option.map _ ((withValues b toReal).truthy3 _)))) = _
    rw [truthy3_ofTruth]
    rfl

end Bound

end Mpedb.RowValue
