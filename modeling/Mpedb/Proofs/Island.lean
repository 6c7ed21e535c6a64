import Mathlib.Tactic.Ring
import Mpedb.Island
import Mpedb.Proofs.Lowering

/-!
# What an island misses

Every step backward holds the values of its operand, but for the division: an integer quotient has
lost its remainder. So an island holds every value that satisfies the conjuncts where each division
that it was computed through meets its target with the exact quotient too (`Kept`), and `x / k = q`
loses each integer that `k` does not divide.
-/

namespace Mpedb.Island

open Interval Bool

variable {K : Type} [Field K] {env : Env K} {row : Row K} {col : ℕ}

/-- The number that a value stands for. -/
def value? : Val K → Option K
  | .int i => some i.toInt
  | .float q | .numeric q => some q
  | _ => none

variable {v : Val K} {k : K}

theorem value_of_numOf (h : numOf v = some k) : value? v = some k := by
  cases v <;> first | exact h | cases h

variable {q : K}

theorem value_checked {i : ℤ} (h : checked i = .ok v) (hq : value? v = some q) :
    q = i := by
  unfold checked at h
  split_ifs at h with hi
  · cases h
    cases hq
    rw [Int64.toInt_ofInt_of_le (by omega) (by omega)]

variable {x : K}

theorem value_exactNumeric (h : exactNumeric env x = .ok v)
    (hq : value? v = some q) : q = x := by
  unfold exactNumeric at h
  split_ifs at h
  · cases h
    cases hq
    rfl

/-- The operation of an exact operator. -/
def apply (op : BinOp) (p p' : K) : K :=
  match op with
  | .add => p + p'
  | .sub => p - p'
  | _ => p * p'

variable {op : BinOp}

theorem value_intArith (hop : op = .add ∨ op = .sub ∨ op = .mul) {x y : Int64}
    (h : intArith op x y = .ok v) (hq : value? v = some q) :
    q = apply op (x.toInt : K) y.toInt := by
  rcases hop with rfl | rfl | rfl <;> rw [value_checked h hq] <;> simp [apply]

variable [LinearOrder K] {R : Roots K}

variable {e : BExpr K}

theorem eval_of_num (h : num e = some k) :
    ∃ v, eval env row e = .ok v ∧ value? v = some k := by
  cases e with
  | const v => exact ⟨v, rfl, value_of_numOf h⟩
  | _ => cases h

theorem value_floatArith (hop : op = .add ∨ op = .sub ∨ op = .mul) {y : K}
    (h : floatArith op x y = .ok v) (hq : value? v = some q) : q = apply op x y := by
  rcases hop with rfl | rfl | rfl <;> cases h <;> cases hq <;> rfl

theorem value_numericArith (hop : op = .add ∨ op = .sub ∨ op = .mul) {y : K}
    (h : numericArith env op x y = .ok v) (hq : value? v = some q) : q = apply op x y := by
  rcases hop with rfl | rfl | rfl <;> exact value_exactNumeric h hq

/-- A number comes out of numbers only. -/
theorem operands_of_arith {x y : Val K} (h : arith env op x y = .ok v)
    (hq : value? v = some q) : ∃ p p', value? x = some p ∧ value? y = some p' := by
  cases x <;> cases y <;> first
    | exact ⟨_, _, rfl, rfl⟩
    | (cases h; cases hq)
    | cases h

variable {p : K}

/-- Sums, differences and products are exact. -/
theorem value_arith (hop : op = .add ∨ op = .sub ∨ op = .mul) {x y : Val K} {p' : K}
    (h : arith env op x y = .ok v) (hq : value? v = some q) (hx : value? x = some p)
    (hy : value? y = some p') : q = apply op p p' := by
  cases x <;> cases hx <;> cases y <;> cases hy <;> first
    | exact value_intArith hop h hq
    | exact value_floatArith hop h hq
    | exact value_numericArith hop h hq
    | cases h

section Compare

variable [IsStrictOrderedRing K]

theorem compare_cast (a b : ℤ) : compare a b = compare (a : K) b := by
  rcases lt_trichotomy a b with h | rfl | h
  · rw [compare_lt_iff_lt.2 h, compare_lt_iff_lt.2 (Int.cast_lt.2 h)]
  · rw [compare_eq_iff_eq.2 rfl, compare_eq_iff_eq.2 rfl]
  · rw [compare_gt_iff_gt.2 h, compare_gt_iff_gt.2 (Int.cast_lt.2 h)]

/-- Numbers are compared with numbers, by their values. -/
theorem compare_of_cmp_right {x y : Val K} {o : Ordering} {k : K} (h : cmp env x y = .ok (some o))
    (hk : value? y = some k) : ∃ p, value? x = some p ∧ o = compare p k := by
  cases y <;> cases hk <;> cases x <;> cases h <;>
    first | exact ⟨_, rfl, rfl⟩ | exact ⟨_, rfl, compare_cast _ _⟩

theorem compare_of_cmp_left {x y : Val K} {o : Ordering} {k : K} (h : cmp env x y = .ok (some o))
    (hk : value? x = some k) : ∃ p, value? y = some p ∧ o = compare k p := by
  cases x <;> cases hk <;> cases y <;> cases h <;>
    first | exact ⟨_, rfl, rfl⟩ | exact ⟨_, rfl, compare_cast _ _⟩

end Compare

theorem eval_of_same : ∀ {a b : BExpr K}, same a b = true → eval env row a = eval env row b
  | .col x, .col y, h | .param x, .param y, h | .const x, .const y, h => by
    rw [of_decide_eq_true h]
  | .binary o a b, .binary o' a' b', h => by
    simp only [same, and_eq_true, decide_eq_true_eq] at h
    obtain ⟨⟨rfl, ha⟩, hb⟩ := h
    rw [eval, eval, eval_of_same ha, eval_of_same hb]
  | .unary _ a, .unary _ a', h | .cast a _, .cast a' _, h => by
    simp only [same, and_eq_true, decide_eq_true_eq] at h
    obtain ⟨rfl, ha⟩ := h
    rw [eval, eval, eval_of_same ha]

variable {a b : BExpr K}

/-- The operands of an operator that has a value have one. -/
theorem eval_binary (h : eval env row (.binary op a b) = .ok v) :
    ∃ x y, eval env row a = .ok x ∧ eval env row b = .ok y ∧ binOp env op x y = .ok v := by
  rw [eval] at h
  rcases ha : eval env row a with e | x
  · rw [ha] at h
    cases h
  · rcases hb : eval env row b with e | y
    · rw [ha, hb] at h
      cases h
    · rw [ha, hb] at h
      exact ⟨x, y, rfl, rfl, h⟩

/-- The value of an operand, where the operand has a number for its value. -/
def HasValue (env : Env K) (row : Row K) (e : BExpr K) (p : K) : Prop :=
  ∃ x, eval env row e = .ok x ∧ value? x = some p

theorem HasValue.unique (hp : HasValue env row e p)
    (hq : HasValue env row e q) : p = q := by
  obtain ⟨x, hx, hp⟩ := hp
  obtain ⟨y, hy, hq⟩ := hq
  rw [hx] at hy
  cases hy
  rw [hp] at hq
  exact Option.some.inj hq

theorem HasValue.num (hp : HasValue env row e p) (hk : num e = some k) :
    p = k :=
  hp.unique (eval_of_num hk)

theorem HasValue.arith
    (hop : op = .add ∨ op = .sub ∨ op = .mul) (h : HasValue env row (.binary op a b) q) :
    ∃ p p', HasValue env row a p ∧ HasValue env row b p' ∧ q = apply op p p' := by
  obtain ⟨v, hv, hq⟩ := h
  obtain ⟨x, y, hx, hy, hop'⟩ := eval_binary hv
  have har : Island.arith env op x y = .ok v := by
    rcases hop with rfl | rfl | rfl <;> exact hop'
  obtain ⟨p, p', hp, hp'⟩ := operands_of_arith har hq
  exact ⟨p, p', ⟨x, hx, hp⟩, ⟨y, hy, hp'⟩, value_arith hop har hq hp hp'⟩

theorem HasValue.div (hop : op = .div ∨ op = .divStrict)
    (h : HasValue env row (.binary op a b) q) : ∃ p, HasValue env row a p := by
  obtain ⟨v, hv, hq⟩ := h
  obtain ⟨x, y, hx, hy, hop'⟩ := eval_binary hv
  have har : Island.arith env op x y = .ok v := by
    rcases hop with rfl | rfl <;> exact hop'
  obtain ⟨p, -, hp, -⟩ := operands_of_arith har hq
  exact ⟨p, x, hx, hp⟩

theorem eval_unary {op : UnOp} (h : eval env row (.unary op e) = .ok v) :
    ∃ x, eval env row e = .ok x ∧ unOp env op x = .ok v := by
  rw [eval] at h
  rcases he : eval env row e with err | x
  · rw [he] at h
    cases h
  · rw [he] at h
    exact ⟨x, rfl, h⟩

theorem HasValue.neg (h : HasValue env row (.unary .neg e) q) :
    HasValue env row e (-q) := by
  obtain ⟨v, hv, hq⟩ := h
  obtain ⟨x, hx, hop⟩ := eval_unary hv
  refine ⟨x, hx, ?_⟩
  cases x with
  | int i =>
    rw [value_checked hop hq]
    simp [value?]
  | float p =>
    cases hop
    cases hq
    simp [value?]
  | null =>
    cases hop
    cases hq
  | _ => cases hop

theorem HasValue.toFloat (h : HasValue env row (.unary .toFloat e) q) :
    HasValue env row e q := by
  obtain ⟨v, hv, hq⟩ := h
  obtain ⟨x, hx, hop⟩ := eval_unary hv
  refine ⟨x, hx, ?_⟩
  cases x with
  | int i | float p | numeric p =>
    cases hop
    exact hq
  | null =>
    cases hop
    cases hq
  | _ => cases hop

/-- The way back from `e` and the target `t`: wherever it passes a division and goes on to a bound
of the column, the exact quotient lies in the target as the quotient computed does. -/
def Lossless (R : Roots K) (env : Env K) (row : Row K) (col : ℕ) : BExpr K → Iv K → Prop
  | .binary .add a b, t => match num b, num a with
    | some k, _ => Lossless R env row col a (t.shift (-k)).sane
    | none, some k => Lossless R env row col b (t.shift (-k)).sane
    | none, none => ∀ h, upperEnd t = some h → (nonneg a && nonneg b) = true →
        Lossless R env row col a (.upto h) ∧ Lossless R env row col b (.upto h)
  | .binary .sub a b, t => match num b, num a with
    | some k, _ => Lossless R env row col a (t.shift k).sane
    | none, some k => Lossless R env row col b (t.neg.shift k).sane
    | none, none => True
  | .binary .mul a b, t =>
    if same a b then
      ∀ h, upperEnd t = some h →
        Lossless R env row col a (Iv.sane ⟨.fin (-R.sqrt h), .fin (R.sqrt h)⟩)
    else match num b, num a with
      | some k, _ => Lossless R env row col a (divTarget t k)
      | none, some k => Lossless R env row col b (divTarget t k)
      | none, none => True
  | .binary .div a b, t | .binary .divStrict a b, t => ∀ k, num b = some k → k ≠ 0 →
      (back R col a (mulTarget t k)).isAll = false →
      Lossless R env row col a (mulTarget t k) ∧ ∀ p, HasValue env row a p → t.Holds (p / k)
  | .unary .neg a, t => Lossless R env row col a t.neg.sane
  | .unary .toFloat a, t => Lossless R env row col a t
  | _, _ => True

/-- The predicate is TRUE on the row. -/
def IsTrue (env : Env K) (row : Row K) (e : BExpr K) : Prop :=
  ∃ v, eval env row e = .ok v ∧ truthy3 env v = some true

/-- The comparisons of a predicate lose nothing on the way back. Of an OR that bounds the column,
one arm that is TRUE has to. -/
def Kept (R : Roots K) (env : Env K) (row : Row K) (col : ℕ) : BExpr K → Prop
  | .binary .and a b => Kept R env row col a ∧ Kept R env row col b
  | .binary .or a b => (fromPred R col (.binary .or a b)).isAll = false →
      IsTrue env row a ∧ Kept R env row col a ∨ IsTrue env row b ∧ Kept R env row col b
  | .binary op l r => match num r, num l with
    | some k, _ => Lossless R env row col l (target op k)
    | none, some k => Lossless R env row col r (target (flip op) k)
    | none, none => True
  | _ => True

variable [IsStrictOrderedRing K]

theorem HasValue.nonneg : ∀ {e : BExpr K} {q : K}, Island.nonneg e = true →
    HasValue env row e q → 0 ≤ q
  | .const v, q, h, hq => by
    obtain ⟨x, hx, hq⟩ := hq
    cases hx
    rw [Island.nonneg] at h
    rcases hn : numOf v with _ | k
    · rw [hn] at h
      cases h
    · rw [value_of_numOf hn] at hq
      cases hq
      simpa [hn] using h
  | .binary .mul a b, q, h, hq => by
    obtain ⟨p, p', ha, hb, rfl⟩ := hq.arith (.inr (.inr rfl))
    rw [Island.nonneg, or_eq_true, and_eq_true] at h
    rcases h with hsame | ⟨hna, hnb⟩
    · obtain rfl : p = p' := by
        refine ha.unique ?_
        rw [HasValue, eval_of_same hsame]
        exact hb
      exact mul_self_nonneg p
    · exact mul_nonneg (HasValue.nonneg hna ha) (HasValue.nonneg hnb hb)
  | .binary .add a b, q, h, hq => by
    obtain ⟨p, p', ha, hb, rfl⟩ := hq.arith (.inl rfl)
    rw [Island.nonneg, and_eq_true] at h
    exact add_nonneg (HasValue.nonneg h.1 ha) (HasValue.nonneg h.2 hb)

omit [Field K] [IsStrictOrderedRing K] in
theorem upperEnd_le {t : Iv K} {h : K} (hend : upperEnd t = some h) (ht : t.Holds q) : q ≤ h := by
  obtain ⟨lo, hi⟩ := t
  cases hi <;> cases hend
  simpa [Ext.le] using ht.2

theorem holds_divTarget {t : Iv K} (h : t.Holds (p * k)) : (divTarget t k).Holds p := by
  unfold divTarget
  split_ifs with hk
  · exact holds_all p
  · have := holds_scale h (inv_ne_zero hk)
    rw [mul_inv_cancel_right₀ hk] at this
    exact holds_sane this

/-- The way back from the expression leads to the value `w` of the column. -/
def Sound (env : Env K) (row : Row K) (R : Roots K) (col : ℕ) (w : K) (e : BExpr K) : Prop :=
  ∀ t q, Lossless R env row col e t → HasValue env row e q → t.Holds q → (back R col e t).Holds w

variable {w : K} {a b : BExpr K}

omit [Field K] [IsStrictOrderedRing K] in
theorem holds_unless_all {t s : Iv K} (h : s.Holds w) : (if t.isAll then .all else s).Holds w := by
  split_ifs
  · exact holds_all w
  · exact h

omit [IsStrictOrderedRing K] in
theorem sound_col (hcol : value? (row col) = some w) (c : ℕ) : Sound env row R col w (.col c) := by
  intro t q _ hq ht
  refine holds_unless_all ?_
  split_ifs with hc
  · subst hc
    obtain ⟨x, hx, hq⟩ := hq
    cases hx
    rw [hcol] at hq
    cases hq
    exact holds_sane ht
  · exact holds_all w

/-- The bounds of a sum add up. -/
theorem sound_add (ha : Sound env row R col w a) (hb : Sound env row R col w b) :
    Sound env row R col w (.binary .add a b) := by
  intro t q hl hq ht
  rw [Lossless] at hl
  obtain ⟨p, p', hp, hp', rfl⟩ := hq.arith (.inl rfl)
  rw [apply] at ht
  refine holds_unless_all ?_
  rcases hnb₀ : num b with _ | k
  · rcases hna₀ : num a with _ | k
    · rcases hend : upperEnd t with _ | h
      · exact holds_all w
      · -- neither term exceeds a sum of terms that are not negative
        by_cases hnn : (nonneg a && nonneg b) = true
        · have hsum := upperEnd_le hend ht
          have hna := HasValue.nonneg (and_eq_true _ _ ▸ hnn).1 hp
          have hnb := HasValue.nonneg (and_eq_true _ _ ▸ hnn).2 hp'
          rw [hnb₀, hna₀] at hl
          obtain ⟨hla, hlb⟩ := hl h hend hnn
          simp only [if_pos hnn]
          exact holds_sane (holds_meet (ha _ p hla hp (holds_upto (by linarith)))
            (hb _ p' hlb hp' (holds_upto (by linarith))))
        · simp only [if_neg hnn]
          exact holds_all w
    · rw [hnb₀, hna₀] at hl
      refine hb _ p' hl hp' (holds_sane ?_)
      have := holds_shift ht (-k)
      rwa [hp.num hna₀, add_neg_cancel_comm] at this
  · rw [hnb₀] at hl
    refine ha _ p hl hp (holds_sane ?_)
    have := holds_shift ht (-k)
    rwa [hp'.num hnb₀, add_neg_cancel_right] at this

theorem sound_sub (ha : Sound env row R col w a) (hb : Sound env row R col w b) :
    Sound env row R col w (.binary .sub a b) := by
  intro t q hl hq ht
  rw [Lossless] at hl
  obtain ⟨p, p', hp, hp', rfl⟩ := hq.arith (.inr (.inl rfl))
  rw [apply] at ht
  refine holds_unless_all ?_
  rcases hnb : num b with _ | k
  · rcases hna : num a with _ | k
    · exact holds_all w
    · rw [hnb, hna] at hl
      refine hb _ p' hl hp' (holds_sane ?_)
      have := holds_shift (holds_neg ht) k
      rwa [hp.num hna, neg_sub, sub_add_cancel] at this
  · rw [hnb] at hl
    refine ha _ p hl hp (holds_sane ?_)
    have := holds_shift ht k
    rwa [hp'.num hnb, sub_add_cancel] at this

/-- The bounds of a product, by the signs of the factors. -/
theorem sound_mul (ha : Sound env row R col w a) (hb : Sound env row R col w b) :
    Sound env row R col w (.binary .mul a b) := by
  intro t q hl hq ht
  rw [Lossless] at hl
  obtain ⟨p, p', hp, hp', rfl⟩ := hq.arith (.inr (.inr rfl))
  change t.Holds (p * p') at ht
  refine holds_unless_all ?_
  by_cases hsame : same a b = true
  · obtain rfl : p = p' := by
      refine hp.unique ?_
      rw [HasValue, eval_of_same hsame]
      exact hp'
    rw [if_pos hsame] at hl ⊢
    have hsq := mul_self_nonneg p
    by_cases hneg : t.hi.lt (.fin 0) = true
    · -- no square lies below 0
      obtain ⟨-, hhi | ⟨h, hhi, hle⟩⟩ := holds_iff.1 ht <;> rw [hhi] at hneg
      · cases hneg
      · simp [Ext.lt, Ext.le] at hneg
        linarith
    · rw [if_neg hneg]
      rcases hend : upperEnd t with _ | h
      · exact holds_all w
      · obtain ⟨hlo, hhi⟩ := R.abs_le (upperEnd_le hend ht)
        exact ha _ p (hl h hend) hp (holds_sane (by simp [Iv.Holds, Ext.le, hlo, hhi]))
  · rw [if_neg hsame] at hl ⊢
    rcases hnb : num b with _ | k
    · rcases hna : num a with _ | k
      · exact holds_all w
      · rw [hnb, hna] at hl
        refine hb _ p' hl hp' (holds_divTarget ?_)
        rwa [hp.num hna, mul_comm] at ht
    · rw [hnb] at hl
      refine ha _ p hl hp (holds_divTarget ?_)
      rwa [hp'.num hnb] at ht

/-- A division by a constant, where the exact quotient lies in the target too. -/
theorem holds_div (hop : op = .div ∨ op = .divStrict) {t : Iv K}
    (ha : Sound env row R col w a) (hl : Lossless R env row col (.binary op a b) t)
    (hq : HasValue env row (.binary op a b) q) :
    (if t.isAll then .all
      else match num b with
        | some k => if k = 0 then .all else back R col a (mulTarget t k)
        | none => .all : Iv K).Holds w := by
  obtain ⟨p, hp⟩ := hq.div hop
  refine holds_unless_all ?_
  rcases hnb : num b with _ | k
  · exact holds_all w
  · by_cases hk : k = 0
    · simp only [if_pos hk]
      exact holds_all w
    · simp only [if_neg hk]
      by_cases hall : (back R col a (mulTarget t k)).isAll = true
      · exact holds_of_isAll hall
      · have hdiv : Lossless R env row col a (mulTarget t k) ∧
            ∀ p, HasValue env row a p → t.Holds (p / k) := by
          rcases hop with rfl | rfl <;> rw [Lossless] at hl <;>
            exact hl k hnb hk (eq_false_of_not_eq_true hall)
        exact ha _ p hdiv.1 hp (holds_sane ((holds_scale_iff hk).2 (hdiv.2 p hp)))

theorem sound_unary (ha : Sound env row R col w a) (op : UnOp) :
    Sound env row R col w (.unary op a) := by
  intro t q hl hq ht
  cases op with
  | neg =>
    rw [Lossless] at hl
    exact holds_unless_all (ha _ _ hl hq.neg (holds_sane (holds_neg ht)))
  | toFloat =>
    rw [Lossless] at hl
    exact holds_unless_all (ha _ _ hl hq.toFloat ht)
  | other n => exact holds_all w

theorem sound_back (hcol : value? (row col) = some w) (e : BExpr K) : Sound env row R col w e := by
  induction e with
  | const | param | other | cast => exact fun _ _ _ _ _ => holds_all w
  | col c => exact sound_col hcol c
  | unary op e ih => exact sound_unary ih op
  | binary op a b ha hb =>
    cases op with
    | add => exact sound_add ha hb
    | sub => exact sound_sub ha hb
    | mul => exact sound_mul ha hb
    | div => exact fun t q hl hq _ => holds_div (.inl rfl) ha hl hq
    | divStrict => exact fun t q hl hq _ => holds_div (.inr rfl) ha hl hq
    | _ => exact fun _ _ _ _ _ => holds_all w

omit [Field K] [IsStrictOrderedRing K] in
theorem holds_target (h : accepts op (compare p k) = true) :
    (target op k).Holds p := by
  cases op with
  | lt => exact holds_upto (compare_lt_iff_lt.1 (of_decide_eq_true h)).le
  | le => exact holds_upto (compare_le_iff_le.1 (of_decide_eq_true h))
  | gt => exact holds_atLeast (compare_gt_iff_gt.1 (of_decide_eq_true h)).le
  | ge => exact holds_atLeast (compare_ge_iff_ge.1 (of_decide_eq_true h))
  | eq =>
    exact holds_point_iff.2 (compare_eq_iff_eq.1 (of_decide_eq_true h))
  | _ => exact holds_all p

omit [Field K] [IsStrictOrderedRing K] in
theorem accepts_flip (hcmp : isCmp op = true)
    (h : accepts op (compare k p) = true) : accepts (flip op) (compare p k) = true := by
  have hswap : compare p k = (compare k p).swap := Std.OrientedOrd.eq_swap
  cases op <;> cases hcmp <;> cases hc : compare k p <;> simp_all [accepts, flip]

/-- A comparison that is true keeps the column within its bounds. -/
theorem holds_cmp (hcmp : isCmp op = true) {l r : BExpr K}
    (hcol : value? (row col) = some w) (hkept : Kept R env row col (.binary op l r))
    (hv : eval env row (.binary op l r) = .ok v) (htrue : truthy3 env v = some true) :
    (fromPred R col (.binary op l r)).Holds w := by
  obtain ⟨x, y, hx, hy, hop⟩ := eval_binary hv
  have hcmp' : ∃ o, cmp env x y = .ok (some o) ∧ accepts op o = true := by
    rcases hc : cmp env x y with e | _ | o <;> cases op <;> cases hcmp <;>
      simp only [binOp, hc] at hop <;> cases hop <;> first
        | exact ⟨o, rfl, by simpa [truthy3] using htrue⟩
        | cases htrue
  obtain ⟨o, hc, hacc⟩ := hcmp'
  have hfrom : fromPred R col (.binary op l r) = (num r).elim
      ((num l).elim .all fun k => back R col r (target (flip op) k))
      fun k => back R col l (target op k) := by
    cases op <;> cases hcmp <;> unfold fromPred <;> cases num r <;> cases num l <;> rfl
  have hl : (num r).elim
      ((num l).elim True fun k => Lossless R env row col r (target (flip op) k))
      fun k => Lossless R env row col l (target op k) := by
    cases op <;> cases hcmp <;> unfold Kept at hkept <;> cases hr : num r <;>
      cases hl : num l <;> rw [hr] at hkept <;>
        first | exact hkept | (rw [hl] at hkept; exact hkept)
  rw [hfrom]
  rcases hnr : num r with _ | k
  · rcases hnl : num l with _ | k
    · exact holds_all w
    · rw [hnr, hnl] at hl
      obtain ⟨x', hx', hk⟩ := eval_of_num hnl
      rw [hx] at hx'
      cases hx'
      obtain ⟨p, hp, rfl⟩ := compare_of_cmp_left hc hk
      exact sound_back hcol r _ p hl ⟨y, hy, hp⟩ (holds_target (accepts_flip hcmp hacc))
  · rw [hnr] at hl
    obtain ⟨y', hy', hk⟩ := eval_of_num hnr
    rw [hy] at hy'
    cases hy'
    obtain ⟨p, hp, rfl⟩ := compare_of_cmp_right hc hk
    exact sound_back hcol l _ p hl ⟨x, hx, hp⟩ (holds_target hacc)

omit [IsStrictOrderedRing K] in
theorem and_true {x y : Option Bool} (h : truthy3 env (logic .and x y) = some true) :
    x = some true ∧ y = some true := by
  rcases x with _ | (_ | _) <;> rcases y with _ | (_ | _) <;> first | exact ⟨rfl, rfl⟩ | cases h

/-- By the shape of the predicate: conjunctions keep both bounds. -/
theorem holds_fromPred (hcol : value? (row col) = some w) :
    ∀ (e : BExpr K), Kept R env row col e → IsTrue env row e → (fromPred R col e).Holds w
  | .const _, _, _ | .param _, _, _ | .col _, _, _ | .unary _ _, _, _ | .cast _ _, _, _
  | .other _, _, _ => holds_all w
  | .binary op a b, hkept, htrue => by
    obtain ⟨v, hv, htrue⟩ := htrue
    cases op with
    | and =>
      obtain ⟨x, y, hx, hy, hop⟩ := eval_binary hv
      cases hop
      obtain ⟨hxt, hyt⟩ := and_true htrue
      rw [Kept] at hkept
      exact holds_meet (holds_fromPred hcol a hkept.1 ⟨x, hx, hxt⟩)
        (holds_fromPred hcol b hkept.2 ⟨y, hy, hyt⟩)
    | or =>
      by_cases hall : (fromPred R col (.binary .or a b)).isAll = true
      · exact holds_of_isAll hall
      · rw [Kept] at hkept
        rcases hkept (eq_false_of_not_eq_true hall) with ⟨ht, hk⟩ | ⟨ht, hk⟩
        · exact holds_join_left (holds_fromPred hcol a hk ht)
        · exact holds_join_right (holds_fromPred hcol b hk ht)
    | eq | ne | lt | le | gt | ge => exact holds_cmp rfl hcol hkept hv htrue
    | _ => exact holds_all w

/-- Every conjunct is TRUE on the row. -/
def Satisfies (env : Env K) (row : Row K) (conjuncts : List (BExpr K)) : Prop :=
  ∀ c ∈ conjuncts, IsTrue env row c

theorem holds_foldl (hcol : value? (row col) = some w) :
    ∀ {conjuncts : List (BExpr K)} {acc : Iv K},
    Satisfies env row conjuncts → (∀ c ∈ conjuncts, Kept R env row col c) → acc.Holds w →
    (conjuncts.foldl (fun acc c => Iv.meet acc (fromPred R col c)) acc).Holds w
  | [], _, _, _, hacc => hacc
  | c :: cs, acc, hsat, hkept, hacc => by
    obtain ⟨htrue, hsat⟩ := List.forall_mem_cons.1 hsat
    obtain ⟨hc, hkept⟩ := List.forall_mem_cons.1 hkept
    rw [List.foldl_cons]
    exact holds_foldl hcol hsat hkept (holds_meet hacc (holds_fromPred hcol c hc htrue))

theorem holds_island {conjuncts : List (BExpr K)} {iv : Iv K} (hcol : value? (row col) = some w)
    (hsat : Satisfies env row conjuncts) (hkept : ∀ c ∈ conjuncts, Kept R env row col c)
    (hiv : island R conjuncts col = some iv) : iv.Holds w := by
  unfold island at hiv
  simp only at hiv
  split_ifs at hiv
  cases hiv
  exact holds_sane (holds_foldl hcol hsat hkept (holds_all w))

/-- The comparison of a quotient of the column with a constant. -/
def quotient (op cop : BinOp) (col : ℕ) (k q : Int64) : BExpr K :=
  .binary cop (.binary op (.col col) (.const (.int k))) (.const (.int q))

omit [IsStrictOrderedRing K] in
theorem fromPred_quotient {cop : BinOp} (hop : op = .div ∨ op = .divStrict)
    (hcop : isCmp cop = true)
    {k q : Int64} : fromPred R col (quotient op cop col k q) =
      back R col (.binary op (.col col) (.const (.int k))) (target cop (q.toInt : K)) := by
  rcases hop with rfl | rfl <;> cases cop <;> cases hcop <;> rfl

/-- The island of such a comparison is its target, times the divisor. -/
theorem island_quotient {cop : BinOp} (hop : op = .div ∨ op = .divStrict) (hcop : isCmp cop = true)
    {k q : Int64} (hk : k.toInt ≠ 0) {iv : Iv K}
    (hiv : island R [quotient op cop col k q] col = some iv) :
    iv = (target cop (q.toInt : K)).scale k.toInt := by
  have hk' : (k.toInt : K) ≠ 0 := Int.cast_ne_zero.2 hk
  have hback : back R col (.binary op (.col col) (.const (.int k))) (target cop (q.toInt : K)) =
      if (target cop (q.toInt : K)).isAll then .all
      else back R col (.col col) (mulTarget (target cop (q.toInt : K)) k.toInt) := by
    rcases hop with rfl | rfl <;> simp [back, num, numOf, hk']
  unfold island at hiv
  simp only [List.foldl_cons, fromPred_quotient hop hcop, hback, back] at hiv
  rcases lt_or_gt_of_ne hk' with hneg | hpos
  · have hnot := not_lt.2 hneg.le
    cases cop <;> cases hcop <;>
      simp [target, mulTarget, Iv.scale, hnot, hneg, Iv.sane, Ext.mul, Iv.isAll, Iv.meet,
        Iv.all, Iv.upto, Iv.atLeast, Iv.point, Ext.isNan, Ext.max, Ext.min, Ext.le] at hiv ⊢ <;>
      exact hiv.symm
  · cases cop <;> cases hcop <;>
      simp [target, mulTarget, Iv.scale, hpos, Iv.sane, Ext.mul, Iv.isAll, Iv.meet, Iv.all, Iv.upto,
        Iv.atLeast, Iv.point, Ext.isNan, Ext.max, Ext.min, Ext.le] at hiv ⊢ <;>
      exact hiv.symm

omit [IsStrictOrderedRing K] in
theorem tdiv_of_satisfies (hop : op = .div ∨ op = .divStrict) {v k q : Int64}
    (hv : row col = .int v) (hk : k.toInt ≠ 0)
    (h : Satisfies env row [quotient op .eq col k q]) : v.toInt.tdiv k.toInt = q.toInt := by
  obtain ⟨x, hx, htrue⟩ := h _ (List.mem_singleton_self _)
  obtain ⟨y, z, hy, hz, heq⟩ := eval_binary hx
  cases hz
  obtain ⟨y₁, y₂, hy₁, hy₂, hdiv⟩ := eval_binary hy
  cases hy₁
  cases hy₂
  have hchecked : checked (v.toInt.tdiv k.toInt) = Except.ok y := by
    rw [hv] at hdiv
    rcases hop with rfl | rfl <;> simpa [binOp, arith, intArith, hk] using hdiv
  unfold checked at hchecked
  split_ifs at hchecked with hi
  cases hchecked
  cases heq
  have := of_decide_eq_true (Option.some.inj htrue)
  rw [compare_eq_iff_eq, Int64.toInt_ofInt_of_le (by omega) (by omega)] at this
  exact this

/-- An island holds the value of its column on every row that satisfies the conjuncts, if the exact
quotients lie in the targets that the divisions are inverted with. A comparison of a quotient of the
column keeps an integer exactly if the exact quotient meets the comparison's target, so `x / k = q`
keeps the multiples of `k` only. -/
theorem island_holds_of_kept (R : Roots K) (env : Env K) (row : Row K) (col : ℕ) :
    (∀ (conjuncts : List (BExpr K)) (iv : Iv K) (w : K), island R conjuncts col = some iv →
      value? (row col) = some w → Satisfies env row conjuncts →
      (∀ c ∈ conjuncts, Kept R env row col c) → iv.Holds w) ∧
    ∀ (op cop : BinOp) (v k q : Int64) (iv : Iv K), op = .div ∨ op = .divStrict → isCmp cop = true →
      row col = .int v → k.toInt ≠ 0 → Satisfies env row [quotient op cop col k q] →
      island R [quotient op cop col k q] col = some iv →
      (iv.Holds v.toInt ↔ (target cop (q.toInt : K)).Holds (v.toInt / k.toInt)) ∧
      (cop = .eq → (iv.Holds v.toInt ↔ k.toInt ∣ v.toInt)) := by
  refine ⟨fun conjuncts iv w hiv hcol hsat hkept => holds_island hcol hsat hkept hiv, ?_⟩
  intro op cop v k q iv hop hcop hv hk hsat hiv
  have hk' : (k.toInt : K) ≠ 0 := Int.cast_ne_zero.2 hk
  have hiff : iv.Holds (v.toInt : K) ↔ (target cop (q.toInt : K)).Holds (v.toInt / k.toInt) := by
    rw [island_quotient hop hcop hk hiv]
    exact holds_scale_iff hk'
  refine ⟨hiff, ?_⟩
  rintro rfl
  rw [hiff, target, holds_point_iff, div_eq_iff hk']
  have hq := tdiv_of_satisfies hop hv hk hsat
  constructor
  · intro h
    exact ⟨q.toInt, by exact_mod_cast h.trans (mul_comm _ _)⟩
  · intro h
    rw [← hq]
    exact_mod_cast (Int.tdiv_mul_cancel h).symm

/-- A statement without parameters, over rows of integers. -/
def plain : Env ℚ where
  param _ := .error (.unsupported "parameter")
  unary _ _ := .error (.unsupported "operator")
  binary _ _ _ := .error (.unsupported "operator")
  cast _ _ := .error (.unsupported "cast")
  cmpOther _ _ := .ok none
  truthyOther _ := false
  fitsNumeric _ := true
  divNumeric x y := x / y

/-- `x` or 1 is above the root of `x`. -/
def coarse : Roots ℚ where
  sqrt x := max x 1
  nonneg x := zero_le_one.trans (le_max_right x 1)
  le_sq x hx := (le_max_left x 1).trans
    (le_mul_of_one_le_left (hx.trans (le_max_left x 1)) (le_max_right x 1))

theorem satisfies_quotient (v : Int64) (h : v.toInt.tdiv 2 = 3) :
    Satisfies plain (fun _ => .int v) [quotient .div .eq 0 2 3] := by
  intro c hc
  cases List.mem_singleton.1 hc
  refine ⟨.bool true, ?_, rfl⟩
  have h2 : (2 : Int64).toInt = 2 := rfl
  have hint : intArith .div v 2 = Except.ok (Val.int (K := ℚ) 3) := by
    rw [intArith, h2, h]
    rfl
  simp [quotient, eval, binOp, arith, hint, cmp, accepts]

theorem kept_quotient : Kept coarse plain (fun _ => .int 6) 0 (quotient .div .eq 0 2 3) := by
  intro k hk _ _
  have hp6 : HasValue plain (fun _ => .int 6) (.col 0) 6 := ⟨.int 6, rfl, rfl⟩
  cases hk
  refine ⟨trivial, fun p hp => ?_⟩
  rw [hp.unique hp6]
  norm_num [target, holds_point_iff, show (2 : Int64).toInt = 2 from rfl,
    show (3 : Int64).toInt = 3 from rfl]

theorem island_three : island coarse [quotient .div .eq 0 2 3] 0 = some ⟨.fin 6, .fin 6⟩ := by
  norm_num [island, quotient, fromPred, isCmp, num, numOf, target, back, mulTarget,
    Iv.scale, Ext.mul, Iv.point, Iv.sane, Ext.isNan, Iv.isAll, Iv.meet, Iv.all, Ext.max, Ext.min,
    Ext.le,
    show (2 : Int64).toInt = 2 from rfl, show (3 : Int64).toInt = 3 from rfl]

theorem island_holds_six : (Iv.mk (.fin (6 : ℚ)) (.fin 6)).Holds 6 ∧
    ((Iv.mk (.fin (6 : ℚ)) (.fin 6)).Holds 6 ↔ (2 : ℤ) ∣ 6) := by
  have h := island_holds_of_kept coarse plain (fun _ => .int 6) 0
  refine ⟨h.1 [quotient .div .eq 0 2 3] ⟨.fin 6, .fin 6⟩ 6 island_three rfl
    (satisfies_quotient 6 (by decide)) ?_, ?_⟩
  · intro c hc
    cases List.mem_singleton.1 hc
    exact kept_quotient
  · exact (h.2 .div .eq 6 2 3 ⟨.fin 6, .fin 6⟩ (.inl rfl) rfl rfl (by decide)
      (satisfies_quotient 6 (by decide)) island_three).2 rfl

/-- `x / 2 = 3` is TRUE for 7, and its island is 6 alone. -/
theorem island_loses_seven : Satisfies plain (fun _ => .int 7) [quotient .div .eq 0 2 3] ∧
    ∃ iv, island coarse [quotient .div .eq 0 2 3] 0 = some iv ∧ ¬ iv.Holds 7 :=
  ⟨satisfies_quotient 7 (by decide), ⟨.fin 6, .fin 6⟩, island_three, by decide⟩

/-! ## The bound expression -/

section Bound

open Lowering Outcome

/-- The analysis tells two of the unary operators apart. -/
def unOpOf : Lowering.UnOp → UnOp
  | .neg => .neg
  | .toFloat => .toFloat
  | op => .other op.ctorIdx

/-- It does not look into the other binary operators. -/
def binOpOf : Lowering.BinOp → BinOp
  | .add => .add
  | .sub => .sub
  | .mul => .mul
  | .div => .div
  | .divStrict => .divStrict
  | .eq => .eq
  | .ne => .ne
  | .lt => .lt
  | .le => .le
  | .gt => .gt
  | .ge => .ge
  | .and => .and
  | .or => .or
  | op => .other op.ctorIdx

/-- A bound expression as the analysis reads it. -/
def ofBound (val : Datum → Val K) : Lowering.BExpr → BExpr K
  | .const x => .const (val x)
  | .param i => .param i.toNat
  | .col i => .col i.toNat
  | .unary op e => .unary (unOpOf op) (ofBound val e)
  | .binary op l r => .binary (binOpOf op) (ofBound val l) (ofBound val r)
  | .other _ => .other fun _ => .ok .null

/-- The operators of the machine are those of the analysis, on values as it reads them. For integers
this is their definition; for floats it says that nothing is rounded. -/
structure Exact (b : Expr.Builtins) (env : Env K) (val : Datum → Val K) : Prop where
  null : val .null = .null
  unary : ∀ op x y, unValue b op x = .ok y → unOp env (unOpOf op) (val x) = .ok (val y)
  binary : ∀ op x y z, binValue b op x y = .ok z →
    binOp env (binOpOf op) (val x) (val y) = .ok (val z)

variable {b : Expr.Builtins} {val : Datum → Val K} {cols params : List Datum}

omit [IsStrictOrderedRing K] in
/-- What the machine computes, the analysis computes too. -/
theorem eval_ofBound (h : Exact b env val)
    (hparam : ∀ i x, params[i]? = some x → env.param i = .ok (val x))
    (hcol : ∀ i x, cols[i]? = some x → row i = val x) {e : Lowering.BExpr} {x : Datum}
    (hx : meaning b cols params e = .ok x) : eval env row (ofBound val e) = .ok (val x) := by
  have hget : ∀ {err : Error} {xs : List Datum} {i : ℕ} {x : Datum},
      Checked.get err xs i = .ok x → xs[i]? = some x := by
    intro err xs i x hx
    unfold Checked.get at hx
    split at hx <;> cases hx
    assumption
  have hlift : ∀ {r : Except Error Datum} {x : Datum}, Expr.lift r = .ok x → r = .ok x := by
    intro r x hr
    rcases r with e | y <;> cases hr
    rfl
  induction e generalizing x with
  | const v =>
    cases hx
    rfl
  | param i => exact hparam _ _ (hget hx)
  | col i => exact congrArg Except.ok (hcol _ _ (hget hx))
  | unary op e ih =>
    obtain ⟨y, hy, hx⟩ := bind_eq_ok.1 hx
    simp only [ofBound, eval, ih hy]
    exact h.unary op y x (hlift hx)
  | binary op l r ihl ihr =>
    obtain ⟨y, hy, hx⟩ := bind_eq_ok.1 hx
    obtain ⟨z, hz, hx⟩ := bind_eq_ok.1 hx
    simp only [ofBound, eval, ihl hy, ihr hz]
    exact h.binary op y z x (hlift hx)
  | other =>
    cases hx
    exact congrArg Except.ok h.null.symm

end Bound

end Mpedb.Island
