import Mathlib.Algebra.Order.Field.Basic
import Mathlib.Tactic.Linarith
import Mathlib.Tactic.Positivity

/-!
# Intervals with floating ends

The ends are numbers of an ordered field, the two infinities, or no number at all: the arithmetic is
the one of IEEE floats, but exact. An end that is no number holds nothing, so that a step which
could produce one has to widen (`sane`). Each operation on an interval holds the images of what the
interval holds.
-/

namespace Interval

/-- The numbers of `K` with infinities, and a place for what is no number. -/
inductive Ext (K : Type*)
  | nan | negInf | fin (q : K) | inf

/-- An interval by its ends. -/
structure Iv (K : Type*) where
  lo : Ext K
  hi : Ext K

variable {K : Type*}

section Order

variable [LinearOrder K]

namespace Ext

/-- Whether an end is no number. -/
def isNan : Ext K → Bool
  | nan => true
  | _ => false

/-- No number compares with anything. -/
@[simp]
def le : Ext K → Ext K → Bool
  | fin a, fin b => a ≤ b
  | negInf, negInf | negInf, fin _ | negInf, inf | fin _, inf | inf, inf => true
  | _, _ => false

/-- The strict order of ends. -/
def lt (x y : Ext K) : Bool := x.le y && !y.le x

/-- The greater one; the other one where one is no number. -/
@[simp]
def max : Ext K → Ext K → Ext K
  | nan, y => y
  | x, nan => x
  | x, y => if x.le y then y else x

/-- The smaller end; what is no number gives way. -/
@[simp]
def min : Ext K → Ext K → Ext K
  | nan, y => y
  | x, nan => x
  | x, y => if x.le y then x else y

end Ext

namespace Iv

/-- Every number. -/
def all : Iv K := ⟨.negInf, .inf⟩

/-- One number. -/
def point (v : K) : Iv K := ⟨.fin v, .fin v⟩

/-- The numbers up to `v`. -/
def upto (v : K) : Iv K := ⟨.negInf, .fin v⟩

/-- The numbers from `v` on. -/
def atLeast (v : K) : Iv K := ⟨.fin v, .inf⟩

/-- Whether the interval has no ends. -/
def isAll : Iv K → Bool
  | ⟨.negInf, .inf⟩ => true
  | _ => false

/-- Whether no number is in it. -/
def isEmpty (t : Iv K) : Bool := t.hi.lt t.lo

/-- The numbers in both. -/
def meet (t u : Iv K) : Iv K := ⟨t.lo.max u.lo, t.hi.min u.hi⟩

/-- The smallest interval around both. -/
def join (t u : Iv K) : Iv K :=
  if t.isEmpty then u
  else if u.isEmpty then t
  else ⟨t.lo.min u.lo, t.hi.max u.hi⟩

/-- An end that is no number says nothing. -/
def sane (t : Iv K) : Iv K := if t.lo.isNan || t.hi.isNan then all else t

/-- The number is in the interval. -/
def Holds (t : Iv K) (v : K) : Prop := t.lo.le (.fin v) = true ∧ Ext.le (.fin v) t.hi = true

instance (t : Iv K) (v : K) : Decidable (t.Holds v) := inferInstanceAs (Decidable (_ ∧ _))

end Iv

open Iv

variable {t u : Iv K} {v w : K}

/-- An interval that holds a number has numbers or the outer infinities for its ends. -/
theorem holds_iff : t.Holds v ↔
    (t.lo = .negInf ∨ ∃ a, t.lo = .fin a ∧ a ≤ v) ∧ (t.hi = .inf ∨ ∃ b, t.hi = .fin b ∧ v ≤ b) := by
  obtain ⟨lo, hi⟩ := t
  cases lo <;> cases hi <;> simp [Iv.Holds, Ext.le]

theorem holds_all (v : K) : (all : Iv K).Holds v := ⟨rfl, rfl⟩

theorem holds_of_isAll (h : t.isAll = true) : t.Holds v := by
  obtain ⟨lo, hi⟩ := t
  cases lo <;> cases hi <;> first | exact holds_all v | cases h

theorem holds_point_iff : (point w).Holds v ↔ v = w := by
  rw [le_antisymm_iff, and_comm]
  simp [Iv.Holds, point, Ext.le]

theorem holds_upto (h : v ≤ w) : (upto w).Holds v := by simp [Iv.Holds, upto, Ext.le, h]

theorem holds_atLeast (h : w ≤ v) : (atLeast w).Holds v := by simp [Iv.Holds, atLeast, Ext.le, h]

theorem holds_sane (h : t.Holds v) : t.sane.Holds v := by
  unfold sane
  split_ifs
  · exact holds_all v
  · exact h

theorem holds_meet (ht : t.Holds v) (hu : u.Holds v) : (t.meet u).Holds v := by
  obtain ⟨lo, hi⟩ := t
  obtain ⟨lo', hi'⟩ := u
  obtain ⟨h₁, h₂⟩ := ht
  obtain ⟨h₃, h₄⟩ := hu
  constructor
  · cases lo <;> cases lo' <;> simp_all [meet, Ext.max, Ext.le]
    split_ifs <;> simp_all
  · cases hi <;> cases hi' <;> simp_all [meet, Ext.min, Ext.le]
    split_ifs <;> simp_all

theorem not_isEmpty (h : t.Holds v) : ¬ t.isEmpty = true := by
  obtain ⟨hlo, hhi⟩ := holds_iff.1 h
  obtain ⟨lo, hi⟩ := t
  rcases hlo with rfl | ⟨a, rfl, ha⟩ <;> rcases hhi with rfl | ⟨b, rfl, hb⟩ <;>
    simp_all [isEmpty, Ext.lt, Ext.le]
  exact fun _ => ha.trans hb

variable {x y : Ext K}

theorem le_min_left (h : x.le (.fin v) = true) : (x.min y).le (.fin v) = true := by
  cases x <;> cases y <;> simp_all [Ext.min, Ext.le]
  split_ifs with hle
  · simpa using h
  · simpa using (not_le.1 hle).le.trans h

theorem le_max_left (h : Ext.le (.fin v) x = true) : Ext.le (.fin v) (x.max y) = true := by
  cases x <;> cases y <;> simp_all [Ext.max, Ext.le]
  split_ifs with hle
  · simpa using h.trans hle
  · simpa using h

theorem le_min_right (h : y.le (.fin v) = true) : (x.min y).le (.fin v) = true := by
  cases x <;> cases y <;> simp_all [Ext.min, Ext.le]
  split_ifs with hle
  · simpa using hle.trans h
  · simpa using h

theorem le_max_right (h : Ext.le (.fin v) y = true) : Ext.le (.fin v) (x.max y) = true := by
  cases x <;> cases y <;> simp_all [Ext.max, Ext.le]
  split_ifs with hle
  · simpa using h
  · simpa using h.trans (not_le.1 hle).le

theorem holds_join_left (h : t.Holds v) : (t.join u).Holds v := by
  rw [join, if_neg (not_isEmpty h)]
  split_ifs
  · exact h
  · exact ⟨le_min_left h.1, le_max_left h.2⟩

theorem holds_join_right (h : u.Holds v) : (t.join u).Holds v := by
  rw [join, if_neg (not_isEmpty h)]
  split_ifs
  · exact h
  · exact ⟨le_min_right h.1, le_max_right h.2⟩

end Order

section Arithmetic

variable [Field K] [LinearOrder K]

namespace Ext

/-- The end with the other sign. -/
def neg : Ext K → Ext K
  | nan => nan
  | negInf => inf
  | fin q => fin (-q)
  | inf => negInf

/-- `x + k` for a finite `k`. -/
def add : Ext K → K → Ext K
  | fin q, k => fin (q + k)
  | x, _ => x

/-- `x * k` for a finite `k`. -/
def mul : Ext K → K → Ext K
  | nan, _ => nan
  | fin q, k => fin (q * k)
  | negInf, k => if 0 < k then negInf else if k < 0 then inf else nan
  | inf, k => if 0 < k then inf else if k < 0 then negInf else nan

end Ext

namespace Iv

/-- The interval mirrored at zero. -/
def neg (t : Iv K) : Iv K := ⟨t.hi.neg, t.lo.neg⟩

/-- The interval moved by `k`. -/
def shift (t : Iv K) (k : K) : Iv K := ⟨t.lo.add k, t.hi.add k⟩

/-- The multiples of what is in the interval; a negative factor swaps the ends. -/
def scale (t : Iv K) (k : K) : Iv K :=
  if 0 < k then ⟨t.lo.mul k, t.hi.mul k⟩ else ⟨t.hi.mul k, t.lo.mul k⟩

end Iv

/-- Square roots that are not below the true ones. -/
structure Roots (K : Type*) [Field K] [LinearOrder K] where
  sqrt : K → K
  nonneg : ∀ x, 0 ≤ sqrt x
  le_sq : ∀ x, 0 ≤ x → x ≤ sqrt x * sqrt x

open Iv

variable [IsStrictOrderedRing K] {t : Iv K} {v : K}

theorem holds_neg (h : t.Holds v) : t.neg.Holds (-v) := by
  obtain ⟨lo, hi⟩ := t
  cases lo <;> cases hi <;> simp_all [Iv.Holds, Iv.neg, Ext.neg, Ext.le]

theorem holds_shift (h : t.Holds v) (k : K) : (t.shift k).Holds (v + k) := by
  obtain ⟨lo, hi⟩ := t
  cases lo <;> cases hi <;> simp_all [Iv.Holds, Iv.shift, Ext.add, Ext.le]

theorem holds_scale_iff {k : K} (hk : k ≠ 0) : (t.scale k).Holds v ↔ t.Holds (v / k) := by
  obtain ⟨lo, hi⟩ := t
  unfold Iv.scale
  rcases lt_or_gt_of_ne hk with hneg | hpos
  · rw [if_neg (not_lt.2 hneg.le)]
    cases lo <;> cases hi <;>
      simp [Iv.Holds, Ext.mul, Ext.le, hneg, not_lt.2 hneg.le, le_div_iff_of_neg, div_le_iff_of_neg,
        and_comm]
  · rw [if_pos hpos]
    cases lo <;> cases hi <;>
      simp [Iv.Holds, Ext.mul, Ext.le, hpos, le_div_iff₀, div_le_iff₀]

theorem holds_scale (h : t.Holds v) {k : K} (hk : k ≠ 0) : (t.scale k).Holds (v * k) := by
  rwa [holds_scale_iff hk, mul_div_cancel_right₀ v hk]

/-- A number whose square is bounded lies between the roots of the bound. -/
theorem Roots.abs_le (R : Roots K) {x h : K} (hx : x * x ≤ h) : -R.sqrt h ≤ x ∧ x ≤ R.sqrt h := by
  have hh : 0 ≤ h := (mul_self_nonneg x).trans hx
  exact abs_le_of_sq_le_sq' (by rw [sq, sq]; exact hx.trans (R.le_sq h hh)) (R.nonneg h)

end Arithmetic

end Interval
