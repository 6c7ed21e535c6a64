import Mpedb.Proofs.Compare
import Mpedb.Proofs.NumberOrder

/-!
# `sort_cmp` compares by value

An integer and a float are compared through the truncated float, and exactly where that leaves them
equal; floats are compared by their normalized bits. Both are the order of the numbers they stand
for, with the infinities and NaN at the ends. So on integers, floats, texts and blobs `sortCmp` is
one total preorder.
-/

namespace Mpedb

theorem ordering_congr {o o' : Ordering} (hlt : o = .lt ↔ o' = .lt) (hgt : o = .gt ↔ o' = .gt) :
    o = o' := by
  cases o <;> cases o' <;> simp_all

theorem compare_congr {α β : Type*} [LinearOrder α] [LinearOrder β] {a b : α} {c d : β}
    (hlt : a < b ↔ c < d) (hgt : b < a ↔ d < c) : compare a b = compare c d := by
  refine ordering_congr ?_ ?_
  · rw [compare_lt_iff_lt, compare_lt_iff_lt, hlt]
  · rw [compare_gt_iff_gt, compare_gt_iff_gt, hgt]

theorem compare_finite (p q : ℚ) : compare (Extended.finite p) (Extended.finite q) = compare p q :=
  compare_congr finite_lt_iff finite_lt_iff

namespace F64

variable (f g : F64)

theorem exactCmp_eq (i : ℤ) : exactCmp i f = compare (i : ℚ) (f.significand * 2 ^ f.scale) := by
  unfold exactCmp
  split_ifs with h
  · obtain ⟨n, hn⟩ := Int.eq_ofNat_of_zero_le h
    rw [hn]
    refine compare_congr ?_ ?_ <;> exact_mod_cast Iff.rfl
  · obtain ⟨n, hn⟩ : ∃ n : ℕ, -f.scale = n := ⟨(-f.scale).toNat, by omega⟩
    have hs : f.scale = -n := by omega
    have hpow : (0 : ℚ) < 2 ^ n := by positivity
    rw [hn, hs, zpow_neg, zpow_natCast, ← div_eq_mul_inv]
    refine compare_congr ?_ ?_
    · rw [lt_div_iff₀ hpow]
      exact_mod_cast Iff.rfl
    · rw [div_lt_iff₀ hpow]
      exact_mod_cast Iff.rfl

theorem lt_of_lt_tdiv {i n d : ℤ} (hd : 0 < d) (h : i < n.tdiv d) : i * d < n := by
  rcases le_total 0 n with hn | hn
  · rw [Int.tdiv_eq_ediv_of_nonneg hn] at h
    have := Int.mul_ediv_self_le (x := n) (k := d) hd.ne'
    nlinarith
  · obtain ⟨m, rfl⟩ : ∃ m, n = -m := ⟨-n, by omega⟩
    rw [Int.neg_tdiv, Int.tdiv_eq_ediv_of_nonneg (by omega)] at h
    have := Int.lt_mul_ediv_self_add (x := m) hd
    nlinarith

theorem lt_of_tdiv_lt {i n d : ℤ} (hd : 0 < d) (h : n.tdiv d < i) : n < i * d := by
  have := lt_of_lt_tdiv (i := -i) (n := -n) hd (by rw [Int.neg_tdiv]; omega)
  linarith

theorem compare_trunc {i : ℤ} (h : i ≠ f.trunc) :
    compare i f.trunc = compare (i : ℚ) (f.significand * 2 ^ f.scale) := by
  rw [← exactCmp_eq]
  unfold exactCmp
  unfold trunc at h ⊢
  split_ifs at h ⊢ with hs
  · rfl
  · have hd : (0 : ℤ) < 2 ^ (-f.scale).toNat := by positivity
    rcases lt_or_gt_of_ne h with hlt | hgt
    · rw [compare_lt_iff_lt.2 hlt, compare_lt_iff_lt.2 (lt_of_lt_tdiv hd hlt)]
    · rw [compare_gt_iff_gt.2 hgt, compare_gt_iff_gt.2 (lt_of_tdiv_lt hd hgt)]

/-- An integer and a float compare by their values, although the float may not be one of an
integer. -/
theorem intFloatCmp_eq (i : Int64) :
    intFloatCmp i f = compare (Extended.finite i.toInt) f.value := by
  have hnan : Extended.finite i.toInt < .nan := Prod.Lex.toLex_lt_toLex.2 (.inl Nat.one_lt_ofNat)
  have hinf : Extended.finite i.toInt < .infinity :=
    Prod.Lex.toLex_lt_toLex.2 (.inl Nat.one_lt_ofNat)
  have hneg : Extended.negInfinity < .finite i.toInt :=
    Prod.Lex.toLex_lt_toLex.2 (.inl Nat.zero_lt_one)
  have hmin := Int64.le_toInt i
  have hmax := Int64.toInt_lt i
  unfold intFloatCmp value
  by_cases hn : f.isNan = true
  · rw [if_pos hn, if_pos hn, compare_lt_iff_lt.2 hnan]
  rw [if_neg hn, if_neg hn]
  by_cases hi : f.isInfinite = true
  · rw [if_pos hi, if_pos hi]
    by_cases hs : f.negative = true
    · rw [if_pos hs, if_pos hs, compare_gt_iff_gt.2 hneg]
    · rw [if_neg hs, if_neg hs, compare_lt_iff_lt.2 hinf]
  rw [if_neg hi, if_neg hi, compare_finite]
  set q : ℚ := f.significand * 2 ^ f.scale with hq
  by_cases hlow : exactCmp (-2 ^ 63) f = .gt
  · -- below every integer
    rw [if_pos hlow]
    rw [exactCmp_eq, compare_gt_iff_gt] at hlow
    refine (compare_gt_iff_gt.2 (hlow.trans_le ?_)).symm
    exact_mod_cast hmin
  rw [if_neg hlow]
  by_cases hhigh : exactCmp (2 ^ 63) f ≠ .gt
  · -- above every integer
    rw [if_pos hhigh]
    rw [exactCmp_eq, ne_eq, compare_gt_iff_gt, not_lt] at hhigh
    refine (compare_lt_iff_lt.2 (lt_of_lt_of_le ?_ hhigh)).symm
    exact_mod_cast hmax
  rw [if_neg hhigh]
  by_cases heq : i.toInt = f.trunc
  · rw [compare_eq_iff_eq.2 heq, exactCmp_eq]
  · have hc := compare_trunc f heq
    rcases lt_or_gt_of_ne heq with hlt | hgt
    · rw [compare_lt_iff_lt.2 hlt] at hc ⊢
      exact hc
    · rw [compare_gt_iff_gt.2 hgt] at hc ⊢
      exact hc

theorem floatTotalCmp_eq : floatTotalCmp f g = compare f.value g.value := by
  have hf := toNat_normalizeFloatBits f
  have hg := toNat_normalizeFloatBits g
  refine ordering_congr ?_ ?_
  · rw [floatTotalCmp, Std.compare_eq_lt, compare_lt_iff_lt, value_lt_iff, UInt64.lt_iff_toNat_lt]
    split_ifs at hf hg <;> omega
  · rw [floatTotalCmp, Std.compare_eq_gt, compare_gt_iff_gt, value_lt_iff,
      UInt64.lt_iff_toNat_lt]
    split_ifs at hf hg <;> omega

end F64

namespace Value

/-- The order across storage classes as a chain of orders by keys. -/
def rankedCmp (coll : Collation) : Value → Value → Ordering :=
  compareLex (compareOn fun v => v.classRank.getD 0) (compareLex (compareOn number)
    (compareOn (asBytes coll)))

instance (coll : Collation) : Std.TransCmp (rankedCmp coll) := by
  unfold rankedCmp
  infer_instance

theorem compare_toInt (a b : Int64) : compare a b = compare a.toInt b.toInt := by
  refine ordering_congr ?_ ?_
  · rw [Std.compare_eq_lt, compare_lt_iff_lt, Int64.lt_iff_toInt_lt]
  · rw [Std.compare_eq_gt, compare_gt_iff_gt, Int64.lt_iff_toInt_lt]

theorem sortCmp_eq_rankedCmp {a b : Value} (coll : Collation) (ha : a.classRank.isSome = true)
    (hb : b.classRank.isSome = true) : a.sortCmp b coll = some (rankedCmp coll a b) := by
  have hint (x y : Int64) : compare (Extended.finite x.toInt) (Extended.finite y.toInt) =
      compare x y := by
    rw [compare_finite, compare_toInt]
    exact compare_congr (by exact_mod_cast Iff.rfl) (by exact_mod_cast Iff.rfl)
  have hswap (x y : Extended) : (compare x y).swap = compare y x := Std.OrientedOrd.eq_swap.symm
  cases a <;> cases ha <;> cases b <;> cases hb <;>
    simp [sortCmp, isNull, sqlCmpCollated, sqlCmp, rankedCmp, compareLex, compareOn, classRank,
      number, asBytes, hint, hswap, F64.floatTotalCmp_eq, F64.intFloatCmp_eq,
      Collation.compareStr_eq]
  all_goals rfl

end Value

end Mpedb
