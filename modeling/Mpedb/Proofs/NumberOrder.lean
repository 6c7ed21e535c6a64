import Mathlib.Data.Rat.Floor
import Mpedb.Proofs.FloatOrder
import Mpedb.Proofs.Keycode

/-!
# Integers and floats in one order

A number in a typeless column is written as the integer below it, a sub-tag that says how it lies to
that integer, and the image of the float where the integer does not determine it. `numberFloor` and
`numberPlace` say the same of the exact value, and the two together with the image decide between
any two numbers.
-/

namespace Mpedb

open Code

theorem toInt_eq_toNat (x : Int64) :
    x.toInt = x.toUInt64.toNat ∨ x.toInt = x.toUInt64.toNat - 2 ^ 64 := by
  rw [← Int64.toInt_toBitVec, BitVec.toInt_eq_toNat_cond]
  split_ifs
  · exact .inl rfl
  · exact .inr (by norm_num; rfl)

theorem toNat_flipSign (x : Int64) :
    ((x.toUInt64 ^^^ 0x8000000000000000).toNat : ℤ) = x.toInt + 2 ^ 63 := by
  have hlt := x.toUInt64.toNat_lt
  have hmin := Int64.le_toInt x
  have hmax := Int64.toInt_lt x
  have hmod : (x.toUInt64.toNat ^^^ 2 ^ 63) % 2 ^ 63 = x.toUInt64.toNat % 2 ^ 63 := by
    rw [Nat.xor_mod_two_pow, Nat.mod_self, Nat.xor_zero]
  have hdiv : (x.toUInt64.toNat ^^^ 2 ^ 63) / 2 ^ 63 = x.toUInt64.toNat / 2 ^ 63 ^^^ 1 := by
    rw [Nat.xor_div_two_pow, Nat.div_self (by norm_num)]
  change ((x.toUInt64.toNat ^^^ 2 ^ 63 : ℕ) : ℤ) = _
  have hsign : x.toUInt64.toNat / 2 ^ 63 = 0 ∨ x.toUInt64.toNat / 2 ^ 63 = 1 := by omega
  rcases toInt_eq_toNat x with hx | hx <;> rcases hsign with hs | hs <;> rw [hs] at hdiv <;>
    first
      | (have hdiv : (x.toUInt64.toNat ^^^ 2 ^ 63) / 2 ^ 63 = 1 := hdiv
         omega)
      | (have hdiv : (x.toUInt64.toNat ^^^ 2 ^ 63) / 2 ^ 63 = 0 := hdiv
         omega)

theorem ahead_encodeI64 {x y : Int64} (h : x.toInt < y.toInt) :
    Ahead (encodeI64 x) (encodeI64 y) := by
  have hx := toNat_flipSign x
  have hy := toNat_flipSign y
  exact fun r r' => Bytes.be_append_lt r r' 8 (by omega) (UInt64.toNat_lt _)

theorem F64.floor_eq (f : F64) : f.floor = ⌊(f.significand * 2 ^ f.scale : ℚ)⌋ := by
  unfold F64.floor
  split_ifs with h
  · obtain ⟨n, hn⟩ := Int.eq_ofNat_of_zero_le h
    rw [hn, Int.toNat_natCast, zpow_natCast]
    exact_mod_cast (Int.floor_intCast (R := ℚ) _).symm
  · obtain ⟨n, hn⟩ : ∃ n : ℕ, -f.scale = n := ⟨(-f.scale).toNat, by omega⟩
    have hs : f.scale = -n := by omega
    rw [hn, Int.toNat_natCast, Int.fdiv_eq_ediv_of_nonneg _ (by positivity), hs, zpow_neg,
      zpow_natCast, ← div_eq_mul_inv]
    exact_mod_cast (Rat.floor_intCast_div_natCast f.significand (2 ^ n)).symm

theorem F64.integral_iff (f : F64) :
    f.integral = true ↔ (f.significand * 2 ^ f.scale : ℚ) = f.floor := by
  unfold F64.integral F64.floor
  split_ifs with h
  · obtain ⟨n, hn⟩ := Int.eq_ofNat_of_zero_le h
    rw [hn, Int.toNat_natCast, zpow_natCast]
    simp
  · obtain ⟨n, hn⟩ : ∃ n : ℕ, -f.scale = n := ⟨(-f.scale).toNat, by omega⟩
    have hs : f.scale = -n := by omega
    have hpow : (2 : ℚ) ^ n ≠ 0 := by positivity
    have hdiv := Int.mul_ediv_add_emod f.significand (2 ^ n)
    rw [hn, Int.toNat_natCast, Int.fdiv_eq_ediv_of_nonneg _ (by positivity),
      Int.fmod_eq_emod_of_nonneg _ (by positivity), hs, zpow_neg, zpow_natCast, ← div_eq_mul_inv,
      div_eq_iff hpow]
    have hcast : ((f.significand / 2 ^ n : ℤ) : ℚ) * 2 ^ n =
        ((f.significand / 2 ^ n * 2 ^ n : ℤ) : ℚ) := by
      push_cast
      rfl
    rw [hcast, Int.cast_inj]
    rw [Bool.or_eq_true, decide_eq_true_eq, beq_iff_eq, or_iff_right (hs ▸ h)]
    constructor <;> intro h <;> linarith

/-- The number with the infinities at its ends. -/
inductive Proper : Extended → Prop
  | negInfinity : Proper .negInfinity
  | finite (q : ℚ) : Proper (.finite q)
  | infinity : Proper .infinity
  | nan : Proper .nan

/-- The greatest `i64` that is not above the number, or the least one. -/
def numberFloor (x : Extended) : ℤ :=
  match (ofLex x).1 with
  | 0 => -2 ^ 63
  | 1 => max (-2 ^ 63) (min (2 ^ 63 - 1) ⌊(ofLex x).2⌋)
  | _ => 2 ^ 63 - 1

/-- How a number lies to its floor. -/
def numberPlace (x : Extended) : ℕ :=
  match (ofLex x).1 with
  | 0 => 0
  | 1 => if (ofLex x).2 < numberFloor x then 0 else if (ofLex x).2 = numberFloor x then 1 else 2
  | 2 => 2
  | _ => 3

theorem numberPlace_finite (q : ℚ) : numberPlace (.finite q) =
    if q < numberFloor (.finite q) then 0 else if q = numberFloor (.finite q) then 1 else 2 := rfl

theorem numberFloor_finite (q : ℚ) :
    numberFloor (.finite q) = max (-2 ^ 63) (min (2 ^ 63 - 1) ⌊q⌋) := rfl

theorem numberFloor_mono {q q' : ℚ} (h : q ≤ q') :
    numberFloor (.finite q) ≤ numberFloor (.finite q') := by
  exact max_le_max le_rfl (min_le_min le_rfl (Int.floor_le_floor h))

theorem finite_lt_iff {q q' : ℚ} : Extended.finite q < .finite q' ↔ q < q' := by
  simp [Extended.finite, Prod.Lex.toLex_lt_toLex]

/-- Two numbers are told apart by their floors, by their places, or lie on the same side of the same
integer. -/
theorem number_lt {x y : Extended} (hx : Proper x) (hy : Proper y) (h : x < y) :
    numberFloor x < numberFloor y ∨ numberFloor x = numberFloor y ∧
      (numberPlace x < numberPlace y ∨ numberPlace x = numberPlace y ∧ numberPlace x ≠ 1) := by
  have hlow (q : ℚ) : -2 ^ 63 ≤ numberFloor (.finite q) := le_max_left _ _
  have hhigh (q : ℚ) : numberFloor (.finite q) ≤ 2 ^ 63 - 1 :=
    max_le (by norm_num) (min_le_left _ _)
  have hplace (q : ℚ) : numberPlace (.finite q) ≤ 2 := by
    rw [numberPlace_finite]
    split_ifs <;> norm_num
  cases hx with
  | negInfinity =>
    cases hy with
    | negInfinity => exact absurd h (lt_irrefl _)
    | finite q =>
      rcases (hlow q).lt_or_eq with hlt | heq
      · exact .inl hlt
      · refine .inr ⟨heq, ?_⟩
        rcases Nat.eq_zero_or_pos (numberPlace (.finite q)) with h0 | h0
        · exact .inr ⟨h0.symm, by decide⟩
        · exact .inl h0
    | infinity => exact .inl (by decide)
    | nan => exact .inl (by decide)
  | finite q =>
    cases hy with
    | negInfinity =>
      exact absurd h (by simp [Extended.finite, Extended.negInfinity, Prod.Lex.toLex_lt_toLex])
    | finite q' =>
      have hq := finite_lt_iff.1 h
      rcases (numberFloor_mono hq.le).lt_or_eq with hlt | heq
      · exact .inl hlt
      · refine .inr ⟨heq, ?_⟩
        rw [numberPlace_finite, numberPlace_finite, heq]
        split_ifs with h₁ h₂ h₃ h₄ h₅ h₆ <;> first | omega | linarith
    | infinity =>
      rcases (hhigh q).lt_or_eq with hlt | heq
      · exact .inl hlt
      · refine .inr ⟨heq, ?_⟩
        rcases (hplace q).lt_or_eq with h2 | h2
        · exact .inl h2
        · exact .inr ⟨h2, by omega⟩
    | nan =>
      rcases (hhigh q).lt_or_eq with hlt | heq
      · exact .inl hlt
      · exact .inr ⟨heq, .inl (lt_of_le_of_lt (hplace q) (by decide))⟩
  | infinity =>
    cases hy with
    | negInfinity => exact absurd h (by decide)
    | finite q =>
      exact absurd h (by simp [Extended.finite, Extended.infinity, Prod.Lex.toLex_lt_toLex])
    | infinity => exact absurd h (lt_irrefl _)
    | nan => exact .inr ⟨rfl, .inl (by decide)⟩
  | nan =>
    cases hy with
    | negInfinity => exact absurd h (by decide)
    | finite q => exact absurd h (by simp [Extended.finite, Extended.nan, Prod.Lex.toLex_lt_toLex])
    | infinity => exact absurd h (by decide)
    | nan => exact absurd h (lt_irrefl _)

/-- The number of an integer or a float. -/
def Value.number : Value → Extended
  | .int i => .finite i.toInt
  | .float f => f.value
  | _ => .finite 0

/-- The bytes of a number behind its sub-tag. -/
def numberTail (x : Extended) (image : List UInt8) : List UInt8 :=
  UInt8.ofNat (numberPlace x) :: if numberPlace x = 1 then [] else image

/-- The bytes of a number: its floor, and what is left. -/
def numberWord (x : Extended) (image : List UInt8) : List UInt8 :=
  encodeI64 (Int64.ofInt (numberFloor x)) ++ numberTail x image

theorem F64.proper (f : F64) : Proper f.value := by
  rcases f.value_cases with ⟨h, -⟩ | ⟨h, -⟩ | ⟨h, -⟩ | ⟨h, -⟩ <;> rw [h] <;> constructor

theorem numberFloor_le {x : Extended} (hx : Proper x) :
    -2 ^ 63 ≤ numberFloor x ∧ numberFloor x < 2 ^ 63 := by
  cases hx with
  | finite q =>
    rw [numberFloor_finite]
    omega
  | negInfinity => decide
  | infinity => decide
  | nan => decide

theorem encodeInt_eq (i : Int64) (image : List UInt8) :
    encodeI64 i ++ [0x01] = numberWord (.finite i.toInt) image := by
  have hmin := Int64.le_toInt i
  have hmax := Int64.toInt_lt i
  have hfloor : numberFloor (.finite i.toInt) = i.toInt := by
    rw [numberFloor_finite, Int.floor_intCast]
    omega
  have hplace : numberPlace (.finite i.toInt) = 1 := by
    rw [numberPlace_finite, hfloor, if_neg (lt_irrefl _), if_pos rfl]
  rw [numberWord, numberTail, hplace, hfloor, Int64.ofInt_toInt]
  rfl

/-- The code of a float is the word of its value, then its bits. -/
theorem encodeFloatNumber_eq (f : F64) :
    encodeFloatNumber f = numberWord f.value (encodeF64 f) := by
  unfold encodeFloatNumber
  by_cases hn : f.isNan = true
  · rw [if_pos hn, F64.value, if_pos hn]
    rfl
  rw [if_neg hn, F64.value, if_neg hn]
  by_cases hi : f.isInfinite = true
  · rw [if_pos hi, hi]
    rcases hs : f.negative with _ | _ <;> rfl
  rw [if_neg hi, Bool.not_eq_true] at *
  set q : ℚ := f.significand * 2 ^ f.scale with hq
  have hfloor : f.floor = ⌊q⌋ := f.floor_eq
  have hle : (f.floor : ℚ) ≤ q := hfloor ▸ Int.floor_le q
  simp only [hi, Bool.false_and, Bool.not_false, Bool.true_and, Bool.false_or, decide_eq_true_eq]
  by_cases habove : 2 ^ 63 ≤ f.floor
  -- above every integer
  · have hc : numberFloor (.finite q) = 2 ^ 63 - 1 := by
      rw [numberFloor_finite]
      omega
    have hlt : ((2 ^ 63 - 1 : ℤ) : ℚ) < q := lt_of_lt_of_le (Int.cast_lt.2 (by omega)) hle
    have hplace : numberPlace (.finite q) = 2 := by
      rw [numberPlace_finite, hc, if_neg hlt.le.not_gt, if_neg hlt.ne']
    rw [if_pos habove, numberWord, numberTail, hplace, hc]
    rfl
  by_cases hbelow : f.floor < -2 ^ 63
  · have hc : numberFloor (.finite q) = -2 ^ 63 := by
      rw [numberFloor_finite]
      omega
    have hlt : q < ((-2 ^ 63 : ℤ) : ℚ) := Int.floor_lt.1 (hfloor ▸ hbelow)
    have hplace : numberPlace (.finite q) = 0 := by rw [numberPlace_finite, hc, if_pos hlt]
    rw [if_neg habove, if_pos hbelow, numberWord, numberTail, hplace, hc]
    rfl
  have hc : numberFloor (.finite q) = f.floor := by
    rw [numberFloor_finite]
    omega
  rw [if_neg habove, if_neg hbelow, numberWord, hc, numberTail, numberPlace_finite, hc,
    if_neg hle.not_gt]
  by_cases hint : f.integral = true
  · rw [if_pos hint, if_pos (f.integral_iff.1 hint)]
    rfl
  · rw [if_neg hint, if_neg (mt f.integral_iff.2 hint)]
    rfl

theorem numberPlace_le {x : Extended} (hx : Proper x) : numberPlace x ≤ 3 := by
  cases hx with
  | finite q =>
    rw [numberPlace_finite]
    split_ifs <;> norm_num
  | negInfinity => decide
  | infinity => decide
  | nan => decide

/-- Numbers that are not integers are compared by their images in the end. -/
theorem ahead_numberWord {x y : Extended} (hx : Proper x) (hy : Proper y) {ix iy : List UInt8}
    (himage : numberPlace x ≠ 1 → numberPlace y ≠ 1 → Ahead ix iy) (h : x < y) :
    Ahead (numberWord x ix) (numberWord y iy) := by
  have hxf := numberFloor_le hx
  have hyf := numberFloor_le hy
  rcases number_lt hx hy h with hlt | ⟨heq, hplace⟩
  · refine (ahead_encodeI64 ?_).append _ _
    rwa [Int64.toInt_ofInt_of_le hxf.1 hxf.2, Int64.toInt_ofInt_of_le hyf.1 hyf.2]
  · rw [numberWord, numberWord, heq]
    refine Ahead.append_left ?_ _
    rcases hplace with hlt | ⟨hsame, hne⟩
    · refine ahead_of_head_lt (UInt8.lt_iff_toNat_lt.2 ?_) _ _
      have hy3 := numberPlace_le hy
      rwa [UInt8.toNat_ofNat_of_lt' (by show _ < 256; omega), UInt8.toNat_ofNat_of_lt'
        (by show _ < 256; omega)]
    · rw [numberTail, numberTail, hsame, if_neg (hsame ▸ hne), if_neg (hsame ▸ hne)]
      exact (himage hne (hsame ▸ hne)).cons _

end Mpedb
