import Mathlib.Data.Int.ConditionallyCompleteOrder
import Mathlib.Tactic.Linarith
import Mathlib.Tactic.Ring
import Mathlib.Tactic.FieldSimp
import Mpedb.KeyOrder
import Mpedb.Lib.OrderedCode

/-!
# The bits of a float are ordered as its value

The bits below the sign, read as a number, grow with the dyadic rational they stand for. So the
image of a float in a key, which flips the sign and turns the negative ones round, sorts as the
values do, with both zeros and all NaNs folded into one.
-/

namespace Mpedb

namespace F64

variable (f : F64)

/-- The bits without the sign. -/
def magnitude : ℕ := f.bits.toNat % 2 ^ 63

theorem negative_iff : f.negative = true ↔ 2 ^ 63 ≤ f.bits.toNat := by
  have hlt := f.bits.toNat_lt
  have hshift : (f.bits >>> 63).toNat = f.bits.toNat / 2 ^ 63 := by
    simp [UInt64.toNat_shiftRight, Nat.shiftRight_eq_div_pow]
  rw [negative, beq_iff_eq, ← UInt64.toNat_inj, hshift]
  change f.bits.toNat / 2 ^ 63 = 1 ↔ _
  omega

theorem exponent_eq : f.exponent = f.magnitude / 2 ^ 52 := by
  have hshift : ((f.bits >>> 52) &&& 0x7ff).toNat = f.bits.toNat / 2 ^ 52 % 2 ^ 11 := by
    rw [UInt64.toNat_and, UInt64.toNat_shiftRight, Nat.shiftRight_eq_div_pow]
    exact Nat.and_two_pow_sub_one_eq_mod _ 11
  rw [exponent, magnitude]
  omega

theorem mantissa_eq : f.mantissa = f.magnitude % 2 ^ 52 := by
  have hand : (f.bits &&& 0xfffffffffffff).toNat = f.bits.toNat % 2 ^ 52 := by
    exact Nat.and_two_pow_sub_one_eq_mod _ 52
  rw [mantissa, magnitude]
  omega

/-- The rational of the magnitude `n`. -/
def dyadic (n : ℕ) : ℚ :=
  ((if n / 2 ^ 52 = 0 then n % 2 ^ 52 else 2 ^ 52 + n % 2 ^ 52 : ℕ) : ℚ) *
    2 ^ ((max (n / 2 ^ 52) 1 : ℕ) - 1075 : ℤ)

theorem dyadic_lt_succ (n : ℕ) : dyadic n < dyadic (n + 1) := by
  have hpos (e : ℤ) : (0 : ℚ) < 2 ^ e := zpow_pos (by norm_num) e
  by_cases hm : n % 2 ^ 52 + 1 < 2 ^ 52
  -- the exponent stays
  · have he : (n + 1) / 2 ^ 52 = n / 2 ^ 52 := by omega
    have hmod : (n + 1) % 2 ^ 52 = n % 2 ^ 52 + 1 := by omega
    rw [dyadic, dyadic, he]
    refine mul_lt_mul_of_pos_right ?_ (hpos _)
    exact_mod_cast (by split_ifs <;> omega)
  · have he : (n + 1) / 2 ^ 52 = n / 2 ^ 52 + 1 := by omega
    have hmod : (n + 1) % 2 ^ 52 = 0 := by omega
    have hlast : n % 2 ^ 52 = 2 ^ 52 - 1 := by omega
    rw [dyadic, dyadic, he, hmod, hlast]
    rcases Nat.eq_zero_or_pos (n / 2 ^ 52) with h0 | h0
    · rw [h0]
      refine mul_lt_mul_of_pos_right ?_ (hpos _)
      norm_num
    · have h1 : max (n / 2 ^ 52) 1 = n / 2 ^ 52 := by omega
      have h2 : max (n / 2 ^ 52 + 1) 1 = n / 2 ^ 52 + 1 := by omega
      have hstep : ((n / 2 ^ 52 + 1 : ℕ) : ℤ) - 1075 = ((n / 2 ^ 52 : ℕ) : ℤ) - 1075 + 1 := by
        push_cast
        ring
      rw [if_neg (by omega), h1, h2, hstep, zpow_add_one₀ (by norm_num)]
      have hp := hpos (((n / 2 ^ 52 : ℕ) : ℤ) - 1075)
      generalize (2 : ℚ) ^ (((n / 2 ^ 52 : ℕ) : ℤ) - 1075) = p at hp ⊢
      norm_num
      linarith

theorem dyadic_strictMono : StrictMono dyadic := strictMono_nat_of_lt_succ dyadic_lt_succ

theorem dyadic_zero : dyadic 0 = 0 := by simp [dyadic]

/-- `dyadic` with a sign. -/
def oddDyadic (s : ℤ) : ℚ := if s < 0 then -dyadic s.natAbs else dyadic s.natAbs

theorem oddDyadic_strictMono : StrictMono oddDyadic := by
  intro s t h
  have hnonneg (n : ℕ) : 0 ≤ dyadic n := dyadic_zero ▸ dyadic_strictMono.monotone (Nat.zero_le n)
  unfold oddDyadic
  split_ifs with hs ht
  · exact neg_lt_neg (dyadic_strictMono (by omega))
  · have hpos : 0 < dyadic s.natAbs := dyadic_zero ▸ dyadic_strictMono (by omega)
    linarith [hnonneg t.natAbs]
  · omega
  · exact dyadic_strictMono (by omega)

/-- The magnitude of infinity. -/
def infinityMagnitude : ℕ := 0x7ff * 2 ^ 52

/-- The magnitude of the one NaN that is left. -/
def nanMagnitude : ℕ := 0x7ff8 * 2 ^ 48

/-- The float as an integer in its order. -/
def signed : ℤ :=
  if f.isNan then nanMagnitude else if f.negative then -f.magnitude else f.magnitude

theorem isInfinite_iff : f.isInfinite = true ↔ f.magnitude = infinityMagnitude := by
  simp only [isInfinite, Bool.and_eq_true, beq_iff_eq, exponent_eq, mantissa_eq, infinityMagnitude]
  omega

theorem isNan_iff : f.isNan = true ↔ infinityMagnitude < f.magnitude := by
  have h : f.magnitude < 2 ^ 63 := Nat.mod_lt _ (by norm_num)
  simp only [isNan, Bool.and_eq_true, beq_iff_eq, bne_iff_ne, exponent_eq, mantissa_eq,
    infinityMagnitude]
  omega

theorem isZero_iff : f.isZero = true ↔ f.magnitude = 0 := by
  simp only [isZero, Bool.and_eq_true, beq_iff_eq, exponent_eq, mantissa_eq]
  omega

theorem significand_mul_scale :
    (f.significand * 2 ^ f.scale : ℚ) = if f.negative then -dyadic f.magnitude else dyadic
    f.magnitude := by
  have hscale : f.scale = ((max (f.magnitude / 2 ^ 52) 1 : ℕ) - 1075 : ℤ) := by
    rw [scale, exponent_eq]
    push_cast
    rfl
  have hm : ((if f.exponent = 0 then f.mantissa else 2 ^ 52 + f.mantissa : ℤ) : ℚ) =
      ((if f.magnitude / 2 ^ 52 = 0 then f.magnitude % 2 ^ 52
        else 2 ^ 52 + f.magnitude % 2 ^ 52 : ℕ) : ℚ) := by
    rw [exponent_eq, mantissa_eq]
    split_ifs <;> push_cast <;> rfl
  rw [hscale, dyadic, ← hm, significand]
  split_ifs <;> push_cast <;> ring

/-- The four kinds of floats, by the signed magnitude of their bits. -/
theorem value_cases :
    (f.value = .nan ∧ f.signed = nanMagnitude) ∨
    (f.value = .infinity ∧ f.signed = infinityMagnitude) ∨
    (f.value = .negInfinity ∧ f.signed = -infinityMagnitude) ∨
    (f.value = .finite (oddDyadic f.signed) ∧ f.signed.natAbs < infinityMagnitude) := by
  unfold value signed
  by_cases hn : f.isNan = true
  · rw [if_pos hn, if_pos hn]
    exact .inl ⟨rfl, rfl⟩
  rw [if_neg hn, if_neg hn]
  by_cases hi : f.isInfinite = true
  · rw [if_pos hi, f.isInfinite_iff.1 hi]
    by_cases hs : f.negative = true
    · rw [if_pos hs, if_pos hs]
      exact .inr (.inr (.inl ⟨rfl, rfl⟩))
    · rw [if_neg hs, if_neg hs]
      exact .inr (.inl ⟨rfl, rfl⟩)
  · have hlt : f.magnitude < infinityMagnitude := by
      have h₁ := mt f.isNan_iff.2 hn
      have h₂ := mt f.isInfinite_iff.2 hi
      omega
    refine .inr (.inr (.inr ⟨?_, by split_ifs <;> omega⟩))
    rw [if_neg hi, significand_mul_scale]
    rcases Nat.eq_zero_or_pos f.magnitude with h0 | h0
    · simp [h0, dyadic_zero, oddDyadic]
    · unfold oddDyadic
      split_ifs <;> first | omega | simp

variable {f} {g : F64}

theorem value_lt_of_signed_lt (h : f.signed < g.signed) : f.value < g.value := by
  have hin : (infinityMagnitude : ℤ) < nanMagnitude := by decide
  have rank {m n : ℕ} {p q : ℚ} (hmn : m < n) : (toLex (m, p) : Extended) < toLex (n, q) :=
    Prod.Lex.toLex_lt_toLex.2 (.inl hmn)
  rcases f.value_cases with ⟨hf, sf⟩ | ⟨hf, sf⟩ | ⟨hf, sf⟩ | ⟨hf, sf⟩ <;>
    rcases g.value_cases with ⟨hg, sg⟩ | ⟨hg, sg⟩ | ⟨hg, sg⟩ | ⟨hg, sg⟩ <;> rw [hf, hg] <;>
    first
      | exact rank (by decide : _ < _)
      | exact Prod.Lex.toLex_lt_toLex.2 (.inr ⟨rfl, oddDyadic_strictMono h⟩)
      | omega

theorem value_eq_of_signed_eq (h : f.signed = g.signed) : f.value = g.value := by
  have hin : (infinityMagnitude : ℤ) < nanMagnitude := by decide
  have hpos : (0 : ℤ) < infinityMagnitude := by decide
  rcases f.value_cases with ⟨hf, sf⟩ | ⟨hf, sf⟩ | ⟨hf, sf⟩ | ⟨hf, sf⟩ <;>
    rcases g.value_cases with ⟨hg, sg⟩ | ⟨hg, sg⟩ | ⟨hg, sg⟩ | ⟨hg, sg⟩ <;> rw [hf, hg] <;>
    first
      | omega
      | rw [h]

theorem value_lt_iff : f.value < g.value ↔ f.signed < g.signed := by
  refine ⟨fun h => ?_, value_lt_of_signed_lt⟩
  rcases lt_trichotomy f.signed g.signed with hlt | heq | hgt
  · exact hlt
  · exact absurd h (value_eq_of_signed_eq heq ▸ lt_irrefl _)
  · exact absurd (value_lt_of_signed_lt hgt) (lt_asymm h)

theorem value_eq_iff : f.value = g.value ↔ f.signed = g.signed := by
  rw [← not_iff_not, ← Ne, ← Ne, lt_or_lt_iff_ne.symm, lt_or_lt_iff_ne.symm, value_lt_iff,
    value_lt_iff]

end F64

variable {f g : F64}

theorem toNat_or_sign {x : UInt64} (h : x.toNat < 2 ^ 63) :
    (x ||| 0x8000000000000000).toNat = 2 ^ 63 + x.toNat := by
  rw [UInt64.toNat_or, Nat.or_comm]
  exact (Nat.two_pow_add_eq_or_of_lt h 1).symm

theorem toNat_normalizeFloatBits (f : F64) : ((normalizeFloatBits f).toNat : ℤ) =
    if f.signed < 0 then 2 ^ 63 - 1 + f.signed else 2 ^ 63 + f.signed := by
  have htop (x : UInt64) : (x >>> 63 == 1) = true ↔ 2 ^ 63 ≤ x.toNat := F64.negative_iff ⟨x⟩
  have hlt := f.bits.toNat_lt
  by_cases hz : f.isZero = true
  · have hm := f.isZero_iff.1 hz
    have hn : ¬ f.isNan = true := by
      rw [f.isNan_iff, hm]
      decide
    have hs : f.signed = 0 := by simp [F64.signed, hn, hm]
    rw [normalizeFloatBits, if_pos hz, hs]
    decide
  by_cases hn : f.isNan = true
  · have hs : f.signed = F64.nanMagnitude := by simp [F64.signed, hn]
    rw [normalizeFloatBits, if_neg hz, if_pos hn, hs]
    decide
  have hm : f.magnitude ≠ 0 := mt f.isZero_iff.2 hz
  rw [normalizeFloatBits, if_neg hz, if_neg hn, F64.signed, if_neg hn]
  by_cases hneg : 2 ^ 63 ≤ f.bits.toNat
  · have hmag : f.magnitude = f.bits.toNat - 2 ^ 63 := by
      rw [F64.magnitude]
      omega
    rw [if_pos ((htop _).2 hneg), if_pos (f.negative_iff.2 hneg), UInt64.toNat_not]
    have hsize : UInt64.size = 2 ^ 64 := rfl
    omega
  · have hmag : f.magnitude = f.bits.toNat := Nat.mod_eq_of_lt (by omega)
    rw [if_neg (mt (htop _).1 hneg), if_neg (mt f.negative_iff.1 hneg),
      toNat_or_sign (by omega), hmag]
    rfl

theorem encodeF64_of_eq (h : f.value = g.value) : encodeF64 f = encodeF64 g := by
  have hbits : (normalizeFloatBits f).toNat = (normalizeFloatBits g).toNat := by
    have hf := toNat_normalizeFloatBits f
    have hg := toNat_normalizeFloatBits g
    rw [F64.value_eq_iff.1 h] at hf
    omega
  rw [encodeF64, encodeF64, hbits]

theorem ahead_encodeF64 (h : f.value < g.value) : Code.Ahead (encodeF64 f) (encodeF64 g) := by
  have hs := F64.value_lt_iff.1 h
  have hbits : (normalizeFloatBits f).toNat < (normalizeFloatBits g).toNat := by
    have hf := toNat_normalizeFloatBits f
    have hg := toNat_normalizeFloatBits g
    split_ifs at hf hg <;> omega
  exact fun r r' => Bytes.be_append_lt r r' 8 hbits (normalizeFloatBits g).toNat_lt

end Mpedb
