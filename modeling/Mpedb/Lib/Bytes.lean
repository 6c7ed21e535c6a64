import Mathlib.Order.Basic
import Mathlib.Order.Lex
import Mathlib.Data.List.Lex
import Mathlib.Algebra.Order.Ring.Nat

/-!
# Byte strings

The order of bytes, so that byte strings are compared as `memcmp` does, and fixed-width integers as
big-endian and little-endian bytes.
-/

instance byteOrder : LinearOrder UInt8 where
  le_refl := UInt8.le_refl
  le_trans _ _ _ := UInt8.le_trans
  lt_iff_le_not_ge a b := by
    rw [UInt8.lt_iff_toNat_lt, UInt8.le_iff_toNat_le, UInt8.le_iff_toNat_le]
    omega
  le_antisymm _ _ := UInt8.le_antisymm
  le_total := UInt8.le_total
  toDecidableLE := inferInstance
  toDecidableEq := inferInstance
  toDecidableLT := inferInstance

namespace Bytes

/-- The low `w` bytes of `n`, most significant first. -/
def be : ℕ → ℕ → List UInt8
  | 0, _ => []
  | w + 1, n => UInt8.ofNat (n / 256 ^ w) :: be w n

@[simp] theorem length_be : ∀ w n, (be w n).length = w
  | 0, _ => rfl
  | w + 1, n => by simp [be, length_be w n]

/-- The low `w` bytes of `n`, least significant first. -/
def le : ℕ → ℕ → List UInt8
  | 0, _ => []
  | w + 1, n => UInt8.ofNat n :: le w (n / 256)

/-- The number whose bytes are given, least significant first. -/
def ofLe : List UInt8 → ℕ
  | [] => 0
  | b :: l => b.toNat + 256 * ofLe l

@[simp] theorem length_le : ∀ w n, (le w n).length = w
  | 0, _ => rfl
  | w + 1, n => by simp [le, length_le w]

@[simp] theorem ofLe_le : ∀ w n, ofLe (le w n) = n % 256 ^ w
  | 0, n => by simp [le, ofLe, Nat.mod_one]
  | w + 1, n => by
    have hb : (UInt8.ofNat n).toNat = n % 256 := by simp
    simp only [le, ofLe, ofLe_le w, hb]
    rw [pow_succ', Nat.mod_mul]

/-- The number whose bytes are given, most significant first. -/
def ofBe : List UInt8 → ℕ
  | [] => 0
  | b :: l => b.toNat * 256 ^ l.length + ofBe l

theorem ofBe_lt : ∀ l : List UInt8, ofBe l < 256 ^ l.length
  | [] => Nat.one_pos
  | b :: l => by
    have hb := b.toNat_lt
    have hl := ofBe_lt l
    rw [ofBe, List.length_cons, pow_succ']
    calc b.toNat * 256 ^ l.length + ofBe l < b.toNat * 256 ^ l.length + 256 ^ l.length := by omega
      _ = (b.toNat + 1) * 256 ^ l.length := by rw [add_mul, one_mul]
      _ ≤ 256 * 256 ^ l.length := Nat.mul_le_mul_right _ (by omega)

theorem be_mod : ∀ w n, be w (n % 256 ^ w) = be w n
  | 0, _ => rfl
  | w + 1, n => by
    have hlow : be w (n % 256 ^ (w + 1)) = be w n := by
      rw [← be_mod w (n % 256 ^ (w + 1)), Nat.mod_mod_of_dvd _ (pow_dvd_pow 256 (Nat.le_succ w)),
        be_mod w n]
    have hhigh : n % 256 ^ (w + 1) / 256 ^ w = n / 256 ^ w % 256 := by
      rw [pow_succ, Nat.mod_mul_right_div_self]
    rw [be, hhigh]
    congr 1
    exact UInt8.toNat_inj.1 (by simp)

@[simp] theorem be_ofBe : ∀ l : List UInt8, be l.length (ofBe l) = l
  | [] => rfl
  | b :: l => by
    have hl := ofBe_lt l
    have hpos : 0 < 256 ^ l.length := Nat.pow_pos (by decide)
    have hdiv : (b.toNat * 256 ^ l.length + ofBe l) / 256 ^ l.length = b.toNat := by
      rw [add_comm, Nat.add_mul_div_right _ _ hpos, Nat.div_eq_of_lt hl, zero_add]
    have hmod : (b.toNat * 256 ^ l.length + ofBe l) % 256 ^ l.length = ofBe l := by
      rw [mul_comm, Nat.mul_add_mod, Nat.mod_eq_of_lt hl]
    rw [List.length_cons, be, ofBe, hdiv, ← be_mod, hmod, be_ofBe l]
    simp

@[simp] theorem ofBe_be : ∀ w n, ofBe (be w n) = n % 256 ^ w
  | 0, n => by simp [be, ofBe, Nat.mod_one]
  | w + 1, n => by
    have hb : (UInt8.ofNat (n / 256 ^ w)).toNat = n / 256 ^ w % 256 := by simp
    rw [be, ofBe, ofBe_be w, length_be, hb, pow_succ, Nat.mod_mul, mul_comm, add_comm]

/-- Big-endian integers are ordered as their bytes, whatever follows. -/
theorem be_append_lt {m n : ℕ} (x y : List UInt8) : ∀ w, m < n → n < 256 ^ w →
    be w m ++ x < be w n ++ y
  | 0, hmn, hn => by simp at hn; omega
  | w + 1, hmn, hn => by
    have hn' : n / 256 ^ w < 256 := Nat.div_lt_of_lt_mul (by rwa [← pow_succ])
    have hle : m / 256 ^ w ≤ n / 256 ^ w := Nat.div_le_div_right hmn.le
    rw [be, be, List.cons_append, List.cons_append, List.cons_lt_cons_iff]
    rcases hle.lt_or_eq with hlt | heq
    · left
      rw [UInt8.lt_iff_toNat_lt]
      simpa [Nat.mod_eq_of_lt hn', Nat.mod_eq_of_lt (hlt.trans hn')] using hlt
    · refine .inr ⟨by rw [heq], ?_⟩
      have hm := Nat.div_add_mod m (256 ^ w)
      have hn := Nat.div_add_mod n (256 ^ w)
      rw [heq] at hm
      rw [← be_mod w m, ← be_mod w n]
      exact be_append_lt x y w (by omega) (Nat.mod_lt _ (Nat.pow_pos (by decide)))

end Bytes
