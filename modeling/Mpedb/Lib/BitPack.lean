import Mathlib.Data.Nat.Digits.Defs
import Mathlib.Algebra.BigOperators.Group.List.Basic
import Mathlib.Data.Nat.Bitwise
import Mpedb.Lib.Bytes

/-!
# Numbers packed to a fixed width

A list of `w`-bit numbers as one number, first value lowest, and as its little-endian bytes. A
packer that keeps the bits it has not written yet in a machine word of `2 ^ 64` loses none of them
as long as the word has room for one more value, and a reader that loads nine bytes finds any value
of at most 64 bits.
-/

namespace Bytes

variable {l : List UInt8}

theorem ofLe_append : ∀ (a b : List UInt8), ofLe (a ++ b) = ofLe a + 256 ^ a.length * ofLe b
  | [], b => by simp [ofLe]
  | x :: a, b => by
    rw [List.cons_append, ofLe, ofLe, ofLe_append a b, List.length_cons]
    ring

theorem ofLe_drop (n : ℕ) : ofLe (l.drop n) = ofLe l / 256 ^ n := by
  induction n generalizing l with
  | zero => simp
  | succ n ih =>
    cases l with
    | nil => simp [ofLe]
    | cons b l =>
      have hb : b.toNat / 256 = 0 := Nat.div_eq_of_lt b.toNat_lt
      rw [List.drop_succ_cons, ih, ofLe, pow_succ', ← Nat.div_div_eq_div_mul,
        Nat.add_mul_div_left _ _ (by decide), hb, zero_add]

theorem ofLe_take (n : ℕ) : ofLe (l.take n) = ofLe l % 256 ^ n := by
  induction n generalizing l with
  | zero => simp [ofLe, Nat.mod_one]
  | succ n ih =>
    cases l with
    | nil => simp [ofLe]
    | cons b l =>
      have hb : b.toNat % 256 = b.toNat := Nat.mod_eq_of_lt b.toNat_lt
      have hdiv : (b.toNat + 256 * ofLe l) / 256 = ofLe l := by
        rw [Nat.add_mul_div_left _ _ (by decide), Nat.div_eq_of_lt b.toNat_lt, zero_add]
      rw [List.take_succ_cons, ofLe, ih, ofLe, pow_succ', Nat.mod_mul, hdiv,
        Nat.add_mul_mod_self_left, hb]

end Bytes

namespace BitPack

open Bytes

/-- The values as digits of one number. -/
def number (w : ℕ) (vals : List ℕ) : ℕ := Nat.ofDigits (2 ^ w) vals

theorem number_cons (w v : ℕ) (vals : List ℕ) :
    number w (v :: vals) = v + 2 ^ w * number w vals := by
  simp [number, Nat.ofDigits_cons]

variable {w : ℕ}

theorem number_digit : ∀ {vals : List ℕ} {k : ℕ}, (∀ v ∈ vals, v < 2 ^ w) →
    number w vals / 2 ^ (k * w) % 2 ^ w = vals.getD k 0
  | [], k, _ => by simp [number]
  | v :: vals, 0, h => by
    rw [number_cons, zero_mul, pow_zero, Nat.div_one, Nat.add_mul_mod_self_left,
      Nat.mod_eq_of_lt (h v (by simp))]
    rfl
  | v :: vals, k + 1, h => by
    have hdiv : (v + 2 ^ w * number w vals) / 2 ^ w = number w vals := by
      rw [Nat.add_mul_div_left _ _ (Nat.two_pow_pos w), Nat.div_eq_of_lt (h v (by simp)), zero_add]
    rw [number_cons, Nat.succ_mul, add_comm (k * w), pow_add, ← Nat.div_div_eq_div_mul, hdiv,
      number_digit fun v hv => h v (by simp [hv])]
    rfl

/-- The whole bytes of a word with `used` bits in it, what is left of the word, and its bits. -/
def drain : ℕ → ℕ → List UInt8 × ℕ × ℕ
  | u + 8, acc =>
    let (out, rest) := drain u (acc / 256)
    (UInt8.ofNat acc :: out, rest)
  | u, acc => ([], acc, u)

theorem drain_eq : ∀ used acc : ℕ,
    drain used acc = (le (used / 8) acc, acc / 256 ^ (used / 8), used % 8)
  | u + 8, acc => by
    have hdiv : (u + 8) / 8 = u / 8 + 1 := by omega
    have hmod : (u + 8) % 8 = u % 8 := by omega
    rw [drain, drain_eq u (acc / 256), hdiv, hmod, le, Nat.div_div_eq_div_mul, ← pow_succ']
  | 0, acc | 1, acc | 2, acc | 3, acc | 4, acc | 5, acc | 6, acc | 7, acc => by simp [drain, le]

/-- Append each value to the bits left over, in a word of `2 ^ 64`. -/
def packFrom (w : ℕ) : List ℕ → ℕ → ℕ → List UInt8
  | [], acc, used => if 0 < used then [UInt8.ofNat acc] else []
  | v :: vals, acc, used =>
    let acc := (acc ||| (v % 2 ^ w) <<< used) % 2 ^ 64
    let (out, acc, used) := drain (used + w) acc
    out ++ packFrom w vals acc used

/-- The values one after the other, `w` bits each. -/
def pack (w : ℕ) (vals : List ℕ) : List UInt8 := if w = 0 then [] else packFrom w vals 0 0

/-- A word with the leftover bits of any number of values has room for one more. -/
def WordFits (w : ℕ) : Prop := ∀ k, k * w % 8 + w ≤ 64

theorem wordFits_iff : WordFits w ↔ w ≤ 58 ∨ w = 60 ∨ w = 64 := by
  constructor
  · intro h
    -- the leftovers repeat after eight values
    have h1 := h 1
    have h5 := h 5
    by_contra hw
    have : w = 59 ∨ w = 61 ∨ w = 62 ∨ w = 63 := by omega
    rcases this with rfl | rfl | rfl | rfl <;> omega
  · intro h k
    rcases h with h | rfl | rfl
    · have : k * w % 8 < 8 := Nat.mod_lt _ (by decide)
      by_cases h58 : w = 58
      · subst h58
        omega
      · omega
    · omega
    · omega

theorem ofLe_packFrom (hw : WordFits w) : ∀ (vals : List ℕ) (n acc : ℕ),
    (∀ v ∈ vals, v < 2 ^ w) → acc < 2 ^ (n * w % 8) →
    ofLe (packFrom w vals acc (n * w % 8)) = acc + 2 ^ (n * w % 8) * number w vals
  | [], n, acc, _, hacc => by
    have h8 : 2 ^ (n * w % 8) ≤ 2 ^ 8 := Nat.pow_le_pow_right (by decide) (by omega)
    rw [packFrom]
    split_ifs with hused
    · have : acc % 256 = acc := Nat.mod_eq_of_lt (by omega)
      simp [ofLe, number, this]
    · have : n * w % 8 = 0 := by omega
      rw [this] at hacc
      simp [ofLe, number]
      omega
  | v :: vals, n, acc, hvals, hacc => by
    set used := n * w % 8 with hused
    have hv : v < 2 ^ w := hvals v (by simp)
    have hroom : used + w ≤ 64 := hw n
    have hor : acc ||| (v % 2 ^ w) <<< used = acc + 2 ^ used * v := by
      rw [Nat.mod_eq_of_lt hv, Nat.lor_comm, ← Nat.shiftLeft_add_eq_or_of_lt hacc, Nat.shiftLeft_eq]
      ring
    have hlt : acc + 2 ^ used * v < 2 ^ (used + w) := by
      rw [pow_add]
      calc acc + 2 ^ used * v < 2 ^ used + 2 ^ used * v := by omega
        _ = 2 ^ used * (v + 1) := by ring
        _ ≤ 2 ^ used * 2 ^ w := Nat.mul_le_mul_left _ hv
    have hword : (acc + 2 ^ used * v) % 2 ^ 64 = acc + 2 ^ used * v :=
      Nat.mod_eq_of_lt (hlt.trans_le (Nat.pow_le_pow_right (by decide) hroom))
    have hnext : (used + w) % 8 = (n + 1) * w % 8 := by rw [Nat.succ_mul]; omega
    have hsplit : 2 ^ (used + w) = 256 ^ ((used + w) / 8) * 2 ^ ((used + w) % 8) := by
      rw [show (256 : ℕ) = 2 ^ 8 from rfl, ← pow_mul, ← pow_add, Nat.div_add_mod]
    have hrest : (acc + 2 ^ used * v) / 256 ^ ((used + w) / 8) < 2 ^ ((used + w) % 8) :=
      Nat.div_lt_of_lt_mul (by rw [← hsplit]; exact hlt)
    have ih := ofLe_packFrom hw vals (n + 1) _ (fun v hv => hvals v (by simp [hv])) (hnext ▸ hrest)
    rw [packFrom, hor, hword, drain_eq]
    rw [ofLe_append, ofLe_le, length_le, hnext, ih, ← hnext]
    calc (acc + 2 ^ used * v) % 256 ^ ((used + w) / 8) + 256 ^ ((used + w) / 8) *
          ((acc + 2 ^ used * v) / 256 ^ ((used + w) / 8) + 2 ^ ((used + w) % 8) * number w vals)
        = (acc + 2 ^ used * v) % 256 ^ ((used + w) / 8) + 256 ^ ((used + w) / 8) *
          ((acc + 2 ^ used * v) / 256 ^ ((used + w) / 8)) +
          256 ^ ((used + w) / 8) * 2 ^ ((used + w) % 8) * number w vals := by ring
      _ = acc + 2 ^ used * v + 2 ^ (used + w) * number w vals := by rw [Nat.mod_add_div, hsplit]
      _ = acc + 2 ^ used * (v + 2 ^ w * number w vals) := by rw [pow_add]; ring

theorem length_packFrom : ∀ (vals : List ℕ) (acc used : ℕ), used < 8 →
    (packFrom w vals acc used).length = (used + vals.length * w + 7) / 8
  | [], acc, used, h => by
    rw [packFrom]
    split_ifs with hused
    · simp
      omega
    · simp
      omega
  | v :: vals, acc, used, h => by
    rw [packFrom, drain_eq]
    simp only [List.length_append, length_le, length_packFrom vals _ _
      (Nat.mod_lt _ (by decide : 0 < 8)), List.length_cons, Nat.succ_mul]
    omega

theorem length_pack (w : ℕ) (vals : List ℕ) : (pack w vals).length = (vals.length * w + 7) / 8 := by
  unfold pack
  split_ifs with h
  · simp [h]
  · rw [length_packFrom vals 0 0 (by decide), zero_add]

theorem ofLe_pack (hw : WordFits w) {vals : List ℕ} (hvals : ∀ v ∈ vals, v < 2 ^ w) :
    ofLe (pack w vals) = number w vals := by
  unfold pack
  split_ifs with h
  · subst h
    have : ∀ v ∈ vals, v = 0 := fun v hv => by simpa using hvals v hv
    rw [number, pow_zero, Nat.ofDigits_one, List.sum_eq_zero this]
    rfl
  · have := ofLe_packFrom hw vals 0 0 hvals (by simp)
    simpa using this

/-- The `k`-th value of a packed array, out of the nine bytes from where its first bit stands. -/
def unpackAt (buf : List UInt8) (k w : ℕ) : ℕ :=
  if w = 0 then 0 else (ofLe ((buf.drop (k * w / 8)).take 9) >>> (k * w % 8)) % 2 ^ 64 % 2 ^ w

theorem unpackAt_eq (buf : List UInt8) (k : ℕ) (hw : w ≤ 64) :
    unpackAt buf k w = ofLe buf / 2 ^ (k * w) % 2 ^ w := by
  unfold unpackAt
  split_ifs with h
  · simp [h, Nat.mod_one]
  · have hoff : k * w % 8 < 8 := Nat.mod_lt _ (by decide)
    have hplace : (256 : ℕ) ^ (k * w / 8) * 2 ^ (k * w % 8) = 2 ^ (k * w) := by
      rw [show (256 : ℕ) = 2 ^ 8 from rfl, ← pow_mul, ← pow_add, Nat.div_add_mod]
    have hnine : (256 : ℕ) ^ 9 = 2 ^ (k * w % 8) * 2 ^ (72 - k * w % 8) := by
      rw [← pow_add, show (256 : ℕ) = 2 ^ 8 from rfl, ← pow_mul]
      congr 1
      omega
    rw [ofLe_take, ofLe_drop, Nat.shiftRight_eq_div_pow, hnine, Nat.mod_mul_right_div_self,
      Nat.div_div_eq_div_mul, hplace, Nat.mod_mod_of_dvd _ (pow_dvd_pow 2 hw),
      Nat.mod_mod_of_dvd _ (pow_dvd_pow 2 (by omega : w ≤ 72 - k * w % 8))]

theorem unpackAt_pack (hw : WordFits w) {vals : List ℕ} (hvals : ∀ v ∈ vals, v < 2 ^ w) (k : ℕ) :
    unpackAt (pack w vals) k w = vals.getD k 0 := by
  have hle : w ≤ 64 := by
    rcases wordFits_iff.1 hw with h | h | h <;> omega
  rw [unpackAt_eq _ _ hle, ofLe_pack hw hvals, number_digit hvals]

end BitPack
