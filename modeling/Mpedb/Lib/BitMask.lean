import Mathlib.Data.List.Basic
import Mathlib.Data.Nat.Bitwise

/-!
# Bit masks in words

A mask of `n` bits in words of `w` bits, filled by walking over a list of bits and read by index.
-/

namespace BitMask

open List

variable {w : ℕ}

/-- `n` bits that are not set, in words of `w` bits. -/
def empty (w n : ℕ) : List ℕ := List.replicate ((n + w - 1) / w) 0

/-- Sets the bit `i`. -/
def set (w : ℕ) (m : List ℕ) (i : ℕ) : List ℕ := m.modify (i / w) (· ||| 2 ^ (i % w))

/-- Reads the bit `i`; a bit outside is not set. -/
def get (w : ℕ) (m : List ℕ) (i : ℕ) : Bool := (m.getD (i / w) 0).testBit (i % w)

/-- Marks the next bit. -/
def mark (w : ℕ) (s : List ℕ × ℕ) (b : Bool) : List ℕ × ℕ :=
  (if b then set w s.1 s.2 else s.1, s.2 + 1)

/-- The mask of a list of bits. -/
def ofList (w : ℕ) (bits : List Bool) : List ℕ := (bits.foldl (mark w) (empty w bits.length, 0)).1

theorem length_foldl_mark : ∀ (bits : List Bool) (s : List ℕ × ℕ),
    (bits.foldl (mark w) s).1.length = s.1.length
  | [], _ => rfl
  | b :: bits, s => by
    rw [foldl_cons, length_foldl_mark bits]
    unfold mark
    split_ifs
    · simp [set]
    · rfl

theorem length_ofList (bits : List Bool) : (ofList w bits).length = (bits.length + w - 1) / w := by
  rw [ofList, length_foldl_mark, empty, length_replicate]

theorem get_set {m : List ℕ} {i : ℕ} (hi : i / w < m.length) (j : ℕ) :
    get w (set w m i) j = (decide (i = j) || get w m j) := by
  unfold get set
  by_cases hword : i / w = j / w
  · rw [hword] at hi ⊢
    have hsame : i = j ↔ i % w = j % w := by
      constructor
      · rintro rfl
        rfl
      · intro hmod
        rw [← Nat.div_add_mod i w, ← Nat.div_add_mod j w, hword, hmod]
    rw [getD_eq_getElem _ _ (by simpa using hi), getD_eq_getElem _ _ hi,
      getElem_modify_eq, Nat.testBit_or, Nat.testBit_two_pow, Bool.or_comm]
    simp only [hsame]
  · have hne : ¬i = j := fun h => hword (by rw [h])
    have : (m.modify (i / w) (· ||| 2 ^ (i % w))).getD (j / w) 0 = m.getD (j / w) 0 := by
      rw [getD_eq_getElem?_getD, getD_eq_getElem?_getD, List.getElem?_modify_ne _ _ hword]
    rw [this]
    simp [hne]

theorem get_empty (n i : ℕ) : get w (empty w n) i = false := by
  unfold get empty
  rw [getD_eq_getElem?_getD, List.getElem?_replicate]
  split_ifs <;> simp

theorem get_foldl_mark : ∀ (bits : List Bool) (m : List ℕ) (i j : ℕ),
    (∀ k, i ≤ k → k < i + bits.length → k / w < m.length) →
    get w (bits.foldl (mark w) (m, i)).1 j =
      (get w m j || (decide (i ≤ j) && bits.getD (j - i) false))
  | [], m, i, j, _ => by simp
  | b :: bits, m, i, j, h => by
    have hi : i / w < m.length := h i le_rfl (by simp)
    have hlen : ∀ k, i + 1 ≤ k → k < i + 1 + bits.length → k / w < (mark w (m, i) b).1.length := by
      intro k h1 h2
      have : (mark w (m, i) b).1.length = m.length := length_foldl_mark [b] (m, i)
      rw [this]
      exact h k (by omega) (by simp; omega)
    have ih := get_foldl_mark bits (mark w (m, i) b).1 (i + 1) j hlen
    rw [foldl_cons, show mark w (m, i) b = ((mark w (m, i) b).1, i + 1) from rfl, ih]
    have hhead : get w (mark w (m, i) b).1 j = (get w m j || (decide (i = j) && b)) := by
      unfold mark
      cases b
      · simp
      · simp [get_set hi, Bool.or_comm]
    rw [hhead, Bool.or_assoc]
    congr 1
    rcases Nat.lt_trichotomy i j with hlt | rfl | hgt
    · obtain ⟨d, rfl⟩ := Nat.exists_eq_add_of_lt hlt
      have h1 : i + d + 1 - i = d + 1 := by omega
      have h2 : i + d + 1 - (i + 1) = d := by omega
      simp [h1, h2, hlt.ne, hlt.le]
    · simp
    · simp [hgt.ne', show ¬i ≤ j by omega, show ¬i + 1 ≤ j by omega]

theorem get_ofList (hw : 0 < w) (bits : List Bool) (j : ℕ) :
    get w (ofList w bits) j = bits.getD j false := by
  have hlen : ∀ k, 0 ≤ k → k < 0 + bits.length → k / w < (empty w bits.length).length := by
    intro k _ hk
    rw [empty, length_replicate, Nat.div_lt_iff_lt_mul hw]
    have := Nat.div_add_mod (bits.length + w - 1) w
    have := Nat.mod_lt (bits.length + w - 1) hw
    have hcomm : (bits.length + w - 1) / w * w = w * ((bits.length + w - 1) / w) := Nat.mul_comm ..
    omega
  rw [ofList, get_foldl_mark bits _ 0 j hlen, get_empty]
  simp

theorem lt_of_mem_foldl_mark (hw : 0 < w) : ∀ (bits : List Bool) (s : List ℕ × ℕ),
    (∀ x ∈ s.1, x < 2 ^ w) → ∀ x ∈ (bits.foldl (mark w) s).1, x < 2 ^ w
  | [], _, h => h
  | b :: bits, s, h => by
    refine lt_of_mem_foldl_mark hw bits (mark w s b) fun x hx => ?_
    unfold mark at hx
    split_ifs at hx
    · obtain ⟨k, hk, rfl⟩ := mem_iff_getElem.1 hx
      simp only [set, getElem_modify]
      have hlen : k < s.1.length := by simpa [set] using hk
      split_ifs
      · exact Nat.or_lt_two_pow (h _ (getElem_mem hlen))
          (Nat.pow_lt_pow_right (by decide) (Nat.mod_lt _ hw))
      · exact h _ (getElem_mem hlen)
    · exact h x hx

theorem lt_of_mem_ofList (hw : 0 < w) {bits : List Bool} {x : ℕ} (hx : x ∈ ofList w bits) :
    x < 2 ^ w := by
  refine lt_of_mem_foldl_mark hw bits _ (fun y hy => ?_) x hx
  rw [eq_of_mem_replicate hy]
  exact Nat.two_pow_pos w

end BitMask
