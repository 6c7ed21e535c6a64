import Mathlib.Data.List.Lex
import Mathlib.Data.List.TakeDrop
import Mathlib.Order.Lattice

/-!
# Common prefixes

The longest list that two lists start with. In the lexicographic order everything between two lists
starts with their common prefix.
-/

namespace Stem

open List

variable {α : Type*} [DecidableEq α]

/-- The elements that two lists share from the start. -/
def common (a b : List α) : List α := a.take ((a.zip b).takeWhile fun p => p.1 = p.2).length

@[simp] theorem common_nil_right (a : List α) : common a [] = [] := by simp [common]

theorem common_cons (x y : α) (a b : List α) :
    common (x :: a) (y :: b) = if x = y then x :: common a b else [] := by
  unfold common
  by_cases h : x = y
  · simp [h]
  · simp [h]

theorem common_isPrefix_left (a b : List α) : common a b <+: a := List.take_prefix ..

theorem common_isPrefix_right : ∀ a b : List α, common a b <+: b
  | [], b => List.nil_prefix
  | _ :: _, [] => by simp
  | x :: a, y :: b => by
    rw [common_cons]
    split_ifs with h
    · subst h
      exact (prefix_cons_inj x).2 (common_isPrefix_right a b)
    · exact nil_prefix

/-- What lies between two lists starts as both of them do. -/
theorem isPrefix_of_between {β : Type*} [LinearOrder β] : ∀ {c a b k : List β},
    c <+: a → c <+: b → a ≤ k → k < b → c <+: k
  | [], _, _, _, _, _, _, _ => List.nil_prefix
  | z :: c, _, _, k, ⟨a', rfl⟩, ⟨b', rfl⟩, hle, hlt => by
    rcases k with _ | ⟨y, k⟩
    · exact absurd hle (not_le.2 (nil_lt_cons ..))
    · rw [cons_append] at hle hlt
      have hnot : ¬ (y < z ∨ y = z ∧ k < c ++ a') := fun h =>
        not_lt.2 hle (cons_lt_cons_iff.2 h)
      obtain ⟨rfl, hkb⟩ := (cons_lt_cons_iff.1 hlt).resolve_left fun h => hnot (.inl h)
      exact (prefix_cons_inj y).2 (isPrefix_of_between (prefix_append ..)
        (prefix_append ..) (not_lt.1 fun h => hnot (.inr ⟨rfl, h⟩)) hkb)

end Stem
