import Mathlib.Data.List.Forall2

/-!
# Computations that end with a value or an error

When a sequence of `Except` computations ends with a value, and which lists of results it has.
-/

namespace Outcome

open List

variable {ε α β γ : Type}

variable {x : Except ε α} {f : α → Except ε β}

theorem bind_eq_ok {r : β} : (x >>= f) = .ok r ↔ ∃ a, x = .ok a ∧ f a = .ok r := by
  rcases x with e | a
  · exact ⟨fun h => (by cases h), fun ⟨_, h, _⟩ => (by cases h)⟩
  · exact ⟨fun h => ⟨a, rfl, h⟩, fun ⟨_, h, h'⟩ => by cases h; exact h'⟩

theorem map_eq_ok {f : α → β} {r : β} : x.map f = .ok r ↔ ∃ a, x = .ok a ∧ f a = r := by
  rcases x with e | a
  · exact ⟨fun h => (by cases h), fun ⟨_, h, _⟩ => (by cases h)⟩
  · exact ⟨fun h => ⟨a, rfl, Except.ok.inj h⟩, fun ⟨_, h, h'⟩ => by cases h; exact congrArg _ h'⟩

theorem mapM_eq_ok : ∀ {xs : List α} {ys : List β},
    xs.mapM f = .ok ys ↔ List.Forall₂ (fun x y => f x = .ok y) xs ys
  | [], ys => by
    rw [forall₂_nil_left_iff]
    exact ⟨fun h => (Except.ok.inj h).symm, fun h => h ▸ rfl⟩
  | x :: xs, ys => by
    simp only [mapM_cons, bind_eq_ok, mapM_eq_ok, forall₂_cons_left_iff]
    constructor
    · rintro ⟨y, hy, ys', hys, h⟩
      exact ⟨y, ys', hy, hys, (Except.ok.inj h).symm⟩
    · rintro ⟨y, ys', hy, hys, rfl⟩
      exact ⟨y, hy, ys', hys, rfl⟩

variable {R : α → β → Prop} {xs : List α} {ys : List β}

theorem forall₂_join {S : α → γ → Prop} {T : β → γ → Prop}
    (h : ∀ x y z, R x y → S x z → T y z) {zs : List γ}
    (hR : List.Forall₂ R xs ys) (hS : List.Forall₂ S xs zs) : List.Forall₂ T ys zs := by
  induction hR generalizing zs with
  | nil =>
    cases hS
    exact .nil
  | cons hxy _ ih =>
    cases hS with
    | cons hxz hS => exact .cons (h _ _ _ hxy hxz) (ih hS)

theorem exists_left (h : List.Forall₂ R xs ys) {y : β} (hy : y ∈ ys) : ∃ x ∈ xs, R x y := by
  induction h with
  | nil => cases hy
  | cons hxy _ ih =>
    rcases mem_cons.1 hy with rfl | hy
    · exact ⟨_, mem_cons_self .., hxy⟩
    · obtain ⟨x, hx, hxy⟩ := ih hy
      exact ⟨x, mem_cons_of_mem _ hx, hxy⟩

theorem exists_forall₂ (h : ∀ x ∈ xs, ∃ y, R x y) : ∃ ys, List.Forall₂ R xs ys := by
  induction xs with
  | nil => exact ⟨[], .nil⟩
  | cons x xs ih =>
    obtain ⟨⟨y, hy⟩, h⟩ := forall_mem_cons.1 h
    obtain ⟨ys, hys⟩ := ih h
    exact ⟨y :: ys, .cons hy hys⟩

theorem mapM_congr {f : α → Except ε γ} {g : β → Except ε γ}
    (h : List.Forall₂ (fun x y => f x = g y) xs ys) : xs.mapM f = ys.mapM g := by
  induction h with
  | nil => rfl
  | cons hxy _ ih => rw [mapM_cons, mapM_cons, hxy, ih]

end Outcome
