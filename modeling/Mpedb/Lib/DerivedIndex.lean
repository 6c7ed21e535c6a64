import Mathlib.Logic.Basic
import Mathlib.Tactic.SplitIfs

/-!
# Indexes derived from a table

A table maps keys to rows, and `entry` says under which key, if any, a row has an entry in an index.
The index is right when it maps every entry's key to the row's key and holds nothing else. A change
to one row changes the index at the row's old entry and at its new one.
-/

namespace DerivedIndex

variable {κ ρ ι : Type*}

/-- `idx` holds exactly the entries of the rows. -/
def Indexes (entry : ρ → κ → Option ι) (rows : κ → Option ρ) (idx : ι → Option κ) : Prop :=
  ∀ k pk, idx k = some pk ↔ ∃ row, rows pk = some row ∧ entry row pk = some k

/-- The entry that the row under `pk` has, if there is a row. -/
def entryAt (entry : ρ → κ → Option ι) (rows : κ → Option ρ) (pk : κ) : Option ι :=
  (rows pk).bind fun row => entry row pk

variable {entry : ρ → κ → Option ι} {rows rows' : κ → Option ρ} {idx idx' : ι → Option κ}

theorem indexes_iff : Indexes entry rows idx ↔
    ∀ k pk, idx k = some pk ↔ entryAt entry rows pk = some k := by
  simp only [Indexes, entryAt, Option.bind_eq_some_iff]

theorem indexes_empty : Indexes entry (fun _ => none) fun _ => none := by simp [Indexes]

/-- The row under `pk` is changed, added or removed: the index loses the old entry and gains the new
one, which no other row may have. -/
theorem Indexes.reenter [DecidableEq ι] (h : Indexes entry rows idx) {pk : κ}
    (hrows : ∀ pk', pk' ≠ pk → rows' pk' = rows pk')
    (hfresh : ∀ k, entryAt entry rows' pk = some k → ∀ pk', idx k = some pk' → pk' = pk)
    (hidx : ∀ k, idx' k = if entryAt entry rows' pk = some k then some pk
      else if entryAt entry rows pk = some k then none else idx k) :
    Indexes entry rows' idx' := by
  rw [indexes_iff] at h ⊢
  intro k pk'
  rw [hidx]
  by_cases hpk : pk' = pk
  · subst hpk
    split_ifs with hnew hold
    · simp [hnew]
    · simp [hnew]
    · simp only [hnew, iff_false]
      exact fun hk => hold ((h k pk').1 hk)
  · have hsame : entryAt entry rows' pk' = entryAt entry rows pk' := by
      simp [entryAt, hrows pk' hpk]
    rw [hsame, ← h k pk']
    split_ifs with hnew hold
    · exact ⟨fun he => absurd (Option.some.inj he).symm hpk,
        fun hk => absurd (hfresh k hnew pk' hk) hpk⟩
    · refine ⟨fun he => absurd he (by simp), fun hk => ?_⟩
      exact absurd (Option.some.inj (hk.symm.trans ((h k pk).2 hold))) hpk
    · rfl

end DerivedIndex
