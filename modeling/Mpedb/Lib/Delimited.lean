import Mathlib.Data.Set.Basic
import Mathlib.Data.Set.Insert
import Mathlib.Data.List.Basic
import Mathlib.Tactic.SplitIfs

/-!
# Codes whose words end where they say they do

A code is delimited when a word of it can be told from what follows it, as long as that does not
start with a reserved symbol `esc`: then words can be concatenated without a separator.
Fixed-length, tagged and terminated words are delimited; so are words in which a terminator inside
the body is escaped.
-/

namespace Code

variable {α : Type*} (esc : α)

/-- `r` does not start with the reserved symbol. -/
def Clear (r : List α) : Prop := ∀ a ∈ r.head?, a ≠ esc

/-- Where a word of `C` ends can be seen from what follows it. -/
def Delimited (C : Set (List α)) : Prop :=
  ∀ u ∈ C, ∀ v ∈ C, ∀ r r', Clear esc r → Clear esc r' → u ++ r = v ++ r' → u = v ∧ r = r'

variable {esc} {C D : Set (List α)}

theorem clear_nil : Clear esc [] := by simp [Clear]

theorem clear_cons {a : α} (ha : a ≠ esc) (r : List α) : Clear esc (a :: r) := by
  simpa [Clear] using ha

theorem Delimited.mono (h : Delimited esc D) (hCD : C ⊆ D) : Delimited esc C :=
  fun u hu v hv => h u (hCD hu) v (hCD hv)

theorem delimited_of_length {n : ℕ} (h : ∀ u ∈ C, u.length = n) : Delimited esc C :=
  fun u hu v hv _ _ _ _ heq => List.append_inj heq ((h u hu).trans (h v hv).symm)

/-- Words behind a tag, where the tag says which code the rest is from. -/
theorem Delimited.tagged {C : α → Set (List α)} (h : ∀ t, Delimited esc (C t)) :
    Delimited esc {w | ∃ t, ∃ u ∈ C t, w = t :: u} := by
  rintro _ ⟨t, u, hu, rfl⟩ _ ⟨t', v, hv, rfl⟩ r r' hr hr' heq
  obtain ⟨rfl, hrest⟩ := List.cons.inj heq
  obtain ⟨rfl, rfl⟩ := h t u hu v hv r r' hr hr' hrest
  exact ⟨rfl, rfl⟩

/-- A head of fixed length, then a word of a delimited code. -/
theorem Delimited.append_left {n : ℕ} (hC : ∀ u ∈ C, u.length = n) (hD : Delimited esc D) :
    Delimited esc {w | ∃ u ∈ C, ∃ v ∈ D, w = u ++ v} := by
  rintro _ ⟨u, hu, v, hv, rfl⟩ _ ⟨u', hu', v', hv', rfl⟩ r r' hr hr' heq
  rw [List.append_assoc, List.append_assoc] at heq
  obtain ⟨rfl, hrest⟩ := List.append_inj heq ((hC u hu).trans (hC u' hu').symm)
  obtain ⟨rfl, rfl⟩ := hD v hv v' hv' r r' hr hr' hrest
  exact ⟨rfl, rfl⟩

/-- Words that end at the first `t`. -/
theorem delimited_terminated (t : α) : Delimited esc {w | ∃ u, t ∉ u ∧ w = u ++ [t]} := by
  suffices h : ∀ u v r r' : List α, t ∉ u → t ∉ v → u ++ t :: r = v ++ t :: r' →
      u = v ∧ r = r' by
    rintro _ ⟨u, hu, rfl⟩ _ ⟨v, hv, rfl⟩ r r' _ _ heq
    obtain ⟨rfl, rfl⟩ := h u v r r' hu hv (by simpa using heq)
    exact ⟨rfl, rfl⟩
  intro u
  induction u with
  | nil =>
    intro v r r' _ hv heq
    cases v with
    | nil => exact ⟨rfl, (List.cons.inj heq).2⟩
    | cons b v => exact absurd (List.cons.inj heq).1 (fun h => hv (h ▸ List.mem_cons_self ..))
  | cons a u ih =>
    intro v r r' hu hv heq
    cases v with
    | nil => exact absurd (List.cons.inj heq).1.symm (fun h => hu (h ▸ List.mem_cons_self ..))
    | cons b v =>
      obtain ⟨rfl, hrest⟩ := List.cons.inj heq
      obtain ⟨rfl, rfl⟩ := ih v r r' (fun h => hu (List.mem_cons_of_mem _ h))
        (fun h => hv (List.mem_cons_of_mem _ h)) hrest
      exact ⟨rfl, rfl⟩

variable [DecidableEq α]

/-- `bs` with each `zero` followed by the reserved symbol, and a bare `zero` at the end. -/
def escaped (zero esc : α) : List α → List α
  | [] => [zero]
  | b :: bs => if b = zero then b :: esc :: escaped zero esc bs else b :: escaped zero esc bs

theorem escaped_append_inj {zero : α} : ∀ {bs cs r r' : List α}, Clear esc r → Clear esc r' →
    escaped zero esc bs ++ r = escaped zero esc cs ++ r' → bs = cs ∧ r = r'
  | [], [], r, r', _, _, heq => ⟨rfl, by simpa [escaped] using heq⟩
  | [], c :: cs, r, r', hr, _, heq => by
    simp only [escaped] at heq
    split_ifs at heq with hc
    · obtain ⟨-, rfl⟩ := List.cons.inj heq
      exact absurd rfl (hr esc rfl)
    · exact absurd (List.cons.inj heq).1.symm hc
  | b :: bs, [], r, r', _, hr', heq => by
    simp only [escaped] at heq
    split_ifs at heq with hb
    · obtain ⟨-, h⟩ := List.cons.inj heq
      exact absurd rfl (hr' esc (by rw [← show _ = r' from h]; rfl))
    · exact absurd (List.cons.inj heq).1 hb
  | b :: bs, c :: cs, r, r', hr, hr', heq => by
    simp only [escaped] at heq
    split_ifs at heq with hb hc hc
    · obtain ⟨-, hrest⟩ := List.cons.inj heq
      obtain ⟨rfl, rfl⟩ := escaped_append_inj hr hr' (List.cons.inj hrest).2
      exact ⟨by rw [hb, hc], rfl⟩
    · exact absurd ((List.cons.inj heq).1.symm.trans hb) hc
    · exact absurd ((List.cons.inj heq).1.trans hc) hb
    · obtain ⟨rfl, hrest⟩ := List.cons.inj heq
      obtain ⟨rfl, rfl⟩ := escaped_append_inj hr hr' hrest
      exact ⟨rfl, rfl⟩

theorem delimited_escaped (zero : α) : Delimited esc (Set.range (escaped zero esc)) := by
  rintro _ ⟨bs, rfl⟩ _ ⟨cs, rfl⟩ r r' hr hr' heq
  obtain ⟨rfl, rfl⟩ := escaped_append_inj hr hr' heq
  exact ⟨rfl, rfl⟩

end Code
