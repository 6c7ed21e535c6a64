import Mathlib.Order.Lattice
import Mathlib.Data.List.Basic
import Mathlib.Data.List.Perm.Basic
import Mathlib.Tactic.SplitIfs

/-!
# Finite maps as sorted lists of entries

The keys stand in strictly ascending order, so a map has one representation: two maps with the same
`lookup` are equal, and erasing a key that an insert just added gives the map back.
-/

variable {α β : Type*} [LinearOrder α]

/-- A finite map with its entries in ascending order of the keys. -/
@[ext]
structure SortedMap (α β : Type*) [LinearOrder α] where
  entries : List (α × β)
  sorted : entries.Pairwise fun a b => a.1 < b.1

namespace SortedMap

open List

instance [DecidableEq β] : DecidableEq (SortedMap α β) := fun m m' =>
  decidable_of_iff (m.entries = m'.entries) SortedMap.ext_iff.symm

/-- The value of a key in a list of entries. -/
def lookupList (k : α) : List (α × β) → Option β
  | [] => none
  | e :: l => if e.1 = k then some e.2 else lookupList k l

/-- Inserts into a sorted list of entries, or replaces. -/
def insertList (k : α) (v : β) : List (α × β) → List (α × β)
  | [] => [(k, v)]
  | e :: l =>
    if k < e.1 then (k, v) :: e :: l
    else if e.1 = k then (k, v) :: l
    else e :: insertList k v l

/-- Removes a key from a list of entries. -/
def eraseList (k : α) : List (α × β) → List (α × β)
  | [] => []
  | e :: l => if e.1 = k then l else e :: eraseList k l

theorem mem_insertList {k : α} {v : β} {e : α × β} :
    ∀ {l : List (α × β)}, e ∈ insertList k v l → e = (k, v) ∨ e ∈ l
  | [], h => by simpa [insertList] using h
  | e' :: l, h => by
    simp only [insertList] at h
    split_ifs at h
    · simpa using h
    · rcases mem_cons.1 h with h | h
      · exact .inl h
      · exact .inr (mem_cons_of_mem _ h)
    · rcases mem_cons.1 h with h | h
      · exact .inr (h ▸ mem_cons_self ..)
      · rcases mem_insertList h with h | h
        · exact .inl h
        · exact .inr (mem_cons_of_mem _ h)

theorem sorted_insertList (k : α) (v : β) : ∀ {l : List (α × β)},
    l.Pairwise (fun a b => a.1 < b.1) → (insertList k v l).Pairwise fun a b => a.1 < b.1
  | [], _ => by simp [insertList]
  | e :: l, h => by
    obtain ⟨he, hl⟩ := pairwise_cons.1 h
    simp only [insertList]
    split_ifs with hlt heq
    · refine pairwise_cons.2 ⟨fun a ha => ?_, h⟩
      rcases mem_cons.1 ha with rfl | ha
      · exact hlt
      · exact hlt.trans (he a ha)
    · exact pairwise_cons.2 ⟨fun a ha => heq ▸ he a ha, hl⟩
    · refine pairwise_cons.2 ⟨fun a ha => ?_, sorted_insertList k v hl⟩
      rcases mem_insertList ha with rfl | ha
      · exact lt_of_le_of_ne (not_lt.1 hlt) heq
      · exact he a ha

theorem eraseList_sublist (k : α) : ∀ l : List (α × β), (eraseList k l).Sublist l
  | [] => .refl _
  | e :: l => by
    simp only [eraseList]
    split_ifs
    · exact sublist_cons_self ..
    · exact (eraseList_sublist k l).cons_cons e

theorem lookupList_eq_none {k : α} : ∀ {l : List (α × β)},
    lookupList k l = none ↔ ∀ e ∈ l, e.1 ≠ k
  | [] => by simp [lookupList]
  | e :: l => by
    simp only [lookupList]
    split_ifs with h
    · simp [h]
    · simp [h, lookupList_eq_none (l := l)]

theorem lookupList_eq_some {k : α} {v : β} : ∀ {l : List (α × β)},
    l.Pairwise (fun a b => a.1 < b.1) → (lookupList k l = some v ↔ (k, v) ∈ l)
  | [], _ => by simp [lookupList]
  | e :: l, h => by
    obtain ⟨he, hl⟩ := pairwise_cons.1 h
    simp only [lookupList]
    split_ifs with hk
    · subst hk
      refine ⟨fun hv => ?_, fun hm => ?_⟩
      · cases hv
        exact mem_cons_self ..
      · rcases mem_cons.1 hm with hm | hm
        · rw [← hm]
        · exact absurd (he _ hm) (lt_irrefl _)
    · rw [lookupList_eq_some hl, mem_cons]
      exact ⟨.inr, fun hm => hm.resolve_left fun h => hk (by rw [← h])⟩

theorem lookupList_insertList (k k' : α) (v : β) : ∀ l : List (α × β),
    lookupList k' (insertList k v l) = if k' = k then some v else lookupList k' l
  | [] => by simp [insertList, lookupList, eq_comm]
  | e :: l => by
    simp only [insertList]
    by_cases hk : k' = k
    · subst hk
      rw [if_pos rfl]
      split_ifs with hlt heq
      · simp [lookupList]
      · simp [lookupList]
      · simp [lookupList, heq, lookupList_insertList k' k' v l]
    · rw [if_neg hk]
      split_ifs with hlt heq
      · simp [lookupList, Ne.symm hk]
      · simp [lookupList, Ne.symm hk, show e.1 ≠ k' from fun h => hk (h.symm.trans heq)]
      · simp [lookupList, hk, lookupList_insertList k k' v l]

theorem lookupList_eraseList (k k' : α) : ∀ {l : List (α × β)},
    l.Pairwise (fun a b => a.1 < b.1) →
    lookupList k' (eraseList k l) = if k' = k then none else lookupList k' l
  | [], _ => by simp [eraseList, lookupList]
  | e :: l, h => by
    obtain ⟨he, hl⟩ := pairwise_cons.1 h
    simp only [eraseList]
    split_ifs with heq hk hk
    · refine lookupList_eq_none.2 fun e' he' h' => ?_
      exact absurd (he e' he') (by rw [heq, h', hk]; exact lt_irrefl _)
    · simp [lookupList, show e.1 ≠ k' from fun h => hk (h ▸ heq)]
    · simp [lookupList, hk, heq, lookupList_eraseList k k hl]
    · simp [lookupList, hk, lookupList_eraseList k k' hl]

theorem length_insertList (k : α) (v : β) : ∀ l : List (α × β), lookupList k l = none →
    (insertList k v l).length = l.length + 1
  | [], _ => rfl
  | e :: l, h => by
    simp only [lookupList] at h
    split_ifs at h with hk
    simp only [insertList]
    split_ifs
    · rfl
    · simp [length_insertList k v l h]

theorem length_insertList_of_mem (k : α) (v : β) : ∀ l : List (α × β),
    l.Pairwise (fun a b => a.1 < b.1) → lookupList k l ≠ none →
    (insertList k v l).length = l.length
  | [], _, h => absurd rfl h
  | e :: l, hs, h => by
    obtain ⟨he, hl⟩ := pairwise_cons.1 hs
    simp only [insertList]
    split_ifs with hlt heq
    · refine absurd (lookupList_eq_none.2 fun e' he' h' => ?_) h
      rcases mem_cons.1 he' with rfl | he'
      · exact absurd hlt (by rw [h']; exact lt_irrefl _)
      · exact absurd (hlt.trans (he e' he')) (by rw [h']; exact lt_irrefl _)
    · rfl
    · simp only [lookupList, heq] at h
      simp [length_insertList_of_mem k v l hl h]

theorem length_eraseList (k : α) : ∀ l : List (α × β), lookupList k l ≠ none →
    (eraseList k l).length + 1 = l.length
  | [], h => absurd rfl h
  | e :: l, h => by
    simp only [eraseList]
    split_ifs with hk
    · rfl
    · simp only [lookupList, hk] at h
      simp [length_eraseList k l h]

variable (m : SortedMap α β) (k k' : α) (v : β)

/-- The map without entries. -/
def empty : SortedMap α β := ⟨[], .nil⟩

/-- The value of a key. -/
def lookup : Option β := lookupList k m.entries

/-- Inserts or replaces. -/
def insert : SortedMap α β := ⟨insertList k v m.entries, sorted_insertList k v m.sorted⟩

/-- Removes a key. -/
def erase : SortedMap α β := ⟨eraseList k m.entries, m.sorted.sublist (eraseList_sublist k _)⟩

/-- The number of entries. -/
def size : ℕ := m.entries.length

@[simp] theorem lookup_empty : (empty : SortedMap α β).lookup k = none := rfl

@[simp] theorem size_empty : (empty : SortedMap α β).size = 0 := rfl

theorem lookup_insert : (m.insert k v).lookup k' = if k' = k then some v else m.lookup k' :=
  lookupList_insertList k k' v m.entries

@[simp] theorem lookup_insert_self : (m.insert k v).lookup k = some v := by simp [lookup_insert]

theorem lookup_erase : (m.erase k).lookup k' = if k' = k then none else m.lookup k' :=
  lookupList_eraseList k k' m.sorted

@[simp] theorem lookup_erase_self : (m.erase k).lookup k = none := by simp [lookup_erase]

variable {m k k' v}

theorem mem_entries : (k, v) ∈ m.entries ↔ m.lookup k = some v := (lookupList_eq_some m.sorted).symm

theorem size_insert (h : m.lookup k = none) : (m.insert k v).size = m.size + 1 :=
  length_insertList k v m.entries h

theorem size_insert_of_mem (h : m.lookup k ≠ none) : (m.insert k v).size = m.size :=
  length_insertList_of_mem k v m.entries m.sorted h

theorem size_erase (h : m.lookup k ≠ none) : (m.erase k).size + 1 = m.size :=
  length_eraseList k m.entries h

/-- Two maps that answer every lookup alike are equal: sorted lists with the same members. -/
theorem ext_lookup {m m' : SortedMap α β} (h : ∀ k, m.lookup k = m'.lookup k) : m = m' := by
  refine SortedMap.ext (List.Perm.eq_of_pairwise (fun a b _ _ hab hba => ?_) m.sorted m'.sorted ?_)
  · exact absurd (hab.trans hba) (lt_irrefl _)
  · have nodup : ∀ m : SortedMap α β, m.entries.Nodup := fun m =>
      m.sorted.imp fun hlt heq => absurd hlt (by rw [heq]; exact lt_irrefl _)
    refine (perm_ext_iff_of_nodup (nodup m) (nodup m')).2 fun e => ?_
    rw [mem_entries, mem_entries, h]

theorem filter_entries_congr {m m' : SortedMap α β} {p : α → Bool}
    (h : ∀ k, p k = true → m.lookup k = m'.lookup k) :
    (m.entries.filter fun e => p e.1) = m'.entries.filter fun e => p e.1 := by
  let part (m : SortedMap α β) : SortedMap α β :=
    ⟨m.entries.filter fun e => p e.1, m.sorted.filter _⟩
  have hpart (m : SortedMap α β) (k : α) (v : β) :
      (part m).lookup k = some v ↔ m.lookup k = some v ∧ p k = true := by
    rw [← mem_entries, ← mem_entries]
    exact mem_filter
  have : part m = part m' := by
    refine ext_lookup fun k => Option.ext fun v => ?_
    rw [hpart, hpart]
    exact and_congr_left fun hk => by rw [h k hk]
  exact congrArg entries this

theorem filter_le_append (m : SortedMap α β) (k : α) :
    (m.entries.filter fun e => e.1 ≤ k) ++ m.entries.filter (fun e => k < e.1) = m.entries := by
  have key : ∀ l : List (α × β), l.Pairwise (fun a b => a.1 < b.1) →
      (l.filter fun e => e.1 ≤ k) ++ l.filter (fun e => k < e.1) = l := by
    intro l hl
    induction hl with
    | nil => rfl
    | @cons e l he _ ih =>
      by_cases h : e.1 ≤ k
      · rw [filter_cons_of_pos (by simpa using h), filter_cons_of_neg (by simpa using h),
          cons_append, ih]
      · -- the first one behind the key has all others behind it
        have hlt : k < e.1 := not_le.1 h
        have hnone : (l.filter fun e => e.1 ≤ k) = [] :=
          filter_eq_nil_iff.2 fun e' he' => by simpa using hlt.trans (he e' he')
        rw [hnone, nil_append] at ih
        rw [filter_cons_of_neg (by simpa using h), filter_cons_of_pos (by simpa using hlt), hnone,
          nil_append, ih]
  exact key m.entries m.sorted

theorem le_of_getLast? {e e' : α × β} (h : m.entries.getLast? = some e) (he : e' ∈ m.entries) :
    e'.1 ≤ e.1 := by
  obtain ⟨l, hl⟩ := List.getLast?_eq_some_iff.1 h
  have hsorted := m.sorted
  rw [hl] at hsorted he
  rcases mem_append.1 he with he | he
  · exact ((pairwise_append.1 hsorted).2.2 e' he e (mem_singleton_self e)).le
  · rw [mem_singleton.1 he]

theorem erase_insert (h : m.lookup k = none) : (m.insert k v).erase k = m := by
  refine ext_lookup fun k' => ?_
  rw [lookup_erase, lookup_insert]
  split_ifs with hk
  · rw [hk, h]
  · rfl

end SortedMap
