import Mpedb.Lib.SortedMap

/-!
# Moving the entries of a map to other keys

The entries are collected first and then moved one after the other, in ascending order of their
keys: an entry stays where it is, is taken out, or is taken out and put back under another key. When
no entry moves up and no two keys have one destination, the result is the renamed map, and no entry
is ever put on a key whose own entry still waits to be moved.
-/

variable {α β : Type*} [LinearOrder α]

namespace SortedMap

open List

/-- What becomes of a key. -/
inductive Move (α : Type*)
  | keep
  | drop
  | to (k : α)

/-- The new key, if there is one. -/
def Move.dest (k : α) : Move α → Option α
  | .keep => some k
  | .drop => none
  | .to k' => some k'

/-- Moves one entry. -/
def move (m : SortedMap α β) (mv : Move α) (e : α × β) : SortedMap α β :=
  match mv with
  | .keep => m
  | .drop => m.erase e.1
  | .to k => (m.erase e.1).insert k e.2

/-- Moves entries one after the other. -/
def moveAll (f : α → Move α) (m : SortedMap α β) (es : List (α × β)) : SortedMap α β :=
  es.foldl (fun m e => m.move (f e.1) e) m

/-- Moves every entry of the map. -/
def rekey (f : α → Move α) (m : SortedMap α β) : SortedMap α β := moveAll f m m.entries

/-- No entry moves up, and no two keys have one destination. -/
structure MovesDown (f : α → Move α) : Prop where
  le : ∀ k k', (f k).dest k = some k' → k' ≤ k
  inj : ∀ k₁ k₂ k', (f k₁).dest k₁ = some k' → (f k₂).dest k₂ = some k' → k₁ = k₂

section Move

variable {f : α → Move α} {m : SortedMap α β} {e : α × β} {es : List (α × β)} {k k' : α}

theorem lookup_move_of_ne (hdest : (f e.1).dest e.1 ≠ some k) (hk : k ≠ e.1) :
    (m.move (f e.1) e).lookup k = m.lookup k := by
  unfold move
  split
  · rfl
  · rw [lookup_erase, if_neg hk]
  · rename_i k₁ hf
    rw [hf] at hdest
    have hne : k ≠ k₁ := fun h => hdest (congrArg some h.symm)
    rw [lookup_insert, if_neg hne, lookup_erase, if_neg hk]

theorem lookup_move_dest (he : m.lookup e.1 = some e.2) (hdest : (f e.1).dest e.1 = some k) :
    (m.move (f e.1) e).lookup k = some e.2 := by
  unfold move
  split
  · rename_i hf
    rw [hf] at hdest
    cases hdest
    exact he
  · rename_i hf
    rw [hf] at hdest
    cases hdest
  · rename_i k₁ hf
    rw [hf] at hdest
    cases hdest
    exact lookup_insert_self ..

theorem lookup_move_gone (hdest : (f e.1).dest e.1 ≠ some e.1) :
    (m.move (f e.1) e).lookup e.1 = none := by
  unfold move
  split
  · rename_i hf
    rw [hf] at hdest
    exact absurd rfl hdest
  · exact lookup_erase_self ..
  · rename_i k₁ hf
    rw [hf] at hdest
    have hne : e.1 ≠ k₁ := fun h => hdest (congrArg some h.symm)
    rw [lookup_insert, if_neg hne, lookup_erase_self]

theorem moveAll_cons (f : α → Move α) (m : SortedMap α β) (e : α × β) (es : List (α × β)) :
    moveAll f m (e :: es) = moveAll f (m.move (f e.1) e) es := rfl

theorem lookup_moveAll_of_ne (hdest : ∀ e ∈ es, (f e.1).dest e.1 ≠ some k)
    (hk : ∀ e ∈ es, k ≠ e.1) : (moveAll f m es).lookup k = m.lookup k := by
  induction es generalizing m with
  | nil => rfl
  | cons e es ih =>
    obtain ⟨hd, hdest⟩ := forall_mem_cons.1 hdest
    obtain ⟨he, hk⟩ := forall_mem_cons.1 hk
    rw [moveAll_cons, ih hdest hk, lookup_move_of_ne hd he]

/-- The destination of an entry that is moved now is below every entry that waits. -/
theorem dest_ne_of_lt (hf : MovesDown f) (hlt : ∀ e' ∈ es, e.1 < e'.1)
    (hdest : (f e.1).dest e.1 = some k) : ∀ e' ∈ es, k ≠ e'.1 := by
  intro e' he' h
  have hle := hf.le _ _ hdest
  rw [h] at hle
  exact absurd (hlt e' he') (not_lt.2 hle)

theorem lookup_moveAll_dest (hf : MovesDown f) (hs : es.Pairwise fun a b => a.1 < b.1)
    (hm : ∀ e ∈ es, m.lookup e.1 = some e.2) (he : e ∈ es)
    (hdest : (f e.1).dest e.1 = some k) : (moveAll f m es).lookup k = some e.2 := by
  induction es generalizing m with
  | nil => cases he
  | cons e₀ es ih =>
    obtain ⟨hlt, hs⟩ := pairwise_cons.1 hs
    obtain ⟨h₀, hm⟩ := forall_mem_cons.1 hm
    rw [moveAll_cons]
    rcases mem_cons.1 he with rfl | he
    · rw [lookup_moveAll_of_ne, lookup_move_dest h₀ hdest]
      · intro e' he' hd
        have := hf.inj _ _ _ hdest hd
        exact absurd (hlt e' he') (this ▸ lt_irrefl _)
      · exact dest_ne_of_lt hf hlt hdest
    · refine ih hs (fun e' he' => ?_) he
      rw [lookup_move_of_ne _ (ne_of_gt (hlt e' he')), hm e' he']
      intro hd
      exact dest_ne_of_lt hf hlt hd e' he' rfl

theorem lookup_moveAll_gone (hs : es.Pairwise fun a b => a.1 < b.1) (he : e ∈ es)
    (hdest : ∀ e' ∈ es, (f e'.1).dest e'.1 ≠ some e.1) :
    (moveAll f m es).lookup e.1 = none := by
  induction es generalizing m with
  | nil => cases he
  | cons e₀ es ih =>
    obtain ⟨hlt, hs'⟩ := pairwise_cons.1 hs
    obtain ⟨h₀, hdest'⟩ := forall_mem_cons.1 hdest
    rw [moveAll_cons]
    rcases mem_cons.1 he with rfl | he
    · rw [lookup_moveAll_of_ne hdest' fun e' he' => ne_of_lt (hlt e' he'), lookup_move_gone h₀]
    · exact ih hs' he hdest'

theorem lookup_rekey_none (hdest : ∀ k v, m.lookup k = some v → (f k).dest k ≠ some k') :
    (m.rekey f).lookup k' = none := by
  have hm : ∀ e ∈ m.entries, m.lookup e.1 = some e.2 := fun _ he => mem_entries.1 he
  have hnone : ∀ e ∈ m.entries, (f e.1).dest e.1 ≠ some k' := fun e he => hdest _ _ (hm e he)
  rcases hk' : m.lookup k' with _ | v'
  · rw [rekey, lookup_moveAll_of_ne hnone, hk']
    intro e he h
    have := hm e he
    rw [← h, hk'] at this
    cases this
  · have hmem : (k', v') ∈ m.entries := mem_entries.2 hk'
    exact lookup_moveAll_gone m.sorted hmem hnone

theorem lookup_rekey (hf : MovesDown f) (hdest : (f k).dest k = some k') :
    (m.rekey f).lookup k' = m.lookup k := by
  rcases hk : m.lookup k with _ | v
  · refine lookup_rekey_none fun k₁ v hv hd => ?_
    rw [hf.inj _ _ _ hd hdest, hk] at hv
    cases hv
  · have hmem : (k, v) ∈ m.entries := mem_entries.2 hk
    exact lookup_moveAll_dest hf m.sorted (fun _ he => mem_entries.1 he) hmem hdest

theorem lookup_dest_free {pre post : List (α × β)} (hf : MovesDown f)
    (hm : m.entries = pre ++ e :: post) (hto : (f e.1).dest e.1 = some k) (hne : k ≠ e.1) :
    ((moveAll f m pre).erase e.1).lookup k = none := by
  have hs : (pre ++ e :: post).Pairwise fun a b => a.1 < b.1 := hm ▸ m.sorted
  obtain ⟨hpre, hpost, hbefore⟩ := pairwise_append.1 hs
  have hother : ∀ e' ∈ pre, (f e'.1).dest e'.1 ≠ some k := by
    intro e' he' hd
    have := hbefore e' he' e (mem_cons_self ..)
    rw [hf.inj _ _ _ hd hto] at this
    exact absurd this (lt_irrefl _)
  rw [lookup_erase, if_neg hne]
  by_cases hk : ∃ e' ∈ pre, e'.1 = k
  · obtain ⟨e', he', rfl⟩ := hk
    exact lookup_moveAll_gone hpre he' hother
  · rw [lookup_moveAll_of_ne hother fun e' he' h => hk ⟨e', he', h.symm⟩]
    rcases hv : m.lookup k with _ | v
    · rfl
    · exfalso
      have hmem : (k, v) ∈ pre ++ e :: post := hm ▸ mem_entries.2 hv
      rcases mem_append.1 hmem with h | h
      · exact hk ⟨_, h, rfl⟩
      · rcases mem_cons.1 h with h | h
        · exact hne (congrArg Prod.fst h)
        · have := (pairwise_cons.1 hpost).1 _ h
          exact absurd this (not_lt.2 (hf.le _ _ hto))

end Move

end SortedMap
