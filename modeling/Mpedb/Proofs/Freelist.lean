import Mathlib.Tactic.SplitIfs
import Mpedb.Freelist

/-!
# No page in two places

`Accounted` says of a published snapshot that its freelist lists no page twice and no page that its
trees reach. `Txn.OK` says of a transaction in progress that the pages it may still take, has taken
or has left undrawn are all different, and none of them is a page of the snapshot it started from.
-/

namespace Mpedb

open List Txn

/-- `live` are the pages the trees of a snapshot reach, `entries` is its freelist. -/
structure Accounted (live : List ℕ) (entries : List FreeEntry) (highWater : ℕ) : Prop where
  nodup : (pagesOf entries).Nodup
  apart : ∀ p ∈ live, p ∉ pagesOf entries
  live_lt : ∀ p ∈ live, p < highWater
  free_lt : ∀ p ∈ pagesOf entries, p < highWater

theorem mem_pagesOf {es : List FreeEntry} {p : ℕ} : p ∈ pagesOf es ↔ ∃ e ∈ es, p ∈ e.ids := by
  simp [pagesOf]

theorem pagesOf_drop {es : List FreeEntry} {i : ℕ} {e : FreeEntry} (h : es[i]? = some e) :
    pagesOf (es.drop i) = e.ids ++ pagesOf (es.drop (i + 1)) := by
  obtain ⟨hlt, rfl⟩ := List.getElem?_eq_some_iff.1 h
  rw [drop_eq_getElem_cons hlt]
  rfl

theorem pagesOf_append (es es' : List FreeEntry) :
    pagesOf (es ++ es') = pagesOf es ++ pagesOf es' := by
  simp [pagesOf]

namespace Txn

/-- The pages at the transaction's disposal: in a pool, taken, or listed by an undrawn entry. -/
def others (t : Txn) : List ℕ :=
  t.reusable ++ (t.runPool ++ (t.runOwn ++ (t.dirty ++ (t.allocatedRuns ++
    pagesOf (t.entries.drop t.cursor)))))

/-- What holds of a transaction over the live pages of its base: no page is in two places. -/
structure OK (live : List ℕ) (t : Txn) : Prop where
  entries : (pagesOf t.entries).Nodup
  nodup : t.others.Nodup
  freed_nodup : (t.freed ++ t.freedRuns).Nodup
  off_live : ∀ p ∈ t.others, p ∉ live
  off_freed : ∀ p ∈ t.others, p ∉ t.freed ++ t.freedRuns
  live_lt : ∀ p ∈ live, p < t.highWater
  others_lt : ∀ p ∈ t.others, p < t.highWater
  freed_lt : ∀ p ∈ t.freed ++ t.freedRuns, p < t.highWater

variable {live : List ℕ} {t t' : Txn} {p : ℕ}

theorem OK.start {entries : List FreeEntry} {hw : ℕ} (h : Accounted live entries hw) :
    OK live (start entries hw) where
  entries := h.nodup
  nodup := by simpa [others, Txn.start] using h.nodup
  freed_nodup := by simp [Txn.start]
  off_live q hq hl := h.apart q hl (by simpa [others, Txn.start] using hq)
  off_freed q _ := by simp [Txn.start]
  live_lt := h.live_lt
  others_lt q hq := h.free_lt q (by simpa [others, Txn.start] using hq)
  freed_lt q hq := by simp [Txn.start] at hq

section

variable (h : OK live t)

include h

theorem OK.of_perm (he : t'.entries = t.entries) (hp : t'.others.Perm t.others)
    (hf : t'.freed = t.freed) (hfr : t'.freedRuns = t.freedRuns)
    (hw : t'.highWater = t.highWater) : OK live t' where
  entries := he ▸ h.entries
  nodup := hp.nodup_iff.2 h.nodup
  freed_nodup := by
    rw [hf, hfr]
    exact h.freed_nodup
  off_live q hq := h.off_live q (hp.mem_iff.1 hq)
  off_freed q hq := by
    rw [hf, hfr]
    exact h.off_freed q (hp.mem_iff.1 hq)
  live_lt := hw ▸ h.live_lt
  others_lt q hq := hw ▸ h.others_lt q (hp.mem_iff.1 hq)
  freed_lt := by
    rw [hf, hfr, hw]
    exact h.freed_lt

/-- A page from the high water mark is new to all lists. -/
theorem OK.of_mint (he : t'.entries = t.entries)
    (hp : t'.others.Perm (t.highWater :: t.others)) (hf : t'.freed = t.freed)
    (hfr : t'.freedRuns = t.freedRuns) (hw : t'.highWater = t.highWater + 1) : OK live t' where
  entries := he ▸ h.entries
  nodup := hp.nodup_iff.2 (nodup_cons.2
    ⟨fun hm => Nat.lt_irrefl _ (h.others_lt _ hm), h.nodup⟩)
  freed_nodup := by
    rw [hf, hfr]
    exact h.freed_nodup
  off_live q hq hl := by
    rcases mem_cons.1 (hp.mem_iff.1 hq) with rfl | hm
    · exact Nat.lt_irrefl _ (h.live_lt _ hl)
    · exact h.off_live q hm hl
  off_freed q hq := by
    rw [hf, hfr]
    rcases mem_cons.1 (hp.mem_iff.1 hq) with rfl | hm
    · exact fun hm => Nat.lt_irrefl _ (h.freed_lt _ hm)
    · exact h.off_freed q hm
  live_lt q hq := by
    have := h.live_lt q hq
    omega
  others_lt q hq := by
    rcases mem_cons.1 (hp.mem_iff.1 hq) with rfl | hm
    · omega
    · have := h.others_lt q hm
      omega
  freed_lt q hq := by
    rw [hf, hfr] at hq
    have := h.freed_lt q hq
    omega

theorem OK.refillReusable {bound : ℕ} {frontier : Option ℕ}
    (hs : t.refillReusable bound frontier = some t') : OK live t' := by
  unfold Txn.refillReusable at hs
  split at hs
  · simp at hs
  split at hs
  · simp at hs
  rename_i e he
  -- the undrawn entries lose their first one to the pool
  have hdrop := pagesOf_drop he
  split at hs
  · simp at hs
  split at hs
  · cases hs
    refine h.of_perm rfl (perm_iff_count.2 fun q => ?_) rfl rfl rfl
    simp only [others, hdrop, count_append]
    omega
  · split at hs
    · simp at hs
    · cases hs
      refine h.of_perm rfl (perm_iff_count.2 fun q => ?_) rfl rfl rfl
      simp only [others, hdrop, count_append]
      omega

theorem OK.alloc (hs : t.alloc p = some t') : OK live t' := by
  unfold Txn.alloc at hs
  split_ifs at hs with hp hw
  · cases hs
    refine h.of_perm rfl (perm_iff_count.2 fun q => ?_) rfl rfl rfl
    have := (perm_cons_erase hp).count_eq q
    simp only [others, count_append, count_cons] at this ⊢
    omega
  · cases hs
    obtain ⟨-, rfl⟩ := hw
    refine h.of_mint rfl (perm_iff_count.2 fun q => ?_) rfl rfl rfl
    simp only [others, count_append, count_cons]
    omega

theorem OK.allocRun (hs : t.allocRun p = some t') : OK live t' := by
  unfold Txn.allocRun at hs
  split_ifs at hs with hp hp' hw
  · cases hs
    refine h.of_perm rfl (perm_iff_count.2 fun q => ?_) rfl rfl rfl
    have := (perm_cons_erase hp).count_eq q
    simp only [others, count_append, count_cons] at this ⊢
    omega
  · cases hs
    refine h.of_perm rfl (perm_iff_count.2 fun q => ?_) rfl rfl rfl
    have := (perm_cons_erase hp').count_eq q
    simp only [others, count_append, count_cons] at this ⊢
    omega
  · cases hs
    subst hw
    refine h.of_mint rfl (perm_iff_count.2 fun q => ?_) rfl rfl rfl
    simp only [others, count_append, count_cons]
    omega

/-- A freed page goes back to the pool or to the commit's own list. -/
theorem OK.free (hp : p ∈ t.dirty ∨ p ∈ live) (hpf : p ∉ t.freedRuns)
    (hs : t.free p = some t') : OK live t' := by
  unfold Txn.free at hs
  split_ifs at hs with hd hf
  · cases hs
    refine h.of_perm rfl (perm_iff_count.2 fun q => ?_) rfl rfl rfl
    have := (perm_cons_erase hd.1).count_eq q
    simp only [others, count_append, count_cons] at this ⊢
    omega
  · cases hs
    have hsub : ∀ q ∈ others { t with dirty := t.dirty.erase p, freed := p :: t.freed },
        q ∈ t.others := by
      intro q hq
      simp only [others, mem_append] at hq ⊢
      have := mem_of_mem_erase (a := q) (b := p) (l := t.dirty)
      tauto
    have hnd : (others { t with dirty := t.dirty.erase p, freed := p :: t.freed }).Nodup := by
      refine List.Nodup.sublist ?_ h.nodup
      exact ((((erase_sublist.append_right _).append_left _).append_left _).append_left _)
    -- the page is in no other place of `others`
    have hnot : p ∉ others { t with dirty := t.dirty.erase p, freed := p :: t.freed } := by
      rcases hp with hp | hp
      · have hcount := (perm_cons_erase hp).count_eq p
        have hone := nodup_iff_count_le_one.1 h.nodup p
        rw [← count_eq_zero]
        simp only [others, count_append, count_cons, beq_self_eq_true, if_true]
          at hcount hone ⊢
        omega
      · exact fun hm => h.off_live p (hsub p hm) hp
    have hplt : p < t.highWater := by
      rcases hp with hp | hp
      · exact h.others_lt p (by simp [others, hp])
      · exact h.live_lt p hp
    refine ⟨h.entries, hnd, ?_, fun q hq => h.off_live q (hsub q hq), fun q hq => ?_, h.live_lt,
      fun q hq => h.others_lt q (hsub q hq), fun q hq => ?_⟩
    · simp only [cons_append, nodup_cons, mem_append, not_or]
      exact ⟨⟨hf, hpf⟩, h.freed_nodup⟩
    · simp only [cons_append, mem_cons, not_or]
      exact ⟨fun he => hnot (he ▸ hq), h.off_freed q (hsub q hq)⟩
    · rcases mem_cons.1 hq with rfl | hq
      · exact hplt
      · exact h.freed_lt q hq

theorem OK.freeExtent
    (hp : p ∈ t.allocatedRuns ∨ p ∈ live ∧ p ∉ t.freed ++ t.freedRuns) :
    OK live (t.freeExtent p) := by
  unfold Txn.freeExtent
  split_ifs with hd
  · refine h.of_perm rfl (perm_iff_count.2 fun q => ?_) rfl rfl rfl
    have := (perm_cons_erase hd).count_eq q
    simp only [others, count_append, count_cons] at this ⊢
    omega
  · obtain ⟨hl, hf⟩ := hp.resolve_left hd
    have hperm : (t.freed ++ p :: t.freedRuns).Perm (p :: (t.freed ++ t.freedRuns)) :=
      perm_middle
    refine ⟨h.entries, h.nodup, hperm.nodup_iff.2 (nodup_cons.2 ⟨hf, h.freed_nodup⟩),
      h.off_live, fun q hq hm => ?_, h.live_lt, h.others_lt, fun q hq => ?_⟩
    · rcases mem_cons.1 (hperm.mem_iff.1 hm) with rfl | hm
      · exact h.off_live q hq hl
      · exact h.off_freed q hq hm
    · rcases mem_cons.1 (hperm.mem_iff.1 hq) with rfl | hm
      · exact h.live_lt q hl
      · exact h.freed_lt q hm

theorem OK.enterFreelistOp : OK live { t with inFreelistOp := true } :=
  { h with }

end

/-- The pages that the transaction may write or use. -/
def inHand (t : Txn) : List ℕ :=
  t.reusable ++ (t.runPool ++ (t.runOwn ++ (t.dirty ++ t.allocatedRuns)))

/-- The pages that are handled as parts of extent runs. -/
def runSide (t : Txn) : List ℕ :=
  t.runPool ++ (t.runOwn ++ (t.allocatedRuns ++ t.freedRuns))

/-- The transaction works on the freelist `es` from the high water mark `lo` on, has no page of
`avoid` in hand and handles only pages of `run` as parts of extents. -/
structure Tracked (avoid run : ℕ → Prop) (lo : ℕ) (es : List FreeEntry) (t : Txn) : Prop where
  entries : t.entries = es
  highWater : lo ≤ t.highWater
  avoids : ∀ q ∈ t.inHand, ¬ avoid q
  runs : ∀ q ∈ t.runSide, run q

section Tracked

variable {avoid run : ℕ → Prop} {lo : ℕ} {es : List FreeEntry}

theorem Tracked.start : Tracked avoid run lo es (start es lo) :=
  ⟨rfl, Nat.le_refl _, fun q hq => by simp [inHand, Txn.start] at hq,
    fun q hq => by simp [runSide, Txn.start] at hq⟩

section

variable (h : Tracked avoid run lo es t)

include h

theorem Tracked.mono {avoid' : ℕ → Prop}
    (ha : ∀ q, avoid' q → avoid q) : Tracked avoid' run lo es t :=
  { h with avoids := fun q hq hq' => h.avoids q hq (ha q hq') }

/-- A step that takes pages in hand only from where they may come from. -/
theorem Tracked.step (he : t'.entries = t.entries)
    (hw : t.highWater ≤ t'.highWater) (ha : ∀ q ∈ t'.inHand, q ∈ t.inHand ∨ ¬ avoid q)
    (hr : ∀ q ∈ t'.runSide, q ∈ t.runSide ∨ run q) : Tracked avoid run lo es t' where
  entries := he.trans h.entries
  highWater := Nat.le_trans h.highWater hw
  avoids q hq := (ha q hq).elim (h.avoids q) id
  runs q hq := (hr q hq).elim (h.runs q) id

theorem Tracked.refillReusable {bound : ℕ}
    {frontier : Option ℕ} (hs : t.refillReusable bound frontier = some t')
    (hd : ∀ e ∈ es, t.entries[t.cursor]? = some e →
      (e.kind = .runs → frontier.any (e.txn > ·) = false) → ∀ q ∈ e.ids, ¬ avoid q)
    (hr : ∀ e ∈ es, e.kind = .runs → ∀ q ∈ e.ids, run q) : Tracked avoid run lo es t' := by
  unfold Txn.refillReusable at hs
  split at hs
  · simp at hs
  split at hs
  · simp at hs
  rename_i e he
  have hmem : e ∈ es := h.entries ▸ mem_of_getElem? he
  split at hs
  · simp at hs
  split at hs
  · rename_i hk
    cases hs
    exact h.step rfl (Nat.le_refl _) (by grind [inHand]) fun _ => Or.inl
  · rename_i hk
    split at hs
    · simp at hs
    · rename_i hf
      cases hs
      exact h.step rfl (Nat.le_refl _) (by grind [inHand]) (by grind [runSide])

theorem Tracked.alloc (ha : ∀ q, lo ≤ q → ¬ avoid q)
    (hs : t.alloc p = some t') : Tracked avoid run lo es t' := by
  have hlo := h.highWater
  unfold Txn.alloc at hs
  split_ifs at hs with hp hw <;> cases hs
  · exact h.step rfl (Nat.le_refl _) (by grind [inHand]) fun _ => Or.inl
  · exact h.step rfl (Nat.le_succ _) (by grind [inHand]) fun _ => Or.inl

theorem Tracked.allocRun (ha : ∀ q, lo ≤ q → ¬ avoid q)
    (hr : ∀ q, lo ≤ q → run q) (hs : t.allocRun p = some t') : Tracked avoid run lo es t' := by
  have hlo := h.highWater
  unfold Txn.allocRun at hs
  split_ifs at hs with hp hp' hw <;> cases hs
  · exact h.step rfl (Nat.le_refl _) (by grind [inHand]) (by grind [runSide])
  · exact h.step rfl (Nat.le_refl _) (by grind [inHand]) (by grind [runSide])
  · exact h.step rfl (Nat.le_succ _) (by grind [inHand]) (by grind [runSide])

theorem Tracked.free (hs : t.free p = some t') :
    Tracked avoid run lo es t' := by
  unfold Txn.free at hs
  split_ifs at hs with hd hf <;> cases hs
  · exact h.step rfl (Nat.le_refl _) (by grind [inHand]) fun _ => Or.inl
  · exact h.step rfl (Nat.le_refl _) (by grind [inHand]) fun _ => Or.inl

theorem Tracked.freeExtent
    (hr : p ∉ t.allocatedRuns → run p) : Tracked avoid run lo es (t.freeExtent p) := by
  unfold Txn.freeExtent
  split_ifs with hd
  · exact h.step rfl (Nat.le_refl _) (by grind [inHand]) (by grind [runSide])
  · exact h.step rfl (Nat.le_refl _) (fun _ => Or.inl) (by grind [runSide])

theorem Tracked.enterFreelistOp :
    Tracked avoid run lo es { t with inFreelistOp := true } :=
  { h with }

end

end Tracked

theorem kept_sublist (t : Txn) (e : FreeEntry) : (t.kept e).Sublist e.ids := by
  unfold kept
  split <;> exact filter_sublist

theorem mem_kept {e : FreeEntry} (h : p ∈ t.kept e) :
    (e.kind = .pages ∧ p ∈ t.reusable) ∨ p ∈ t.runPool := by
  unfold kept at h
  split at h
  · rename_i hk
    exact Or.inl ⟨hk, by simpa using (mem_filter.1 h).2⟩
  · exact Or.inr (by simpa using (mem_filter.1 h).2)

theorem pagesOf_writeBack (t : Txn) : pagesOf t.writeBack = t.taken.flatMap t.kept := by
  unfold writeBack pagesOf
  induction t.taken with
  | nil => rfl
  | cons e es ih =>
    rw [flatMap_cons, ← ih]
    by_cases hk : t.kept e = []
    · simp [hk]
    · simp [hk]

theorem flatMap_kept_sublist (t : Txn) :
    ∀ es : List FreeEntry, (es.flatMap t.kept).Sublist (pagesOf es)
  | [] => List.Sublist.refl _
  | e :: es => by
    exact (kept_sublist t e).append (flatMap_kept_sublist t es)

theorem mem_writeBack (h : p ∈ pagesOf t.writeBack) :
    (p ∈ t.takenPages ∧ p ∈ t.reusable) ∨ p ∈ t.runPool := by
  rw [pagesOf_writeBack] at h
  obtain ⟨e, he, hp⟩ := mem_flatMap.1 h
  rcases mem_kept hp with ⟨hk, hr⟩ | hr
  · refine Or.inl ⟨mem_pagesOf.2 ⟨e, mem_filter.2 ⟨he, by simpa using hk⟩, ?_⟩, hr⟩
    exact (kept_sublist t e).subset hp
  · exact Or.inr hr

theorem pagesOf_ownEntries (n : ℕ) (k : EntryKind) (cs : List (List ℕ)) :
    pagesOf (ownEntries n k cs) = cs.flatten := by
  simp only [pagesOf, ownEntries, flatMap_def, map_map]
  rw [show ((fun e : FreeEntry => e.ids) ∘ fun c : List ℕ × ℕ => (⟨n, k, c.2, c.1⟩ : FreeEntry)) =
    Prod.fst from rfl, zipIdx_map_fst]

variable {n : ℕ} {pc rc : List (List ℕ)} {es : List FreeEntry}

/-- An entry of the new list is the commit's own or what is left of an old one. -/
theorem mem_freelistPlan (hs : t.freelistPlan n pc rc = some es) {e : FreeEntry} (he : e ∈ es) :
    (e.txn = n ∧ (e.kind = .runs → ∀ q ∈ e.ids, q ∈ t.ownRuns)) ∨
      ∃ e₀ ∈ t.entries, e₀.txn = e.txn ∧ e₀.kind = e.kind ∧ ∀ q ∈ e.ids, q ∈ e₀.ids := by
  unfold freelistPlan at hs
  split_ifs at hs with hperm
  cases hs
  simp only [mem_append] at he
  rcases he with ((he | he) | he) | he
  · obtain ⟨e₀, he₀, hk⟩ := mem_filterMap.1 he
    split_ifs at hk
    cases hk
    exact Or.inr ⟨e₀, mem_of_mem_take he₀, rfl, rfl, fun q hq => (kept_sublist t e₀).subset hq⟩
  · exact Or.inr ⟨e, mem_of_mem_drop he, rfl, rfl, fun _ hq => hq⟩
  · obtain ⟨c, -, rfl⟩ := mem_map.1 he
    exact Or.inl ⟨rfl, fun hk => by simp at hk⟩
  · refine Or.inl ⟨?_, fun _ q hq => ?_⟩
    · obtain ⟨c, -, rfl⟩ := mem_map.1 he
      rfl
    · have hflat : q ∈ pagesOf (ownEntries n .runs rc) := mem_pagesOf.2 ⟨e, he, hq⟩
      rw [pagesOf_ownEntries] at hflat
      exact (isPerm_iff.1 hperm.2).mem_iff.1 hflat

/-- How often the commit lists a page: as often as the pool, the undrawn entries and the pages freed
hold it. -/
theorem OK.count_freelistPlan (h : OK live t) (hs : t.freelistPlan n pc rc = some es) (q : ℕ) :
    (pagesOf es).count q ≤ t.reusable.count q + t.runPool.count q + t.runOwn.count q +
      (pagesOf (t.entries.drop t.cursor)).count q + (t.freed ++ t.freedRuns).count q := by
  unfold freelistPlan at hs
  split_ifs at hs with hperm
  cases hs
  have hpc := (isPerm_iff.1 hperm.1).count_eq q
  have hrc := (isPerm_iff.1 hperm.2).count_eq q
  have hfilter : (t.reusable.filter (· ∉ t.takenPages)).count q ≤ t.reusable.count q :=
    filter_sublist.count_le q
  have hW : (pagesOf t.writeBack).count q ≤ 1 := by
    rw [pagesOf_writeBack]
    refine nodup_iff_count_le_one.1 ?_ q
    have hsplit : pagesOf t.entries = pagesOf t.taken ++ pagesOf (t.entries.drop t.cursor) := by
      rw [taken, ← pagesOf_append, take_append_drop]
    have hnd := h.entries
    rw [hsplit] at hnd
    exact hnd.of_append_left.sublist (flatMap_kept_sublist t t.taken)
  -- a page written back is not also listed as the transaction's own
  have hback : (pagesOf t.writeBack).count q + (t.reusable.filter (· ∉ t.takenPages)).count q ≤
      t.reusable.count q + t.runPool.count q := by
    by_cases hq : q ∈ pagesOf t.writeBack
    · rcases mem_writeBack hq with ⟨h1, h2⟩ | h1
      · have h0 : (t.reusable.filter (· ∉ t.takenPages)).count q = 0 := by
          rw [count_eq_zero]
          simp [h1]
        have := count_pos_iff.2 h2
        omega
      · have := count_pos_iff.2 h1
        omega
    · rw [count_eq_zero.2 hq]
      omega
  simp only [ownPages, ownRuns, count_append] at hpc hrc
  simp only [pagesOf_append, pagesOf_ownEntries, count_append]
  omega

theorem OK.taken_not_mem_freelistPlan (h : OK live t) (hs : t.freelistPlan n pc rc = some es)
    (hp : p ∈ t.dirty ++ t.allocatedRuns) : p ∉ pagesOf es := by
  have hone := nodup_iff_count_le_one.1 h.nodup p
  have hmem : p ∈ t.others := by
    simp only [others, mem_append] at hp ⊢
    tauto
  have hfreed := count_eq_zero.2 (h.off_freed p hmem)
  have hcount := h.count_freelistPlan hs p
  have hpos := count_pos_iff.2 hp
  rw [← count_eq_zero]
  simp only [others, count_append] at hone hpos hcount hfreed
  omega

/-- The freelist of a commit is accounted for against trees made of pages of the snapshot that were
not freed and of pages the transaction took. -/
theorem OK.freelistPlan (h : OK live t) (hs : t.freelistPlan n pc rc = some es) {live' : List ℕ}
    (hl : ∀ p ∈ live', (p ∈ live ∧ p ∉ t.freed ++ t.freedRuns) ∨ p ∈ t.dirty ++ t.allocatedRuns) :
    Accounted live' es t.highWater := by
  -- a page is at the transaction's disposal or freed, and never both
  have hsplit : ∀ q, (t.others.count q ≤ 1 ∧ (t.freed ++ t.freedRuns).count q = 0) ∨
      (t.others.count q = 0 ∧ (t.freed ++ t.freedRuns).count q ≤ 1) := by
    intro q
    by_cases hq : q ∈ t.others
    · exact Or.inl ⟨nodup_iff_count_le_one.1 h.nodup q, count_eq_zero.2 (h.off_freed q hq)⟩
    · exact Or.inr ⟨count_eq_zero.2 hq, nodup_iff_count_le_one.1 h.freed_nodup q⟩
  have hcount := h.count_freelistPlan hs
  have hothers : ∀ q, t.others.count q = t.reusable.count q + t.runPool.count q +
      t.runOwn.count q + (t.dirty ++ t.allocatedRuns).count q +
      (pagesOf (t.entries.drop t.cursor)).count q := by
    intro q
    simp only [others, count_append]
    omega
  have hmem : ∀ q ∈ pagesOf es, q ∈ t.others ∨ q ∈ t.freed ++ t.freedRuns := by
    intro q hq
    have := count_pos_iff.2 hq
    have h1 := hcount q
    have h2 := hothers q
    rw [← count_pos_iff, ← count_pos_iff]
    omega
  refine ⟨nodup_iff_count_le_one.2 fun q => ?_, fun q hq hm => ?_, fun q hq => ?_,
    fun q hq => ?_⟩
  · have h1 := hcount q
    have h2 := hothers q
    rcases hsplit q with h3 | h3 <;> omega
  · rcases hl q hq with ⟨h1, h2⟩ | h1
    · rcases hmem q hm with h3 | h3
      · exact h.off_live q h3 h1
      · exact h2 h3
    · have h1 := count_pos_iff.2 h1
      have h2 := count_pos_iff.2 hm
      have h3 := hcount q
      have h4 := hothers q
      rcases hsplit q with h5 | h5 <;> omega
  · rcases hl q hq with ⟨h1, -⟩ | h1
    · exact h.live_lt q h1
    · have h1 := count_pos_iff.2 h1
      have h2 := hothers q
      exact h.others_lt q (count_pos_iff.1 (by omega))
  · rcases hmem q hq with h1 | h1
    · exact h.others_lt q h1
    · exact h.freed_lt q h1

end Txn

end Mpedb
