import Mpedb.WriteTxn

/-!
# The engine's page store keeps the rules

A draw of the freelist moves pages from one available place to another, and what the savepoints keep
is not seen by readers, so a call changes at most the page that it hands out, writes or frees.
-/

namespace Mpedb.Btree

open PageStore StoreView

section SameBut

variable {σ : Type} [PageStore σ] [StoreView σ] {s s' s'' : σ} {ids : List ℕ}

theorem SameBut.refl (ids : List ℕ) (s : σ) : SameBut ids s s :=
  ⟨fun _ _ => rfl, fun _ _ => rfl, fun _ _ => Iff.rfl, rfl, rfl⟩

theorem SameBut.trans (h : SameBut ids s s') (h' : SameBut ids s' s'') : SameBut ids s s'' where
  mem i hi := (h'.mem i hi).trans (h.mem i hi)
  isDirty i hi := (h'.isDirty i hi).trans (h.isDirty i hi)
  available i hi := (h'.available i hi).trans (h.available i hi)
  extents := h'.extents.trans h.extents
  externals := h'.externals.trans h.externals

theorem SameBut.mono (h : SameBut [] s s') : SameBut ids s s' :=
  ⟨fun i _ => h.mem i (by simp), fun i _ => h.isDirty i (by simp),
    fun i _ => h.available i (by simp), h.extents, h.externals⟩

end SameBut

namespace WriteTxn

variable {s s' : WriteTxn} {id : ℕ}

theorem draw_same : ∀ (n : ℕ) (s : WriteTxn), SameBut [] s (s.draw n)
  | 0, s => .refl _ s
  | n + 1, s => by
    unfold draw
    split_ifs
    · exact .refl _ s
    split
    · exact ⟨fun _ _ => rfl, fun _ _ => rfl, fun _ _ => Iff.rfl, rfl, rfl⟩
    rename_i t ht
    refine SameBut.trans ?_ (draw_same n _)
    obtain ⟨e, he, rfl | rfl⟩ := Txn.refillReusable_cases ht
    · refine ⟨fun _ _ => rfl, fun _ _ => rfl, fun i _ => ?_, rfl, rfl⟩
      -- the pages of the entry were listed before
      have := Txn.mem_pagesOf_of_mem (p := i) he
      simp only [available, List.mem_append]
      tauto
    · exact ⟨fun _ _ => rfl, fun _ _ => rfl, fun _ _ => Iff.rfl, rfl, rfl⟩

theorem takeId_error {e : Error} (h : s.takeId = (s', .error e)) : s' = s := by
  unfold takeId at h
  split at h
  · cases h
  · split_ifs at h <;> cases h
    rfl

theorem takeId_ok (h : s.takeId = (s', .ok id)) :
    SameBut [id] s s' ∧ available s id ∧ isDirty s' id = true ∧ id < s'.pageCount := by
  unfold takeId at h
  split at h
  · rename_i p hp
    cases h
    have hmem := List.maximum_mem hp
    refine ⟨⟨fun _ _ => rfl, fun i hi => ?_, fun i hi => ?_, rfl, rfl⟩, .inl hmem, ?_, ?_⟩
    · simp [isDirty, show i ≠ id by simpa using hi]
    · simp [available, List.mem_erase_of_ne (show i ≠ id by simpa using hi)]
    · simp [isDirty]
    · exact s.within.pages id (by simp [hmem])
  · split_ifs at h with hw
    · cases h
    obtain ⟨rfl, hid⟩ := Prod.mk.inj h
    cases hid
    have hlt := (Nat.lt_of_not_le hw).trans_le s.ceiling_le
    refine ⟨⟨fun _ _ => rfl, fun i hi => ?_, fun i hi => ?_, rfl, rfl⟩, .inr (.inr le_rfl), ?_,
      hlt⟩
    · simp [isDirty, show i ≠ s.txn.highWater by simpa using hi]
    · have hi : i ≠ s.txn.highWater := by simpa using hi
      have : s.txn.highWater + 1 ≤ i ↔ s.txn.highWater ≤ i := by omega
      simp only [available, this]
    · simp [isDirty]

/-- The draws that come first change nothing that counts. -/
theorem allocRaw_eq (s : WriteTxn) : ∃ s₁, SameBut [] s s₁ ∧ allocRaw s = s₁.takeId := by
  refine ⟨_, ?_, rfl⟩
  split_ifs
  · exact draw_same _ s
  · exact .refl _ s

theorem allocRaw_error (s s' : WriteTxn) (e : Error) (h : allocRaw s = (s', .error e)) :
    SameBut [] s s' := by
  obtain ⟨s₁, hs₁, heq⟩ := allocRaw_eq s
  cases takeId_error (heq.symm.trans h)
  exact hs₁

theorem allocRaw_ok (s s' : WriteTxn) (id : ℕ) (h : allocRaw s = (s', .ok id)) :
    SameBut [id] s s' ∧ available s id ∧ isDirty s' id = true ∧ id < s'.pageCount := by
  obtain ⟨s₁, hs₁, heq⟩ := allocRaw_eq s
  obtain ⟨hsame, hav, hrest⟩ := takeId_ok (heq.symm.trans h)
  exact ⟨hs₁.mono.trans hsame, (hs₁.available id (by simp)).1 hav, hrest⟩

theorem put_same (id : ℕ) (p : Page) (s : WriteTxn) : SameBut [id] s (s.put id p) :=
  ⟨fun i hi => Function.update_of_ne (by simpa using hi) .., fun _ _ => rfl, fun _ _ => Iff.rfl,
    rfl, rfl⟩

/-- A page that was handed out is a page of the file. -/
theorem alloc_eq (s : WriteTxn) : alloc s = match allocRaw s with
    | (s', .ok id) => (s'.put id .zeroed, .ok id)
    | (s', .error e) => (s', .error e) := by
  rcases hr : allocRaw s with ⟨s', e | id⟩
  · exact Fallible.bind_of_error hr
  · refine (Fallible.bind_of_ok hr).trans ?_
    have hpage : s'.page id = .ok (s'.pages id) :=
      if_neg (Nat.not_le_of_lt (allocRaw_ok s s' id hr).2.2.2)
    have hread : (Fallible.reading (page · id) : Fallible WriteTxn Error Page) s' =
        (s', .ok (s'.pages id)) := congrArg (Prod.mk s') hpage
    rw [Fallible.bind_of_ok hread]
    rfl

theorem journal_same (id : ℕ) (s : WriteTxn) : SameBut [] s (journal id s).1 := by
  unfold journal
  split
  · exact .refl _ s
  split_ifs
  · exact .refl _ s
  split
  · exact .refl _ s
  · exact ⟨fun _ _ => rfl, fun _ _ => rfl, fun _ _ => Iff.rfl, rfl, rfl⟩

theorem release_error {e : Error} (h : release id s = (s', .error e)) : s' = s := by
  unfold release at h
  split at h <;> cases h
  rfl

theorem release_ok (h : release id s = (s', .ok ())) :
    (isDirty s id = false → SameBut [] s s') ∧
      (isDirty s id = true → SameBut [id] s s' ∧ available s' id) := by
  unfold release at h
  split at h
  · cases h
  rename_i t ht
  obtain ⟨rfl, -⟩ := Prod.mk.inj h
  unfold Txn.free at ht
  split_ifs at ht with hd hf
  · cases ht
    refine ⟨fun hc => ?_, fun _ => ⟨⟨fun _ _ => rfl, fun i hi => ?_, fun i hi => ?_, rfl, rfl⟩, ?_⟩⟩
    · simp [isDirty, hd.1] at hc
    · simp [isDirty, List.mem_erase_of_ne (show i ≠ id by simpa using hi)]
    · simp [available, show i ≠ id by simpa using hi]
    · exact .inl (List.mem_cons_self ..)
  · have hd : id ∉ s.txn.dirty := fun hm => hd ⟨hm, s.within.idle⟩
    cases ht
    refine ⟨fun _ => ⟨fun _ _ => rfl, fun i _ => ?_, fun _ _ => Iff.rfl, rfl, rfl⟩, fun hc => ?_⟩
    · simp [isDirty, List.erase_of_not_mem hd]
    · simp [isDirty, hd] at hc

/-- `free` after what it keeps for the savepoint. -/
theorem free_eq (id : ℕ) (s : WriteTxn) : ∃ s₁, SameBut [] s s₁ ∧
    ((∃ e, free id s = (s₁, .error e)) ∨ free id s = release id s₁) := by
  unfold free
  split_ifs
  · have hsame := journal_same id s
    rcases hj : journal id s with ⟨s₁, e | ⟨⟩⟩ <;> rw [hj] at hsame
    · exact ⟨s₁, hsame, .inl ⟨e, Fallible.bind_of_error hj⟩⟩
    · exact ⟨s₁, hsame, .inr (Fallible.bind_of_ok hj)⟩
  · exact ⟨s, .refl _ s, .inr rfl⟩

instance : CowStore WriteTxn where
  pageMut_same id s := by
    show SameBut [] s (pageMut id s).1
    unfold pageMut
    split_ifs
    · have hsame := journal_same id s
      rcases hj : journal id s with ⟨s₁, e | ⟨⟩⟩ <;> rw [hj] at hsame
      · rwa [Fallible.bind_of_error hj]
      · rwa [Fallible.bind_of_ok hj]
    · exact .refl _ s
  pageMut_dirty id s s' p h := by
    change pageMut id s = _ at h
    unfold pageMut at h
    split_ifs at h with hd
    · simpa [isDirty] using hd
    · cases h
  put_same := put_same
  put_dirty _ _ _ := rfl
  alloc_error s s' e h := by
    change alloc s = _ at h
    rw [alloc_eq] at h
    rcases hr : allocRaw s with ⟨s₁, e₁ | id⟩ <;> rw [hr] at h <;> cases h
    exact allocRaw_error s s' e hr
  alloc_ok s s' id h := by
    change alloc s = _ at h
    rw [alloc_eq] at h
    rcases hr : allocRaw s with ⟨s₁, e | id₁⟩ <;> rw [hr] at h <;> cases h
    obtain ⟨hsame, hav, hdirty, -⟩ := allocRaw_ok s s₁ id hr
    exact ⟨hsame.trans (put_same id .zeroed s₁), hav, hdirty⟩
  allocRaw_error := allocRaw_error
  allocRaw_ok s s' id h := by
    obtain ⟨hsame, hav, hdirty, -⟩ := allocRaw_ok s s' id h
    exact ⟨hsame, hav, hdirty⟩
  free_error id s s' e h := by
    change free id s = _ at h
    obtain ⟨s₁, hs₁, ⟨e, he⟩ | heq⟩ := free_eq id s
    · cases he.symm.trans h
      exact hs₁
    · cases release_error (heq.symm.trans h)
      exact hs₁
  free_ok id s s' h := by
    change free id s = _ at h
    obtain ⟨s₁, hs₁, ⟨e, he⟩ | heq⟩ := free_eq id s
    · cases he.symm.trans h
    · obtain ⟨hclean, hdirty⟩ := release_ok (heq.symm.trans h)
      rw [hs₁.isDirty id (by simp)] at hclean hdirty
      exact ⟨fun hd => hs₁.trans (hclean hd),
        fun hd => ⟨hs₁.mono.trans (hdirty hd).1, (hdirty hd).2⟩⟩
  adoptInplace_eq _ _ := rfl
  freeExtent_same start n s := by
    have hsingle := Txn.single_freeExtent (List.range' start n) s.txn
    simp only [Txn.single, Prod.mk.injEq] at hsingle
    obtain ⟨-, hw, hr, hd, he⟩ := hsingle
    refine ⟨fun _ _ => rfl, fun i _ => ?_, fun i _ => ?_, rfl, rfl⟩
    · exact congrArg (fun l => decide (i ∈ l)) hd
    · simp only [available, PageStore.freeExtent, freeExtent, hw, hr, he]
  releaseExternal_same _ s := .refl _ s

end WriteTxn

end Mpedb.Btree
