import Mathlib.Data.Set.Basic
import Mpedb.Proofs.Pages
import Mpedb.Proofs.WriteTxn
import Mpedb.BtreeRead

/-!
# Tree operations and committed states

A store in copy-on-write mode changes only dirty pages and pages that it has just handed out. Every
insert and every delete is composed of its operations, so they keep the committed pages: nothing has
to be known of the tree, and nothing of where the call fails.
-/

namespace Mpedb.Btree

open PageStore StoreView Fallible List

section Frozen

variable {σ : Type} [PageStore σ] [StoreView σ] {s s' : σ} {α : Type}

/-- The committed pages with their contents, and the payloads outside. -/
def frozen (s : σ) : Set (ℕ × Page) × (ℕ → ℕ → Except Error (List UInt8)) ×
    (ℕ → ℕ → Except Error (List UInt8)) :=
  ({x | Committed s x.1 ∧ mem s x.1 = x.2}, extents s, externals s)

variable {id : ℕ}

theorem SameBut.committed {ids : List ℕ} (h : SameBut ids s s') (hid : id ∉ ids) :
    Committed s' id ↔ Committed s id := by
  unfold Committed
  rw [h.isDirty id hid, h.available id hid]

theorem SameBut.frozen {ids : List ℕ} (h : SameBut ids s s') (hbefore : ∀ i ∈ ids, ¬Committed s i)
    (hafter : ∀ i ∈ ids, ¬Committed s' i) : frozen s' = frozen s := by
  refine Prod.ext (Set.ext fun x => ?_) (Prod.ext h.extents h.externals)
  by_cases hx : x.1 ∈ ids
  · exact ⟨fun hc => absurd hc.1 (hafter _ hx), fun hc => absurd hc.1 (hbefore _ hx)⟩
  · show Committed s' x.1 ∧ _ ↔ Committed s x.1 ∧ _
    rw [h.committed hx, h.mem _ hx]

theorem SameBut.frozen_nil (h : SameBut [] s s') : Btree.frozen s' = Btree.frozen s :=
  h.frozen (by simp) (by simp)

theorem not_committed_of_dirty (h : isDirty s id = true) : ¬Committed s id :=
  fun hc => by simp [hc.1] at h

theorem not_committed_of_available (h : available s id) : ¬Committed s id :=
  fun hc => hc.2 h

theorem keeps_of_alloc {m : Fallible σ Error ℕ}
    (herror : ∀ s s' e, m s = (s', .error e) → SameBut [] s s')
    (hok : ∀ s s' id, m s = (s', .ok id) →
      SameBut [id] s s' ∧ available s id ∧ isDirty s' id = true) : Keeps frozen m := by
  intro s
  rcases hm : m s with ⟨s', e | id⟩
  · exact (herror s s' e hm).frozen_nil
  · obtain ⟨hsame, hav, hdirty⟩ := hok s s' id hm
    refine hsame.frozen ?_ ?_
    · simpa using not_committed_of_available hav
    · simpa using not_committed_of_dirty hdirty

theorem keeps_load (id : ℕ) : Keeps frozen (load id : Fallible σ Error Page) := keeps_reading _

variable [CowStore σ]

theorem keeps_pageMut (id : ℕ) : Keeps frozen (pageMut id : Fallible σ Error Page) :=
  fun s => (CowStore.pageMut_same id s).frozen_nil

theorem keeps_alloc : Keeps frozen (alloc : Fallible σ Error ℕ) :=
  keeps_of_alloc CowStore.alloc_error CowStore.alloc_ok

theorem keeps_allocRaw : Keeps frozen (allocRaw : Fallible σ Error ℕ) :=
  keeps_of_alloc CowStore.allocRaw_error CowStore.allocRaw_ok

theorem keeps_free (id : ℕ) : Keeps frozen (free id : Fallible σ Error Unit) := by
  intro s
  rcases hm : (free id : Fallible σ Error Unit) s with ⟨s', e | ⟨⟩⟩
  · exact (CowStore.free_error id s s' e hm).frozen_nil
  · obtain ⟨hclean, hdirty⟩ := CowStore.free_ok id s s' hm
    rcases hd : isDirty s id with _ | _
    · exact (hclean hd).frozen_nil
    · obtain ⟨hsame, hav⟩ := hdirty hd
      refine hsame.frozen ?_ ?_
      · simpa using not_committed_of_dirty hd
      · simpa using not_committed_of_available hav

theorem keeps_freeExtent (start n : ℕ) :
    Keeps frozen (freeExtent start n : Fallible σ Error Unit) :=
  fun s => (CowStore.freeExtent_same start n s).frozen_nil

theorem keeps_releaseExternal (hash : ℕ) :
    Keeps frozen (releaseExternal hash : Fallible σ Error Unit) :=
  fun s => (CowStore.releaseExternal_same hash s).frozen_nil

/-- Whatever the work is: `pageMut` has let only a dirty page through. -/
theorem keeps_update (id : ℕ) (f : Fallible Page Error α) :
    Keeps frozen (update id f : Fallible σ Error α) := by
  intro s
  have hkeep := keeps_pageMut id s
  unfold update
  rcases hm : (pageMut id : Fallible σ Error Page) s with ⟨s', e | p⟩ <;> rw [hm] at hkeep
  · rw [bind_of_error hm]
    exact hkeep
  · rw [bind_of_ok hm]
    have hdirty : isDirty s' id = true := by
      have hsame := CowStore.pageMut_same id s
      rw [hm] at hsame
      rw [hsame.isDirty id (by simp)]
      exact CowStore.pageMut_dirty id s s' p hm
    refine Eq.trans ?_ hkeep
    refine (CowStore.put_same id (f p).1 s').frozen ?_ ?_
    · simpa using not_committed_of_dirty hdirty
    · have := (CowStore.put_dirty id (f p).1 s').trans hdirty
      simpa using not_committed_of_dirty this

theorem keeps_cow (id : ℕ) : Keeps frozen (cow id : Fallible σ Error ℕ) := by
  refine (keeps_reading _).bind fun dirty => ?_
  refine keeps_ite (keeps_pure _) ?_
  refine Keeps.bind (fun s => by rw [CowStore.adoptInplace_eq]) fun adopted => ?_
  refine keeps_ite (keeps_pure _) ?_
  exact keeps_alloc.bind fun newId => (keeps_load id).bind fun src =>
    (keeps_update newId _).bind fun _ => (keeps_free id).bind fun _ => keeps_pure _

/-! ## Inserts and deletes -/

theorem keeps_writeOverflowLoop : ∀ (fuel left : ℕ) (head : List UInt8) (r : PayloadReader)
    (first prev : ℕ), Keeps frozen (writeOverflowLoop fuel left head r first prev :
      Fallible σ Error ℕ)
  | 0, _, _, _, _, _ => keeps_fail _
  | fuel + 1, left, head, r, first, prev => by
    refine keeps_allocRaw.bind fun id => (keeps_update id _).bind fun x => ?_
    refine Keeps.bind (keeps_ite (keeps_pure _) (keeps_update prev _)) fun _ => ?_
    exact keeps_ite (keeps_pure _) (keeps_writeOverflowLoop fuel _ _ _ _ _)

theorem keeps_writeOverflow (val : Payload) :
    Keeps frozen (writeOverflow val : Fallible σ Error ℕ) :=
  keeps_writeOverflowLoop _ _ _ _ _ _

theorem keeps_spill (val : Payload) : Keeps frozen (spill val : Fallible σ Error ℕ) :=
  keeps_ite (keeps_writeOverflow val) (keeps_pure _)

theorem keeps_freeOverflowLoop : ∀ left id : ℕ,
    Keeps frozen (freeOverflowLoop left id : Fallible σ Error Unit)
  | 0, id => by
    exact keeps_ite (keeps_pure _) (keeps_fail _)
  | left + 1, id => by
    refine keeps_ite (keeps_pure _) ((keeps_load id).bind fun p => ?_)
    refine keeps_ite (keeps_fail _) ((keeps_free id).bind fun _ => ?_)
    exact keeps_freeOverflowLoop left p.extra

theorem keeps_freeOldVal : ∀ v : LeafVal, Keeps frozen (freeOldVal v : Fallible σ Error Unit)
  | .inline _ => keeps_pure _
  | .overflow _ first => keeps_freeOverflowLoop _ first
  | .extent start _ n => keeps_freeExtent start n
  | .external hash _ => keeps_releaseExternal hash

theorem keeps_splitDirty (pageId : ℕ) (kind : PageKind) (cells : List (List UInt8)) (leftmost : ℕ) :
    Keeps frozen (splitDirty pageId kind cells leftmost : Fallible σ Error (List UInt8 × ℕ)) := by
  unfold splitDirty
  split
  · exact keeps_fail _
  · refine keeps_alloc.bind fun rightId => keeps_ite ?_ ?_
    · exact (keeps_update pageId _).bind fun _ => (keeps_update rightId _).bind fun _ =>
        keeps_pure _
    · exact (keeps_update pageId _).bind fun _ => (keeps_update rightId _).bind fun _ =>
        keeps_pure _

theorem keeps_writeCell (key : List UInt8) (val : Payload) :
    Keeps frozen (writeCell key val : Fallible σ Error (List UInt8)) := by
  refine (keeps_lift _).bind fun drained => ?_
  split
  · exact keeps_pure _
  · have hlong : Keeps frozen (do
        let op ← spill val
        pure (makeLeafCell key val op) : Fallible σ Error (List UInt8)) :=
      (keeps_spill val).bind fun _ => keeps_pure _
    cases val with
    | extentRef | externalRef => exact keeps_pure _
    | flat | parts | stream => exact hlong

theorem keeps_addCell (id pos : ℕ) (kind : PageKind) (cell : List UInt8) (existed : Bool) :
    Keeps frozen (addCell id pos kind cell existed : Fallible σ Error Ins) := by
  refine (keeps_load id).bind fun p => (keeps_lift _).bind fun fits => keeps_ite ?_ ?_
  · exact (keeps_update id _).bind fun _ => keeps_pure _
  · exact (keeps_lift _).bind fun cells => (keeps_splitDirty _ _ _ _).bind fun _ => keeps_pure _

theorem keeps_dropCell (id pos : ℕ) : Keeps frozen (dropCell id pos : Fallible σ Error Unit) := by
  exact (keeps_load id).bind fun p => (keeps_lift _).bind fun kv =>
    (keeps_freeOldVal kv.2).bind fun _ => keeps_update id _

theorem keeps_insertLeaf (pageId : ℕ) (key : List UInt8) (val : Payload) (mode : InsertMode) :
    Keeps frozen (insertLeaf pageId key val mode : Fallible σ Error Ins) := by
  refine (keeps_load pageId).bind fun p => (keeps_lift _).bind fun found => ?_
  cases found with
  | hit pos =>
    refine keeps_ite (keeps_pure _) ?_
    exact (keeps_cow pageId).bind fun id => (keeps_dropCell id pos).bind fun _ =>
      (keeps_writeCell key val).bind fun cell => keeps_addCell _ _ _ _ _
  | gap pos =>
    exact (keeps_cow pageId).bind fun id => (keeps_writeCell key val).bind fun cell =>
      keeps_addCell _ _ _ _ _

theorem keeps_insertBranch (pageId idx child : ℕ) (ins : Ins) :
    Keeps frozen (insertBranch pageId idx child ins : Fallible σ Error Ins) := by
  cases ins with
  | done id existed =>
    refine (keeps_reading _).bind fun dirty => keeps_ite (keeps_pure _) ?_
    exact (keeps_cow pageId).bind fun myId => (keeps_update myId _).bind fun _ => keeps_pure _
  | split left sep right existed =>
    exact (keeps_cow pageId).bind fun myId => (keeps_update myId _).bind fun _ =>
      keeps_addCell _ _ _ _ _

theorem keeps_insertRec (key : List UInt8) (val : Payload) (mode : InsertMode) :
    ∀ fuel pageId : ℕ, Keeps frozen (insertRec fuel pageId key val mode : Fallible σ Error Ins)
  | 0, _ => keeps_fail _
  | fuel + 1, pageId => by
    refine (keeps_load pageId).bind fun p => (keeps_lift _).bind fun _ => ?_
    split
    · exact keeps_insertLeaf pageId key val mode
    · exact (keeps_load pageId).bind fun p => (keeps_lift _).bind fun idx =>
        (keeps_lift _).bind fun child => (keeps_insertRec key val mode fuel child).bind fun res =>
          keeps_insertBranch pageId idx child res
    · exact keeps_fail _

theorem keeps_insert (levels root : ℕ) (key : List UInt8) (val : Payload) (mode : InsertMode) :
    Keeps frozen (insert levels root key val mode : Fallible σ Error Outcome) := by
  refine keeps_ite (keeps_fail _) (keeps_ite (keeps_fail _) (keeps_ite ?_ ?_))
  · unfold insertFirst
    refine keeps_alloc.bind fun id => (keeps_update id _).bind fun _ => ?_
    exact (keeps_spill val).bind fun op => (keeps_update id _).bind fun _ => keeps_pure _
  · refine (keeps_insertRec key val mode levels root).bind fun ins => ?_
    cases ins with
    | done id existed => exact keeps_pure _
    | split left sep right existed =>
      exact keeps_alloc.bind fun id => (keeps_update id _).bind fun _ =>
        (keeps_update id _).bind fun _ => keeps_pure _

theorem keeps_mergeCells (left : ℕ) : ∀ (i : ℕ) (cells : List (List UInt8)),
    Keeps frozen (mergeCells left i cells : Fallible σ Error Unit)
  | _, [] => keeps_pure _
  | i, c :: cells => by
    refine Keeps.bind ((keeps_load left).bind fun p => ?_) fun _ =>
      (keeps_update left _).bind fun _ => keeps_mergeCells left (i + 1) cells
    exact keeps_ite (keeps_update left _) (keeps_pure _)

theorem keeps_mergeLeaves (branchId li : ℕ) :
    Keeps frozen (mergeLeaves branchId li : Fallible σ Error Unit) := by
  refine (keeps_load branchId).bind fun b => (keeps_lift _).bind fun left => ?_
  refine (keeps_lift _).bind fun right => (keeps_load left).bind fun l => ?_
  refine (keeps_lift _).bind fun _ => (keeps_load right).bind fun r => ?_
  refine (keeps_lift _).bind fun _ => keeps_ite (keeps_pure _) ?_
  refine (keeps_lift _).bind fun _ => (keeps_lift _).bind fun _ => keeps_ite (keeps_pure _) ?_
  refine (keeps_cow left).bind fun left => (keeps_load right).bind fun r => ?_
  refine (keeps_lift _).bind fun cells => (keeps_load left).bind fun l => ?_
  exact (keeps_mergeCells left _ cells).bind fun _ => (keeps_free right).bind fun _ =>
    keeps_update branchId _

theorem keeps_tryMergeLeaves (branchId idx : ℕ) :
    Keeps frozen (tryMergeLeaves branchId idx : Fallible σ Error Unit) := by
  refine (keeps_load branchId).bind fun b => (keeps_lift _).bind fun child => ?_
  refine (keeps_load child).bind fun c => (keeps_lift _).bind fun _ => ?_
  refine keeps_ite (keeps_pure _) ((keeps_lift _).bind fun used => ?_)
  refine keeps_ite (keeps_pure _) (keeps_ite (keeps_mergeLeaves _ _) ?_)
  exact keeps_ite (keeps_mergeLeaves _ _) (keeps_pure _)

theorem keeps_deleteLeaf (pageId : ℕ) (key : List UInt8) :
    Keeps frozen (deleteLeaf pageId key : Fallible σ Error Del) := by
  refine (keeps_load pageId).bind fun p => (keeps_lift _).bind fun found => ?_
  cases found with
  | gap pos => exact keeps_pure _
  | hit pos =>
    refine (keeps_cow pageId).bind fun id => (keeps_dropCell id pos).bind fun _ => ?_
    refine (keeps_load id).bind fun p => keeps_ite ?_ (keeps_pure _)
    exact (keeps_free id).bind fun _ => keeps_pure _

theorem keeps_dropChild (myId : ℕ) (existed : Bool) :
    ∀ idx : ℕ, Keeps frozen (dropChild myId idx existed : Fallible σ Error Del)
  | 0 => by
    refine (keeps_load myId).bind fun p => keeps_ite ?_ ?_
    · exact (keeps_free myId).bind fun _ => keeps_pure _
    · exact (keeps_lift _).bind fun _ => (keeps_update myId _).bind fun _ => keeps_pure _
  | i + 1 => by
    exact (keeps_load myId).bind fun p => (keeps_update myId _).bind fun _ => keeps_pure _

theorem keeps_deleteBranch (pageId idx child : ℕ) (res : Del) :
    Keeps frozen (deleteBranch pageId idx child res : Fallible σ Error Del) := by
  refine (keeps_reading _).bind fun dirty => keeps_ite (keeps_pure _) ?_
  refine (keeps_cow pageId).bind fun myId => keeps_ite ?_ (keeps_dropChild _ _ _)
  exact (keeps_update myId _).bind fun _ => (keeps_tryMergeLeaves _ _).bind fun _ => keeps_pure _

theorem keeps_deleteRec (key : List UInt8) :
    ∀ fuel pageId : ℕ, Keeps frozen (deleteRec fuel pageId key : Fallible σ Error Del)
  | 0, _ => keeps_fail _
  | fuel + 1, pageId => by
    refine (keeps_load pageId).bind fun p => (keeps_lift _).bind fun _ => ?_
    split
    · exact keeps_deleteLeaf pageId key
    · exact (keeps_load pageId).bind fun p => (keeps_lift _).bind fun idx =>
        (keeps_lift _).bind fun child => (keeps_deleteRec key fuel child).bind fun res =>
          keeps_deleteBranch pageId idx child res
    · exact keeps_fail _

theorem keeps_collapseRoot : ∀ fuel root : ℕ,
    Keeps frozen (collapseRoot fuel root : Fallible σ Error ℕ)
  | 0, _ => keeps_fail _
  | fuel + 1, root => by
    refine keeps_ite (keeps_pure _) ((keeps_load root).bind fun p => keeps_ite ?_ (keeps_pure _))
    exact (keeps_free root).bind fun _ => keeps_collapseRoot fuel p.extra

theorem keeps_delete (levels root : ℕ) (key : List UInt8) :
    Keeps frozen (delete levels root key : Fallible σ Error Outcome) := by
  refine keeps_ite (keeps_pure _) ((keeps_deleteRec key levels root).bind fun res => ?_)
  exact (keeps_collapseRoot _ _).bind fun _ => keeps_pure _

theorem keeps_run (levels : ℕ) : ∀ op : TreeOp,
    Keeps frozen (op.run levels : Fallible σ Error Outcome)
  | .insert root key val mode => keeps_insert levels root key val mode
  | .delete root key => keeps_delete levels root key

end Frozen

namespace Page

variable {p : Page} {key : List UInt8}

/-- The search stays within its bounds. -/
theorem searchLoop_le : ∀ {fuel lo hi : ℕ} {found : Search},
    lo ≤ hi → p.searchLoop key fuel lo hi = .ok found →
      match found with
      | .hit i => i < hi
      | .gap i => i ≤ hi
  | 0, lo, hi, found, hle, h => by
    obtain rfl := Except.ok.inj h
    exact hle
  | fuel + 1, lo, hi, found, hle, h => by
    unfold searchLoop at h
    split at h
    · rename_i hlt
      rcases hk : p.keyAt ((lo + hi) / 2) with e | k
      · simp [hk, bind, Except.bind] at h
      simp only [hk, bind, Except.bind] at h
      split at h
      · exact searchLoop_le (by omega) h
      · split at h
        · have := searchLoop_le (by omega) h
          cases found <;> simp only at this ⊢ <;> omega
        · obtain rfl := Except.ok.inj h
          omega
    · obtain rfl := Except.ok.inj h
      exact hle

theorem descentIndex_le {idx : ℕ} (h : p.descentIndex key = .ok idx) : idx ≤ p.nkeys := by
  unfold descentIndex at h
  rcases hs : p.search key with e | found
  · simp [hs, bind, Except.bind] at h
  have hle := searchLoop_le (Nat.zero_le _) hs
  cases found with
  | hit i => obtain rfl : i + 1 = idx := by simpa [hs, bind, Except.bind] using h
             exact hle
  | gap i => obtain rfl : i = idx := by simpa [hs, bind, Except.bind] using h
             exact hle

theorem branchChild_mem_refs (hkind : p.kind = .branch) :
    ∀ {idx child : ℕ}, idx ≤ p.nkeys → p.branchChild idx = .ok child → child ∈ p.refs
  | 0, child, _, h => by
    obtain rfl := Except.ok.inj h
    simp [refs, hkind]
  | i + 1, child, hle, h => by
    unfold branchChild at h
    rcases hc : p.branchCell i with e | ⟨k, c⟩
    · simp [hc, bind, Except.bind] at h
    · obtain rfl : c = child := by simpa [hc, bind, Except.bind] using h
      simp only [refs, hkind, mem_cons, mem_filterMap, mem_range]
      exact .inr ⟨i, by omega, by simp [hc, Except.toOption]⟩

theorem overflow_mem_refs (hkind : p.kind = .leaf) {i total first : ℕ} (hi : i < p.nkeys)
    (h : p.leafCell i = .ok (key, .overflow total first)) (hfirst : first ≠ 0) :
    first ∈ p.refs := by
  simp only [refs, hkind, mem_filterMap, mem_range]
  exact ⟨i, hi, by simp [h, hfirst]⟩

theorem extra_mem_refs (hkind : p.kind = .overflow) (h : p.extra ≠ 0) :
    p.extra ∈ p.refs := by simp [refs, hkind, h]

end Page

/-! ## Reads through a root -/

/-- `r` and `r'` see the same of the pages `P`, which point only to one another, and of the payloads
outside the pages. -/
structure Agree (r r' : Reader) (mem : ℕ → Page) (P : ℕ → Prop) : Prop where
  left : ∀ id, P id → r.page id = .ok (mem id)
  right : ∀ id, P id → r'.page id = .ok (mem id)
  closed : ∀ id, P id → ∀ q ∈ (mem id).refs, P q
  readExtent : r.readExtent = r'.readExtent
  readExternal : r.readExternal = r'.readExternal
  contentHash : r.contentHash = r'.contentHash

/-- A value whose chain, if it has one, is in `P`. -/
def Within (P : ℕ → Prop) : LeafVal → Prop
  | .overflow _ first => first = 0 ∨ P first
  | _ => True

namespace Agree

variable {r r' : Reader} {mem : ℕ → Page} {P : ℕ → Prop}

theorem chain_next (h : Agree r r' mem P) {id : ℕ} (hid : P id)
    (hkind : (mem id).kind = .overflow) : (mem id).extra = 0 ∨ P (mem id).extra := by
  by_cases hz : (mem id).extra = 0
  · exact .inl hz
  · exact .inr (h.closed id hid _ (Page.extra_mem_refs hkind hz))

theorem readOverflowLoop (h : Agree r r' mem P) : ∀ (left id : ℕ), id = 0 ∨ P id →
    r.readOverflowLoop left id = r'.readOverflowLoop left id
  | 0, id, _ => by unfold Reader.readOverflowLoop; rfl
  | left + 1, id, hid => by
    unfold Reader.readOverflowLoop
    rcases hid with rfl | hid
    · rfl
    by_cases hz : id = 0
    · rw [if_pos hz, if_pos hz]
    rw [if_neg hz, if_neg hz, h.left id hid, h.right id hid]
    by_cases hkind : (mem id).kind = .overflow
    · simp only [bind, Except.bind, h.readOverflowLoop left _ (h.chain_next hid hkind)]
    · simp [bind, Except.bind, hkind]

theorem rangeLoop (h : Agree r r' mem P) : ∀ (left id skip want : ℕ), id = 0 ∨ P id →
    r.rangeLoop left id skip want = r'.rangeLoop left id skip want
  | 0, id, skip, want, _ => by unfold Reader.rangeLoop; rfl
  | left + 1, id, skip, want, hid => by
    unfold Reader.rangeLoop
    by_cases hz : id = 0 ∨ want = 0
    · rw [if_pos hz, if_pos hz]
    have hid : P id := hid.resolve_left fun hid => hz (.inl hid)
    rw [if_neg hz, if_neg hz, h.left id hid, h.right id hid]
    by_cases hkind : (mem id).kind = .overflow
    · simp only [bind, Except.bind, h.rangeLoop left _ _ _ (h.chain_next hid hkind)]
    · simp [bind, Except.bind, hkind]

theorem readExternalChecked (h : Agree r r' mem P) (hash total : ℕ) :
    r.readExternalChecked hash total = r'.readExternalChecked hash total := by
  unfold Reader.readExternalChecked
  rw [h.readExternal, h.contentHash]

variable {val : LeafVal}

theorem readLeafVal (h : Agree r r' mem P) (hval : Within P val) :
    r.readLeafVal val = r'.readLeafVal val := by
  cases val with
  | inline v => rfl
  | overflow total first =>
    show r.readOverflow first total = r'.readOverflow first total
    unfold Reader.readOverflow
    rw [h.readOverflowLoop _ first hval]
  | extent start total npages => simp only [Reader.readLeafVal, h.readExtent]
  | external hash total => exact h.readExternalChecked hash total

theorem readValueRange (h : Agree r r' mem P) (hval : Within P val)
    (off want : ℕ) : r.readValueRange val off want = r'.readValueRange val off want := by
  unfold Reader.readValueRange
  cases val with
  | inline v => rfl
  | overflow total first => simp only [h.rangeLoop _ first _ _ hval]
  | extent start total npages => simp only [h.readExtent]
  | external hash total => simp only [h.readExternalChecked]

theorem within_of_leafCell (h : Agree r r' mem P) {id i : ℕ} (hid : P id)
    (hkind : (mem id).kind = .leaf) (hi : i < (mem id).nkeys) {key : List UInt8}
    (hcell : (mem id).leafCell i = .ok (key, val)) : Within P val := by
  cases val with
  | overflow total first =>
    by_cases hz : first = 0
    · exact .inl hz
    · exact .inr (h.closed id hid _ (Page.overflow_mem_refs hkind hi hcell hz))
  | inline | extent | external => trivial

/-- A descent reads only pages on which the readers agree, and ends at such a leaf. -/
theorem descend (h : Agree r r' mem P) {next : Page → Except Error ℕ} (badKind : String)
    (hnext : ∀ p c, p.kind = .branch → next p = .ok c → c ∈ p.refs) :
    ∀ (levels id : ℕ), P id →
      r.descend next badKind levels id = r'.descend next badKind levels id ∧
      ∀ p, r.descend next badKind levels id = .ok p → ∃ id, P id ∧ p = mem id ∧ p.kind = .leaf
  | 0, id, _ => ⟨rfl, fun p hp => nomatch hp⟩
  | levels + 1, id, hid => by
    unfold Reader.descend
    rw [h.left id hid, h.right id hid]
    simp only [bind, Except.bind]
    cases (mem id).checkNode with
    | error e => exact ⟨rfl, fun p hp => nomatch hp⟩
    | ok =>
      cases hkind : (mem id).kind with
      | blank | overflow => exact ⟨rfl, fun p hp => nomatch hp⟩
      | leaf =>
        refine ⟨rfl, fun p hp => ?_⟩
        obtain rfl := Except.ok.inj hp
        exact ⟨id, hid, rfl, hkind⟩
      | branch =>
        cases hc : next (mem id) with
        | error e => exact ⟨rfl, fun p hp => nomatch hp⟩
        | ok child =>
          exact h.descend badKind hnext levels child (h.closed id hid _ (hnext _ _ hkind hc))

theorem towards_mem_refs (key : List UInt8) (p : Page) (c : ℕ) (hkind : p.kind = .branch)
    (hc : Reader.towards key p = .ok c) : c ∈ p.refs := by
  unfold Reader.towards at hc
  rcases hi : p.descentIndex key with e | idx
  · simp [hi, bind, Except.bind] at hc
  · exact Page.branchChild_mem_refs hkind (Page.descentIndex_le hi)
      (by simpa [hi, bind, Except.bind] using hc)

variable {root : ℕ}

/-- The value is found by a descent; where it lies is one of the agreed places. -/
theorem valueLoc (h : Agree r r' mem P) (hroot : root ≠ 0 → P root) (key : List UInt8) :
    r.valueLoc root key = r'.valueLoc root key ∧
    ∀ val, r.valueLoc root key = .ok (some val) → Within P val := by
  unfold Reader.valueLoc
  split
  · exact ⟨rfl, fun val hval => nomatch Except.ok.inj hval⟩
  rename_i hne
  obtain ⟨heq, hleaf⟩ := h.descend "unexpected page kind in descent" (towards_mem_refs key)
    64 root (hroot hne)
  rw [← heq]
  refine ⟨rfl, fun val hval => ?_⟩
  rcases hd : r.descend (Reader.towards key) "unexpected page kind in descent" 64 root with e | p
  · simp [hd, bind, Except.bind] at hval
  obtain ⟨id, hid, rfl, hkind⟩ := hleaf p hd
  simp only [hd, bind, Except.bind] at hval
  rcases hs : (mem id).search key with e | found
  · simp [hs] at hval
  have hle := Page.searchLoop_le (Nat.zero_le _) hs
  rw [hs] at hval
  cases found with
  | gap i => simp at hval
  | hit i =>
    rcases hc : (mem id).leafCell i with e | ⟨k, v⟩
    · simp [hc] at hval
    · obtain rfl : v = val := by simpa [hc] using hval
      exact h.within_of_leafCell hid hkind hle hc

/-- So is its value. -/
theorem get (h : Agree r r' mem P) (hroot : root ≠ 0 → P root) (key : List UInt8) :
    r.get root key = r'.get root key := by
  have hget : ∀ q : Reader, q.get root key = (q.valueLoc root key >>= fun loc =>
      match loc with
      | none => .ok none
      | some val => do
        let v ← q.readLeafVal val
        .ok (some v)) := by
    intro q
    unfold Reader.get Reader.valueLoc
    split
    · rfl
    rcases q.descend (Reader.towards key) "unexpected page kind in descent" 64 root with e | p
    · rfl
    simp only [bind, Except.bind]
    rcases p.search key with e | found
    · rfl
    cases found with
    | gap i => rfl
    | hit i => rcases hc : p.leafCell i with e | ⟨k, v⟩ <;> simp only [hc]
  obtain ⟨heq, hwithin⟩ := h.valueLoc hroot key
  rw [hget, hget, ← heq]
  rcases hloc : r.valueLoc root key with e | loc
  · rfl
  cases loc with
  | none => rfl
  | some val => simp only [bind, Except.bind, h.readLeafVal (hwithin val hloc)]

/-! ### Scans -/

/-- The branches on a cursor's stack and its leaf are in `P`. -/
structure OnCursor (mem : ℕ → Page) (P : ℕ → Prop) (c : Cursor) : Prop where
  stack : ∀ f ∈ c.stack, P f.1 ∧ (mem f.1).kind = .branch
  leaf : ∀ f, c.leaf = some f → P f.1 ∧ (mem f.1).kind = .leaf

theorem firstChild_le {lo : Option Bound} {p : Page} {idx : ℕ}
    (h : Reader.firstChild lo p = .ok idx) : idx ≤ p.nkeys := by
  cases lo with
  | none => obtain rfl := Except.ok.inj h; exact Nat.zero_le _
  | some b => exact Page.descentIndex_le h

/-- The pages on the cursor's stack are agreed ones. -/
theorem cursorDescend (h : Agree r r' mem P) (lo hi : Option Bound) :
    ∀ (levels id : ℕ) (stack : List (ℕ × ℕ)), P id →
      (∀ f ∈ stack, P f.1 ∧ (mem f.1).kind = .branch) →
      r.cursorDescend lo hi levels id stack = r'.cursorDescend lo hi levels id stack ∧
      ∀ c, r.cursorDescend lo hi levels id stack = .ok c → OnCursor mem P c
  | 0, id, stack, _, _ => ⟨rfl, fun c hc => nomatch hc⟩
  | levels + 1, id, stack, hid, hstack => by
    unfold Reader.cursorDescend
    rw [h.left id hid, h.right id hid]
    simp only [bind, Except.bind]
    cases (mem id).checkNode with
    | error e => exact ⟨rfl, fun c hc => nomatch hc⟩
    | ok =>
      cases hkind : (mem id).kind with
      | blank | overflow => exact ⟨rfl, fun c hc => nomatch hc⟩
      | leaf =>
        refine ⟨rfl, fun c hc => ?_⟩
        rcases hstart : Reader.firstCell lo (mem id) with e | start
        · simp [hstart] at hc
        · simp only [hstart] at hc
          obtain rfl := Except.ok.inj hc
          exact ⟨hstack, fun f hf => by obtain rfl := Option.some.inj hf; exact ⟨hid, hkind⟩⟩
      | branch =>
        rcases hidx : Reader.firstChild lo (mem id) with e | idx
        · exact ⟨rfl, fun c hc => nomatch hc⟩
        simp only
        rcases hc : (mem id).branchChild idx with e | child
        · exact ⟨rfl, fun c hc => nomatch hc⟩
        refine h.cursorDescend lo hi levels child _ ?_ ?_
        · exact h.closed id hid _ (Page.branchChild_mem_refs hkind (firstChild_le hidx) hc)
        · rintro f (_ | ⟨_, hf⟩)
          · exact ⟨hid, hkind⟩
          · exact hstack f hf

theorem cursor (h : Agree r r' mem P) (hroot : root ≠ 0 → P root) (lo hi : Option Bound) :
    r.cursor root lo hi = r'.cursor root lo hi ∧
    ∀ c, r.cursor root lo hi = .ok c → OnCursor mem P c := by
  unfold Reader.cursor
  split
  · refine ⟨rfl, fun c hc => ?_⟩
    obtain rfl := Except.ok.inj hc
    exact ⟨by simp, by simp⟩
  · exact h.cursorDescend lo hi 64 root [] (hroot ‹_›) (by simp)

/-- The same for the descent to the next leaf. -/
theorem leftmostLeaf (h : Agree r r' mem P) :
    ∀ (levels id : ℕ) (stack : List (ℕ × ℕ)), P id →
      (∀ f ∈ stack, P f.1 ∧ (mem f.1).kind = .branch) →
      r.leftmostLeaf levels id stack = r'.leftmostLeaf levels id stack ∧
      ∀ x, r.leftmostLeaf levels id stack = .ok x →
        (P x.1 ∧ (mem x.1).kind = .leaf) ∧ ∀ f ∈ x.2, P f.1 ∧ (mem f.1).kind = .branch
  | 0, id, stack, _, _ => ⟨rfl, fun x hx => nomatch hx⟩
  | levels + 1, id, stack, hid, hstack => by
    unfold Reader.leftmostLeaf
    rw [h.left id hid, h.right id hid]
    simp only [bind, Except.bind]
    cases (mem id).checkNode with
    | error e => exact ⟨rfl, fun x hx => nomatch hx⟩
    | ok =>
      cases hkind : (mem id).kind with
      | blank | overflow => exact ⟨rfl, fun x hx => nomatch hx⟩
      | leaf =>
        refine ⟨rfl, fun x hx => ?_⟩
        obtain rfl := Except.ok.inj hx
        exact ⟨⟨hid, hkind⟩, hstack⟩
      | branch =>
        rcases hc : (mem id).branchChild 0 with e | child
        · exact ⟨rfl, fun x hx => nomatch hx⟩
        refine h.leftmostLeaf levels child _ ?_ ?_
        · exact h.closed id hid _ (Page.branchChild_mem_refs hkind (Nat.zero_le _) hc)
        · rintro f (_ | ⟨_, hf⟩)
          · exact ⟨hid, hkind⟩
          · exact hstack f hf

/-- The cursor climbs to the next branch it has not finished. -/
theorem climb (h : Agree r r' mem P) {c : Cursor} (hleaf : c.leaf = none) :
    ∀ stack : List (ℕ × ℕ), (∀ f ∈ stack, P f.1 ∧ (mem f.1).kind = .branch) →
      r.climb c stack = r'.climb c stack ∧ ∀ c', r.climb c stack = .ok c' → OnCursor mem P c'
  | [], _ => by
    refine ⟨rfl, fun c' hc' => ?_⟩
    obtain rfl := Except.ok.inj hc'
    exact ⟨by simp, by simp [hleaf]⟩
  | (branchId, next) :: stack, hstack => by
    obtain ⟨hid, hkind⟩ := hstack _ (mem_cons_self ..)
    have htail : ∀ f ∈ stack, P f.1 ∧ (mem f.1).kind = .branch :=
      fun f hf => hstack f (mem_cons_of_mem _ hf)
    unfold Reader.climb
    rw [h.left branchId hid, h.right branchId hid]
    simp only [bind, Except.bind]
    by_cases hle : next ≤ (mem branchId).nkeys
    · rw [if_pos hle, if_pos hle]
      rcases hc : (mem branchId).branchChild next with e | child
      · exact ⟨rfl, fun c' hc' => nomatch hc'⟩
      have hchild := h.closed branchId hid _ (Page.branchChild_mem_refs hkind hle hc)
      obtain ⟨heq, hx⟩ := h.leftmostLeaf 64 child ((branchId, next + 1) :: stack) hchild
        (by rintro f (_ | ⟨_, hf⟩); exacts [⟨hid, hkind⟩, htail f hf])
      simp only [← heq]
      refine ⟨trivial, fun c' hc' => ?_⟩
      rcases hm : r.leftmostLeaf 64 child ((branchId, next + 1) :: stack) with e | x
      · simp [hm] at hc'
      · simp only [hm] at hc'
        obtain rfl := Except.ok.inj hc'
        obtain ⟨hxl, hxs⟩ := hx x hm
        exact ⟨hxs, fun f hf => by obtain rfl := Option.some.inj hf; exact hxl⟩
    · rw [if_neg hle, if_neg hle]
      exact h.climb hleaf stack htail

/-- A step of the cursor stays on the agreed pages. -/
theorem next (h : Agree r r' mem P) : ∀ (fuel : ℕ) {c : Cursor}, OnCursor mem P c →
    r.next fuel c = r'.next fuel c ∧ ∀ x, r.next fuel c = .ok x → OnCursor mem P x.2
  | 0, c, _ => ⟨rfl, fun x hx => nomatch hx⟩
  | fuel + 1, c, hc => by
    have hclimb : ∀ c₀ : Cursor, c₀.leaf = none → c₀.stack = c.stack →
        (r.climb c₀ c.stack >>= r.next fuel) = (r'.climb c₀ c.stack >>= r'.next fuel) ∧
        ∀ x, (r.climb c₀ c.stack >>= r.next fuel) = .ok x → OnCursor mem P x.2 := by
      intro c₀ hleaf hstack
      obtain ⟨heq, hon⟩ := h.climb hleaf c.stack hc.stack
      rw [← heq]
      simp only [bind, Except.bind]
      rcases hcl : r.climb c₀ c.stack with e | c'
      · exact ⟨rfl, fun x hx => by cases hx⟩
      · exact h.next fuel (hon c' hcl)
    unfold Reader.next
    split
    · refine ⟨rfl, fun x hx => ?_⟩
      obtain rfl := Except.ok.inj hx
      exact hc
    cases hleaf : c.leaf with
    | none => exact hclimb c hleaf rfl
    | some f =>
      obtain ⟨leafId, pos⟩ := f
      obtain ⟨hid, hkind⟩ := hc.leaf _ hleaf
      simp only [h.left leafId hid, h.right leafId hid, bind, Except.bind]
      rcases (mem leafId).checkNode with e | _
      · exact ⟨rfl, fun x hx => nomatch hx⟩
      by_cases hpos : pos < (mem leafId).nkeys
      · rw [if_pos hpos, if_pos hpos]
        rcases hcell : (mem leafId).leafCell pos with e | ⟨key, val⟩
        · exact ⟨rfl, fun x hx => nomatch hx⟩
        have hval := h.readLeafVal (h.within_of_leafCell hid hkind hpos hcell)
        simp only [← hval]
        refine ⟨trivial, fun x hx => ?_⟩
        split at hx
        · obtain rfl := Except.ok.inj hx
          exact ⟨hc.stack, fun f hf => by obtain rfl := Option.some.inj hf; exact ⟨hid, hkind⟩⟩
        rcases hv : r.readLeafVal val with e | v
        · simp [hv] at hx
        · simp only [hv] at hx
          obtain rfl := Except.ok.inj hx
          exact ⟨hc.stack, fun f hf => by obtain rfl := Option.some.inj hf; exact ⟨hid, hkind⟩⟩
      · rw [if_neg hpos, if_neg hpos]
        exact hclimb { c with leaf := none } rfl rfl

theorem drainCursor (h : Agree r r' mem P) (rounds : ℕ) : ∀ (n : ℕ) {c : Cursor},
    OnCursor mem P c → r.drainCursor rounds n c = r'.drainCursor rounds n c
  | 0, _, _ => rfl
  | n + 1, c, hc => by
    unfold Reader.drainCursor
    obtain ⟨heq, hon⟩ := h.next rounds hc
    simp only [← heq, bind, Except.bind]
    rcases hn : r.next rounds c with e | ⟨kv, c'⟩
    · rfl
    cases kv with
    | none => rfl
    | some kv => simp only [h.drainCursor rounds n (hon _ hn)]

theorem scan (h : Agree r r' mem P) (rounds n : ℕ) (hroot : root ≠ 0 → P root)
    (lo hi : Option Bound) : r.scan rounds n root lo hi = r'.scan rounds n root lo hi := by
  unfold Reader.scan
  obtain ⟨heq, hon⟩ := h.cursor hroot lo hi
  simp only [← heq, bind, Except.bind]
  rcases hc : r.cursor root lo hi with e | c
  · rfl
  · exact h.drainCursor rounds n (hon c hc)

end Agree

/-! ## The tests' store keeps the rules -/

theorem TestStore.alloc_error (s s' : TestStore) (e : Error)
    (h : TestStore.alloc s = (s', .error e)) : SameBut [] s s' := by
  unfold TestStore.alloc at h
  split at h <;> simp at h

theorem TestStore.alloc_ok (s s' : TestStore) (id : ℕ) (h : TestStore.alloc s = (s', .ok id)) :
    SameBut [id] s s' ∧ available s id ∧ isDirty s' id = true := by
  unfold TestStore.alloc at h
  split at h <;> simp only [Prod.mk.injEq, Except.ok.injEq] at h
  · rename_i id' free hfree
    obtain ⟨rfl, rfl⟩ := h
    refine ⟨⟨fun i hi => ?_, fun i hi => ?_, fun i hi => ?_, rfl, rfl⟩, ?_, ?_⟩
    · exact Function.update_of_ne (by simpa using hi) ..
    · simp [isDirty, show i ≠ id' by simpa using hi]
    · simp [available, hfree, show i ≠ id' by simpa using hi]
    · exact .inl (by simp [hfree])
    · simp [isDirty]
  · obtain ⟨rfl, rfl⟩ := h
    refine ⟨⟨fun i hi => ?_, fun i hi => ?_, fun i hi => ?_, rfl, rfl⟩, ?_, ?_⟩
    · exact Function.update_of_ne (by simpa using hi) ..
    · simp [isDirty, show i ≠ s.count + 1 by simpa using hi]
    · have : i ≠ s.count + 1 := by simpa using hi
      simp only [available]
      grind
    · exact .inr (.inr (Nat.lt_succ_self _))
    · simp [isDirty]

instance : CowStore TestStore where
  pageMut_same id s := by
    show SameBut [] s (TestStore.pageMut id s).1
    unfold TestStore.pageMut
    split <;> exact ⟨fun _ _ => rfl, fun _ _ => rfl, fun _ _ => Iff.rfl, rfl, rfl⟩
  pageMut_dirty id s s' p h := by
    change TestStore.pageMut id s = _ at h
    unfold TestStore.pageMut at h
    split at h
    · simpa [isDirty] using ‹id ∈ s.dirty›
    · simp at h
  put_same id p s := by
    refine ⟨fun i hi => ?_, fun i hi => rfl, fun i hi => Iff.rfl, rfl, rfl⟩
    exact Function.update_of_ne (by simpa using hi) ..
  put_dirty _ _ _ := rfl
  alloc_error := TestStore.alloc_error
  alloc_ok := TestStore.alloc_ok
  allocRaw_error := TestStore.alloc_error
  allocRaw_ok := TestStore.alloc_ok
  free_error id s s' e h := by
    change TestStore.freePage id s = _ at h
    unfold TestStore.freePage at h
    split_ifs at h <;> simp only [Prod.mk.injEq, reduceCtorEq, and_false] at h
    all_goals
      obtain ⟨rfl, _⟩ := h
      exact ⟨fun _ _ => rfl, fun _ _ => rfl, fun _ _ => Iff.rfl, rfl, rfl⟩
  free_ok id s s' h := by
    change TestStore.freePage id s = _ at h
    unfold TestStore.freePage at h
    split_ifs at h with hd hf hp <;>
      simp only [Prod.mk.injEq, reduceCtorEq, and_false, and_true] at h
    · subst h
      refine ⟨fun hc => ?_,
        fun _ => ⟨⟨fun i hi => rfl, fun i hi => ?_, fun i hi => ?_, rfl, rfl⟩, ?_⟩⟩
      · simp [isDirty, hd] at hc
      · simp only [isDirty]
        simp [show i ≠ id by simpa using hi]
      · simp [available, show i ≠ id by simpa using hi]
      · exact .inl (List.mem_cons_self ..)
    · subst h
      refine ⟨fun _ => ⟨fun _ _ => rfl, fun _ _ => rfl, fun _ _ => Iff.rfl, rfl, rfl⟩, fun hc => ?_⟩
      simp [isDirty, hd] at hc
  adoptInplace_eq _ _ := rfl
  freeExtent_same start n s := by
    show SameBut [] s (TestStore.freeExtent start n s).1
    unfold TestStore.freeExtent
    split_ifs <;> exact ⟨fun _ _ => rfl, fun _ _ => rfl, fun _ _ => Iff.rfl, rfl, rfl⟩
  releaseExternal_same _ s := ⟨fun _ _ => rfl, fun _ _ => rfl, fun _ _ => Iff.rfl, rfl, rfl⟩

/-! ## Snapshots -/

/-- What is committed stays, and reads through a root that reaches only committed pages give what
they gave, whatever the call is and however it ends. -/
theorem tree_ops_keep_snapshots {σ : Type} [PageStore σ] [StoreView σ] [CowStore σ]
    (contentHash : List UInt8 → ℕ) (levels : ℕ) (op : TreeOp) (s : σ) :
    (∀ id, isDirty s id = false → ¬available s id →
      mem (op.run levels s).1 id = mem s id ∧ Committed (op.run levels s).1 id) ∧
    ∀ root, root = 0 ∨ (∀ id, Reach Page.refs (mem s) [root] id → Committed s id) →
      let before := snapshot contentHash s
      let after := snapshot contentHash (op.run levels s).1
      (∀ key, after.get root key = before.get root key) ∧
      (∀ rounds n lo hi, after.scan rounds n root lo hi = before.scan rounds n root lo hi) ∧
      (∀ key, after.valueLoc root key = before.valueLoc root key) ∧
      ∀ key loc off want, before.valueLoc root key = .ok (some loc) →
        after.readValueRange loc off want = before.readValueRange loc off want := by
  have hfrozen : frozen (op.run levels s).1 = frozen s := keeps_run levels op s
  have hkeep : ∀ id, Committed s id →
      mem (op.run levels s).1 id = mem s id ∧ Committed (op.run levels s).1 id := by
    intro id hid
    have hmem : (id, mem s id) ∈ (frozen (op.run levels s).1).1 := by
      rw [hfrozen]; exact ⟨hid, rfl⟩
    exact ⟨hmem.2, hmem.1⟩
  refine ⟨fun id hd hav => hkeep id ⟨hd, hav⟩, fun root hroot => ?_⟩
  intro before after
  -- the empty tree has no pages
  have hagree : Agree after before (mem s)
      fun id => root ≠ 0 ∧ Reach Page.refs (mem s) [root] id :=
    { left := fun id hid =>
        congrArg Except.ok (hkeep id (hroot.resolve_left hid.1 id hid.2)).1
      right := fun id _ => rfl
      closed := fun id hid q hq => ⟨hid.1, hid.2.child hq⟩
      readExtent := congrArg (fun x => x.2.1) hfrozen
      readExternal := congrArg (fun x => x.2.2) hfrozen
      contentHash := rfl }
  have hself : root ≠ 0 → root ≠ 0 ∧ Reach Page.refs (mem s) [root] root :=
    fun hne => ⟨hne, .root (mem_singleton_self _)⟩
  refine ⟨hagree.get hself, fun rounds n => hagree.scan rounds n hself,
    fun key => (hagree.valueLoc hself key).1, fun key loc off want hloc => ?_⟩
  obtain ⟨heq, hwithin⟩ := hagree.valueLoc hself key
  exact hagree.readValueRange (hwithin loc (heq.trans hloc)) off want

section Examples

/-- A store whose page 1 is a committed leaf. -/
def oneLeaf : TestStore :=
  ((TreeOp.insert 0 [1] (.flat [7]) .upsert).run 1 TestStore.empty).1.commit

/-- A transaction of the engine over a file of 64 pages with that leaf. -/
def oneLeafTxn : WriteTxn where
  txn := .start [] 2
  pageCount := 64
  within := ⟨rfl, by decide, nofun⟩
  pages := oneLeaf.pages
  pins _ := (0, none)
  extents _ _ := .error (.corrupt "extent outside the data region")
  externals _ _ := .error (.corrupt "external payload not here")

/-- A second key goes to a copy of the leaf. -/
def insertSecond : TreeOp := .insert 1 [2] (.flat [8]) .upsert

/-- Readers of page 1 do not see the second key, in the tests' store and in the engine's. -/
theorem tree_ops_keep_snapshots_copy :
    (let s' := (insertSecond.run 1 oneLeaf).1
    (mem s' 1).slots = [4089] ∧
    (snapshot (fun _ => 0) s').get 1 [2] = .ok none ∧
    (snapshot (fun _ => 0) s').get 2 [2] = .ok (some [8])) ∧
    let s' := (insertSecond.run 1 oneLeafTxn).1
    (snapshot (fun _ => 0) s').get 1 [2] = .ok none ∧
    (snapshot (fun _ => 0) s').get 2 [2] = .ok (some [8]) := by
  have hreach : ∀ {σ : Type} [PageStore σ] [StoreView σ] (s : σ),
      ClosedUnder Page.refs (mem s) [1] [1] → Committed s 1 →
      ∀ id, Reach Page.refs (mem s) [1] id → Committed s id := by
    intro σ _ _ s hclosed hcommitted id hid
    rw [mem_singleton.1 (hclosed.mem_of_reach hid)]
    exact hcommitted
  have htest : Committed oneLeaf 1 := by
    refine ⟨by decide, ?_⟩
    show ¬(1 ∈ oneLeaf.free ∨ 1 = 0 ∨ oneLeaf.count < 1)
    decide
  have hengine : Committed oneLeafTxn 1 := by
    refine ⟨by decide, ?_⟩
    show ¬(1 ∈ [] ∨ 1 ∈ pagesOf [] ∨ 2 ≤ 1)
    decide
  have h := tree_ops_keep_snapshots (fun _ => 0) 1 insertSecond oneLeaf
  have h' := tree_ops_keep_snapshots (fun _ => 0) 1 insertSecond oneLeafTxn
  exact ⟨⟨by decide, ((h.2 1 (.inr (hreach _ (by decide) htest))).1 [2]).trans (by decide),
    by decide⟩, ((h'.2 1 (.inr (hreach _ (by decide) hengine))).1 [2]).trans (by decide), by decide⟩

/-- Page 1 was freed by an earlier transaction. It is not dirty, and the next insert writes it. -/
theorem free_page_is_rewritten :
    let s := ((TreeOp.delete 1 [1]).run 1 oneLeaf).1.commit
    isDirty s 1 = false ∧
    (mem ((TreeOp.insert 0 [3, 3] (.flat [9]) .upsert).run 1 s).1 1).slots ≠ (mem s 1).slots := by
  decide

end Examples

end Mpedb.Btree
