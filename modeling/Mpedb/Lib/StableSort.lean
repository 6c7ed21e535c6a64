import Mathlib.Data.List.Sort

/-!
# Stable sorting and its first elements

A comparison that is no order on its type may still be a total preorder on the elements of a list
(`TotalOn`). Merging then sorts the list stably (`isStableSort_sortBy`), and a heap that holds at
most `keep` elements ends with the first `keep` elements of that sort (`sortBy_bounded`).
-/

namespace StableSort

open List

variable {α β : Type*} {cmp : α → α → Ordering} {l : List α}

/-- `cmp` is a total preorder on the elements of `l`. -/
structure TotalOn (cmp : α → α → Ordering) (l : List α) : Prop where
  swap : ∀ a ∈ l, ∀ b ∈ l, cmp b a = (cmp a b).swap
  trans : ∀ a ∈ l, ∀ b ∈ l, ∀ c ∈ l, cmp a b ≠ .gt → cmp b c ≠ .gt → cmp a c ≠ .gt

/-- `out` is `l` in order, and what compares equal is in `out` as it is in `l`. -/
structure IsStableSort (cmp : α → α → Ordering) (l out : List α) : Prop where
  perm : out.Perm l
  sorted : out.Pairwise fun a b => cmp a b ≠ .gt
  stable : ∀ a ∈ l, out.filter (cmp a · == .eq) = l.filter (cmp a · == .eq)

/-- Not greater. -/
def le (cmp : α → α → Ordering) (a b : α) : Bool := cmp a b != .gt

/-- Sorts stably. -/
def sortBy (cmp : α → α → Ordering) (l : List α) : List α := l.mergeSort (le cmp)

variable {a : α}

theorem le_iff {b : α} : le cmp a b = true ↔ cmp a b ≠ .gt := by simp [le]

namespace TotalOn

section

variable (h : TotalOn cmp l)

include h

theorem mono {l' : List α} (hsub : ∀ a ∈ l', a ∈ l) : TotalOn cmp l' where
  swap a ha b hb := h.swap a (hsub a ha) b (hsub b hb)
  trans a ha b hb c hc := h.trans a (hsub a ha) b (hsub b hb) c (hsub c hc)

variable {a : α}

theorem self (ha : a ∈ l) : cmp a a = .eq := by
  have := h.swap a ha a ha
  cases hc : cmp a a <;> simp [hc] at this ⊢

variable {b : α}

theorem total (ha : a ∈ l) (hb : b ∈ l) (hab : cmp a b = .gt) :
    cmp b a ≠ .gt := by
  rw [h.swap a ha b hb, hab]
  decide

theorem eq_of_le (ha : a ∈ l) (hb : b ∈ l) (hab : cmp a b ≠ .gt)
    (hba : cmp b a ≠ .gt) : cmp a b = .eq := by
  rw [h.swap a ha b hb] at hba
  cases hc : cmp a b <;> simp_all

theorem eq_trans {c : α} (ha : a ∈ l) (hb : b ∈ l) (hc : c ∈ l)
    (hab : cmp a b = .eq) (hbc : cmp b c = .eq) : cmp a c = .eq := by
  have hba : cmp b a = .eq := by rw [h.swap a ha b hb, hab]; rfl
  have hcb : cmp c b = .eq := by rw [h.swap b hb c hc, hbc]; rfl
  exact h.eq_of_le ha hc (h.trans a ha b hb c hc (by simp [hab]) (by simp [hbc]))
    (h.trans c hc b hb a ha (by simp [hcb]) (by simp [hba]))

theorem lt_of_lt_of_le {c : α} (ha : a ∈ l) (hb : b ∈ l) (hc : c ∈ l)
    (hab : cmp a b = .lt) (hbc : cmp b c ≠ .gt) : cmp a c = .lt := by
  by_contra hne
  have heq : cmp c a ≠ .gt := by
    rw [h.swap a ha c hc]
    cases hc' : cmp a c <;> simp_all
  have := h.trans b hb c hc a ha hbc heq
  rw [h.swap a ha b hb, hab] at this
  exact this rfl

end

theorem of_eq (h : ∀ a ∈ l, ∀ b ∈ l, cmp a b = .eq) : TotalOn cmp l where
  swap a ha b hb := by rw [h a ha b hb, h b hb a ha]; rfl
  trans a ha b hb c hc _ _ := by rw [h a ha c hc]; decide

theorem of_transCmp [Std.TransCmp cmp] : TotalOn cmp l where
  swap _ _ _ _ := Std.OrientedCmp.eq_swap
  trans a _ b _ c _ hab hbc := by
    rw [ne_eq, Ordering.ne_gt_iff_isLE] at hab hbc ⊢
    exact Std.TransCmp.isLE_trans hab hbc

theorem congr {cmp' : α → α → Ordering} (h : TotalOn cmp l)
    (heq : ∀ a ∈ l, ∀ b ∈ l, cmp a b = cmp' a b) : TotalOn cmp' l where
  swap a ha b hb := by rw [← heq a ha b hb, ← heq b hb a ha, h.swap a ha b hb]
  trans a ha b hb c hc := by
    rw [← heq a ha b hb, ← heq b hb c hc, ← heq a ha c hc]
    exact h.trans a ha b hb c hc

theorem reverse (h : TotalOn cmp l) : TotalOn (fun a b => (cmp a b).swap) l where
  swap a ha b hb := by rw [h.swap a ha b hb]
  trans a ha b hb c hc hab hbc := by
    rw [← h.swap a ha b hb] at hab
    rw [← h.swap b hb c hc] at hbc
    rw [← h.swap a ha c hc]
    exact h.trans c hc b hb a ha hbc hab

theorem lex {cmp' : α → α → Ordering} (h : TotalOn cmp l)
    (h' : ∀ a ∈ l, TotalOn cmp' (l.filter (cmp a · == .eq))) :
    TotalOn (fun a b => (cmp a b).then (cmp' a b)) l where
  swap a ha b hb := by
    have hclass {c : α} (hc : c ∈ l) (heq : cmp a c = .eq) : c ∈ l.filter (cmp a · == .eq) := by
      simp [hc, heq]
    rw [h.swap a ha b hb]
    rcases hab : cmp a b with _ | _ | _
    · rfl
    · exact (h' a ha).swap a (hclass ha (h.self ha)) b (hclass hb hab)
    · rfl
  trans a ha b hb c hc hab hbc := by
    have hab' : cmp a b ≠ .gt := by intro hgt; simp [hgt] at hab
    have hbc' : cmp b c ≠ .gt := by intro hgt; simp [hgt] at hbc
    have hac' := h.trans a ha b hb c hc hab' hbc'
    rcases hac : cmp a c with _ | _ | _
    · simp
    · -- then `b` is equal to both
      have hca : cmp c a = .eq := by rw [h.swap a ha c hc, hac]; rfl
      have heq : cmp a b = .eq := h.eq_of_le ha hb hab'
        (h.trans b hb c hc a ha hbc' (by simp [hca]))
      have heq' : cmp b c = .eq := h.eq_of_le hb hc hbc'
        (h.trans c hc a ha b hb (by simp [hca]) hab')
      simp only [heq, heq'] at hab hbc ⊢
      exact (h' a ha).trans a (by simp [ha, h.self ha]) b (by simp [hb, heq]) c (by simp [hc, hac])
        hab hbc
    · exact absurd hac hac'

theorem ofMap {f : β → α} {m : List β} (h : TotalOn cmp (m.map f)) :
    TotalOn (fun x y => cmp (f x) (f y)) m where
  swap _ hx _ hy := h.swap _ (List.mem_map_of_mem hx) _ (List.mem_map_of_mem hy)
  trans _ hx _ hy _ hz :=
    h.trans _ (mem_map_of_mem hx) _ (mem_map_of_mem hy) _ (mem_map_of_mem hz)

theorem attach (h : TotalOn cmp l) :
    (∀ a b c : {a // a ∈ l}, le cmp a b = true → le cmp b c = true → le cmp a c = true) ∧
      ∀ a b : {a // a ∈ l}, (le cmp a b || le cmp b a) = true := by
  constructor
  · intro a b c hab hbc
    exact le_iff.2 (h.trans _ a.2 _ b.2 _ c.2 (le_iff.1 hab) (le_iff.1 hbc))
  · intro a b
    rw [Bool.or_eq_true, le_iff, le_iff]
    by_cases hab : cmp a b = .gt
    · exact .inr (h.total a.2 b.2 hab)
    · exact .inl hab

end TotalOn

theorem sortBy_perm (cmp : α → α → Ordering) (l : List α) : (sortBy cmp l).Perm l :=
  mergeSort_perm l _

theorem mem_sortBy : a ∈ sortBy cmp l ↔ a ∈ l := (sortBy_perm cmp l).mem_iff

theorem sortBy_attach (cmp : α → α → Ordering) (l : List α) :
    (l.attach.mergeSort fun a b => le cmp a b).map Subtype.val = sortBy cmp l := by
  rw [map_mergeSort (s := le cmp) fun _ _ _ _ => rfl, attach_map_subtype_val]
  rfl

theorem sorted_sortBy (h : TotalOn cmp l) : (sortBy cmp l).Pairwise fun a b => cmp a b ≠ .gt := by
  obtain ⟨htrans, htotal⟩ := h.attach
  rw [← sortBy_attach, pairwise_map]
  exact (pairwise_mergeSort htrans htotal _).imp fun hab => le_iff.1 hab

/-- The elements equal to `a` stand in the sorted list as they stood before. -/
theorem filter_sortBy (h : TotalOn cmp l) (ha : a ∈ l) :
    (sortBy cmp l).filter (cmp a · == .eq) = l.filter (cmp a · == .eq) := by
  obtain ⟨htrans, htotal⟩ := h.attach
  -- among themselves they are in order, so that sorting keeps them as a sublist
  have hclass : (l.attach.filter fun b : {b // b ∈ l} => cmp a b == .eq).Pairwise
      fun b c : {b // b ∈ l} => le cmp b c = true := by
    refine pairwise_of_forall_mem_list fun b hb c hc => le_iff.2 ?_
    have hab : cmp a b = .eq := by simpa using (mem_filter.1 hb).2
    have hac : cmp a c = .eq := by simpa using (mem_filter.1 hc).2
    have hba : cmp b a = .eq := by rw [h.swap a ha b b.2, hab]; rfl
    rw [h.eq_trans b.2 ha c.2 hba hac]
    decide
  have hsub := (sublist_mergeSort htrans htotal hclass filter_sublist).map Subtype.val
  have hclass' : (l.attach.filter fun b : {b // b ∈ l} => cmp a b == .eq).map Subtype.val =
      l.filter (cmp a · == .eq) := by
    conv_rhs => rw [← attach_map_subtype_val l, filter_map]
    rfl
  rw [sortBy_attach, hclass'] at hsub
  have hsub' := hsub.filter (cmp a · == .eq)
  rw [filter_filter] at hsub'
  simp only [Bool.and_self] at hsub'
  exact (hsub'.eq_of_length ((sortBy_perm cmp l).filter _).length_eq.symm).symm

theorem isStableSort_sortBy (h : TotalOn cmp l) : IsStableSort cmp l (sortBy cmp l) where
  perm := sortBy_perm cmp l
  sorted := sorted_sortBy h
  stable _ ha := filter_sortBy h ha

/-- Where equal elements are the same one, there is one way to sort. -/
theorem eq_sortBy {out : List α} (h : TotalOn cmp l)
    (hinj : ∀ a ∈ l, ∀ b ∈ l, cmp a b = .eq → a = b)
    (hperm : out.Perm l) (hsorted : out.Pairwise fun a b => cmp a b ≠ .gt) :
    out = sortBy cmp l := by
  refine List.Perm.eq_of_pairwise (fun a b ha hb hab hba => ?_) hsorted (sorted_sortBy h)
    (hperm.trans (sortBy_perm cmp l).symm)
  exact hinj a (hperm.mem_iff.1 ha) b (mem_sortBy.1 hb)
    (h.eq_of_le (hperm.mem_iff.1 ha) (mem_sortBy.1 hb) hab hba)

/-- The place of an element breaks a tie. -/
def ranked (cmp : α → α → Ordering) (a b : α × ℕ) : Ordering := (cmp a.1 b.1).then (compare a.2 b.2)

/-- The greatest element of a heap, an earlier one where they tie. -/
def top (cmp : α → α → Ordering) : List α → Option α
  | [] => none
  | a :: heap => some (heap.foldl (fun m b => if cmp m b = .lt then b else m) a)

/-- The heap without its greatest element. -/
def pop (cmp : α → α → Ordering) (heap : List α) : List α :=
  match top cmp heap with
  | none => []
  | some m => heap.eraseP (cmp m · == .eq)

/-- A full heap takes a new element only in the place of its greatest one. -/
def offer (cmp : α → α → Ordering) (keep : ℕ) (heap : List α) (c : α) : List α :=
  if heap.length < keep then c :: heap
  else match top cmp heap with
    | none => heap
    | some m => if cmp c m = .lt then c :: pop cmp heap else heap

/-- Of the elements seen so far, `heap` holds the first ones and `rest` the others. -/
structure Holds (cmp : α → α → Ordering) (keep : ℕ) (seen heap rest : List α) : Prop where
  perm : (heap ++ rest).Perm seen
  length : heap.length = min keep seen.length
  le : ∀ x ∈ heap, ∀ y ∈ rest, cmp x y ≠ .gt

variable {heap : List α}

theorem top_mem {m : α} (h : TotalOn cmp heap) (hm : top cmp heap = some m) :
    m ∈ heap ∧ ∀ x ∈ heap, cmp x m ≠ .gt := by
  cases heap with
  | nil => cases hm
  | cons a heap =>
    cases hm
    -- the running maximum of a prefix, from the left
    induction heap generalizing a with
    | nil => exact ⟨mem_cons_self, fun x hx => by
        obtain rfl := mem_singleton.1 hx
        rw [foldl_nil, h.self mem_cons_self]
        decide⟩
    | cons b heap ih =>
      rw [foldl_cons]
      have ha : a ∈ a :: b :: heap := mem_cons_self
      have hb : b ∈ a :: b :: heap := mem_cons_of_mem _ mem_cons_self
      have hpick : ∀ {c : α}, c = a ∨ c = b → ∀ x ∈ c :: heap, x ∈ a :: b :: heap := by
        rintro c (rfl | rfl) x hx <;> rcases mem_cons.1 hx with rfl | hx <;> simp [*]
      by_cases hlt : cmp a b = .lt
      · rw [if_pos hlt]
        obtain ⟨hmem, hmax⟩ := ih b (h.mono (hpick (.inr rfl)))
        refine ⟨hpick (.inr rfl) _ hmem, fun x hx => ?_⟩
        rcases mem_cons.1 hx with rfl | hx
        · exact h.trans _ ha _ hb _ (hpick (.inr rfl) _ hmem) (by simp [hlt])
            (hmax b mem_cons_self)
        · exact hmax x hx
      · rw [if_neg hlt]
        obtain ⟨hmem, hmax⟩ := ih a (h.mono (hpick (.inl rfl)))
        refine ⟨hpick (.inl rfl) _ hmem, fun x hx => ?_⟩
        rcases mem_cons.1 hx with rfl | hx
        · exact hmax _ mem_cons_self
        · rcases mem_cons.1 hx with rfl | hx
          · refine h.trans _ hb _ ha _ (hpick (.inl rfl) _ hmem) ?_ (hmax _ mem_cons_self)
            rw [h.swap _ ha _ hb]
            cases hc : cmp a x <;> simp_all
          · exact hmax x (mem_cons_of_mem _ hx)

theorem perm_pop {m : α} (h : TotalOn cmp heap) (hm : top cmp heap = some m) :
    ∃ x, cmp m x = .eq ∧ heap.Perm (x :: pop cmp heap) := by
  obtain ⟨hmem, -⟩ := top_mem h hm
  obtain ⟨x, l₁, l₂, -, hx, heap_eq, herase⟩ :=
    exists_of_eraseP (p := (cmp m · == .eq)) hmem (by simp [h.self hmem])
  refine ⟨x, by simpa using hx, ?_⟩
  rw [pop, hm]
  simp only [herase]
  conv_lhs => rw [heap_eq]
  exact perm_middle

variable {keep : ℕ} {rest : List α}

theorem Holds.offer {seen : List α} {c : α} (h : Holds cmp keep seen heap rest)
    (htot : TotalOn cmp (c :: seen)) (hkeep : 0 < keep) :
    ∃ rest', Holds cmp keep (seen ++ [c]) (offer cmp keep heap c) rest' := by
  have hheap : ∀ x ∈ heap, x ∈ c :: seen := fun x hx =>
    mem_cons_of_mem _ (h.perm.mem_iff.1 (mem_append_left _ hx))
  have hrest : ∀ x ∈ rest, x ∈ c :: seen := fun x hx =>
    mem_cons_of_mem _ (h.perm.mem_iff.1 (mem_append_right _ hx))
  have hc : c ∈ c :: seen := mem_cons_self
  have hsum : heap.length + rest.length = seen.length := by
    rw [← length_append, h.perm.length_eq]
  have hlength := h.length
  unfold StableSort.offer
  split_ifs with hfull
  · -- all elements seen are in the heap
    have hnil : rest = [] := eq_nil_of_length_eq_zero (by omega)
    subst hnil
    refine ⟨[], ?_, ?_, by simp⟩
    · rw [append_nil]
      have hperm := h.perm
      rw [append_nil] at hperm
      exact (hperm.cons c).trans (perm_append_singleton c seen).symm
    · simp only [length_cons, length_append]
      omega
  · rcases hm : top cmp heap with _ | m
    · have hnil : heap = [] := by
        cases heap with
        | nil => rfl
        | cons a heap => cases hm
      subst hnil
      exact absurd (by simpa using hkeep) hfull
    · have hheapTot : TotalOn cmp heap := htot.mono hheap
      obtain ⟨hmem, hmax⟩ := top_mem hheapTot hm
      dsimp only
      split_ifs with hlt
      · -- the greatest element goes out
        obtain ⟨x, hmx, hperm⟩ := perm_pop hheapTot hm
        have hx : x ∈ heap := hperm.mem_iff.2 mem_cons_self
        have hpop : ∀ y ∈ pop cmp heap, y ∈ heap := fun y hy =>
          hperm.mem_iff.2 (mem_cons_of_mem _ hy)
        have hcx : cmp c x ≠ .gt := by
          rw [htot.lt_of_lt_of_le hc (hheap m hmem) (hheap x hx) hlt (by simp [hmx])]
          decide
        refine ⟨x :: rest, ?_, ?_, ?_⟩
        · have hswap : (c :: pop cmp heap ++ x :: rest).Perm (c :: (x :: pop cmp heap ++ rest)) :=
            List.Perm.cons c perm_middle
          refine hswap.trans (List.Perm.trans ?_ (perm_append_singleton c seen).symm)
          exact ((hperm.symm.append_right rest).trans h.perm).cons c
        · have := hperm.length_eq
          simp only [length_cons, length_append] at this ⊢
          omega
        · intro y hy z hz
          rcases mem_cons.1 hz with rfl | hz
          · rcases mem_cons.1 hy with rfl | hy
            · exact hcx
            · exact htot.trans _ (hheap y (hpop y hy)) _ (hheap m hmem) _ (hheap z hx)
                (hmax y (hpop y hy)) (by simp [hmx])
          · rcases mem_cons.1 hy with rfl | hy
            · exact htot.trans _ hc _ (hheap x hx) _ (hrest z hz) hcx (h.le x hx z hz)
            · exact h.le y (hpop y hy) z hz
      · refine ⟨c :: rest, ?_, ?_, ?_⟩
        · exact perm_middle.trans ((h.perm.cons c).trans (perm_append_singleton c seen).symm)
        · simp only [length_append]
          omega
        · intro y hy z hz
          rcases mem_cons.1 hz with rfl | hz
          · refine htot.trans _ (hheap y hy) _ (hheap m hmem) _ hc (hmax y hy) ?_
            rw [htot.swap _ hc _ (hheap m hmem)]
            cases hcm : cmp z m <;> simp_all
          · exact h.le y hy z hz

theorem Holds.foldl (hkeep : 0 < keep) (todo : List α) {seen : List α}
    (h : Holds cmp keep seen heap rest) (htot : TotalOn cmp (seen ++ todo)) :
    ∃ rest', Holds cmp keep (seen ++ todo) (todo.foldl (StableSort.offer cmp keep) heap) rest' := by
  induction todo generalizing seen heap rest with
  | nil => exact ⟨rest, by simpa using h⟩
  | cons c todo ih =>
    have hsub : ∀ a ∈ c :: seen, a ∈ seen ++ c :: todo := by
      intro a ha
      rcases mem_cons.1 ha with rfl | ha <;> simp [*]
    obtain ⟨rest', h'⟩ := h.offer (htot.mono hsub) hkeep
    have hassoc : seen ++ c :: todo = (seen ++ [c]) ++ todo := by simp
    rw [hassoc] at htot ⊢
    exact ih h' htot

/-- What the heap holds at the end, sorted, is where the sorted list starts. -/
theorem Holds.sortBy_eq (h : Holds cmp keep l heap rest)
    (htot : TotalOn cmp l) (hinj : ∀ a ∈ l, ∀ b ∈ l, cmp a b = .eq → a = b) :
    sortBy cmp heap = (sortBy cmp l).take keep := by
  have hheap : ∀ x ∈ heap, x ∈ l := fun x hx => h.perm.mem_iff.1 (mem_append_left _ hx)
  have hrest : ∀ x ∈ rest, x ∈ l := fun x hx => h.perm.mem_iff.1 (mem_append_right _ hx)
  have hall : sortBy cmp heap ++ sortBy cmp rest = sortBy cmp l := by
    refine eq_sortBy htot hinj (((sortBy_perm _ _).append (sortBy_perm _ _)).trans h.perm) ?_
    rw [pairwise_append]
    refine ⟨sorted_sortBy (htot.mono hheap), sorted_sortBy (htot.mono hrest), fun x hx y hy => ?_⟩
    exact h.le x (mem_sortBy.1 hx) y (mem_sortBy.1 hy)
  have hlen : (sortBy cmp heap).length = min keep l.length := by
    rw [(sortBy_perm cmp heap).length_eq, h.length]
  have hsum : (sortBy cmp heap).length + (sortBy cmp rest).length = l.length := by
    rw [← length_append, hall, (sortBy_perm cmp l).length_eq]
  rw [← hall, take_append]
  rcases le_total keep l.length with hle | hle
  · rw [take_of_length_le (by omega), show keep - (sortBy cmp heap).length = 0 by omega]
    simp
  · have hnil : sortBy cmp rest = [] := eq_nil_of_length_eq_zero (by omega)
    rw [hnil, take_of_length_le (by omega)]
    simp

theorem TotalOn.ranked (h : TotalOn cmp l) : TotalOn (ranked cmp) l.zipIdx := by
  have hfst : TotalOn (fun a b : α × ℕ => cmp a.1 b.1) l.zipIdx :=
    TotalOn.ofMap (f := Prod.fst) (by rwa [zipIdx_map_fst])
  have hsnd : TotalOn (fun a b : α × ℕ => compare a.2 b.2) l.zipIdx :=
    (of_transCmp : TotalOn compare (l.zipIdx.map Prod.snd)).ofMap
  exact hfst.lex fun a _ => hsnd.mono fun b hb => (mem_filter.1 hb).1

theorem eq_of_ranked_eq {a b : α × ℕ} (ha : a ∈ l.zipIdx) (hb : b ∈ l.zipIdx)
    (h : ranked cmp a b = .eq) : a = b := by
  have hidx : a.2 = b.2 := by
    rw [ranked, Ordering.then_eq_eq] at h
    exact compare_eq_iff_eq.1 h.2
  have hget : ∀ c ∈ l.zipIdx, l[c.2]? = some c.1 := fun c hc => by
    simpa using mem_zipIdx_iff_getElem?.1 hc
  have hfst := hget a ha
  rw [hidx, hget b hb] at hfst
  exact Prod.ext (Option.some.inj hfst).symm hidx

theorem sortBy_ranked (h : TotalOn cmp l) :
    (sortBy (ranked cmp) l.zipIdx).map Prod.fst = sortBy cmp l := by
  have hle : sortBy (ranked cmp) l.zipIdx = l.zipIdx.mergeSort (List.zipIdxLE (le cmp)) := by
    have hmem : ∀ a ∈ l.zipIdx, a.1 ∈ l := fun a ha => by
      rw [← zipIdx_map_fst 0 l]
      exact mem_map_of_mem ha
    rw [sortBy, ← map_id (List.mergeSort _ _),
      map_mergeSort (s := List.zipIdxLE (le cmp)), map_id]
    intro a ha b hb
    have hswap := h.swap _ (hmem a ha) _ (hmem b hb)
    have hplace : (compare a.2 b.2 != .gt) = decide (a.2 ≤ b.2) := by
      rw [Bool.eq_iff_iff]
      simp [compare_gt_iff_gt]
    rw [List.zipIdxLE, le, le, le, ranked]
    simp only [id, hswap]
    cases cmp a.1 b.1 <;> simp [Ordering.then, hplace]
  rw [hle, mergeSort_zipIdx]
  rfl

theorem sortBy_bounded (h : TotalOn cmp l) (hkeep : 0 < keep) :
    (sortBy (ranked cmp) (l.zipIdx.foldl (offer (ranked cmp) keep) [])).map Prod.fst =
      (sortBy cmp l).take keep := by
  have hstart : Holds (ranked cmp) keep [] [] [] := ⟨List.Perm.refl _, by simp, by simp⟩
  obtain ⟨rest, hend⟩ := hstart.foldl hkeep l.zipIdx h.ranked
  rw [nil_append] at hend
  rw [hend.sortBy_eq h.ranked fun a ha b hb => eq_of_ranked_eq ha hb, map_take, sortBy_ranked h]

end StableSort
