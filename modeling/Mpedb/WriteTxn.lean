import Mathlib.Data.List.MinMax
import Mathlib.Tactic.SplitIfs
import Mpedb.Freelist
import Mpedb.PageStore

/-!
# The engine's page store

The pages of a write transaction in copy-on-write mode, outside the commit's rewriting of the
freelist. Pages come from the pool of drawn entries, highest first, then from the high water mark.
With a savepoint open, the first change of a page keeps what the page held in the innermost one.
-/

namespace Mpedb

namespace Txn

/-- The pages of the transaction are pages of the file, and no commit is under way. -/
structure Within (t : Txn) (pageCount : ℕ) : Prop where
  idle : t.inFreelistOp = false
  highWater : t.highWater ≤ pageCount
  pages : ∀ p ∈ t.reusable ++ t.dirty ++ pagesOf t.entries, p < pageCount

variable {t t' : Txn} {pageCount : ℕ}

/-- A draw adds the pages of one entry to one of the pools. -/
theorem refillReusable_cases {bound : ℕ} {frontier : Option ℕ}
    (hs : t.refillReusable bound frontier = some t') : ∃ e ∈ t.entries,
      t' = { t with reusable := t.reusable ++ e.ids, cursor := t.cursor + 1 } ∨
      t' = { t with runPool := t.runPool ++ e.ids, cursor := t.cursor + 1 } := by
  unfold Txn.refillReusable at hs
  split at hs
  · cases hs
  split at hs
  · cases hs
  rename_i e he
  refine ⟨e, List.mem_of_getElem? he, ?_⟩
  split at hs
  · cases hs
  split at hs
  · exact .inl (Option.some.inj hs).symm
  split at hs
  · cases hs
  · exact .inr (Option.some.inj hs).symm

theorem mem_pagesOf_of_mem {e : FreeEntry} {p : ℕ} (he : e ∈ t.entries) (hp : p ∈ e.ids) :
    p ∈ pagesOf t.entries := List.mem_flatMap.2 ⟨e, he, hp⟩

variable (h : t.Within pageCount)

include h

theorem Within.refillReusable {bound : ℕ} {frontier : Option ℕ}
    (hs : t.refillReusable bound frontier = some t') : t'.Within pageCount := by
  obtain ⟨e, he, rfl | rfl⟩ := refillReusable_cases hs
  · refine ⟨h.idle, h.highWater, fun p hp => h.pages p ?_⟩
    have := mem_pagesOf_of_mem (p := p) he
    simp only [List.mem_append] at hp ⊢
    tauto
  · exact ⟨h.idle, h.highWater, h.pages⟩

theorem Within.pop {p : ℕ} (hp : p ∈ t.reusable) :
    Within { t with reusable := t.reusable.erase p, dirty := p :: t.dirty } pageCount := by
  refine ⟨h.idle, h.highWater, fun q hq => h.pages q ?_⟩
  have := List.mem_of_mem_erase (a := q) (b := p) (l := t.reusable)
  simp only [List.mem_append, List.mem_cons] at hq ⊢
  rcases hq with (hq | rfl | hq) | hq <;> tauto

theorem Within.mint (hlt : t.highWater < pageCount) :
    Within { t with dirty := t.highWater :: t.dirty, highWater := t.highWater + 1 } pageCount := by
  refine ⟨h.idle, hlt, fun q hq => ?_⟩
  have := h.pages q
  simp only [List.mem_append, List.mem_cons] at hq this
  rcases hq with (hq | rfl | hq) | hq <;> tauto

theorem Within.free {p : ℕ} (hs : t.free p = some t') : t'.Within pageCount := by
  unfold Txn.free at hs
  split_ifs at hs with hd
  all_goals
    cases hs
    refine ⟨h.idle, h.highWater, fun q hq => h.pages q ?_⟩
    have := List.mem_of_mem_erase (a := q) (b := p) (l := t.dirty)
    simp only [List.mem_append, List.mem_cons] at hq ⊢
  · rcases hq with ((rfl | hq) | hq) | hq <;> tauto
  · tauto

omit h

/-- What the transaction knows of single pages, apart from those of extents. -/
def single (t : Txn) : Bool × ℕ × List ℕ × List ℕ × List FreeEntry :=
  (t.inFreelistOp, t.highWater, t.reusable, t.dirty, t.entries)

theorem single_freeExtent : ∀ (ps : List ℕ) (t : Txn),
    (ps.foldl Txn.freeExtent t).single = t.single
  | [], _ => rfl
  | p :: ps, t => by
    refine (single_freeExtent ps (t.freeExtent p)).trans ?_
    unfold Txn.freeExtent
    split_ifs <;> rfl

theorem Within.of_single (hs : t'.single = t.single) (h : t.Within pageCount) :
    t'.Within pageCount := by
  simp only [single, Prod.mk.injEq] at hs
  obtain ⟨hop, hw, hr, hd, he⟩ := hs
  exact ⟨hop ▸ h.idle, hw ▸ h.highWater, by rw [hr, hd, he]; exact h.pages⟩

end Txn

namespace Btree

/-- A write transaction over the pages of a file. `pins` are the bounds that its draws find: the
oldest pinned transaction and, where durability is deferred, the newest durable one. `layers` are
the images that the open savepoints keep, innermost first. Extents lie in pages that no tree has. -/
structure WriteTxn where
  txn : Txn
  pageCount : ℕ
  within : txn.Within pageCount
  pages : ℕ → Page
  reservedAlloc : Bool := false
  pins : ℕ → ℕ × Option ℕ
  draws : ℕ := 0
  layers : List (List (ℕ × Page)) := []
  extents : ℕ → ℕ → Except Error (List UInt8)
  externals : ℕ → ℕ → Except Error (List UInt8)

namespace WriteTxn

/-- `FREELIST_POOL_TARGET`. -/
def poolTarget : ℕ := 32

/-- `FREELIST_POOL_DRAWS`. -/
def poolDraws : ℕ := 4

/-- `RESERVED_CONTROL_PAGES`. -/
def reservedControlPages : ℕ := 48

/-- `page` of the mapping. -/
def page (s : WriteTxn) (id : ℕ) : Except Error Page :=
  if s.pageCount ≤ id then .error (.corrupt s!"page id {id} out of bounds") else .ok (s.pages id)

/-- Keeps what the page holds in the innermost savepoint, once. -/
def journal (id : ℕ) : Fallible WriteTxn Error Unit := fun s =>
  match s.layers with
  | [] => (s, .ok ())
  | images :: layers =>
    if (images.lookup id).isSome then (s, .ok ())
    else match s.page id with
      | .error e => (s, .error e)
      | .ok p => ({ s with layers := ((id, p) :: images) :: layers }, .ok ())

/-- `page_mut`. -/
def pageMut (id : ℕ) : Fallible WriteTxn Error Page := fun s =>
  if id ∈ s.txn.dirty then (do journal id; Fallible.reading (page · id)) s
  else (s, .error (.internal s!"page_mut on non-dirty page {id} (COW violation)"))

/-- Writes a page. -/
def put (id : ℕ) (p : Page) (s : WriteTxn) : WriteTxn :=
  { s with pages := Function.update s.pages id p }

/-- Draws entries until the pool is deep enough or no entry can be drawn, `n` times at most. -/
def draw : ℕ → WriteTxn → WriteTxn
  | 0, s => s
  | n + 1, s =>
    if poolTarget ≤ s.txn.reusable.length then s
    else match h : s.txn.refillReusable (s.pins s.draws).1 (s.pins s.draws).2 with
      | none => { s with draws := s.draws + 1 }
      | some t =>
        draw n { s with txn := t, draws := s.draws + 1, within := s.within.refillReusable h }

/-- The pages above are kept for the mirror's control writes. -/
def ceiling (s : WriteTxn) : ℕ :=
  if s.reservedAlloc then s.pageCount else s.pageCount - reservedControlPages

theorem ceiling_le (s : WriteTxn) : s.ceiling ≤ s.pageCount := by
  unfold ceiling
  split_ifs
  · exact le_rfl
  · exact Nat.sub_le ..

/-- The highest page of the pool, which is kept sorted, else the one at the high water mark. -/
def takeId (s : WriteTxn) : WriteTxn × Except Error ℕ :=
  match h : s.txn.reusable.maximum with
  | some id =>
    ({ s with
        txn := { s.txn with reusable := s.txn.reusable.erase id, dirty := id :: s.txn.dirty }
        within := s.within.pop (List.maximum_mem h) }, .ok id)
  | none =>
    if hw : s.ceiling ≤ s.txn.highWater then (s, .error .dbFull)
    else
      ({ s with
          txn := { s.txn with
            dirty := s.txn.highWater :: s.txn.dirty
            highWater := s.txn.highWater + 1 }
          within := s.within.mint ((Nat.lt_of_not_le hw).trans_le s.ceiling_le) },
        .ok s.txn.highWater)

/-- `alloc_id`, with the page marked dirty: the pool is filled only when it is dry. -/
def allocRaw : Fallible WriteTxn Error ℕ := fun s =>
  takeId (if s.txn.reusable = [] then s.draw poolDraws else s)

/-- `alloc`: the page is zeroed. -/
def alloc : Fallible WriteTxn Error ℕ := do
  let id ← allocRaw
  let _ ← Fallible.reading (page · id)
  Fallible.modify (put id .zeroed)
  pure id

/-- A page of this transaction can be used again at once, another one after the commit. -/
def release (id : ℕ) : Fallible WriteTxn Error Unit := fun s =>
  match h : s.txn.free id with
  | none => (s, .error (.internal s!"double free of page {id}"))
  | some t => ({ s with txn := t, within := s.within.free h }, .ok ())

/-- `free`: a savepoint keeps what the page holds, since an allocation may zero it. -/
def free (id : ℕ) : Fallible WriteTxn Error Unit := fun s =>
  if id ∈ s.txn.dirty then (do journal id; release id) s else release id s

/-- `free_extent`, which the commit settles. -/
def freeExtent (start npages : ℕ) : Fallible WriteTxn Error Unit := fun s =>
  ({ s with
      txn := (List.range' start npages).foldl Txn.freeExtent s.txn
      within := .of_single (Txn.single_freeExtent ..) s.within }, .ok ())

instance : PageStore WriteTxn where
  page := page
  pageMut := pageMut
  put := put
  alloc := alloc
  allocRaw := allocRaw
  free := free
  isDirty s id := id ∈ s.txn.dirty
  adoptInplace _ := pure false
  readExtent s := s.extents
  freeExtent := freeExtent
  readExternal s := s.externals
  releaseExternal _ := pure ()

/-- An allocation takes pages of the freelist, of the pool and beyond the high water mark. -/
instance : StoreView WriteTxn where
  mem := pages
  available s id := id ∈ s.txn.reusable ∨ id ∈ pagesOf s.txn.entries ∨ s.txn.highWater ≤ id
  extents := extents
  externals := externals

end WriteTxn

end Btree

end Mpedb
