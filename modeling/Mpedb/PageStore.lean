import Mathlib.Data.List.Sort
import Mpedb.BtreePage

/-!
# Page stores

The B+tree reads any live page, changes only dirty pages, those that this transaction allocated or
took over, and frees pages. `pageMut` gives a dirty page for writing and `put` is what the writing
leaves there. Large values can lie in runs of pages (extents) and in payloads named by a hash.
-/

namespace Mpedb.Btree

/-- `PageStore`: what the tree asks of its pages. -/
class PageStore (σ : Type) where
  page : σ → ℕ → Except Error Page
  pageMut : ℕ → Fallible σ Error Page
  put : ℕ → Page → σ → σ
  alloc : Fallible σ Error ℕ
  allocRaw : Fallible σ Error ℕ
  free : ℕ → Fallible σ Error Unit
  isDirty : σ → ℕ → Bool
  adoptInplace : ℕ → Fallible σ Error Bool
  readExtent : σ → ℕ → ℕ → Except Error (List UInt8)
  freeExtent : ℕ → ℕ → Fallible σ Error Unit
  readExternal : σ → ℕ → ℕ → Except Error (List UInt8)
  releaseExternal : ℕ → Fallible σ Error Unit

namespace PageStore

variable {σ : Type} [PageStore σ] {α : Type}

/-- Reads a page. -/
def load (id : ℕ) : Fallible σ Error Page := .reading fun s => page s id

/-- Works on page `id` in place. Where the work fails half-way the page keeps what it has so far. -/
def update (id : ℕ) (f : Fallible Page Error α) : Fallible σ Error α := do
  let p ← pageMut id
  Fallible.modify (put id (f p).1)
  Fallible.lift (f p).2

/-- A dirty page stays, a committed page is copied to a fresh one and freed. -/
def cow (id : ℕ) : Fallible σ Error ℕ := do
  let dirty ← Fallible.reading fun s : σ => .ok (isDirty s id)
  if dirty then pure id
  else do
    let adopted ← adoptInplace id
    if adopted then pure id
    else do
      let newId ← alloc
      let src ← load id
      update newId (Fallible.modify fun _ => src)
      free id
      pure newId

end PageStore

/-- What readers of committed states see of a store: what the pages hold and the payloads outside
them. `available` are the pages that an allocation may hand out. -/
class StoreView (σ : Type) where
  mem : σ → ℕ → Page
  available : σ → ℕ → Prop
  extents : σ → ℕ → ℕ → Except Error (List UInt8)
  externals : σ → ℕ → ℕ → Except Error (List UInt8)

open PageStore StoreView

/-- From `s` to `s'` nothing changed but perhaps at the pages `ids`. -/
structure SameBut {σ : Type} [PageStore σ] [StoreView σ] (ids : List ℕ) (s s' : σ) : Prop where
  mem : ∀ i ∉ ids, mem s' i = mem s i
  isDirty : ∀ i ∉ ids, isDirty s' i = isDirty s i
  available : ∀ i ∉ ids, (available s' i ↔ available s i)
  extents : extents s' = extents s
  externals : externals s' = externals s

/-- Only dirty pages are written, an allocation hands out an available page, and a page that is
freed becomes available at once only if it was dirty. -/
class CowStore (σ : Type) [PageStore σ] [StoreView σ] : Prop where
  pageMut_same : ∀ id (s : σ), SameBut [] s (pageMut id s).1
  pageMut_dirty : ∀ id (s s' : σ) p, pageMut id s = (s', .ok p) → isDirty s id = true
  put_same : ∀ id p (s : σ), SameBut [id] s (put id p s)
  put_dirty : ∀ id p (s : σ), isDirty (put id p s) id = isDirty s id
  alloc_error : ∀ (s s' : σ) e, alloc s = (s', .error e) → SameBut [] s s'
  alloc_ok : ∀ (s s' : σ) id, alloc s = (s', .ok id) →
    SameBut [id] s s' ∧ available s id ∧ isDirty s' id = true
  allocRaw_error : ∀ (s s' : σ) e, allocRaw s = (s', .error e) → SameBut [] s s'
  allocRaw_ok : ∀ (s s' : σ) id, allocRaw s = (s', .ok id) →
    SameBut [id] s s' ∧ available s id ∧ isDirty s' id = true
  free_error : ∀ id (s s' : σ) e, free id s = (s', .error e) → SameBut [] s s'
  free_ok : ∀ id (s s' : σ), free id s = (s', .ok ()) →
    (isDirty s id = false → SameBut [] s s') ∧
    (isDirty s id = true → SameBut [id] s s' ∧ available s' id)
  adoptInplace_eq : ∀ id (s : σ), adoptInplace id s = (s, .ok false)
  freeExtent_same : ∀ start n (s : σ), SameBut [] s (freeExtent start n s).1
  releaseExternal_same : ∀ hash (s : σ), SameBut [] s (releaseExternal hash s).1

/-- The page belongs to a commit: it is not dirty and not free to be used. -/
def Committed {σ : Type} [PageStore σ] [StoreView σ] (s : σ) (id : ℕ) : Prop :=
  isDirty s id = false ∧ ¬available s id

/-- Pages are numbered from 1 to `count`. A page that is freed is reusable at once when it is dirty
and after the commit otherwise. `extents` and `external` hold the payloads outside the pages. -/
structure TestStore where
  pages : ℕ → Page
  count : ℕ
  free : List ℕ
  freedPending : List ℕ
  dirty : List ℕ
  extents : List (ℕ × List UInt8)
  extentsPendingFree : List ℕ
  external : List (ℕ × List UInt8)

namespace TestStore

/-- The store without pages. -/
def empty : TestStore := ⟨fun _ => .zeroed, 0, [], [], [], [], [], []⟩

/-- `commit` of the store: what was freed can be used again. -/
def commit (s : TestStore) : TestStore :=
  { s with
    free := s.freedPending.insertionSort (· ≥ ·) ++ s.free
    freedPending := []
    dirty := []
    extents := s.extents.filter fun e => e.1 ∉ s.extentsPendingFree
    extentsPendingFree := [] }

/-- `page`: pages that are free or were never allocated cannot be read. -/
def page (s : TestStore) (id : ℕ) : Except Error Page :=
  if id = 0 ∨ id ∈ s.freedPending ∨ id ∈ s.free then .error (.internal s!"read of dead page {id}")
  else if id ≤ s.count then .ok (s.pages id)
  else .error (.internal s!"read of unallocated page {id}")

/-- `page_mut`: only a dirty page can be written. -/
def pageMut (id : ℕ) : Fallible TestStore Error Page := fun s =>
  if id ∈ s.dirty then (s, .ok (s.pages id))
  else (s, .error (.internal s!"page_mut on non-dirty page {id} (COW violation)"))

/-- Writes a page. -/
def put (id : ℕ) (p : Page) (s : TestStore) : TestStore :=
  { s with pages := Function.update s.pages id p }

/-- The page that was freed last, else a new one. The free list is kept newest first. -/
def alloc : Fallible TestStore Error ℕ := fun s =>
  match s.free with
  | id :: free =>
    ({ s with free, pages := Function.update s.pages id .zeroed, dirty := id :: s.dirty }, .ok id)
  | [] =>
    ({ s with
        pages := Function.update s.pages (s.count + 1) .zeroed
        count := s.count + 1
        dirty := (s.count + 1) :: s.dirty },
      .ok (s.count + 1))

/-- `free`: a dirty page can be used at once, another one after the commit. -/
def freePage (id : ℕ) : Fallible TestStore Error Unit := fun s =>
  if id ∈ s.dirty then
    ({ s with dirty := s.dirty.filter (· ≠ id), free := id :: s.free }, .ok ())
  else if id ∈ s.free then
    (s, .error (.internal s!"double free of page {id} (already in the committed free list)"))
  else if id ∈ s.freedPending then (s, .error (.internal s!"double free of page {id}"))
  else ({ s with freedPending := id :: s.freedPending }, .ok ())

/-- `read_extent`. -/
def readExtent (s : TestStore) (start total : ℕ) : Except Error (List UInt8) :=
  match s.extents.lookup start with
  | none => .error (.internal s!"read of dead extent {start}")
  | some b =>
    if start ∈ s.extentsPendingFree then
      .error (.internal s!"read of pending-free extent {start}")
    else if b.length ≠ total then .error (.corrupt "extent length mismatch")
    else .ok b

/-- `free_extent`, which takes effect with the commit. -/
def freeExtent (start _npages : ℕ) : Fallible TestStore Error Unit := fun s =>
  if (s.extents.lookup start).isNone then
    (s, .error (.internal s!"free of unknown extent {start}"))
  else if start ∈ s.extentsPendingFree then
    (s, .error (.internal s!"double free of extent {start}"))
  else ({ s with extentsPendingFree := start :: s.extentsPendingFree }, .ok ())

/-- `read_external`. -/
def readExternal (s : TestStore) (hash total : ℕ) : Except Error (List UInt8) :=
  match s.external.lookup hash with
  | none => .error (.corrupt s!"external payload {hash} not here")
  | some b => if b.length ≠ total then .error (.corrupt "external length mismatch") else .ok b

instance : PageStore TestStore where
  page := page
  pageMut := pageMut
  put := put
  alloc := alloc
  allocRaw := alloc
  free := freePage
  isDirty s id := id ∈ s.dirty
  adoptInplace _ := pure false
  readExtent := readExtent
  freeExtent := freeExtent
  readExternal := readExternal
  releaseExternal _ := pure ()

/-- A page whose freeing is pending is still there for the readers of committed states. -/
instance : StoreView TestStore where
  mem := pages
  available s id := id ∈ s.free ∨ id = 0 ∨ s.count < id
  extents s start total := readExtent { s with extentsPendingFree := [] } start total
  externals := readExternal

end TestStore

end Mpedb.Btree
