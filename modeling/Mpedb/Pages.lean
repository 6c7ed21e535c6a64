import Mpedb.Freelist

/-!
# Pages and metas

A page holds bytes of some type `V`. What the crash arguments need of the bytes is in `PageFormat`:
which pages a page points to, and the freelist that the tree under a root spells out.

The two meta slots alternate. A slot whose checksum does not hold is `none`.
-/

namespace Mpedb

/-- The meta page of a commit. -/
structure MetaSnapshot where
  txnId : ℕ
  catalogRoot : ℕ
  freelistRoot : ℕ
  highWater : ℕ
  extentMapRoot : ℕ
  schemaGen : ℕ
  deriving DecidableEq, Repr

/-- The roots of the trees; root 0 is the empty tree. -/
def MetaSnapshot.roots (m : MetaSnapshot) : List ℕ :=
  [m.catalogRoot, m.freelistRoot, m.extentMapRoot].filter (· ≠ 0)

/-- A meta without the schema generation, which a log record does not carry. -/
def MetaSnapshot.trees (m : MetaSnapshot) : MetaSnapshot := { m with schemaGen := 0 }

/-- Slot `false` is meta page A, slot `true` meta page B. -/
abbrev MetaSlots := Bool → Option MetaSnapshot

/-- The newer of the metas that are valid and not past the gate, with its slot. -/
def newestMetaGated (slots : MetaSlots) (gate : ℕ) : Option (MetaSnapshot × Bool) :=
  match (slots false).filter (·.txnId ≤ gate), (slots true).filter (·.txnId ≤ gate) with
  | some a, some b => if a.txnId ≥ b.txnId then some (a, false) else some (b, true)
  | some a, none => some (a, false)
  | none, some b => some (b, true)
  | none, none => none

/-- The newer of the readable slots. -/
def newestMetaUngated (slots : MetaSlots) : Option (MetaSnapshot × Bool) :=
  match slots false, slots true with
  | some a, some b => if a.txnId ≥ b.txnId then some (a, false) else some (b, true)
  | some a, none => some (a, false)
  | none, some b => some (b, true)
  | none, none => none

/-- `live` holds the roots and every page that one of its pages points to. -/
def ClosedUnder {V : Type*} (refs : V → List ℕ) (mem : ℕ → V) (roots live : List ℕ) : Prop :=
  (∀ r ∈ roots, r ∈ live) ∧ ∀ p ∈ live, ∀ q ∈ refs (mem p), q ∈ live

instance {V : Type*} (refs : V → List ℕ) (mem : ℕ → V) (roots live : List ℕ) :
    Decidable (ClosedUnder refs mem roots live) := inferInstanceAs (Decidable (_ ∧ _))

/-- What a page's bytes say. The freelist read through a root depends only on the pages under it. -/
structure PageFormat (V : Type*) where
  refs : V → List ℕ
  freelist : (ℕ → V) → ℕ → List FreeEntry
  freelist_zero : ∀ mem, freelist mem 0 = []
  freelist_congr : ∀ {mem mem' : ℕ → V} {root : ℕ} {live : List ℕ},
    ClosedUnder refs mem [root] live → (∀ p ∈ live, mem' p = mem p) →
      freelist mem' root = freelist mem root

/-- Pages that are their pointers and their freelist entries, with freelists of one page. -/
def PageFormat.plain : PageFormat (List ℕ × List FreeEntry) where
  refs v := v.1
  freelist mem root := if root = 0 then [] else (mem root).2
  freelist_zero _ := rfl
  freelist_congr h he := by
    split
    · rfl
    · rw [he _ (h.1 _ (List.mem_singleton_self _))]

/-- The pages reached from the roots through page contents. -/
inductive Reach {V : Type*} (refs : V → List ℕ) (mem : ℕ → V) (roots : List ℕ) : ℕ → Prop
  | root {p : ℕ} : p ∈ roots → Reach refs mem roots p
  | child {p q : ℕ} : Reach refs mem roots p → q ∈ refs (mem p) → Reach refs mem roots q

/-- A transaction as it was published: its meta, the pages of its trees and what they held. -/
structure Published (V : Type*) where
  snap : MetaSnapshot
  live : List ℕ
  image : ℕ → V

/-- What the commit writes into the new meta besides its number and the high water mark, the pages
its trees reach, and how the pages it frees are cut into freelist entries. -/
structure Plan where
  catalogRoot : ℕ
  freelistRoot : ℕ
  extentMapRoot : ℕ
  schemaGenBump : Bool
  live : List ℕ
  pageChunks : List (List ℕ)
  runChunks : List (List ℕ)

/-- The meta of the commit that follows. -/
def Plan.snap (q : Plan) (base : MetaSnapshot) (t : Txn) : MetaSnapshot :=
  { txnId := base.txnId + 1
    catalogRoot := q.catalogRoot
    freelistRoot := q.freelistRoot
    highWater := t.highWater
    extentMapRoot := q.extentMapRoot
    schemaGen := base.schemaGen + q.schemaGenBump.toNat }

/-- The trees the commit publishes: closed under the pointers of their pages, made of pages of the
base that were not freed and of pages the transaction took, with the freelist it planned. -/
def Plan.OK {V : Type*} (fmt : PageFormat V) (mem : ℕ → V) (base : MetaSnapshot) (live : List ℕ)
    (t : Txn) (q : Plan) : Prop :=
  ClosedUnder fmt.refs mem (q.snap base t).roots q.live ∧
  (∀ p ∈ q.live, (p ∈ live ∧ p ∉ t.freed ++ t.freedRuns) ∨ p ∈ t.dirty ++ t.allocatedRuns) ∧
  t.freelistPlan (base.txnId + 1) q.pageChunks q.runChunks = some (fmt.freelist mem q.freelistRoot)

instance {V : Type*} (fmt : PageFormat V) (mem : ℕ → V) (base : MetaSnapshot) (live : List ℕ)
    (t : Txn) (q : Plan) : Decidable (q.OK fmt mem base live t) :=
  inferInstanceAs (Decidable (_ ∧ _ ∧ _))

end Mpedb
