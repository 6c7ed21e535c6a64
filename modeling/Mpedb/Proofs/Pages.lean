import Mathlib.Logic.Function.Basic
import Mathlib.Tactic.SplitIfs
import Mpedb.Pages
import Mpedb.Proofs.Freelist

/-!
# The newest meta and the pages under it

A meta is the newest when the other slot is torn or holds an older one; at genesis both slots hold
the same meta and slot A is taken. Pages that agree with a published image agree on what is reached
from its roots.
-/

namespace Mpedb

section Trees

variable {m m' : MetaSnapshot}

theorem txnId_of_trees (h : m.trees = m'.trees) : m.txnId = m'.txnId := by
  show m.trees.txnId = m'.trees.txnId
  rw [h]

theorem freelistRoot_of_trees (h : m.trees = m'.trees) : m.freelistRoot = m'.freelistRoot := by
  show m.trees.freelistRoot = m'.trees.freelistRoot
  rw [h]

theorem highWater_of_trees (h : m.trees = m'.trees) : m.highWater = m'.highWater := by
  show m.trees.highWater = m'.trees.highWater
  rw [h]

end Trees

/-- The slot other than `s` holds nothing newer than `m`, and slot `s` wins a tie. -/
def Older (o : Option MetaSnapshot) (m : MetaSnapshot) (s : Bool) : Prop :=
  ∀ m', o = some m' → m'.txnId < m.txnId ∨ (s = false ∧ m' = m)

theorem Older.none (m : MetaSnapshot) (s : Bool) : Older none m s := fun _ h => by simp at h

theorem Older.of_lt {m m' : MetaSnapshot} {s : Bool} (h : m'.txnId < m.txnId) :
    Older (some m') m s := by
  intro m'' he
  cases he
  exact Or.inl h

section Newest

variable {slots : MetaSlots} {m : MetaSnapshot} {s : Bool}

theorem newestMetaUngated_eq (h : slots s = some m) (ho : Older (slots !s) m s) :
    newestMetaUngated slots = some (m, s) := by
  cases s with
  | false =>
    rcases hb : slots true with _ | b
    · simp [newestMetaUngated, h, hb]
    · have : m.txnId ≥ b.txnId := by
        rcases ho b hb with hlt | ⟨-, rfl⟩
        · omega
        · exact Nat.le_refl _
      simp [newestMetaUngated, h, hb, this]
  | true =>
    rcases ha : slots false with _ | a
    · simp [newestMetaUngated, h, ha]
    · have : ¬ a.txnId ≥ m.txnId := by
        rcases ho a ha with hlt | ⟨hs, -⟩
        · omega
        · simp at hs
      simp [newestMetaUngated, h, ha, this]

theorem newestMetaGated_eq_ungated (slots : MetaSlots) (gate : ℕ) :
    newestMetaGated slots gate =
      newestMetaUngated fun s => (slots s).filter (·.txnId ≤ gate) := rfl

theorem newestMetaGated_eq {gate : ℕ} (h : slots s = some m) (ho : Older (slots !s) m s)
    (hg : m.txnId ≤ gate) : newestMetaGated slots gate = some (m, s) := by
  rw [newestMetaGated_eq_ungated]
  refine newestMetaUngated_eq (by simp [h, hg]) fun m' hm' => ho m' ?_
  exact (Option.filter_eq_some_iff.1 hm').1

theorem newestMetaUngated_of_max {n : ℕ} (hn : ∃ s m, slots s = some m ∧ m.txnId = n)
    (hle : ∀ s m, slots s = some m → m.txnId ≤ n) :
    ∃ m s, newestMetaUngated slots = some (m, s) ∧ slots s = some m ∧ m.txnId = n := by
  obtain ⟨s, m, hs, rfl⟩ := hn
  rcases ha : slots false with _ | a <;> rcases hb : slots true with _ | b
  · cases s <;> simp_all
  · cases s with
    | false => simp [ha] at hs
    | true => exact ⟨b, true, by simp [newestMetaUngated, ha, hb], hb, by simp_all⟩
  · cases s with
    | false => exact ⟨a, false, by simp [newestMetaUngated, ha, hb], ha, by simp_all⟩
    | true => simp [hb] at hs
  · have h1 := hle false a ha
    have h2 := hle true b hb
    have h3 : m = a ∨ m = b := by
      cases s <;> simp_all
    by_cases hab : a.txnId ≥ b.txnId
    · refine ⟨a, false, by simp [newestMetaUngated, ha, hb, hab], ha, ?_⟩
      rcases h3 with rfl | rfl <;> omega
    · refine ⟨b, true, by simp [newestMetaUngated, ha, hb, hab], hb, ?_⟩
      rcases h3 with rfl | rfl <;> omega

theorem newestMetaGated_of_max {n gate : ℕ} (hn : ∃ s m, slots s = some m ∧ m.txnId = n)
    (hle : ∀ s m, slots s = some m → m.txnId ≤ n) (hg : n ≤ gate) :
    ∃ m s, newestMetaGated slots gate = some (m, s) ∧ slots s = some m ∧ m.txnId = n := by
  have hfilter : ∀ s, (slots s).filter (·.txnId ≤ gate) = slots s := fun s => by
    rcases hs : slots s with _ | m
    · rfl
    · have := hle s m hs
      simp only [Option.filter_some, decide_eq_true_eq]
      rw [if_pos (by omega)]
  rw [newestMetaGated_eq_ungated, show (fun s => (slots s).filter (·.txnId ≤ gate)) = slots from
    funext hfilter]
  exact newestMetaUngated_of_max hn hle

end Newest

section Reach

variable {V : Type*} {refs : V → List ℕ} {mem mem' : ℕ → V} {roots live : List ℕ}

theorem ClosedUnder.mem_of_reach (h : ClosedUnder refs mem roots live) {p : ℕ}
    (hp : Reach refs mem roots p) : p ∈ live := by
  induction hp with
  | root hr => exact h.1 _ hr
  | child _ hq ih => exact h.2 _ ih _ hq

theorem ClosedUnder.congr (h : ClosedUnder refs mem roots live)
    (he : ∀ p ∈ live, mem' p = mem p) : ClosedUnder refs mem' roots live := by
  refine ⟨h.1, fun p hp q hq => ?_⟩
  rw [he p hp] at hq
  exact h.2 p hp q hq

theorem ClosedUnder.mono {roots' : List ℕ} (h : ClosedUnder refs mem roots live)
    (hr : ∀ r ∈ roots', r ∈ roots) : ClosedUnder refs mem roots' live :=
  ⟨fun r hm => h.1 r (hr r hm), h.2⟩

theorem PageFormat.freelist_eq (fmt : PageFormat V) {m : MetaSnapshot}
    (h : ClosedUnder fmt.refs mem m.roots live) (he : ∀ p ∈ live, mem' p = mem p) :
    fmt.freelist mem' m.freelistRoot = fmt.freelist mem m.freelistRoot := by
  by_cases h0 : m.freelistRoot = 0
  · rw [h0, fmt.freelist_zero, fmt.freelist_zero]
  · refine fmt.freelist_congr (h.mono fun r hr => ?_) he
    rw [List.mem_singleton.1 hr]
    simp [MetaSnapshot.roots, h0]

/-- What holds of a commit: its trees stay in its pages, and every page is accounted for. -/
structure Published.OK (fmt : PageFormat V) (c : Published V) : Prop where
  closed : ClosedUnder fmt.refs c.image c.snap.roots c.live
  accounted : Accounted c.live (fmt.freelist c.image c.snap.freelistRoot) c.snap.highWater

end Reach

end Mpedb
