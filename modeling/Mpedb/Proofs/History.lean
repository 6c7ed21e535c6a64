import Mathlib.Order.Nat
import Mathlib.Data.Nat.Init
import Mpedb.Proofs.Pages
import Mpedb.Wal

/-!
# The history of commits

Each commit follows the one before: a page of its trees is unchanged, or in its record, or in an
extent it wrote. A page that was in some record never becomes part of an extent, so replaying
records up to a transaction gives each of its pages the last image written, or leaves it alone.
-/

namespace Mpedb.Wal

open List

variable {V : Type*} {fmt : PageFormat V} {dataStart : ℕ}

/-- The free list of a commit. -/
def Commit.freelist (fmt : PageFormat V) (c : Commit V) : List FreeEntry :=
  fmt.freelist c.image c.snap.freelistRoot

/-- The pages of extents, and the free pages that are kept for extents. -/
def Commit.runSpace (fmt : PageFormat V) (c : Commit V) : List ℕ :=
  c.runs ++ pagesOf ((c.freelist fmt).filter (·.kind = .runs))

/-- `c'` is the commit after `c`. -/
structure Follows (fmt : PageFormat V) (dataStart : ℕ) (c c' : Commit V) : Prop where
  txnId : c'.snap.txnId = c.snap.txnId + 1
  ok : Published.OK fmt c'.toPublished
  live : ∀ p ∈ c'.live, (p ∈ c.live ∧ c'.image p = c.image p) ∨ p ∈ c'.dirty ∨ p ∈ c'.extents
  highWater : c.snap.highWater ≤ c'.snap.highWater
  dirty_lt : ∀ p ∈ c'.dirty, p < c'.snap.highWater
  dirty_ge : ∀ p ∈ c'.dirty, dataStart ≤ p
  entries : ∀ e ∈ c'.freelist fmt, e.txn = c'.snap.txnId ∨
    ∃ e₀ ∈ c.freelist fmt, e₀.txn = e.txn ∧ ∀ p ∈ e.ids, p ∈ e₀.ids
  runSpace : ∀ p ∈ c'.runSpace fmt, p ∈ c.runSpace fmt ∨ c.snap.highWater ≤ p
  apart : ∀ p ∈ c'.dirty, p ∉ c'.runSpace fmt
  extents : ∀ p ∈ c'.live, p ∈ c'.extents → p ∈ c'.runs
  runs_live : ∀ p ∈ c'.runs, p ∈ c'.live

/-- A database without pages. -/
structure Commit.Empty (fmt : PageFormat V) (dataStart : ℕ) (c : Commit V) : Prop where
  txnId : c.snap.txnId = 0
  highWater : dataStart ≤ c.snap.highWater
  ok : Published.OK fmt c.toPublished
  freelist : c.freelist fmt = []
  dirty : c.dirty = []
  runs : c.runs = []

/-- The transactions up to number `n`. -/
structure Chain (fmt : PageFormat V) (dataStart : ℕ) (hist : ℕ → Commit V) (n : ℕ) : Prop where
  empty : (hist 0).Empty fmt dataStart
  follows : ∀ i < n, Follows fmt dataStart (hist i) (hist (i + 1))

namespace Chain

variable {hist : ℕ → Commit V} {n : ℕ}

theorem of_le (h : Chain fmt dataStart hist n) {m : ℕ} (hm : m ≤ n) : Chain fmt dataStart hist m :=
  ⟨h.empty, fun i hi => h.follows i (by omega)⟩

theorem snoc (h : Chain fmt dataStart hist n) {c : Commit V}
    (hc : Follows fmt dataStart (hist n) c) :
    Chain fmt dataStart (Function.update hist (n + 1) c) (n + 1) := by
  have hold : ∀ i ≤ n, Function.update hist (n + 1) c i = hist i := fun i hi =>
    Function.update_of_ne (by omega) _ _
  refine ⟨by rw [hold 0 (by omega)]; exact h.empty, fun i hi => ?_⟩
  rw [hold i (by omega)]
  by_cases hin : i = n
  · rw [hin, Function.update_self]
    exact hc
  · rw [hold (i + 1) (by omega)]
    exact h.follows i (by omega)

theorem txnId (h : Chain fmt dataStart hist n) : ∀ i ≤ n, (hist i).snap.txnId = i
  | 0, _ => h.empty.txnId
  | i + 1, hi => by rw [(h.follows i (by omega)).txnId, h.txnId i (by omega)]

theorem ok (h : Chain fmt dataStart hist n) : ∀ i ≤ n, Published.OK fmt (hist i).toPublished
  | 0, _ => h.empty.ok
  | i + 1, hi => (h.follows i (by omega)).ok

theorem highWater_le (h : Chain fmt dataStart hist n) {i j : ℕ} (hij : i ≤ j) (hj : j ≤ n) :
    (hist i).snap.highWater ≤ (hist j).snap.highWater := by
  induction j, hij using Nat.le_induction with
  | base => exact le_refl _
  | succ j _ ih => exact (ih (by omega)).trans (h.follows j (by omega)).highWater

theorem dataStart_le (h : Chain fmt dataStart hist n) {i : ℕ} (hi : i ≤ n) :
    dataStart ≤ (hist i).snap.highWater :=
  h.empty.highWater.trans (h.highWater_le (Nat.zero_le i) hi)

theorem runs_live (h : Chain fmt dataStart hist n) :
    ∀ i ≤ n, ∀ p ∈ (hist i).runs, p ∈ (hist i).live
  | 0, _, p, hp => by simp [h.empty.runs] at hp
  | i + 1, hi, p, hp => (h.follows i (by omega)).runs_live p hp

theorem entry_txn_le (h : Chain fmt dataStart hist n) :
    ∀ i ≤ n, ∀ e ∈ (hist i).freelist fmt, e.txn ≤ i
  | 0, _, e, he => by simp [h.empty.freelist] at he
  | i + 1, hi, e, he => by
    rcases (h.follows i (by omega)).entries e he with hn | ⟨e₀, he₀, ht, -⟩
    · exact le_of_eq (hn.trans (h.txnId (i + 1) hi))
    · have := h.entry_txn_le i (by omega) e₀ he₀
      omega

theorem entry_off_live (h : Chain fmt dataStart hist n) {i j : ℕ} (hij : i ≤ j) (hj : j ≤ n)
    {e : FreeEntry} (he : e ∈ (hist j).freelist fmt) (ht : e.txn ≤ i) {p : ℕ} (hp : p ∈ e.ids) :
    p ∉ (hist i).live := by
  induction j, hij using Nat.le_induction generalizing e with
  | base => exact fun hl => (h.ok i hj).accounted.apart p hl (mem_pagesOf.2 ⟨e, he, hp⟩)
  | succ j hij ih =>
    rcases (h.follows j (by omega)).entries e he with hn | ⟨e₀, he₀, ht₀, hsub⟩
    · rw [h.txnId (j + 1) hj] at hn
      omega
    · exact ih (by omega) he₀ (by omega) (hsub p hp)

/-- A page that some record carries is never a page of an extent. -/
theorem dirty_off_runSpace (h : Chain fmt dataStart hist n) {i j : ℕ} (hij : i ≤ j) (hj : j ≤ n)
    {p : ℕ} (hp : p ∈ (hist i).dirty) :
    p ∉ (hist j).runSpace fmt ∧ p < (hist j).snap.highWater := by
  induction j, hij using Nat.le_induction with
  | base =>
    rcases i with _ | i
    · simp [h.empty.dirty] at hp
    · have hf := h.follows i (by omega)
      exact ⟨hf.apart p hp, hf.dirty_lt p hp⟩
  | succ j _ ih =>
    have hf := h.follows j (by omega)
    obtain ⟨hrun, hlt⟩ := ih (by omega)
    refine ⟨fun hm => ?_, hlt.trans_le hf.highWater⟩
    rcases hf.runSpace p hm with hm | hge
    · exact hrun hm
    · omega

end Chain

/-- A commit as the writer plans it follows the commit it started from. `avoid` and `run` are what
the transaction was tracked against. -/
theorem follows_commit {c : Commit V} {x : Writer V} {mem : ℕ → V} {q : Plan} {avoid run : ℕ → Prop}
    (hbase : x.base.txnId = c.snap.txnId) (hlive : x.live = c.live) (hruns : x.runs = c.runs)
    (hrl : ∀ p ∈ c.runs, p ∈ c.live) (hok : x.txn.OK c.live)
    (htr : x.txn.Tracked avoid run c.snap.highWater (c.freelist fmt))
    (ha : ∀ p < dataStart, avoid p) (hr : ∀ p, run p → p ∈ c.runSpace fmt ∨ c.snap.highWater ≤ p)
    (hmem : ∀ p ∈ c.live, mem p = c.image p) (hq : q.OK fmt mem x.base x.live x.txn) :
    Follows fmt dataStart c (x.commit mem q) := by
  obtain ⟨hclosed, hmade, hplan⟩ := hq
  rw [hlive] at hmade
  have hside : ∀ p ∈ x.txn.runSide, p ∈ c.runSpace fmt ∨ c.snap.highWater ≤ p := fun p hp =>
    hr p (htr.runs p hp)
  have hothers : ∀ p ∈ x.txn.dirty, p ∈ x.txn.others := fun p hp => by
    simp only [Txn.others, mem_append]
    tauto
  refine ⟨?_, ⟨hclosed, hok.freelistPlan hplan hmade⟩, fun p hp => ?_, htr.highWater,
    fun p hp => hok.others_lt p (hothers p hp), fun p hp => ?_, fun e he => ?_, fun p hp => ?_,
    fun p hp hm => ?_, fun p hp hx => ?_, fun p hp => (mem_filter.1 hp).1⟩
  · simp [Writer.commit, Plan.snap, hbase]
  · rcases hmade p hp with ⟨hl, -⟩ | ht
    · exact Or.inl ⟨hl, hmem p hl⟩
    · exact Or.inr (mem_append.1 ht)
  · by_contra hlt
    exact htr.avoids p (by simp only [Txn.inHand, mem_append]; exact Or.inr (Or.inr (Or.inr
      (Or.inl hp)))) (ha p (by omega))
  · rcases Txn.mem_freelistPlan hplan he with ⟨ht, -⟩ | ⟨e₀, he₀, ht, -, hsub⟩
    · exact Or.inl ht
    · exact Or.inr ⟨e₀, htr.entries ▸ he₀, ht, hsub⟩
  · rcases mem_append.1 hp with hp | hp
    · rcases mem_append.1 (by simpa using (mem_filter.1 hp).2) with hp | hp
      · exact Or.inl (mem_append_left _ (hruns ▸ hp))
      · exact hside p (by simp only [Txn.runSide, mem_append]; tauto)
    · obtain ⟨e, he, hpe⟩ := mem_pagesOf.1 hp
      obtain ⟨he, hk⟩ := mem_filter.1 he
      rcases Txn.mem_freelistPlan hplan he with ⟨-, hown⟩ | ⟨e₀, he₀, -, hk₀, hsub⟩
      · have := hown (by simpa using hk) p hpe
        simp only [Txn.ownRuns, mem_append] at this
        exact hside p (by simp only [Txn.runSide, mem_append]; tauto)
      · refine Or.inl (mem_append_right _ (mem_pagesOf.2 ⟨e₀, mem_filter.2
          ⟨htr.entries ▸ he₀, ?_⟩, hsub p hpe⟩))
        rw [hk₀]
        exact hk
  · rcases mem_append.1 hm with hm | hm
    · rcases mem_append.1 (by simpa using (mem_filter.1 hm).2) with hm | hm
      · exact hok.off_live p (hothers p hp) (hrl p (hruns ▸ hm))
      · have hone := nodup_iff_count_le_one.1 hok.nodup p
        have h1 := count_pos_iff.2 (show p ∈ x.txn.dirty from hp)
        have h2 := count_pos_iff.2 hm
        simp only [Txn.others, count_append] at hone
        omega
    · obtain ⟨e, he, hpe⟩ := mem_pagesOf.1 hm
      exact hok.taken_not_mem_freelistPlan hplan (mem_append_left _ hp)
        (mem_pagesOf.2 ⟨e, (mem_filter.1 he).1, hpe⟩)
  · exact mem_filter.2 ⟨hp, by
      simpa using Or.inr (show p ∈ x.txn.allocatedRuns from hx)⟩

/-- The image of a page in the last record after the first `a` and up to the `n`-th. -/
def lastWrite (hist : ℕ → Commit V) (a : ℕ) : ℕ → ℕ → Option V
  | 0, _ => none
  | n + 1, p =>
    if a ≤ n ∧ p ∈ (hist (n + 1)).dirty then some ((hist (n + 1)).image p) else lastWrite hist a n p

section LastWrite

variable {hist : ℕ → Commit V} {a n : ℕ} {p : ℕ} {v : V}

theorem lastWrite_of_le : ∀ {n : ℕ}, n ≤ a → lastWrite hist a n p = none
  | 0, _ => rfl
  | n + 1, h => by
    simp only [lastWrite]
    rw [if_neg (by omega)]
    exact lastWrite_of_le (by omega)

theorem lastWrite_congr {hist' : ℕ → Commit V} :
    ∀ {n : ℕ}, (∀ i ≤ n, hist' i = hist i) → lastWrite hist' a n p = lastWrite hist a n p
  | 0, _ => rfl
  | n + 1, h => by
    simp only [lastWrite]
    rw [h (n + 1) (le_refl _), lastWrite_congr fun i hi => h i (by omega)]

theorem exists_dirty_of_lastWrite :
    ∀ {n : ℕ}, lastWrite hist a n p = some v → ∃ i ≤ n, p ∈ (hist i).dirty
  | 0, h => by simp [lastWrite] at h
  | n + 1, h => by
    simp only [lastWrite] at h
    split_ifs at h with hd
    · exact ⟨n + 1, le_refl _, hd.2⟩
    · obtain ⟨i, hi, hp⟩ := exists_dirty_of_lastWrite h
      exact ⟨i, by omega, hp⟩

theorem Chain.lastWrite_eq (h : Chain fmt dataStart hist n) :
    ∀ i ≤ n, p ∈ (hist i).live → lastWrite hist a i p = some v → v = (hist i).image p
  | 0, _, _, hw => by simp [lastWrite] at hw
  | i + 1, hi, hp, hw => by
    have hf := h.follows i (by omega)
    have hext : p ∉ (hist (i + 1)).extents := fun hx => by
      obtain ⟨j, hj, hd⟩ := exists_dirty_of_lastWrite hw
      exact (h.dirty_off_runSpace hj hi hd).1
        (mem_append_left _ (hf.extents p hp hx))
    simp only [lastWrite] at hw
    split_ifs at hw with hd
    · cases hw
      rfl
    · by_cases hdirty : p ∈ (hist (i + 1)).dirty
      · -- the records up to this one are all below the start
        have hlt : ¬ a ≤ i := fun ha => hd ⟨ha, hdirty⟩
        rw [lastWrite_of_le (by omega)] at hw
        simp at hw
      · obtain ⟨hl, himg⟩ := ((hf.live p hp).resolve_right fun h' => h'.elim hdirty hext)
        rw [himg]
        exact h.lastWrite_eq i (by omega) hl hw

end LastWrite

end Mpedb.Wal
