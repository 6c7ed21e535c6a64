import Mpedb.Proofs.History

/-!
# What recovery can rely on

`b` is the transaction of the newest meta in the mapping; a record of `b + 1` may be in the log.
Every transaction that recovery may come to, from the ones sure to be there (`floor`) up to the last
record, has each of its pages in the records since the checkpoint, or unchanged since then in the
mapping and on disk (`Cover`).
-/

namespace Mpedb.Wal

variable {V : Type*} {fmt : PageFormat V} {d : Durability}

/-- The oldest transaction that recovery may come to, if the record after `b` does not count. -/
def floor (w : Store V) (b : ℕ) : ℕ :=
  max (min (w.synced + w.shift) b) (w.diskLock.walCkpt + w.shift)

/-- The pages that no record after transaction `a` carries are on disk. -/
def Cover (w : Store V) (b a : ℕ) : Prop :=
  ∀ n, floor w b ≤ n → a ≤ n → n ≤ w.top → ∀ p ∈ (w.hist n).live,
    lastWrite w.hist a n p = none → w.mem p = (w.hist n).image p ∧ w.disk p = (w.hist n).image p

/-- The meta that recovery is left with if it finds no record after transaction `a`. With `async` it
may be a newer one, after a checkpoint has synced the mapping. -/
def MetaOn (d : Durability) (w : Store V) (b a : ℕ) : Prop :=
  match d with
  | .wal => a = b → ∀ s m, w.memMeta s = some m → m.txnId = b → w.diskMeta s = some m
  | .async => w.synced + w.shift ≤ a → ∃ n, a ≤ n ∧ n ≤ b ∧
      (∃ s m, w.diskMeta s = some m ∧ m.txnId = n) ∧ (∀ s m, w.diskMeta s = some m → m.txnId ≤ n) ∧
      ∀ p ∈ (w.hist n).live, w.mem p = (w.hist n).image p ∧ w.disk p = (w.hist n).image p

/-- Recovery may start after transaction `a`. -/
structure Ckpt (d : Durability) (w : Store V) (b a : ℕ) : Prop where
  cover : Cover w b a
  metas : MetaOn d w b a

/-- What holds of the meta slots with the commit `b` published. -/
structure Metas (w : Store V) (b : ℕ) : Prop where
  newest : ∃ s m, w.memMeta s = some m ∧ m.txnId = b
  mem_le : ∀ s m, w.memMeta s = some m → m.txnId ≤ b
  mem_trees : ∀ s m, w.memMeta s = some m → m.trees = (w.hist m.txnId).snap.trees
  disk_le : ∀ s m, w.diskMeta s = some m → m.txnId ≤ b
  disk_trees : ∀ s m, w.diskMeta s = some m → m.trees = (w.hist m.txnId).snap.trees
  newer : ∀ s m m', w.diskMeta s = some m → w.memMeta s = some m' → m.txnId ≤ m'.txnId

/-- What holds of the positions of log and checkpoint. -/
structure Positions (d : Durability) (w : Store V) (b : ℕ) : Prop where
  le_top : b ≤ w.top
  top_le : w.top ≤ b + 1
  synced_le : w.synced + w.shift ≤ w.top
  le_logEnd : w.top ≤ w.logEnd + w.shift
  disk_le_mem : w.diskLock.walCkpt ≤ w.memLock.walCkpt
  memCkpt_le : w.memLock.walCkpt + w.shift ≤ b
  len_le : w.diskLock.walLen ≤ w.memLock.walLen
  len_top : w.memLock.walLen + w.shift ≤ w.top
  len_covered : w.diskLock.walLen ≤ max w.synced w.diskLock.walCkpt
  acked_covered : w.acked ≤ w.covered
  acked_top : w.acked ≤ w.top
  flushes : ∀ a ∈ w.flushes, a ≤ w.synced
  wal : d = .wal → b ≤ w.memLock.walLen + w.shift ∧ w.memLock.walLen ≤ w.synced ∧ w.acked ≤ b ∧
    w.flushes = []
  async : d = .async → w.durableTxn ≤ floor w b

/-- What holds of the store whoever has the lock. -/
structure Core (fmt : PageFormat V) (d : Durability) (w : Store V) (b : ℕ) : Prop where
  pos : Positions d w b
  chain : Chain fmt w.dataStart w.hist w.top
  intact : ∀ p ∈ (w.hist b).live, w.mem p = (w.hist b).image p
  metas : Metas w b
  log : ∀ i, w.diskLock.walCkpt ≤ i → i + w.shift < w.top →
    w.log i = some (w.hist (i + w.shift + 1)).record
  logTail : ∀ i, w.top ≤ i + w.shift → w.log i = none
  memCkpt : Ckpt d w b (w.memLock.walCkpt + w.shift)
  diskCkpt : Ckpt d w b (w.diskLock.walCkpt + w.shift)

/-- The writer started from transaction `b`. -/
structure OnBase (w : Store V) (b : ℕ) (x : Writer V) : Prop where
  base : x.base.trees = (w.hist b).snap.trees
  slot : w.memMeta x.slot = some x.base
  live : x.live = (w.hist b).live
  runs : x.runs = (w.hist b).runs

/-- With `async`, where no writer dies: the log is appended to after transaction `n`, and the lock
page in the mapping claims nothing that the one on disk may not claim. -/
structure Level (d : Durability) (w : Store V) (n : ℕ) : Prop where
  appended : d = .async → w.walAppended + w.shift = n
  ckpt : d = .async → w.memLock.walCkpt = w.diskLock.walCkpt
  len : d = .async → w.memLock.walLen ≤ max w.synced w.memLock.walCkpt

/-- And `b` has the last record. With `wal`, `b` is durable. -/
structure Idle (d : Durability) (w : Store V) (b : ℕ) : Prop extends Level d w b where
  top : d = .async → w.top = b
  gate : d = .wal → b ≤ w.durableTxn

/-- Pages a transaction must not take. -/
def Avoid (w : Store V) (b q : ℕ) : Prop :=
  q < w.dataStart ∨ ∃ n, floor w b ≤ n ∧ n ≤ b ∧ q ∈ (w.hist n).live

/-- Pages a transaction may handle as pages of extents. -/
def RunPage (fmt : PageFormat V) (w : Store V) (b q : ℕ) : Prop :=
  q ∈ (w.hist b).runSpace fmt ∨ (w.hist b).snap.highWater ≤ q

/-- What holds of a transaction on the commit `b`. -/
structure Working (fmt : PageFormat V) (w : Store V) (b : ℕ) (t : Txn) : Prop where
  ok : t.OK (w.hist b).live
  tracked : t.Tracked (Avoid w b) (RunPage fmt w b) (w.hist b).snap.highWater
    ((w.hist b).freelist fmt)

/-- The commit `c` after `b` is settled and its pages are in the mapping. -/
structure Planned (fmt : PageFormat V) (w : Store V) (b : ℕ) (c : Commit V) : Prop where
  follows : Follows fmt w.dataStart (w.hist b) c
  mem : ∀ p ∈ c.live, w.mem p = c.image p

/-- Its record is in the log. -/
structure Pending (w : Store V) (b : ℕ) (c : Commit V) : Prop where
  top : w.top = b + 1
  hist : w.hist (b + 1) = c
  mem : ∀ p ∈ c.live, w.mem p = c.image p

/-- A checkpoint at `b` that has synced the mapping. -/
structure AtCkpt (d : Durability) (w : Store V) (b : ℕ) : Prop where
  top : w.top = b
  gate : d = .wal → b ≤ w.durableTxn
  len : d = .wal → w.memLock.walLen + w.shift = b
  appended : d = .async → w.walAppended + w.shift = b
  metas : d = .async → w.diskMeta = w.memMeta

/-- What holds of the writer, stage by stage. -/
def StageOK (fmt : PageFormat V) (d : Durability) (w : Store V) (b : ℕ) (x : Writer V) :
    Stage V → Prop
  | .working => OnBase w b x ∧ Idle d w b ∧ Working fmt w b x.txn
  | .planned c => OnBase w b x ∧ Idle d w b ∧ Planned fmt w b c
  | .extentsSynced c => OnBase w b x ∧ Idle d w b ∧ Planned fmt w b c ∧
      ∀ p ∈ c.extents, w.disk p = w.mem p
  | .written c => OnBase w b x ∧ Pending w b c ∧ Level d w b ∧
      (d = .wal → w.memLock.walLen + w.shift = b)
  | .logSynced c => OnBase w b x ∧ Pending w b c ∧ d = .wal ∧ w.memLock.walLen + w.shift = b ∧
      w.synced + w.shift = b + 1
  | .lenStored c | .bodyStored c => OnBase w b x ∧ Pending w b c ∧ Level d w (b + 1) ∧
      (d = .wal → w.memLock.walLen + w.shift = b + 1)
  | .flipped c => c.snap.txnId = b ∧ w.top = b ∧ Level d w b ∧
      (d = .wal → w.memLock.walLen + w.shift = b)
  | .acked => w.top = b ∧ Level d w b ∧ (d = .wal → w.memLock.walLen + w.shift = b) ∧
      (d = .wal → b ≤ w.durableTxn)
  | .ckptSynced t => t + w.shift = b ∧ AtCkpt d w b ∧ Ckpt d w b b ∧
      (d = .async → w.memLock.walLen ≤ max w.synced w.memLock.walCkpt)
  | .ckptLen t => t + w.shift = b ∧ AtCkpt d w b ∧ Ckpt d w b b ∧ d = .async ∧
      w.memLock.walLen ≤ max w.synced t
  | .ckptStored t => t + w.shift = b ∧ AtCkpt d w b ∧ w.memLock.walCkpt = t ∧
      (d = .async → w.memLock.walLen ≤ max w.synced t)
  | .ckptDurable t => t + w.shift = b ∧ w.top = b ∧ Level d w b ∧ (d = .wal → b ≤ w.durableTxn) ∧
      w.diskLock.walCkpt = t ∧ w.memLock.walCkpt = t

/-- What holds of the lock. -/
def LockOK (fmt : PageFormat V) (d : Durability) (w : Store V) (b : ℕ) : Lock V → Prop
  | .free => Idle d w b
  | .orphaned => d = .wal
  | .held x => StageOK fmt d w b x x.stage

/-- The invariant. -/
structure Inv (fmt : PageFormat V) (d : Durability) (w : Store V) (l : Lock V) (b : ℕ) : Prop where
  core : Core fmt d w b
  lock : LockOK fmt d w b l

section Kernel

variable {w w' : Store V} {l : Lock V} {a b : ℕ}

theorem Cover.mono {b' : ℕ} (h : Cover w b a) (hf : floor w b ≤ floor w' b')
    (hh : w'.hist = w.hist) (ht : w'.top ≤ w.top) (hm : w'.mem = w.mem)
    (hd : ∀ p, w'.disk p = w.disk p ∨ w'.disk p = w.mem p) : Cover w' b' a := by
  intro n hn han htop p hp hlast
  rw [hh] at hp hlast ⊢
  rw [hm]
  obtain ⟨hmem, hdisk⟩ := h n (hf.trans hn) han (htop.trans ht) p hp hlast
  refine ⟨hmem, ?_⟩
  rcases hd p with he | he <;> rw [he]
  · exact hdisk
  · exact hmem

/-- Pages and slots are written back. With `async`, a record after transaction `a` is durable or the
slot holds nothing newer. -/
theorem MetaOn.writeback (h : MetaOn d w b a) (hw : Metas w b) (hm : w'.memMeta = w.memMeta)
    (hs : w.synced + w.shift ≤ w'.synced + w'.shift) (hh : w'.hist = w.hist) (hmem : w'.mem = w.mem)
    (hdisk : ∀ p, w'.disk p = w.disk p ∨ w'.disk p = w.mem p)
    (hd : ∀ s, w'.diskMeta s = w.diskMeta s ∨ w'.diskMeta s = w.memMeta s ∧
      (d = .async → w.synced + w.shift ≤ a → ∃ m, w.memMeta s = some m ∧ m.txnId ≤ a)) :
    MetaOn d w' b a := by
  cases d with
  | wal =>
    intro hab s m hmem hb
    rw [hm] at hmem
    rcases hd s with he | ⟨he, -⟩ <;> rw [he]
    · exact h hab s m hmem hb
    · exact hmem
  | async =>
    intro hle
    obtain ⟨n, han, hnb, ⟨s₀, m₀, hs₀, hm₀⟩, hbound, hpages⟩ := h (hs.trans hle)
    refine ⟨n, han, hnb, ⟨s₀, ?_⟩, fun s m hsm => ?_, fun p hp => ?_⟩
    · rcases hd s₀ with he | ⟨he, hg⟩
      · exact ⟨m₀, he.trans hs₀, hm₀⟩
      · obtain ⟨m, hmem, hma⟩ := hg rfl (hs.trans hle)
        have := hw.newer s₀ m₀ m hs₀ hmem
        exact ⟨m, he.trans hmem, by omega⟩
    · rcases hd s with he | ⟨he, hg⟩
      · exact hbound s m (he ▸ hsm)
      · obtain ⟨m', hmem, hma⟩ := hg rfl (hs.trans hle)
        rw [he, hmem] at hsm
        cases hsm
        omega
    · rw [hh] at hp ⊢
      rw [hmem]
      obtain ⟨h1, h2⟩ := hpages p hp
      refine ⟨h1, ?_⟩
      rcases hdisk p with he | he <;> rw [he]
      · exact h2
      · exact h1

/-- The store after the kernel has written back. -/
def kernel (w : Store V) (disk : ℕ → V) (diskMeta : MetaSlots) (memLock diskLock : LockArea)
    (synced : ℕ) (flushes : List ℕ) (acked : ℕ) : Store V :=
  { w with
    disk := disk
    diskMeta := diskMeta
    memLock := memLock
    diskLock := diskLock
    synced := synced
    flushes := flushes
    acked := acked }

variable {disk : ℕ → V} {diskMeta : MetaSlots} {memLock diskLock : LockArea} {synced : ℕ}
  {flushes : List ℕ} {acked : ℕ}

/-- The conditions on a change of the kernel or the flusher, whatever the stage of the writer. -/
structure KernelOK (d : Durability) (w : Store V) (disk' : ℕ → V) (diskMeta' : MetaSlots)
    (memLock' diskLock' : LockArea) (synced' : ℕ) : Prop where
  disk : ∀ p, disk' p = w.disk p ∨ disk' p = w.mem p
  diskMeta : ∀ s, diskMeta' s = w.diskMeta s ∨ diskMeta' s = w.memMeta s ∧
    (d = .async → w.synced ≤ w.diskLock.walCkpt →
      ∃ m, w.memMeta s = some m ∧ m.txnId ≤ w.diskLock.walCkpt + w.shift)
  synced : w.synced ≤ synced'
  synced_wal : d = .wal → synced' = w.synced
  memCkpt : memLock'.walCkpt = w.memLock.walCkpt
  memLen : memLock'.walLen = w.memLock.walLen ∨
    d = .async ∧ memLock'.walLen ≤ max w.memLock.walLen synced'
  diskCkpt : diskLock'.walCkpt = w.diskLock.walCkpt ∨ diskLock'.walCkpt = w.memLock.walCkpt

theorem KernelOK.floor_le (hk : KernelOK d w disk diskMeta memLock diskLock synced)
    (hp : w.diskLock.walCkpt ≤ w.memLock.walCkpt) :
    floor w b ≤ floor (kernel w disk diskMeta memLock diskLock synced flushes acked) b := by
  have h1 := hk.synced
  have h2 := hk.diskCkpt
  simp only [floor, kernel]
  omega

theorem Level.kernel {n : ℕ} (h : Level d w n)
    (hk : KernelOK d w disk diskMeta memLock diskLock synced) :
    Level d (kernel w disk diskMeta memLock diskLock synced flushes acked) n := by
  refine ⟨h.appended, fun ha => ?_, fun ha => ?_⟩
  · have h1 := h.ckpt ha
    have h2 := hk.diskCkpt
    have h3 := hk.memCkpt
    simp only [Wal.kernel]
    omega
  · have h1 := h.len ha
    have h2 := hk.memLen
    have h3 := hk.memCkpt
    have h4 := hk.synced
    simp only [Wal.kernel]
    omega

theorem Idle.kernel (h : Idle d w b) (hk : KernelOK d w disk diskMeta memLock diskLock synced) :
    Idle d (kernel w disk diskMeta memLock diskLock synced flushes acked) b :=
  ⟨h.toLevel.kernel hk, h.top, h.gate⟩


theorem KernelOK.len_wal (hk : KernelOK d w disk diskMeta memLock diskLock synced) {n : ℕ}
    (h : d = .wal → w.memLock.walLen + w.shift = n) (hd : d = .wal) :
    memLock.walLen + w.shift = n := by
  rcases hk.memLen with he | ⟨ha, -⟩
  · rw [he]
    exact h hd
  · simp [hd] at ha

theorem AtCkpt.kernel (h : AtCkpt d w b) (hk : KernelOK d w disk diskMeta memLock diskLock synced) :
    AtCkpt d (kernel w disk diskMeta memLock diskLock synced flushes acked) b := by
  refine ⟨h.top, h.gate, hk.len_wal h.len, h.appended, fun hd => ?_⟩
  funext s
  rcases hk.diskMeta s with he | ⟨he, -⟩
  · exact he.trans (congrFun (h.metas hd) s)
  · exact he

theorem Working.kernel {t : Txn} (h : Working fmt w b t)
    (hp : w.diskLock.walCkpt ≤ w.memLock.walCkpt)
    (hk : KernelOK d w disk diskMeta memLock diskLock synced) :
    Working fmt (kernel w disk diskMeta memLock diskLock synced flushes acked) b t := by
  refine ⟨h.ok, h.tracked.mono fun q hq => ?_⟩
  rcases hq with hq | ⟨n, hn, hnb, hq⟩
  · exact Or.inl hq
  · exact Or.inr ⟨n, (hk.floor_le hp).trans hn, hnb, hq⟩

theorem Ckpt.kernel (h : Ckpt d w b a) (hw : Metas w b)
    (hp : w.diskLock.walCkpt ≤ w.memLock.walCkpt)
    (hk : KernelOK d w disk diskMeta memLock diskLock synced)
    (ha : d = .async → a = w.diskLock.walCkpt + w.shift ∨ w.diskMeta = w.memMeta) :
    Ckpt d (kernel w disk diskMeta memLock diskLock synced flushes acked) b a := by
  refine ⟨h.cover.mono (hk.floor_le hp) rfl (le_refl _) rfl hk.disk,
    h.metas.writeback hw rfl (Nat.add_le_add_right hk.synced _) rfl rfl hk.disk fun s => ?_⟩
  rcases hk.diskMeta s with he | ⟨he, hg⟩
  · exact Or.inl he
  · by_cases hd : w.diskMeta s = w.memMeta s
    · exact Or.inl (he.trans hd.symm)
    · refine Or.inr ⟨he, fun hd' => ?_⟩
      rcases ha hd' with rfl | hm
      · exact fun hle => hg hd' (Nat.le_of_add_le_add_right hle)
      · exact absurd (congrFun hm s) hd

/-- No stage asks for more than the kernel keeps. -/
theorem StageOK.kernel {x : Writer V} (hw : Metas w b) (hp : w.diskLock.walCkpt ≤ w.memLock.walCkpt)
    (hk : KernelOK d w disk diskMeta memLock diskLock synced) :
    ∀ {st : Stage V}, StageOK fmt d w b x st →
      StageOK fmt d (kernel w disk diskMeta memLock diskLock synced flushes acked) b x st
  | .working, h => ⟨{ h.1 with }, h.2.1.kernel hk, h.2.2.kernel hp hk⟩
  | .planned _, h => ⟨{ h.1 with }, h.2.1.kernel hk, { h.2.2 with }⟩
  | .extentsSynced _, h => by
    refine ⟨{ h.1 with }, h.2.1.kernel hk, { h.2.2.1 with }, fun p hp => ?_⟩
    rcases hk.disk p with he | he
    · exact he.trans (h.2.2.2 p hp)
    · exact he
  | .written _, h | .lenStored _, h | .bodyStored _, h =>
    ⟨{ h.1 with }, { h.2.1 with }, h.2.2.1.kernel hk, hk.len_wal h.2.2.2⟩
  | .logSynced _, h => ⟨{ h.1 with }, { h.2.1 with }, h.2.2.1,
      hk.len_wal (fun _ => h.2.2.2.1) h.2.2.1, by
        simp only [hk.synced_wal h.2.2.1]
        exact h.2.2.2.2⟩
  | .flipped _, h => ⟨h.1, h.2.1, h.2.2.1.kernel hk, hk.len_wal h.2.2.2⟩
  | .acked, h => ⟨h.1, h.2.1.kernel hk, hk.len_wal h.2.2.1, h.2.2.2⟩
  | .ckptSynced _, h => by
    refine ⟨h.1, h.2.1.kernel hk, h.2.2.1.kernel hw hp hk fun hd => Or.inr (h.2.1.metas hd),
      fun hd => ?_⟩
    have h1 := h.2.2.2 hd
    have h2 := hk.memLen
    have h3 := hk.memCkpt
    have h4 := hk.synced
    simp only [Wal.kernel]
    omega
  | .ckptLen _, h => by
    refine ⟨h.1, h.2.1.kernel hk, h.2.2.1.kernel hw hp hk fun hd => Or.inr (h.2.1.metas hd),
      h.2.2.2.1, ?_⟩
    have h1 := h.2.2.2.2
    have h2 := hk.memLen
    have h4 := hk.synced
    simp only [Wal.kernel]
    omega
  | .ckptStored _, h => by
    refine ⟨h.1, h.2.1.kernel hk, hk.memCkpt.trans h.2.2.1, fun hd => ?_⟩
    have h1 := h.2.2.2 hd
    have h2 := hk.memLen
    have h4 := hk.synced
    simp only [Wal.kernel]
    omega
  | .ckptDurable _, h => by
    refine ⟨h.1, h.2.1, h.2.2.1.kernel hk, h.2.2.2.1, ?_, hk.memCkpt.trans h.2.2.2.2.2⟩
    have h1 := h.2.2.2.2
    have h2 := hk.diskCkpt
    simp only [Wal.kernel]
    omega

theorem LockOK.kernel (hw : Metas w b) (hp : w.diskLock.walCkpt ≤ w.memLock.walCkpt)
    (hk : KernelOK d w disk diskMeta memLock diskLock synced) :
    ∀ {l : Lock V}, LockOK fmt d w b l →
      LockOK fmt d (kernel w disk diskMeta memLock diskLock synced flushes acked) b l
  | .free, h => Idle.kernel h hk
  | .orphaned, h => h
  | .held _, h => StageOK.kernel hw hp hk h

/-- With `async`, the two lock pages agree on the checkpoint unless one has just synced the
metas. -/
theorem LockOK.even : ∀ {l : Lock V}, LockOK fmt d w b l → d = .async →
    w.memLock.walCkpt = w.diskLock.walCkpt ∨ w.diskMeta = w.memMeta
  | .free, h, hd => Or.inl (Idle.toLevel h |>.ckpt hd)
  | .orphaned, h, hd => by simp [show d = .wal from h] at hd
  | .held x, h, hd => by
    have h : StageOK fmt d w b x x.stage := h
    cases hst : x.stage <;> rw [hst] at h
    case working | planned | extentsSynced | acked => exact Or.inl (h.2.1.ckpt hd)
    case logSynced => simp [h.2.2.1] at hd
    case ckptSynced | ckptLen | ckptStored => exact Or.inr (h.2.1.metas hd)
    all_goals exact Or.inl (h.2.2.1.ckpt hd)

theorem Metas.kernel (h : Metas w b) (hk : KernelOK d w disk diskMeta memLock diskLock synced) :
    Metas (kernel w disk diskMeta memLock diskLock synced flushes acked) b := by
  refine ⟨h.newest, h.mem_le, h.mem_trees, fun s m hs => ?_, fun s m hs => ?_,
    fun s m m' hs hs' => ?_⟩
  · rcases hk.diskMeta s with he | ⟨he, -⟩
    · exact h.disk_le s m (he ▸ hs)
    · exact h.mem_le s m (he ▸ hs)
  · rcases hk.diskMeta s with he | ⟨he, -⟩
    · exact h.disk_trees s m (he ▸ hs)
    · exact h.mem_trees s m (he ▸ hs)
  · rcases hk.diskMeta s with he | ⟨he, -⟩
    · exact h.newer s m m' (he ▸ hs) hs'
    · have hs : w.memMeta s = some m := he ▸ hs
      have hs' : w.memMeta s = some m' := hs'
      rw [hs] at hs'
      cases hs'
      exact le_refl _

/-- What the kernel writes back by itself keeps the invariant. -/
theorem Inv.kernel (h : Inv fmt d w l b) (hk : KernelOK d w disk diskMeta memLock diskLock synced)
    (hpos : Positions d (kernel w disk diskMeta memLock diskLock synced flushes acked) b) :
    Inv fmt d (kernel w disk diskMeta memLock diskLock synced flushes acked) l b := by
  have hp := h.core.pos.disk_le_mem
  have hw := h.core.metas
  have hmem : Ckpt d (Wal.kernel w disk diskMeta memLock diskLock synced flushes acked) b
      (w.memLock.walCkpt + w.shift) := h.core.memCkpt.kernel hw hp hk fun hd =>
    (h.lock.even hd).imp_left fun he => by rw [he]
  have hdisk : Ckpt d (Wal.kernel w disk diskMeta memLock diskLock synced flushes acked) b
      (w.diskLock.walCkpt + w.shift) := h.core.diskCkpt.kernel hw hp hk fun _ => Or.inl rfl
  refine ⟨⟨hpos, h.core.chain, h.core.intact, hw.kernel hk, fun i hi => h.core.log i ?_,
    h.core.logTail, ?_, ?_⟩, h.lock.kernel hw hp hk⟩
  · have h1 := hk.diskCkpt
    simp only [Wal.kernel] at hi
    omega
  · exact (show memLock.walCkpt = w.memLock.walCkpt from hk.memCkpt) ▸ hmem
  · rcases hk.diskCkpt with he | he
    · exact (show diskLock.walCkpt = w.diskLock.walCkpt from he) ▸ hdisk
    · exact (show diskLock.walCkpt = w.memLock.walCkpt from he) ▸ hmem

theorem KernelOK.rfl' : KernelOK d w w.disk w.diskMeta w.memLock w.diskLock w.synced :=
  ⟨fun _ => Or.inl rfl, fun _ => Or.inl rfl, le_refl _, fun _ => rfl, rfl, Or.inl rfl,
    Or.inl rfl⟩

theorem Positions.pages (h : Positions d w b) :
    Positions d (kernel w disk diskMeta w.memLock w.diskLock w.synced w.flushes w.acked) b :=
  { h with }

theorem inv_writeback (h : Inv fmt d w l b) (p : ℕ) :
    Inv fmt d { w with disk := Function.update w.disk p (w.mem p) } l b := by
  refine h.kernel { KernelOK.rfl' with disk := fun q => ?_ } h.core.pos.pages
  by_cases hq : q = p
  · exact Or.inr (by rw [hq, Function.update_self])
  · exact Or.inl (Function.update_of_ne hq _ _)

theorem inv_writebackMeta (h : Inv fmt d w l b) {s : Bool}
    (hg : d = .async → w.diskLock.walCkpt < w.synced ∨
      (w.memMeta s).any (·.txnId ≤ w.diskLock.walCkpt + w.shift) = true) :
    Inv fmt d { w with diskMeta := Function.update w.diskMeta s (w.memMeta s) } l b := by
  refine h.kernel { KernelOK.rfl' with diskMeta := fun o => ?_ } h.core.pos.pages
  by_cases ho : o = s
  · subst ho
    rw [Function.update_self]
    refine Or.inr ⟨rfl, fun hd hle => ?_⟩
    rcases hg hd with hlt | hm
    · omega
    · simpa [Option.any_eq_true] using hm
  · exact Or.inl (Function.update_of_ne ho _ _)

/-- The lock page may reach the disk early, as long as its log is synced. -/
theorem inv_writebackLock (h : Inv fmt d w l b) (hg : d = .async →
    w.memLock.walLen ≤ max w.synced w.memLock.walCkpt) :
    Inv fmt d { w with diskLock := w.memLock } l b := by
  have hp := h.core.pos
  have hlen : w.memLock.walLen ≤ max w.synced w.memLock.walCkpt := by
    cases d with
    | wal => exact (hp.wal rfl).2.1.trans (le_max_left _ _)
    | async => exact hg rfl
  refine h.kernel { KernelOK.rfl' with diskCkpt := Or.inr rfl } { hp with
    disk_le_mem := le_refl _
    len_le := le_refl _
    len_covered := hlen
    acked_covered := ?_
    async := fun hd => ?_ }
  · have h1 := hp.acked_covered
    have h2 := hp.disk_le_mem
    simp only [Store.covered, kernel] at h1 ⊢
    omega
  · have h1 := hp.async hd
    have h2 := hp.disk_le_mem
    simp only [floor, kernel] at h1 ⊢
    omega

/-- The flusher's sync reaches what was appended before. -/
theorem inv_flushSync (h : Inv fmt .async w l b) {a : ℕ} (ha : a ≤ w.walAppended)
    (hle : w.walAppended + w.shift ≤ w.top) :
    Inv fmt .async { w with synced := max w.synced w.walAppended, flushes :=
      a :: w.flushes } l b := by
  have hp := h.core.pos
  refine h.kernel ⟨fun _ => Or.inl rfl, fun _ => Or.inl rfl, le_max_left _ _,
    fun hd => by simp at hd, rfl, Or.inl rfl, Or.inl rfl⟩ { hp with
    synced_le := ?_
    len_covered := ?_
    acked_covered := ?_
    flushes := fun a' ha' => ?_
    wal := fun hd => by simp at hd
    async := fun hd => ?_ }
  · have := hp.synced_le
    simp only [kernel]
    omega
  · have := hp.len_covered
    simp only [kernel]
    omega
  · have := hp.acked_covered
    simp only [Store.covered, kernel] at this ⊢
    omega
  · simp only [kernel]
    rcases List.mem_cons.1 ha' with rfl | ha'
    · omega
    · have := hp.flushes a' ha'
      omega
  · have := hp.async hd
    simp only [floor, kernel] at this ⊢
    omega

/-- A flush that is done is acknowledged. -/
theorem inv_flushDone (h : Inv fmt .async w l b) {a : ℕ} (ha : a ∈ w.flushes) :
    Inv fmt .async { w with
      memLock := { w.memLock with walLen := max w.memLock.walLen a }
      flushes := w.flushes.erase a
      acked := max w.acked (a + w.shift) } l b := by
  have hp := h.core.pos
  have hle := hp.flushes a ha
  refine h.kernel ⟨fun _ => Or.inl rfl, fun _ => Or.inl rfl, le_refl _, fun _ => rfl, rfl,
    Or.inr ⟨rfl, ?_⟩, Or.inl rfl⟩ { hp with
    len_le := ?_
    len_top := ?_
    acked_covered := ?_
    acked_top := ?_
    flushes := fun a' ha' => ?_
    wal := fun hd => by simp at hd }
  · simp only
    omega
  · have := hp.len_le
    simp only [kernel]
    omega
  · have h1 := hp.len_top
    have h2 := hp.synced_le
    simp only [kernel]
    omega
  · have := hp.acked_covered
    simp only [Store.covered, kernel] at this ⊢
    omega
  · have h1 := hp.acked_top
    have h2 := hp.synced_le
    simp only [kernel]
    omega
  · exact hp.flushes a' (List.mem_of_mem_erase ha')

end Kernel

end Mpedb.Wal
