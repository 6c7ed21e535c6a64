import Mpedb.Proofs.WalInv

/-!
# Recovery after a power loss

The scan finds the records from the checkpoint on disk up to some transaction between the last one
sure to be there and the last one written. Replaying them makes the pages and the meta those of that
transaction. If it finds none, the metas and pages on disk are those of one transaction.
-/

namespace Mpedb.Wal

open List

variable {V : Type*} {fmt : PageFormat V} {d : Durability}

/-- By recursion on the number of records; the first gap ends the scan. -/
theorem scan_eq {log : ℕ → Option (Rec V)} {hist : ℕ → Commit V} {dataStart shift : ℕ} :
    ∀ (k n off : ℕ) (prev : Option ℕ), k ≤ n →
      (∀ i, off ≤ i → i < off + k → log i = some (hist (i + shift + 1)).record ∧
        (hist (i + shift + 1)).snap.txnId = i + shift + 1 ∧
        ∀ p ∈ (hist (i + shift + 1)).dirty, dataStart ≤ p) →
      log (off + k) = none → (∀ t ∈ prev, t = off + shift) →
      scan log dataStart n off prev =
        (List.range' off k).map fun i => (hist (i + shift + 1)).record
  | 0, 0, _, _, _, _, _, _ => rfl
  | 0, n + 1, off, prev, _, _, hend, _ => by
    rw [Nat.add_zero] at hend
    simp [scan, hend]
  | k + 1, 0, _, _, hk, _, _, _ => by omega
  | k + 1, n + 1, off, prev, hk, hrec, hend, hprev => by
    obtain ⟨hlog, htxn, hpages⟩ := hrec off (Nat.le_refl _) (by omega)
    have h1 : prev.any (fun t => (hist (off + shift + 1)).record.txnId ≠ t + 1) = false := by
      rcases prev with _ | t
      · rfl
      · simp [Commit.record, htxn, hprev t rfl]
    have h2 : (hist (off + shift + 1)).record.pages.any (fun i => i.1 < dataStart) = false := by
      rw [any_eq_false]
      intro i hi
      obtain ⟨p, hp, rfl⟩ := mem_map.1 hi
      simpa using hpages p hp
    have ih := scan_eq k n (off + 1) (some (hist (off + shift + 1)).record.txnId) (by omega)
      (fun i hi hlt => hrec i (by omega) (by omega)) (by rwa [Nat.add_right_comm])
      (fun t ht => by
        cases ht
        show (hist (off + shift + 1)).snap.txnId = off + 1 + shift
        omega)
    rw [List.range'_succ, map_cons, ← ih]
    simp only [scan, hlog, h1, h2, Bool.false_eq_true, if_false]

theorem foldl_images (f : ℕ → V) (q : ℕ) : ∀ (ps : List ℕ) (mem : ℕ → V),
    ((ps.map fun p => (p, f p)).foldl (fun mem i => Function.update mem i.1 i.2) mem) q =
      if q ∈ ps then f q else mem q
  | [], mem => by simp
  | p :: ps, mem => by
    rw [map_cons, foldl_cons, foldl_images f q ps]
    by_cases hq : q = p
    · subst hq
      simp
    · simp [hq]

theorem replay_range (hist : ℕ → Commit V) (mem : ℕ → V) (shift a p : ℕ) : ∀ k : ℕ,
    replay mem ((List.range' a k).map fun i => (hist (i + shift + 1)).record) p =
      (lastWrite hist (a + shift) (a + shift + k) p).getD (mem p)
  | 0 => by
    rw [Nat.add_zero, lastWrite_of_le (Nat.le_refl _)]
    rfl
  | k + 1 => by
    have ih := replay_range hist mem shift a p k
    rw [List.range'_1_concat, map_append, replay, foldl_append]
    show ((hist (a + k + shift + 1)).dirty.map fun p =>
      (p, (hist (a + k + shift + 1)).image p)).foldl
      (fun mem i => Function.update mem i.1 i.2) (replay mem _) p = _
    rw [foldl_images, ih, ← Nat.add_assoc, lastWrite, Nat.add_right_comm a k shift]
    by_cases hp : p ∈ (hist (a + shift + k + 1)).dirty
    · simp [hp]
    · simp [hp]

theorem getLast?_range (hist : ℕ → Commit V) (shift a k : ℕ) :
    ((List.range' a (k + 1)).map fun i => (hist (i + shift + 1)).record).getLast? =
      some (hist (a + k + shift + 1)).record := by
  rw [List.range'_1_concat, map_append]
  exact List.getLast?_concat

/-- Everything is durable up to transaction `n`, and the log is empty from offset `off` on. -/
def settledAt (w : Store V) (mem : ℕ → V) (slots : MetaSlots) (log : ℕ → Option (Rec V))
    (n off : ℕ) : Store V :=
  { w with
    mem := mem
    disk := mem
    memMeta := slots
    diskMeta := slots
    memLock := ⟨off, off⟩
    diskLock := ⟨off, off⟩
    walAppended := off
    durableTxn := n
    log := log
    synced := off
    flushes := []
    top := n
    shift := n - off }

/-- A store settled on a commit, with an empty log after it, satisfies the invariant. -/
theorem inv_settledAt {w : Store V} {mem : ℕ → V} {slots : MetaSlots} {log : ℕ → Option (Rec V)}
    {n o : ℕ} (hchain : Chain fmt w.dataStart w.hist n)
    (hmem : ∀ p ∈ (w.hist n).live, mem p = (w.hist n).image p)
    (hnew : ∃ s m, slots s = some m ∧ m.txnId = n) (hle : ∀ s m, slots s = some m → m.txnId ≤ n)
    (htrees : ∀ s m, slots s = some m → m.trees = (w.hist m.txnId).snap.trees)
    (hlog : ∀ i, o ≤ i → log i = none) (hon : o ≤ n) (hend : o ≤ w.logEnd) (hacked : w.acked ≤ n) :
    Inv fmt d (settledAt w mem slots log n o) .free n := by
  have hshift : o + (n - o) = n := Nat.add_sub_cancel' hon
  have hpos : Positions d (settledAt w mem slots log n o) n := by
    constructor <;> simp only [settledAt, Store.covered, floor, max_self, hshift]
    case flushes => simp
    case wal => exact fun _ => ⟨le_refl _, le_refl _, hacked, trivial⟩
    case async => exact fun _ => le_max_right _ _
    all_goals omega
  have hckpt : Ckpt d (settledAt w mem slots log n o) n (o + (n - o)) := by
    rw [hshift]
    constructor
    · intro i _ hi htop p hp _
      obtain rfl : i = n := le_antisymm htop hi
      exact ⟨hmem p hp, hmem p hp⟩
    · cases d with
      | wal => exact fun _ s m hs _ => hs
      | async => exact fun _ => ⟨n, le_refl _, le_refl _, hnew, hle, fun p hp =>
          ⟨hmem p hp, hmem p hp⟩⟩
  refine ⟨⟨hpos, hchain, hmem, ⟨hnew, hle, htrees, hle, htrees, fun s m m' hs hs' => ?_⟩,
    fun i hi hlt => ?_, fun i hi => hlog i ?_, hckpt, hckpt⟩, ⟨⟨fun _ => hshift, fun _ => rfl,
      fun _ => le_max_left _ _⟩, fun _ => rfl, fun _ => le_refl _⟩⟩
  · have hs : slots s = some m := hs
    have hs' : slots s = some m' := hs'
    rw [hs] at hs'
    cases hs'
    exact le_refl _
  · simp only [settledAt] at hi hlt
    omega
  · simp only [settledAt] at hi
    omega

theorem inv_init (mem : ℕ → V) (dataStart : ℕ) : 
    Inv fmt d (World.init mem dataStart).toStore .free 0 := by
  have hok : Published.OK fmt ((World.init mem dataStart).hist 0).toPublished := by
    refine ⟨⟨fun r hr => by simp [World.init, genesis, MetaSnapshot.roots] at hr,
      fun p hp => by simp [World.init] at hp⟩, ?_⟩
    simp only [World.init, genesis, fmt.freelist_zero]
    constructor <;> simp [pagesOf]
  have hchain : Chain fmt dataStart (World.init mem dataStart).hist 0 :=
    ⟨⟨rfl, le_refl _, hok, fmt.freelist_zero _, rfl, rfl⟩, fun i hi => by omega⟩
  refine inv_settledAt (w := (World.init mem dataStart).toStore) (n := 0) (o := 0) hchain
    (fun p hp => by simp [World.init] at hp) ⟨false, _, rfl, rfl⟩ (fun s m hs => ?_)
    (fun s m hs => ?_) (fun _ _ => rfl) (le_refl _) (le_refl _) (le_refl _)
  · cases hs
    exact le_refl _
  · cases hs
    rfl

section Recover

variable {w : Store V} {b : ℕ}

/-- The end of the log if the records below `keep` survive. -/
def keptEnd (w : Store V) (keep : ℕ) : ℕ :=
  max w.diskLock.walCkpt (min (w.top - w.shift) (max w.synced keep))

/-- The records that a crash leaves in the log. -/
def keptRecords (w : Store V) (keep : ℕ) : List (Rec V) :=
  (List.range' w.diskLock.walCkpt (keptEnd w keep - w.diskLock.walCkpt)).map
    fun i => (w.hist (i + w.shift + 1)).record

theorem ckpt_le_keptEnd (w : Store V) (keep : ℕ) : w.diskLock.walCkpt ≤ keptEnd w keep :=
  le_max_left _ _

theorem Positions.keptEnd_le (hp : Positions d w b) (keep : ℕ) :
    keptEnd w keep + w.shift ≤ w.top := by
  have h1 := hp.disk_le_mem
  have h2 := hp.memCkpt_le
  have h3 := hp.le_top
  simp only [keptEnd]
  omega

theorem Positions.synced_le_keptEnd (hp : Positions d w b) (keep : ℕ) :
    w.synced ≤ keptEnd w keep := by
  have h1 := hp.synced_le
  simp only [keptEnd]
  omega

theorem length_keptRecords (w : Store V) (keep : ℕ) :
    w.diskLock.walCkpt + (keptRecords w keep).length = keptEnd w keep := by
  rw [keptRecords, length_map, length_range', Nat.add_sub_cancel' (ckpt_le_keptEnd w keep)]

theorem Inv.recovered {l : Lock V} (h : Inv fmt d w l b) (hacked : w.acked ≤ b) :
    Recovered fmt w := by
  have hc := h.core
  obtain ⟨m, s, hnew, hs, hm⟩ := newestMetaUngated_of_max hc.metas.newest hc.metas.mem_le
  refine ⟨b, hc.pos.le_top, hacked, ?_, fun p hp => ?_⟩
  · rw [hnew, Option.map_some, hc.metas.mem_trees s m hs, hm]
  · have hclosed := (hc.chain.ok b hc.pos.le_top).closed.congr hc.intact
    exact hc.intact p (hclosed.mem_of_reach hp)

variable [DecidableEq V]

/-- The scan after a crash finds the records that were kept, in their order. -/
theorem scan_crash (h : Core fmt d w b) (g : ℕ → Option V) (torn : Bool → Bool) (keep : ℕ) :
    scan (crash w g torn keep).log w.dataStart w.logEnd w.diskLock.walCkpt none =
      keptRecords w keep := by
  have hp := h.pos
  refine scan_eq _ _ _ _ ?_ (fun i hi hlt => ?_) ?_ (fun t ht => by simp at ht)
  · have h1 := hp.le_logEnd
    have h2 := hp.keptEnd_le keep
    omega
  · have hlt' : i + w.shift < w.top ∧ (i < w.synced ∨ i < keep) := by
      simp only [keptEnd] at hlt
      omega
    refine ⟨?_, h.chain.txnId _ (by omega), (h.chain.follows _ hlt'.1).dirty_ge⟩
    simp only [crash, if_pos hlt'.2]
    exact h.log i hi hlt'.1
  · rw [Nat.add_sub_cancel' (ckpt_le_keptEnd w keep)]
    simp only [crash]
    split_ifs with hk
    · refine h.logTail _ ?_
      simp only [keptEnd] at hk ⊢
      omega
    · rfl

theorem crash_mem {p : ℕ} {v : V} (hm : w.mem p = v) (hd : w.disk p = v) (g : ℕ → Option V)
    (torn : Bool → Bool) (keep : ℕ) : (crash w g torn keep).mem p = v := by
  simp [crash, hm, hd]

variable {torn : Bool → Bool} {keep : ℕ}

theorem crash_meta {g : ℕ → Option V} {s : Bool}
    {m : MetaSnapshot} (h : (crash w g torn keep).memMeta s = some m) : w.diskMeta s = some m := by
  simp only [crash] at h
  split_ifs at h
  exact h

/-- What recovery leaves: the slots hold the meta of transaction `n` and nothing newer, and the
pages are those of `n`. -/
structure RecoversTo (w : Store V) (mem : ℕ → V) (slots : MetaSlots) (n : ℕ) : Prop where
  newest : ∃ s m, slots s = some m ∧ m.txnId = n
  le : ∀ s m, slots s = some m → m.txnId ≤ n
  trees : ∀ s m, slots s = some m → m.trees = (w.hist m.txnId).snap.trees
  pages : ∀ p ∈ (w.hist n).live, mem p = (w.hist n).image p

/-- Without records the disk is as of a commit since the checkpoint. -/
theorem recoversTo_disk (h : Core fmt d w b)
    (ht : d = .async → ∀ s, torn s = false) (g : ℕ → Option V)
    (hk : keptEnd w keep = w.diskLock.walCkpt) :
    ∃ n, w.diskLock.walCkpt + w.shift ≤ n ∧ n ≤ w.top ∧
      RecoversTo w (crash w g torn keep).mem (crash w g torn keep).memMeta n := by
  have hp := h.pos
  have hsync : w.synced ≤ w.diskLock.walCkpt := by
    have h1 := hp.synced_le_keptEnd keep
    omega
  have h2 := hp.disk_le_mem
  have h3 := hp.memCkpt_le
  have h4 := hp.le_top
  cases d with
  | wal =>
    have hb : w.diskLock.walCkpt + w.shift = b := by
      have h1 := hp.wal rfl
      omega
    refine ⟨b, by omega, h4, ⟨?_, fun s m hs => h.metas.disk_le s m (crash_meta hs),
      fun s m hs => h.metas.disk_trees s m (crash_meta hs), fun p hpl => ?_⟩⟩
    · obtain ⟨s, m, hs, hm⟩ := h.metas.newest
      have hd := h.diskCkpt.metas hb s m hs hm
      exact ⟨s, m, by simp [crash, hs, hd], hm⟩
    · have hfloor : floor w b ≤ b := by
        simp only [floor]
        omega
      obtain ⟨hm, hd⟩ := h.diskCkpt.cover b hfloor (by omega) h4 p hpl
        (lastWrite_of_le (by omega))
      exact crash_mem hm hd g torn keep
  | async =>
    obtain ⟨n, han, hnb, ⟨s, m, hs, hm⟩, hle, hpages⟩ := h.diskCkpt.metas
      (Nat.add_le_add_right hsync _)
    refine ⟨n, han, by omega, ⟨⟨s, m, by simp [crash, ht rfl, hs], hm⟩,
      fun s m hs => hle s m (crash_meta hs), fun s m hs => h.metas.disk_trees s m (crash_meta hs),
      fun p hpl => crash_mem (hpages p hpl).1 (hpages p hpl).2 g torn keep⟩⟩

/-- The kept records bring back the state of the last one. -/
theorem recoversTo_log (h : Core fmt d w b) (g : ℕ → Option V) (torn : Bool → Bool) {k : ℕ}
    (hk : keptEnd w keep = w.diskLock.walCkpt + k + 1) :
    RecoversTo w (replay (crash w g torn keep).mem (keptRecords w keep))
      (replayMeta (crash w g torn keep).memMeta (keptRecords w keep))
      (keptEnd w keep + w.shift) := by
  have hp := h.pos
  have htop := hp.keptEnd_le keep
  have hlen : keptEnd w keep - w.diskLock.walCkpt = k + 1 := by omega
  have hmeta : replayMeta (crash w g torn keep).memMeta (keptRecords w keep) =
      fun _ => some (w.hist (keptEnd w keep + w.shift)).record.snap := by
    rw [replayMeta, keptRecords, hlen, getLast?_range]
    rw [show w.diskLock.walCkpt + k + w.shift + 1 = keptEnd w keep + w.shift by omega]
  have htxn : (w.hist (keptEnd w keep + w.shift)).record.snap.txnId = keptEnd w keep + w.shift :=
    h.chain.txnId _ htop
  rw [hmeta]
  refine ⟨⟨false, _, rfl, htxn⟩, fun s m hs => ?_, fun s m hs => ?_, fun p hpl => ?_⟩
  · cases hs
    exact le_of_eq htxn
  · cases hs
    rw [htxn]
    rfl
  · -- the page is restored or was on disk
    rw [keptRecords, replay_range, Nat.add_right_comm,
      Nat.add_sub_cancel' (ckpt_le_keptEnd w keep)]
    rcases hl : lastWrite w.hist (w.diskLock.walCkpt + w.shift) (keptEnd w keep + w.shift) p
      with _ | v
    · have hfloor : floor w b ≤ keptEnd w keep + w.shift := by
        have h1 := hp.synced_le_keptEnd keep
        simp only [floor]
        omega
      obtain ⟨hm, hd⟩ := h.diskCkpt.cover _ hfloor (by omega) htop p hpl hl
      exact crash_mem hm hd g torn keep
    · exact h.chain.lastWrite_eq _ htop hpl hl

/-- Recovery succeeds after any crash and ends in a committed state that is not older than what was
acknowledged. -/
theorem inv_recover (h : Core fmt d w b)
    (ht : d = .async → ∀ s, torn s = false) (g : ℕ → Option V) (keep : ℕ) :
    ∃ w' n, walRecover (crash w g torn keep) = some w' ∧ Inv fmt d w' .free n ∧ w'.acked ≤ n := by
  have hp := h.pos
  have hexists : ∃ n, keptEnd w keep + w.shift ≤ n ∧ n ≤ w.top ∧
      RecoversTo w (replay (crash w g torn keep).mem (keptRecords w keep))
        (replayMeta (crash w g torn keep).memMeta (keptRecords w keep)) n := by
    rcases hk : keptEnd w keep - w.diskLock.walCkpt with _ | k
    · have he : keptEnd w keep = w.diskLock.walCkpt := by
        have := ckpt_le_keptEnd w keep
        omega
      rw [keptRecords, hk, he]
      exact recoversTo_disk h ht g he
    · exact ⟨_, le_refl _, hp.keptEnd_le keep, recoversTo_log h g torn (k := k) (by omega)⟩
  obtain ⟨n, hend, htop, hr⟩ := hexists
  have hsync := hp.synced_le_keptEnd keep
  have hckpt := ckpt_le_keptEnd w keep
  have hlen := hp.len_covered
  have hacked : w.acked ≤ n := by
    have := hp.acked_covered
    simp only [Store.covered] at this
    omega
  have hnewest : ((newestMetaUngated (replayMeta (crash w g torn keep).memMeta
      (keptRecords w keep))).map (·.1.txnId)).getD 0 = n := by
    obtain ⟨m, s, hms, -, hm⟩ := newestMetaUngated_of_max hr.newest hr.le
    simp [hms, hm]
  refine ⟨settledAt w (replay (crash w g torn keep).mem (keptRecords w keep))
    (replayMeta (crash w g torn keep).memMeta (keptRecords w keep)) (crash w g torn keep).log n
    (keptEnd w keep), n, ?_, inv_settledAt (h.chain.of_le htop) hr.pages hr.newest hr.le hr.trees
    (fun i hi => ?_) (by omega) ?_ hacked, hacked⟩
  · unfold walRecover
    rw [show scan (crash w g torn keep).log (crash w g torn keep).dataStart
      (crash w g torn keep).logEnd (crash w g torn keep).memLock.walCkpt none = keptRecords w keep
      from scan_crash h g torn keep]
    simp only
    rw [show (crash w g torn keep).memLock.walCkpt + (keptRecords w keep).length =
      keptEnd w keep from length_keptRecords w keep, hnewest, if_neg]
    · rfl
    · show ¬ keptEnd w keep < w.diskLock.walLen
      omega
  · simp only [crash]
    split_ifs with hk
    · refine h.logTail i ?_
      simp only [keptEnd] at hi
      omega
    · rfl
  · have h1 := hp.le_logEnd
    omega

end Recover

end Mpedb.Wal
