import Mpedb.Proofs.WalRecover

/-!
# Recovery with a log

Every step keeps the invariant if no record of an unpublished transaction is built upon (`wal`), or
if pages are reused and metas written back only once the log covers them (`async`). A power loss at
any point then recovers a committed transaction.
-/

namespace Mpedb.Wal

open Transition Function Option PageFormat World

variable {V : Type*} {fmt : PageFormat V} {d : Durability}

theorem floor_le {w : Store V} {b : ℕ} (hp : Positions d w b) : floor w b ≤ b := by
  have h1 := hp.disk_le_mem
  have h2 := hp.memCkpt_le
  simp only [floor]
  omega

theorem Core.volatile {w : Store V} {b n t : ℕ} (h : Core fmt d w b)
    (ht : d = .async → t ≤ floor w b) :
    Core fmt d { w with walAppended := n, durableTxn := t } b :=
  { h with
    pos := { h.pos with async := ht }
    metas := { h.metas with }
    memCkpt := { h.memCkpt with }
    diskCkpt := { h.diskCkpt with } }

theorem Inv.stage {w : Store V} {b : ℕ} {x : Writer V} (h : Inv fmt d w (.held x) b)
    {st : Stage V} (hst : x.stage = st) : StageOK fmt d w b x st :=
  hst ▸ h.lock

theorem OnBase.txnId {w : Store V} {b : ℕ} {x : Writer V} (h : OnBase w b x)
    (hc : Core fmt d w b) : x.base.txnId = b :=
  (txnId_of_trees h.base).trans (hc.chain.txnId b hc.pos.le_top)

section Begin

variable {w w' : World V} {b : ℕ}

theorem newestMeta_eq (h : Inv fmt d w.toStore .free b) :
    ∃ m s, newestMeta d w.toStore = some (m, s) ∧ w.memMeta s = some m ∧ m.txnId = b := by
  have hm := h.core.metas
  cases d with
  | wal => exact newestMetaGated_of_max hm.newest hm.mem_le (h.lock.gate rfl)
  | async => exact newestMetaUngated_of_max hm.newest hm.mem_le

theorem inv_begin (h : Inv fmt d w.toStore .free b) (hs : beginWrite fmt d w = some w') :
    Inv fmt d w'.toStore w'.lock b := by
  obtain ⟨m, s, hnew, hslot, rfl⟩ := newestMeta_eq h
  simp only [beginWrite, hnew, Option.some.injEq] at hs
  subst hs
  have htrees := h.core.metas.mem_trees s m hslot
  have hok := h.core.chain.ok m.txnId h.core.pos.le_top
  have hfree : fmt.freelist w.mem m.freelistRoot = (w.hist m.txnId).freelist fmt := by
    rw [freelistRoot_of_trees htrees]
    exact fmt.freelist_eq hok.closed h.core.intact
  refine ⟨h.core, ⟨htrees, hslot, rfl, rfl⟩, h.lock, ?_⟩
  rw [hfree, highWater_of_trees htrees]
  exact ⟨Txn.OK.start hok.accounted, Txn.Tracked.start⟩

theorem inv_recoverAfterOwnerDeath (h : Inv fmt .wal w.toStore .orphaned b)
    (hs : recoverAfterOwnerDeath w = some w') : Inv fmt .wal w'.toStore .free b := by
  obtain ⟨m, s, hnew, -, rfl⟩ := newestMetaUngated_of_max h.core.metas.newest h.core.metas.mem_le
  simp only [recoverAfterOwnerDeath, hnew, map_some, Option.some.injEq] at hs
  subst hs
  exact ⟨h.core.volatile fun hd => by simp at hd,
    ⟨⟨fun hd => by simp at hd, fun hd => by simp at hd, fun hd => by simp at hd⟩,
      fun hd => by simp at hd, fun _ => le_max_right _ _⟩⟩

end Begin

section Txn

variable {w w' : World V} {b : ℕ} {x : Writer V}

theorem Working.not_mem_live {w : Store V} {t : Txn} (h : Working fmt w b t) {p n : ℕ}
    (hp : p ∈ t.dirty ++ t.allocatedRuns) (hn : floor w b ≤ n) (hnb : n ≤ b) :
    p ∉ (w.hist n).live := by
  have hin : p ∈ t.inHand := by
    simp only [Txn.inHand, List.mem_append] at hp ⊢
    tauto
  exact fun hl => h.tracked.avoids p hin (Or.inr ⟨n, hn, hnb, hl⟩)

/-- A page of the transaction after `b` that is in no record and was not written by that transaction
is a page of `b`. -/
theorem Core.cover_store {w : Store V} {p a : ℕ} {v : V} (h : Core fmt d w b)
    (ha : a ≤ b) (hc : Cover w b a) (hlive : ∀ n, floor w b ≤ n → n ≤ b → p ∉ (w.hist n).live)
    (hext : b < w.top → p ∉ (w.hist w.top).extents) :
    Cover { w with mem := Function.update w.mem p v } b a := by
  intro n hn han htop q hq hlast
  have hqp : q ≠ p := by
    rintro rfl
    by_cases hnb : n ≤ b
    · exact hlive n hn hnb hq
    · -- the record after `b` is of a transaction that was not published
      have hbt : w.top = b + 1 := by
        have := h.pos.top_le
        simp only at htop
        omega
      obtain rfl : n = b + 1 := by
        simp only at htop
        omega
      rcases (h.chain.follows b (by omega)).live q hq with ⟨hl, -⟩ | hd | hx
      · exact hlive b (floor_le h.pos) (le_refl _) hl
      · simp [lastWrite, ha, hd] at hlast
      · exact hext (by omega) (hbt ▸ hx)
  obtain ⟨hm, hd⟩ := hc n hn han htop q hq hlast
  exact ⟨(update_of_ne hqp _ _).trans hm, hd⟩

theorem MetaOn.store {w : Store V} {p a : ℕ} {v : V} (h : MetaOn d w b a)
    (ha : w.diskLock.walCkpt + w.shift ≤ a)
    (hlive : ∀ n, floor w b ≤ n → n ≤ b → p ∉ (w.hist n).live) :
    MetaOn d { w with mem := Function.update w.mem p v } b a := by
  cases d with
  | wal => exact h
  | async =>
    intro hle
    obtain ⟨n, han, hnb, hnew, hbound, hpages⟩ := h hle
    refine ⟨n, han, hnb, hnew, hbound, fun q hq => ?_⟩
    have hqp : q ≠ p := by
      rintro rfl
      refine hlive n ?_ hnb hq
      simp only at hle
      simp only [floor]
      omega
    exact ⟨(update_of_ne hqp _ _).trans (hpages q hq).1, (hpages q hq).2⟩

/-- A page of the transaction is in no committed state that can be recovered, so its bytes are
free. -/
theorem inv_store {w : Store V} (h : Inv fmt d w (.held x) b) (hst : x.stage = .working) {p : ℕ}
    {v : V} (hp : p ∈ x.txn.dirty ++ x.txn.allocatedRuns)
    (hg : d = .wal → x.base.txnId < w.top → p ∉ (w.hist w.top).extents) :
    Inv fmt d { w with mem := Function.update w.mem p v } (.held x) b := by
  have hc := h.core
  have hpos := hc.pos
  obtain ⟨hbase, hidle, hwork⟩ := h.stage hst
  have hlive : ∀ n, floor w b ≤ n → n ≤ b → p ∉ (w.hist n).live := fun n hn hnb =>
    hwork.not_mem_live hp hn hnb
  have hext : b < w.top → p ∉ (w.hist w.top).extents := fun hlt => by
    have hb := hbase.txnId hc
    cases hd : d with
    | wal => exact hg hd (by omega)
    | async =>
      have := hidle.top hd
      omega
  have hckpt : ∀ a, w.diskLock.walCkpt + w.shift ≤ a → a ≤ b → Ckpt d w b a →
      Ckpt d { w with mem := Function.update w.mem p v } b a := fun a ha hab hck =>
    ⟨hc.cover_store hab hck.cover hlive hext, hck.metas.store ha hlive⟩
  have h1 := Nat.add_le_add_right hpos.disk_le_mem w.shift
  have h2 := hpos.memCkpt_le
  refine ⟨{ hc with
    pos := { hpos with }
    intact := fun q hq => ?_
    metas := { hc.metas with }
    memCkpt := hckpt _ h1 h2 hc.memCkpt
    diskCkpt := hckpt _ (le_refl _) (h1.trans h2) hc.diskCkpt }, ?_⟩
  · have hqp : q ≠ p := fun he => hlive b (floor_le hpos) (le_refl _) (he ▸ hq)
    exact (update_of_ne hqp _ _).trans (hc.intact q hq)
  · show StageOK fmt d _ b x x.stage
    rw [hst]
    exact ⟨{ hbase with }, { hidle with }, { hwork with }⟩

theorem Inv.withTxn {w : Store V} (h : Inv fmt d w (.held x) b) (hst : x.stage = .working) {t : Txn}
    (ht : Working fmt w b t) : Inv fmt d w (.held (x.withTxn t)) b := by
  obtain ⟨hbase, hidle, -⟩ := h.stage hst
  refine ⟨h.core, ?_⟩
  show StageOK fmt d w b (x.withTxn t) x.stage
  rw [hst]
  exact ⟨{ hbase with }, hidle, ht⟩

theorem Core.not_avoid {w : Store V} (h : Core fmt d w b) {q : ℕ}
    (hq : (w.hist b).snap.highWater ≤ q) : ¬ Avoid w b q := by
  have hpos := h.pos
  rintro (hlt | ⟨n, -, hnb, hl⟩)
  · have := h.chain.dataStart_le hpos.le_top
    omega
  · have h1 := (h.chain.ok n (hnb.trans hpos.le_top)).accounted.live_lt q hl
    have h2 := h.chain.highWater_le hnb hpos.le_top
    omega

theorem Core.entry_not_avoid {w : Store V} (h : Core fmt d w b) {e : FreeEntry}
    (he : e ∈ (w.hist b).freelist fmt) (hcov : e.txn ≤ floor w b)
    (hstart : ∀ q ∈ e.ids, w.dataStart ≤ q) {q : ℕ} (hq : q ∈ e.ids) : ¬ Avoid w b q := by
  rintro (hlt | ⟨n, hn, hnb, hl⟩)
  · exact not_lt.2 (hstart q hq) hlt
  · exact h.chain.entry_off_live hnb h.pos.le_top he (hcov.trans hn) hq hl

/-- What the source's checks and the conditions on the run say about an entry that is drawn. -/
theorem Core.entry_txn_le_floor (h : Core fmt d w.toStore b) (hl : w.lock = .held x) {bound : ℕ}
    (hg : Admissible d w (.refill bound)) {e : FreeEntry}
    (he : e ∈ (w.hist b).freelist fmt) (hnext : x.txn.entries[x.txn.cursor]? = some e)
    (hfront : e.kind = .runs → (frontier d w.toStore).any (e.txn > ·) = false) :
    e.txn ≤ floor w.toStore b := by
  have hb := h.chain.entry_txn_le b h.pos.le_top e he
  cases d with
  | wal =>
    have := h.pos.wal rfl
    simp only [floor]
    omega
  | async =>
    have hcov := hg x (by simp [writer, hl]) e hnext
    have hdur := h.pos.async rfl
    rcases hk : e.kind with _ | _
    · have := hcov hk
      simp only [Store.covered, floor] at this ⊢
      omega
    · have := hfront hk
      simp only [frontier, any_some, decide_eq_false_iff_not] at this
      omega

theorem inv_refill (h : Inv fmt d w.toStore (.held x) b) (hl : w.lock = .held x)
    (hst : x.stage = .working) {bound : ℕ} (hg : Admissible d w (.refill bound))
    (hregion : nextInDataRegion w.dataStart x.txn = true) {t : Txn}
    (ht : x.txn.refillReusable bound (frontier d w.toStore) = some t) :
    Inv fmt d w.toStore (.held (x.withTxn t)) b := by
  obtain ⟨-, -, hwork⟩ := h.stage hst
  refine h.withTxn hst ⟨hwork.ok.refillReusable ht, hwork.tracked.refillReusable ht
    (fun e he hnext hfront q hq => ?_) fun e he hk q hq => Or.inl ?_⟩
  · refine h.core.entry_not_avoid he (h.core.entry_txn_le_floor hl hg he hnext hfront) ?_ hq
    simpa [nextInDataRegion, hnext] using hregion
  · exact List.mem_append_right _ (mem_pagesOf.2 ⟨e, List.mem_filter.2 ⟨he, by simpa using hk⟩, hq⟩)

theorem inv_freeExtent {w : Store V} (h : Inv fmt d w (.held x) b)
    (hst : x.stage = .working) {p : ℕ}
    (hp : p ∈ x.txn.allocatedRuns ∨ p ∈ x.runs ∧ p ∉ x.txn.freed ++ x.txn.freedRuns) :
    Inv fmt d w (.held (x.withTxn (x.txn.freeExtent p))) b := by
  obtain ⟨hbase, -, hwork⟩ := h.stage hst
  rw [hbase.runs] at hp
  refine h.withTxn hst ⟨hwork.ok.freeExtent (hp.imp_right fun hr =>
    ⟨h.core.chain.runs_live b h.core.pos.le_top p hr.1, hr.2⟩),
    hwork.tracked.freeExtent fun hn => Or.inl (List.mem_append_left _ (hp.resolve_left hn).1)⟩

theorem inv_plan {w : Store V} (h : Inv fmt d w (.held x) b) (hst : x.stage = .working) {q : Plan}
    (hq : q.OK fmt w.mem x.base x.live x.txn) :
    Inv fmt d w (.held { x with stage := .planned (x.commit w.mem q) }) b := by
  obtain ⟨hbase, hidle, hwork⟩ := h.stage hst
  have hc := h.core
  have htxn : x.base.txnId = (w.hist b).snap.txnId := txnId_of_trees hbase.base
  exact ⟨hc, { hbase with }, hidle,
    ⟨follows_commit htxn hbase.live hbase.runs (hc.chain.runs_live b hc.pos.le_top) hwork.ok
      hwork.tracked (fun p hp => Or.inl hp) (fun p hp => hp) hc.intact hq, fun p _ => rfl⟩⟩

/-- The writer's work before its commit. -/
theorem inv_stepTxn (h : Inv fmt d w.toStore (.held x) b) (hl : w.lock = .held x)
    (hst : x.stage = .working) {a : Label V} (hg : Admissible d w a)
    (hs : stepTxn fmt d w x a = some w') : Inv fmt d w'.toStore w'.lock b := by
  obtain ⟨hbase, hidle, hwork⟩ := h.stage hst
  have hmint : ∀ q, (w.hist b).snap.highWater ≤ q → ¬ Avoid w.toStore b q := fun q hq =>
    h.core.not_avoid hq
  cases a with
  | refill bound =>
    simp only [stepTxn] at hs
    split_ifs at hs with hregion
    obtain ⟨t, ht, rfl⟩ := map_eq_some_iff.1 hs
    exact inv_refill h hl hst hg hregion ht
  | alloc p =>
    obtain ⟨t, ht, rfl⟩ := map_eq_some_iff.1 hs
    exact h.withTxn hst ⟨hwork.ok.alloc ht, hwork.tracked.alloc hmint ht⟩
  | allocRun p =>
    obtain ⟨t, ht, rfl⟩ := map_eq_some_iff.1 hs
    exact h.withTxn hst ⟨hwork.ok.allocRun ht,
      hwork.tracked.allocRun hmint (fun q hq => Or.inr hq) ht⟩
  | store p v =>
    simp only [stepTxn] at hs
    split_ifs at hs with hp
    cases hs
    rw [hl]
    refine inv_store h hst hp fun hd hlt => ?_
    subst hd
    exact hg x (by simp [writer, hl]) hlt
  | free p =>
    simp only [stepTxn] at hs
    split_ifs at hs with hp
    obtain ⟨t, ht, rfl⟩ := map_eq_some_iff.1 hs
    rw [hbase.live] at hp
    exact h.withTxn hst ⟨hwork.ok.free hp.1 hp.2 ht, hwork.tracked.free ht⟩
  | freeExtent p =>
    simp only [stepTxn] at hs
    split_ifs at hs with hp
    cases hs
    exact inv_freeExtent h hst hp
  | enterFreelistOp =>
    cases hs
    exact h.withTxn hst ⟨hwork.ok.enterFreelistOp, hwork.tracked.enterFreelistOp⟩
  | plan q =>
    simp only [stepTxn] at hs
    split_ifs at hs with hq
    cases hs
    exact inv_plan h hst hq.2
  | abort =>
    cases hs
    exact ⟨h.core, hidle⟩
  | _ => simp [stepTxn] at hs

end Txn

section Commit

variable {w w' : World V} {b : ℕ} {x : Writer V} {c : Commit V}


theorem inv_syncExtents {w : Store V} (h : Inv fmt d w (.held x) b) (hst : x.stage = .planned c) :
    Inv fmt d { w with disk := fun p => if p ∈ c.extents then w.mem p else w.disk p }
      (.held { x with stage := .extentsSynced c }) b := by
  have hk : Inv fmt d (kernel w (fun p => if p ∈ c.extents then w.mem p else w.disk p) w.diskMeta
      w.memLock w.diskLock w.synced w.flushes w.acked) (.held x) b := by
    refine h.kernel { KernelOK.rfl' with disk := fun p => ?_ } h.core.pos.pages
    by_cases hp : p ∈ c.extents
    · exact Or.inr (if_pos hp)
    · exact Or.inl (if_neg hp)
  obtain ⟨hbase, hidle, hplan⟩ := hk.stage hst
  exact ⟨hk.core, { hbase with }, hidle, hplan, fun p hp => if_pos hp⟩

/-- The record of the next commit goes right after that of the last one. -/
theorem appendOffset_eq (h : Core fmt d w.toStore b) (hl : w.lock = .held x)
    (hbase : OnBase w.toStore b x) (hidle : Idle d w.toStore b) {aligned : Bool}
    (hg : Admissible d w (.writeRecord aligned)) : appendOffset d w.toStore + w.shift = b := by
  have hpos := h.pos
  cases d with
  | wal =>
    show w.memLock.walLen + w.shift = b
    have hlen := hpos.wal rfl
    by_contra hne
    have h1 := hpos.len_top
    have h2 := hpos.top_le
    have h3 := hpos.memCkpt_le
    have h4 := hpos.disk_le_mem
    -- the log would hold a record of the transaction after the base
    have hlog := h.log (w.memLock.walLen - 1) (by omega) (by omega)
    have hall := hg x (by simp [writer, hl]) (w.memLock.walLen - 1) (by omega) (by omega)
    have htop : w.memLock.walLen - 1 + w.shift + 1 = b + 1 := by omega
    rw [hlog, htop] at hall
    have htxn := h.chain.txnId (b + 1) (by omega)
    have hb := hbase.txnId h
    simp only [all_some, Commit.record, decide_eq_true_eq] at hall
    omega
  | async => exact hidle.appended rfl

/-- The new record covers what the earlier ones cover, as it logs its pages and its extents are
synced. -/
theorem cover_write {w w' : Store V} {a : ℕ} (h : Core fmt d w b) (ha : a ≤ b) (hc : Cover w b a)
    (hplan : Planned fmt w b c) (hext : ∀ p ∈ c.extents, w.disk p = w.mem p)
    (hhist : w'.hist = Function.update w.hist (b + 1) c) (htop : w'.top = b + 1)
    (hmem : w'.mem = w.mem) (hdisk : w'.disk = w.disk) (hfloor : floor w' b = floor w b) :
    Cover w' b a := by
  intro n hn han hnt p hp hlast
  have hold : ∀ i ≤ b, w'.hist i = w.hist i := fun i hi => by
    rw [hhist]
    exact update_of_ne (by omega) _ _
  have hnew : w'.hist (b + 1) = c := by
    rw [hhist, update_self]
  rw [hfloor] at hn
  rw [hmem, hdisk]
  by_cases hnb : n ≤ b
  · rw [hold n hnb] at hp ⊢
    rw [lastWrite_congr fun i hi => hold i (hi.trans hnb)] at hlast
    exact hc n hn han (hnb.trans h.pos.le_top) p hp hlast
  · obtain rfl : n = b + 1 := by omega
    rw [hnew] at hp ⊢
    simp only [lastWrite, hnew] at hlast
    split_ifs at hlast with hd
    rw [lastWrite_congr hold] at hlast
    rcases hplan.follows.live p hp with ⟨hl, himg⟩ | hd' | hx
    · rw [himg]
      exact hc b (floor_le h.pos) ha h.pos.le_top p hl hlast
    · exact absurd ⟨ha, hd'⟩ hd
    · rw [hext p hx]
      exact ⟨hplan.mem p hp, hplan.mem p hp⟩

/-- The store after the record of `c` was written at offset `off`. -/
def withRecord (w : Store V) (c : Commit V) (off : ℕ) (aligned : Bool) : Store V :=
  { w with
    log := writeAt w.log off c.record aligned
    logEnd := max w.logEnd (off + 1)
    synced := min w.synced off
    hist := Function.update w.hist c.snap.txnId c
    top := c.snap.txnId }

section Write

variable {w : Store V} {o : ℕ} {aligned : Bool}

theorem floor_withRecord (ho : o + w.shift = b) :
    floor (withRecord w c o aligned) b = floor w b := by
  simp only [floor, withRecord]
  omega

theorem hist_withRecord (hc : c.snap.txnId = b + 1) {i : ℕ} (hi : i ≤ b) :
    (withRecord w c o aligned).hist i = w.hist i :=
  update_of_ne (by omega) _ _

/-- The positions in the log after one record more. -/
theorem Positions.withRecord (h : Positions d w b) (ho : o + w.shift = b)
    (hc : c.snap.txnId = b + 1) (hlen : w.memLock.walLen ≤ o) (hacked : w.acked ≤ b)
    (hsync : d = .async → w.synced ≤ o) : Positions d (withRecord w c o aligned) b := by
  have h1 := h.len_le
  have h2 := h.len_covered
  have h3 := h.acked_covered
  simp only [Store.covered] at h3
  refine ⟨?_, ?_, ?_, ?_, h.disk_le_mem, h.memCkpt_le, h1, ?_, ?_, ?_, ?_, fun a ha => ?_,
    fun hd => ?_, fun hd => ?_⟩
  case refine_9 =>
    have ha : a ∈ w.flushes := ha
    have := h.flushes a ha
    simp only [Wal.withRecord]
    cases d with
    | wal =>
      rw [(h.wal rfl).2.2.2] at ha
      simp at ha
    | async =>
      have := hsync rfl
      omega
  case refine_10 =>
    have := h.wal hd
    simp only [Wal.withRecord]
    exact ⟨this.1, by omega, hacked, this.2.2.2⟩
  case refine_11 =>
    rw [floor_withRecord ho]
    exact h.async hd
  all_goals
    simp only [Wal.withRecord, Store.covered]
    omega

theorem MetaOn.withRecord {a : ℕ} (h : MetaOn d w b a) (hc : c.snap.txnId = b + 1)
    (hsync : d = .async → w.synced ≤ o) : MetaOn d (withRecord w c o aligned) b a := by
  cases d with
  | wal => exact h
  | async =>
    intro hle
    have hmin : min w.synced o = w.synced := min_eq_left (hsync rfl)
    simp only [Wal.withRecord, hmin] at hle
    obtain ⟨n, han, hnb, hnew, hbound, hpages⟩ := h hle
    refine ⟨n, han, hnb, hnew, hbound, ?_⟩
    rw [hist_withRecord hc hnb]
    exact hpages

theorem Metas.withRecord (h : Metas w b) (hc : c.snap.txnId = b + 1) :
    Metas (withRecord w c o aligned) b := by
  refine { h with mem_trees := fun s m hs => ?_, disk_trees := fun s m hs => ?_ }
  · rw [hist_withRecord hc (h.mem_le s m hs)]
    exact h.mem_trees s m hs
  · rw [hist_withRecord hc (h.disk_le s m hs)]
    exact h.disk_trees s m hs

theorem OnBase.withRecord (h : OnBase w b x) (hc : c.snap.txnId = b + 1) :
    OnBase (withRecord w c o aligned) b x := by
  have hold : (Wal.withRecord w c o aligned).hist b = w.hist b := hist_withRecord hc (le_refl b)
  exact ⟨hold ▸ h.base, h.slot, hold ▸ h.live, hold ▸ h.runs⟩

theorem Planned.txnId (hplan : Planned fmt w b c) (h : Core fmt d w b) : c.snap.txnId = b + 1 := by
  rw [hplan.follows.txnId, h.chain.txnId b h.pos.le_top]

/-- The log with one record more, of the commit that is planned. -/
theorem Core.withRecord (h : Core fmt d w b) (ho : o + w.shift = b) (hplan : Planned fmt w b c)
    (hext : ∀ p ∈ c.extents, w.disk p = w.mem p) (hlen : w.memLock.walLen ≤ o)
    (hacked : w.acked ≤ b) (hsync : d = .async → w.synced ≤ o) :
    Core fmt d (withRecord w c o aligned) b := by
  have hpos := h.pos
  have hc := hplan.txnId h
  have hnew : (Wal.withRecord w c o aligned).hist (b + 1) = c := by
    simp only [Wal.withRecord, hc, update_self]
  have h1 := hpos.disk_le_mem
  have h2 := hpos.memCkpt_le
  have hckpt : ∀ a ≤ b, Ckpt d w b a → Ckpt d (Wal.withRecord w c o aligned) b a := fun a ha hck =>
    ⟨cover_write h ha hck.cover hplan hext (by simp only [Wal.withRecord, hc]) hc rfl rfl
      (floor_withRecord ho), hck.metas.withRecord hc hsync⟩
  refine ⟨hpos.withRecord ho hc hlen hacked hsync, ?_, ?_, h.metas.withRecord hc,
    fun i hi hlt => ?_, fun i hi => ?_, hckpt _ h2 h.memCkpt, hckpt _ ?_ h.diskCkpt⟩
  · simp only [Wal.withRecord, hc]
    exact (h.chain.of_le hpos.le_top).snoc hplan.follows
  · rw [hist_withRecord hc (le_refl _)]
    exact h.intact
  · have hi' : w.diskLock.walCkpt ≤ i := hi
    have hlt' : i + w.shift < b + 1 := hc ▸ hlt
    show writeAt w.log o c.record aligned i =
      some ((Wal.withRecord w c o aligned).hist (i + w.shift + 1)).record
    by_cases hio : i = o
    · rw [hio, ho, hnew]
      simp [writeAt]
    · rw [hist_withRecord hc (by omega), writeAt, if_pos (by omega)]
      have := hpos.le_top
      exact h.log i hi' (by omega)
  · have hi' : b + 1 ≤ i + w.shift := hc ▸ hi
    show writeAt w.log o c.record aligned i = none
    rw [writeAt, if_neg (by omega), if_neg (by omega)]
    split_ifs
    · exact h.logTail i (hpos.top_le.trans hi')
    · rfl
  · show w.diskLock.walCkpt + w.shift ≤ b
    omega

end Write

/-- The record is written before anything of the commit is visible. -/
theorem inv_writeRecord (h : Inv fmt d w.toStore (.held x) b) (hl : w.lock = .held x)
    (hst : x.stage = .extentsSynced c) {aligned : Bool}
    (hg : Admissible d w (.writeRecord aligned)) :
    Inv fmt d (withRecord w.toStore c (appendOffset d w.toStore) aligned)
      (.held { x with stage := .written c }) b := by
  obtain ⟨hbase, hidle, hplan, hext⟩ := h.stage hst
  have hpos := h.core.pos
  have ho := appendOffset_eq h.core hl hbase hidle hg
  have hc := hplan.txnId h.core
  have hlen : w.memLock.walLen ≤ appendOffset d w.toStore := by
    cases d with
    | wal => exact le_refl _
    | async =>
      have h1 := hpos.len_top
      have h2 := hidle.top rfl
      omega
  have hacked : w.acked ≤ b := by
    cases d with
    | wal => exact (hpos.wal rfl).2.2.1
    | async =>
      have h1 := hpos.acked_top
      have h2 := hidle.top rfl
      omega
  have hsync : d = .async → w.synced ≤ appendOffset d w.toStore := fun hd => by
    have h1 := hpos.synced_le
    have h2 := hidle.top hd
    omega
  refine ⟨h.core.withRecord ho hplan hext hlen hacked hsync, { hbase.withRecord hc with },
    ⟨hc, ?_, hplan.mem⟩, { hidle.toLevel with len := fun hd => ?_ }, fun hd => ?_⟩
  · simp only [withRecord, hc, update_self]
  · have h1 := hsync hd
    have h2 := hidle.len hd
    simp only [withRecord]
    omega
  · subst hd
    exact ho

/-! The steps after the record. -/

section Publish

variable {w : Store V}

/-- A longer synced part of the log covers more. -/
theorem Core.setSynced {n : ℕ} (h : Core fmt .wal w b) (hn : w.synced ≤ n)
    (htop : n + w.shift ≤ w.top) :
    Core fmt .wal { w with synced := n } b := by
  obtain ⟨hp, hchain, hintact, hm, hlog, htail, hmc, hdc⟩ := h
  have hfloor : floor w b ≤ floor { w with synced := n } b := by
    simp only [floor]
    omega
  have hwal := hp.wal rfl
  have h1 := hp.len_covered
  refine ⟨{ hp with
      synced_le := htop
      len_covered := ?_
      acked_covered := ?_
      flushes := fun a ha => (hp.flushes a ha).trans hn
      wal := fun _ => ⟨hwal.1, hwal.2.1.trans hn, hwal.2.2⟩
      async := fun hd => by simp at hd }, hchain, hintact, { hm with }, hlog, htail,
    ⟨hmc.cover.mono hfloor rfl (le_refl _) rfl fun _ => Or.inl rfl, hmc.metas⟩,
    ⟨hdc.cover.mono hfloor rfl (le_refl _) rfl fun _ => Or.inl rfl, hdc.metas⟩⟩
  · simp only
    omega
  · simp only [Store.covered]
    omega

theorem inv_syncLog (h : Inv fmt .wal w (.held x) b) (hst : x.stage = .written c) :
    Inv fmt .wal { w with synced := w.memLock.walLen + 1 }
      (.held { x with stage := .logSynced c }) b := by
  obtain ⟨hbase, hpend, -, hlen⟩ := h.stage hst
  have hlen := hlen rfl
  have htop := hpend.top
  have hp := h.core.pos
  refine ⟨h.core.setSynced ?_ (by omega), { hbase with }, { hpend with }, rfl, hlen, ?_⟩
  · have := hp.synced_le
    omega
  · simp only
    omega

/-- The length that the lock page counts follows the synced record. -/
theorem inv_storeLen_wal (h : Inv fmt .wal w (.held x) b) (hst : x.stage = .logSynced c) :
    Inv fmt .wal { w with memLock := { w.memLock with walLen := w.memLock.walLen + 1 } }
      (.held { x with stage := .lenStored c }) b := by
  obtain ⟨hbase, hpend, -, hlen, hsync⟩ := h.stage hst
  have htop := hpend.top
  have hc := h.core
  have hwal := hc.pos.wal rfl
  have h1 := hc.pos.len_le
  refine ⟨{ hc with
    pos := { hc.pos with
      len_le := ?_
      len_top := ?_
      wal := fun _ => ⟨?_, ?_, hwal.2.2⟩
      async := fun hd => by simp at hd }
    metas := { hc.metas with }
    memCkpt := { hc.memCkpt with }
    diskCkpt := { hc.diskCkpt with } }, { hbase with }, { hpend with },
    ⟨fun hd => by simp at hd, fun hd => by simp at hd, fun hd => by simp at hd⟩, fun _ => ?_⟩
  all_goals
    simp only
    omega

theorem inv_storeLen_async (h : Inv fmt .async w (.held x) b) (hst : x.stage = .written c) :
    Inv fmt .async { w with walAppended := w.walAppended + 1 }
      (.held { x with stage := .lenStored c }) b := by
  obtain ⟨hbase, hpend, hlevel, -⟩ := h.stage hst
  refine ⟨h.core.volatile h.core.pos.async, { hbase with }, { hpend with },
    { hlevel with appended := fun hd => ?_ }, fun hd => by simp at hd⟩
  have := hlevel.appended hd
  simp only
  omega

/-- The older slot is torn while its body is stored; the newer one stays valid. -/
theorem inv_storeBody (h : Inv fmt d w (.held x) b) (hst : x.stage = .lenStored c) :
    Inv fmt d { w with memMeta := Function.update w.memMeta (!x.slot) none }
      (.held { x with stage := .bodyStored c }) b := by
  obtain ⟨hbase, hpend, hlevel, hlen⟩ := h.stage hst
  have hc := h.core
  have hm := hc.metas
  have hslot : Function.update w.memMeta (!x.slot) none x.slot = some x.base := by
    rw [update_of_ne (by cases x.slot <;> simp)]
    exact hbase.slot
  -- what is left in the slots was there before
  have hsub : ∀ s m, Function.update w.memMeta (!x.slot) none s = some m →
      w.memMeta s = some m := by
    intro s m hs
    by_cases hss : s = !x.slot
    · rw [hss] at hs
      simp at hs
    · rwa [update_of_ne hss] at hs
  have hmeta : ∀ a, MetaOn d w b a →
      MetaOn d { w with memMeta := Function.update w.memMeta (!x.slot) none } b a := by
    intro a ha
    cases d with
    | wal => exact fun hab s m hs hb => ha hab s m (hsub s m hs) hb
    | async => exact ha
  exact ⟨{ hc with
    pos := { hc.pos with }
    metas := { hm with
      newest := ⟨x.slot, x.base, hslot, hbase.txnId hc⟩
      mem_le := fun s m hs => hm.mem_le s m (hsub s m hs)
      mem_trees := fun s m hs => hm.mem_trees s m (hsub s m hs)
      newer := fun s m m' hs hs' => hm.newer s m m' hs (hsub s m' hs') }
    memCkpt := ⟨hc.memCkpt.cover, hmeta _ hc.memCkpt.metas⟩
    diskCkpt := ⟨hc.diskCkpt.cover, hmeta _ hc.diskCkpt.metas⟩ },
    { hbase with slot := hslot }, { hpend with }, { hlevel with }, hlen⟩

/-- The checksum makes the commit the newest one. -/
theorem inv_storeChecksum (h : Inv fmt d w (.held x) b) (hst : x.stage = .bodyStored c) :
    Inv fmt d { w with memMeta := Function.update w.memMeta (!x.slot) (some c.snap) }
      (.held { x with stage := .flipped c }) (b + 1) := by
  obtain ⟨hbase, hpend, hlevel, hlen⟩ := h.stage hst
  obtain ⟨hp, hchain, hintact, hm, hlog, htail, hmc, hdc⟩ := h.core
  have htop := hpend.top
  have hc : c.snap.txnId = b + 1 := by
    have := hchain.txnId (b + 1) (by omega)
    rwa [hpend.hist] at this
  -- a slot holds the new meta or what it held before
  have hcases : ∀ s m, Function.update w.memMeta (!x.slot) (some c.snap) s = some m →
      m = c.snap ∨ w.memMeta s = some m := by
    intro s m hs
    by_cases hss : s = !x.slot
    · rw [hss] at hs
      exact Or.inl (by simpa using hs.symm)
    · exact Or.inr (by rwa [update_of_ne hss] at hs)
  have hfloor : floor w b ≤
      floor { w with memMeta := Function.update w.memMeta (!x.slot) (some c.snap) } (b + 1) := by
    simp only [floor]
    omega
  have hckpt : ∀ a ≤ b, Ckpt d w b a →
      Ckpt d { w with memMeta := Function.update w.memMeta (!x.slot) (some c.snap) } (b + 1) a := by
    intro a ha hck
    refine ⟨hck.cover.mono hfloor rfl (le_refl _) rfl fun _ => Or.inl rfl, ?_⟩
    cases d with
    | wal =>
      intro hab
      omega
    | async =>
      intro hle
      obtain ⟨n, han, hnb, hrest⟩ := hck.metas hle
      exact ⟨n, han, by omega, hrest⟩
  have h1 := hp.memCkpt_le
  have h2 := hp.disk_le_mem
  refine ⟨⟨{ hp with
      le_top := ?_
      top_le := ?_
      memCkpt_le := ?_
      wal := fun hd => ?_
      async := fun hd => ?_ }, hchain, ?_, { hm with
      newest := ⟨!x.slot, c.snap, update_self .., hc⟩
      mem_le := fun s m hs => ?_
      mem_trees := fun s m hs => ?_
      disk_le := fun s m hs => (hm.disk_le s m hs).trans (Nat.le_succ b)
      newer := fun s m m' hs hs' => ?_ }, hlog, htail, hckpt _ h1 hmc, hckpt _ ?_ hdc⟩,
    hc, htop, { hlevel with }, hlen⟩
  · exact le_of_eq htop.symm
  · simp only
    omega
  · simp only
    omega
  · have hwal := hp.wal hd
    have hl := hlen hd
    exact ⟨le_of_eq hl.symm, hwal.2.1, hwal.2.2.1.trans (Nat.le_succ b), hwal.2.2.2⟩
  · exact (hp.async hd).trans hfloor
  · rw [hpend.hist]
    exact hpend.mem
  · rcases hcases s m hs with rfl | hs
    · exact le_of_eq hc
    · exact (hm.mem_le s m hs).trans (Nat.le_succ b)
  · rcases hcases s m hs with rfl | hs
    · rw [hc, hpend.hist]
    · exact hm.mem_trees s m hs
  · have := hm.disk_le s m hs
    rcases hcases s m' hs' with rfl | hs'
    · omega
    · exact hm.newer s m m' hs hs'
  · simp only
    omega

theorem inv_ack_wal (h : Inv fmt .wal w (.held x) b) (hst : x.stage = .flipped c) :
    Inv fmt .wal { w with durableTxn := max w.durableTxn c.snap.txnId, acked := c.snap.txnId }
      (.held { x with stage := .acked }) b := by
  obtain ⟨rfl, htop, hlevel, hlen⟩ := h.stage hst
  have hc := h.core
  have hwal := hc.pos.wal rfl
  refine ⟨{ hc with
    pos := { hc.pos with
      acked_covered := ?_
      acked_top := hc.pos.le_top
      wal := fun _ => ⟨hwal.1, hwal.2.1, le_refl _, hwal.2.2.2⟩
      async := fun hd => by simp at hd }
    metas := { hc.metas with }
    memCkpt := { hc.memCkpt with }
    diskCkpt := { hc.diskCkpt with } }, htop, { hlevel with }, hlen, fun _ => le_max_right _ _⟩
  simp only [Store.covered]
  omega

theorem inv_ack_async (h : Inv fmt .async w (.held x) b) (hst : x.stage = .flipped c) :
    Inv fmt .async w (.held { x with stage := .acked }) b := by
  obtain ⟨-, htop, hlevel, hlen⟩ := h.stage hst
  exact ⟨h.core, htop, hlevel, hlen, fun hd => by simp at hd⟩

end Publish

/-- Each stage of a commit. -/
theorem inv_stepCommit (h : Inv fmt d w.toStore (.held x) b) (hl : w.lock = .held x) {a : Label V}
    (hg : Admissible d w a) {st : Stage V} (hst : x.stage = st)
    (hs : stepCommit d w x st a = some w') : ∃ b', Inv fmt d w'.toStore w'.lock b' := by
  unfold stepCommit at hs
  split at hs
  · cases hs
    exact ⟨b, inv_syncExtents h hst⟩
  · cases hs
    exact ⟨b, inv_writeRecord h hl hst hg⟩
  · split_ifs at hs with hd
    cases hs
    subst hd
    exact ⟨b, inv_syncLog h hst⟩
  · split_ifs at hs with hd
    cases hs
    subst hd
    exact ⟨b, inv_storeLen_async h hst⟩
  · cases hs
    obtain ⟨-, -, rfl, -⟩ := h.stage hst
    exact ⟨b, inv_storeLen_wal h hst⟩
  · cases hs
    exact ⟨b, inv_storeBody h hst⟩
  · cases hs
    exact ⟨b + 1, inv_storeChecksum h hst⟩
  · cases d with
    | wal =>
      cases hs
      exact ⟨b, inv_ack_wal h hst⟩
    | async =>
      cases hs
      exact ⟨b, inv_ack_async h hst⟩
  · simp at hs

end Commit

section Checkpoint

variable {w : Store V} {b t : ℕ} {x : Writer V}

/-- After the sync the disk holds every page of the last commit. -/
theorem inv_ckptSync (h : Inv fmt d w (.held x) b) (hst : x.stage = .acked) :
    Inv fmt d { w with disk := w.mem, diskMeta := w.memMeta, diskLock := w.memLock }
      (.held { x with stage := .ckptSynced (appendOffset d w) }) b := by
  obtain ⟨htop, hlevel, hlen, hgate⟩ := h.stage hst
  obtain ⟨hp, hchain, hintact, hm, hlog, htail, hmc, hdc⟩ := h.core
  have h1 := hp.disk_le_mem
  have hfloor : floor w b ≤
      floor { w with disk := w.mem, diskMeta := w.memMeta, diskLock := w.memLock } b := by
    simp only [floor]
    omega
  have hmeta : ∀ a ≤ b, MetaOn d
      { w with disk := w.mem, diskMeta := w.memMeta, diskLock := w.memLock } b a := by
    intro a ha
    cases d with
    | wal => exact fun _ s m hs _ => hs
    | async => exact fun _ => ⟨b, ha, le_refl _, hm.newest, hm.mem_le, fun p hpl =>
        ⟨hintact p hpl, hintact p hpl⟩⟩
  have hmc' : Ckpt d { w with disk := w.mem, diskMeta := w.memMeta, diskLock := w.memLock } b
      (w.memLock.walCkpt + w.shift) :=
    ⟨hmc.cover.mono hfloor rfl (le_refl _) rfl fun _ => Or.inr rfl, hmeta _ hp.memCkpt_le⟩
  have hbc : Ckpt d { w with disk := w.mem, diskMeta := w.memMeta, diskLock := w.memLock } b b := by
    refine ⟨fun n _ hbn hnt p hpl _ => ?_, hmeta b (le_refl _)⟩
    obtain rfl : n = b := by
      simp only [htop] at hnt
      omega
    exact ⟨hintact p hpl, hintact p hpl⟩
  have hlenc : w.memLock.walLen ≤ max w.synced w.memLock.walCkpt := by
    cases d with
    | wal => exact (hp.wal rfl).2.1.trans (le_max_left _ _)
    | async => exact hlevel.len rfl
  refine ⟨⟨{ hp with
      disk_le_mem := le_refl _
      len_le := le_refl _
      len_covered := hlenc
      acked_covered := ?_
      async := fun hd => (hp.async hd).trans hfloor }, hchain, hintact,
    { hm with disk_le := hm.mem_le, disk_trees := hm.mem_trees, newer := fun s m m' hs hs' => ?_ },
    fun i hi => hlog i (h1.trans hi), htail, hmc', hmc'⟩, ?_,
    ⟨htop, hgate, hlen, hlevel.appended, fun _ => rfl⟩, hbc, fun _ => hlenc⟩
  · have := hp.acked_covered
    simp only [Store.covered] at this ⊢
    omega
  · have hs : w.memMeta s = some m := hs
    rw [hs] at hs'
    cases hs'
    exact le_refl _
  · cases d with
    | wal => exact hlen rfl
    | async => exact hlevel.appended rfl

theorem Core.setMemLock {l : LockArea} (h : Core fmt d w b)
    (hckpt : Ckpt d w b (l.walCkpt + w.shift)) (hle : w.memLock.walCkpt ≤ l.walCkpt)
    (hb : l.walCkpt + w.shift ≤ b) (hlen : w.memLock.walLen ≤ l.walLen)
    (htop : l.walLen + w.shift ≤ w.top) (hsync : d = .wal → l.walLen = w.memLock.walLen) :
    Core fmt d { w with memLock := l } b := by
  refine { h with
    pos := { h.pos with
      disk_le_mem := h.pos.disk_le_mem.trans hle
      memCkpt_le := hb
      len_le := h.pos.len_le.trans hlen
      len_top := htop
      wal := fun hd => ?_ }
    metas := { h.metas with }
    memCkpt := { hckpt with }
    diskCkpt := { h.diskCkpt with } }
  simp only [hsync hd]
  exact h.pos.wal hd

theorem inv_ckptLen (h : Inv fmt .async w (.held x) b) (hst : x.stage = .ckptSynced t) :
    Inv fmt .async { w with memLock := { w.memLock with walLen := max w.memLock.walLen t } }
      (.held { x with stage := .ckptLen t }) b := by
  obtain ⟨htb, hat, hck, hlen⟩ := h.stage hst
  have hp := h.core.pos
  have h1 := hp.len_top
  have h2 := hat.top
  refine ⟨h.core.setMemLock h.core.memCkpt (le_refl _) hp.memCkpt_le (le_max_left _ _) ?_
    (fun hd => by simp at hd), htb, { hat with len := fun hd => by simp at hd },
    { hck with }, rfl, ?_⟩
  · simp only
    omega
  · simp only
    omega

theorem inv_ckptStore (h : Inv fmt d w (.held x) b) (htb : t + w.shift = b) (hat : AtCkpt d w b)
    (hck : Ckpt d w b b) (hlen : d = .async → w.memLock.walLen ≤ max w.synced t) :
    Inv fmt d { w with memLock := { w.memLock with walCkpt := t } }
      (.held { x with stage := .ckptStored t }) b := by
  have hp := h.core.pos
  have h1 := hp.memCkpt_le
  refine ⟨h.core.setMemLock (htb ▸ hck) ?_ (le_of_eq htb) (le_refl _) hp.len_top
    fun _ => rfl, htb, { hat with }, rfl, hlen⟩
  show w.memLock.walCkpt ≤ t
  omega

/-- From here on the log before the checkpoint is not needed. -/
theorem inv_ckptSyncLock (h : Inv fmt d w (.held x) b) (hst : x.stage = .ckptStored t) :
    Inv fmt d { w with
      diskLock := w.memLock
      acked := if d = .async then max w.acked (t + w.shift) else w.acked }
      (.held { x with stage := .ckptDurable t }) b := by
  obtain ⟨htb, hat, hct, hlen⟩ := h.stage hst
  have hlock : d = .async → w.memLock.walLen ≤ max w.synced w.memLock.walCkpt := fun hd => by
    rw [hct]
    exact hlen hd
  have hc := (inv_writebackLock h hlock).core
  have hp := hc.pos
  have hle : (if d = .async then max w.acked (t + w.shift) else w.acked) ≤
      max w.synced w.memLock.walCkpt + w.shift := by
    have h1 := hp.acked_covered
    simp only [Store.covered] at h1
    split_ifs
    · omega
    · exact h1
  refine ⟨{ hc with
    pos := { hp with acked_covered := hle, acked_top := ?_, wal := fun hd => ?_ }
    metas := { hc.metas with }
    memCkpt := { hc.memCkpt with }
    diskCkpt := { hc.diskCkpt with } }, htb, hat.top, ⟨hat.appended, fun _ => rfl, hlock⟩, hat.gate,
    hct, hct⟩
  · have h1 := hp.acked_top
    have h2 := hp.le_top
    simp only at h1 h2 ⊢
    split_ifs
    · omega
    · exact h1
  · have := hp.wal hd
    simp only [hd] at this ⊢
    exact this

/-- What is punched out lies before the checkpoint. -/
theorem inv_punch (h : Inv fmt d w (.held x) b) (hst : x.stage = .ckptDurable t) :
    Inv fmt d { w with log := fun i => if i < t then none else w.log i } .free b := by
  obtain ⟨htb, htop, hlevel, hgate, hdt, hmt⟩ := h.stage hst
  have hc := h.core
  refine ⟨{ hc with
    pos := { hc.pos with }
    metas := { hc.metas with }
    log := fun i hi hlt => ?_
    logTail := fun i hi => ?_
    memCkpt := { hc.memCkpt with }
    diskCkpt := { hc.diskCkpt with } }, ⟨{ hlevel with }, fun _ => htop, hgate⟩⟩
  · have hti : ¬ i < t := by
      have : w.diskLock.walCkpt ≤ i := hi
      omega
    simp only [if_neg hti]
    exact hc.log i hi hlt
  · simp only
    split_ifs
    · rfl
    · exact hc.logTail i hi

end Checkpoint

/-- Each stage of a checkpoint. -/
theorem inv_stepCkpt {w w' : World V} {b : ℕ} {x : Writer V}
    (h : Inv fmt d w.toStore (.held x) b) {a : Label V} {st : Stage V} (hst : x.stage = st)
    (hs : stepCkpt d w x st a = some w') : Inv fmt d w'.toStore w'.lock b := by
  unfold stepCkpt at hs
  split at hs
  · cases hs
    obtain ⟨htop, hlevel, -, hgate⟩ := h.stage hst
    exact ⟨h.core, ⟨hlevel, fun _ => htop, hgate⟩⟩
  · cases hs
    exact inv_ckptSync h hst
  · split_ifs at hs with hd
    cases hs
    subst hd
    exact inv_ckptLen h hst
  · split_ifs at hs with hd
    cases hs
    obtain ⟨htb, hat, hck, -⟩ := h.stage hst
    exact inv_ckptStore h htb hat hck fun hd' => by simp [hd] at hd'
  · cases hs
    obtain ⟨htb, hat, hck, -, hlen⟩ := h.stage hst
    exact inv_ckptStore h htb hat hck fun _ => hlen
  · cases hs
    exact inv_ckptSyncLock h hst
  · cases hs
    exact inv_punch h hst
  · cases hs
    obtain ⟨-, htop, hlevel, hgate, -, -⟩ := h.stage hst
    exact ⟨h.core, ⟨hlevel, fun _ => htop, hgate⟩⟩
  · simp at hs

section Run

variable {w w' : World V} {b : ℕ}

theorem inv_stepWriter {x : Writer V} (h : Inv fmt d w.toStore (.held x) b)
    (hl : w.lock = .held x) {a : Label V} (hg : Admissible d w a)
    (hs : stepWriter fmt d w x a = some w') : ∃ b', Inv fmt d w'.toStore w'.lock b' := by
  unfold stepWriter at hs
  split at hs
  · rename_i hst
    exact ⟨b, inv_stepTxn h hl hst hg hs⟩
  · exact ⟨b, inv_stepCkpt h rfl hs⟩
  · exact ⟨b, inv_stepCkpt h rfl hs⟩
  · exact ⟨b, inv_stepCkpt h rfl hs⟩
  · exact ⟨b, inv_stepCkpt h rfl hs⟩
  · exact ⟨b, inv_stepCkpt h rfl hs⟩
  · exact inv_stepCommit h hl hg rfl hs

theorem LockOK.appended_le {w : Store V} (hp : Positions d w b) (hd : d = .async) :
    ∀ {l : Lock V}, LockOK fmt d w b l → w.walAppended + w.shift ≤ w.top
  | .free, h => Nat.le_trans (Nat.le_of_eq (Idle.toLevel h |>.appended hd)) hp.le_top
  | .orphaned, h => by simp [show d = .wal from h] at hd
  | .held x, h => by
    have h : StageOK fmt d w b x x.stage := h
    have hb := hp.le_top
    cases hst : x.stage <;> rw [hst] at h
    case logSynced => simp [h.2.2.1] at hd
    case lenStored | bodyStored => exact le_of_eq ((h.2.2.1.appended hd).trans h.2.1.top.symm)
    case written | flipped | ckptDurable =>
      exact le_trans (le_of_eq (h.2.2.1.appended hd)) hb
    all_goals exact le_trans (le_of_eq (h.2.1.appended hd)) hb

variable [DecidableEq V]

/-- By who acts: the writer in its stage, the kernel, or a crash with its recovery. -/
theorem inv_step (h : Inv fmt d w.toStore w.lock b) {a : Label V} (hg : Admissible d w a)
    (hs : step fmt d w a = some w') : ∃ b', Inv fmt d w'.toStore w'.lock b' := by
  unfold step at hs
  split at hs
  · rename_i hl
    exact ⟨b, inv_begin (hl ▸ h) hs⟩
  · rename_i hl
    rw [hl] at h
    obtain ⟨w₁, h₁, hb⟩ := bind_eq_some_iff.1 hs
    obtain rfl : d = .wal := h.lock
    exact ⟨b, inv_begin (inv_recoverAfterOwnerDeath h h₁) hb⟩
  · cases hs
    cases d with
    | wal => exact ⟨b, h.core, rfl⟩
    | async => exact hg.elim
  · split_ifs at hs with ha
    cases hs
    obtain ⟨rfl, ha⟩ := ha
    exact ⟨b, inv_flushSync h ha (h.lock.appended_le h.core.pos rfl)⟩
  · split_ifs at hs with ha
    cases hs
    cases d with
    | wal =>
      rw [(h.core.pos.wal rfl).2.2.2] at ha
      simp at ha
    | async => exact ⟨b, inv_flushDone h ha⟩
  · cases hs
    exact ⟨b, inv_writeback h _⟩
  · cases hs
    refine ⟨b, inv_writebackMeta h fun hd => ?_⟩
    subst hd
    exact hg
  · cases hs
    refine ⟨b, inv_writebackLock h fun hd => ?_⟩
    subst hd
    exact hg
  · obtain ⟨st, hst, rfl⟩ := map_eq_some_iff.1 hs
    obtain ⟨st', n, hrec, hinv, -⟩ := inv_recover h.core (fun hd s => by
      subst hd
      exact hg s) _ _
    rw [hrec] at hst
    cases hst
    exact ⟨n, hinv⟩
  · rename_i hl
    exact inv_stepWriter (hl ▸ h) hl hg hs
  · simp at hs

theorem recovers_of_reaches (mem : ℕ → V) (dataStart : ℕ)
    (h : Reaches (step fmt d) (Admissible d) (init mem dataStart) w)
    {torn : Bool → Bool} (ht : d = .async → ∀ s, torn s = false) (garbage : ℕ → Option V)
    (keep : ℕ) : ∃ w', walRecover (crash w.toStore garbage torn keep) = some w' ∧
      Recovered fmt w' := by
  have hinv : ∃ b, Inv fmt d w.toStore w.lock b :=
    h.invariant (P := fun w => ∃ b, Inv fmt d w.toStore w.lock b) ⟨0, inv_init mem dataStart⟩
      fun _ _ _ ⟨_, hi⟩ hg hs => inv_step hi hg hs
  obtain ⟨b, hinv⟩ := hinv
  obtain ⟨w', n, hrec, hw', hacked⟩ := inv_recover hinv.core ht garbage keep
  exact ⟨w', hrec, hw'.recovered hacked⟩

/-- With `async`: in every run in which pages are reused, and metas and the lock page written back,
only once what they need is covered, a power loss recovers a committed transaction at least as new
as the last one covered by a completed flush or checkpoint. -/
theorem async_recovers (fmt : PageFormat V) (mem : ℕ → V) (dataStart : ℕ) (w : World V)
    (h : Reaches (step fmt .async) Covered (World.init mem dataStart) w)
    (garbage : ℕ → Option V) (keep : ℕ) :
    ∃ w', walRecover (crash w.toStore garbage (fun _ => false) keep) = some w' ∧ Recovered fmt w' :=
  recovers_of_reaches (d := .async) mem dataStart h (fun _ _ => rfl) garbage keep

end Run

/-! ## Runs -/

/-- A page without pointers; the entry only tells it from an empty page. -/
def marked (n : ℕ) : List ℕ × List FreeEntry := ([], [⟨n, .pages, 0, []⟩])

/-- A transaction that writes one page, up to its record. -/
def firstTxn (v : List ℕ × List FreeEntry) : List (Label (List ℕ × List FreeEntry)) :=
  [.begin, .alloc 2, .store 2 v, .enterFreelistOp, .plan ⟨2, 0, 0, false, [2], [], []⟩,
    .syncExtents, .writeRecord false]

/-- A transaction that replaces the page and frees it, up to its record. -/
def secondTxn (v : List ℕ × List FreeEntry) : List (Label (List ℕ × List FreeEntry)) :=
  [.begin, .alloc 3, .store 3 v, .free 2, .enterFreelistOp, .alloc 4,
    .store 4 ([], [⟨2, .pages, 0, [2]⟩]), .plan ⟨3, 4, 0, false, [3, 4], [[2]], []⟩,
    .syncExtents, .writeRecord false]

/-- The third one takes page 2 again. -/
def thirdTxn (v : List ℕ × List FreeEntry) : List (Label (List ℕ × List FreeEntry)) :=
  [.begin, .refill 2, .alloc 2, .store 2 v, .free 3, .enterFreelistOp, .alloc 5, .free 4,
    .store 5 ([], [⟨3, .pages, 0, [4, 3]⟩]), .plan ⟨2, 5, 0, false, [2, 5], [[4, 3]], []⟩,
    .syncExtents, .writeRecord false]

/-- The rest of a synchronous commit. -/
def publishWal : List (Label (List ℕ × List FreeEntry)) :=
  [.syncLog, .storeLen, .storeBody, .storeChecksum, .ack]

/-- The rest of an asynchronous commit. -/
def publishAsync : List (Label (List ℕ × List FreeEntry)) :=
  [.storeLen, .storeBody, .storeChecksum, .ack]

/-- A store in which the only transaction acknowledged has other pages is not recovered. -/
theorem not_recovered_of_page {w : Store (List ℕ × List FreeEntry)} {n p : ℕ}
    (hacked : w.acked = n) (htop : w.top = n) (hroot : p ∈ (w.hist n).snap.roots)
    (hne : w.mem p ≠ (w.hist n).image p) : ¬ Recovered plain w := by
  rintro ⟨m, hm, hle, -, hpages⟩
  obtain rfl : m = n := by omega
  exact hne (hpages p (.root hroot))

/-- A checkpoint after transaction 1 and a flush after transaction 2; transaction 3 reuses the page
that 2 freed, and its own record is lost. -/
theorem async_recovers_flushed : ∃ w : World (List ℕ × List FreeEntry),
    Reaches (step PageFormat.plain .async) Covered (World.init (fun _ => ([], [])) 2) w ∧
      w.acked = 2 ∧ w.disk 2 = marked 3 ∧
      ∀ garbage keep, ∃ w', walRecover (crash w.toStore garbage (fun _ => false) keep) = some w' ∧
        Recovered PageFormat.plain w' := by
  obtain ⟨w, hw, hacked, hdisk⟩ := exists_reaches (step plain .async) Covered
    (init (fun _ => ([], [])) 2)
    (firstTxn (marked 1) ++ publishAsync ++
      [.ckptSync, .ckptLen, .ckptStore, .ckptSyncLock, .punch] ++ secondTxn (marked 2) ++
      publishAsync ++ [.flushSync 2, .unlock, .flushDone 2] ++ thirdTxn (marked 3) ++
      [.writeback 2] ++ publishAsync ++ [.writebackMeta true, .writebackLock])
    (fun w => w.acked = 2 ∧ w.disk 2 = marked 3) (by decide +kernel)
  exact ⟨w, hw, hacked, hdisk, async_recovers plain (fun _ => ([], [])) 2 w hw⟩

/-- Three ways in which `async` does not recover. A page that transaction 2 freed is reused and
written back, and the record of 2 is lost: transaction 1 comes back with the page overwritten. The
meta of transaction 2 is written back and its record is lost: 2 comes back without its pages. The
lock page is written back in the middle of a checkpoint and the record is lost: recovery reports
that the log was truncated. -/
theorem async_loses_checkpointed_commit :
    (∃ w, Reaches (step PageFormat.plain .async) (fun _ _ => True)
      (World.init (fun _ => ([], [])) 2) w ∧
      ∃ w', walRecover (crash w.toStore (fun _ => none) (fun _ => false) 0) = some w' ∧
        (w'.acked = 1 ∧ w'.top = 1) ∧ ¬ Recovered PageFormat.plain w') ∧
    (∃ w, Reaches (step PageFormat.plain .async) (fun _ _ => True)
      (World.init (fun _ => ([], [])) 2) w ∧
      ∃ w', walRecover (crash w.toStore (fun _ => none) (fun _ => false) 0) = some w' ∧
        (w'.acked = 1 ∧ w'.top = 2) ∧ ¬ Recovered PageFormat.plain w') ∧
    ∃ w, Reaches (step PageFormat.plain .async) (fun _ _ => True)
      (World.init (fun _ => ([], [])) 2) w ∧
      walRecover (crash w.toStore (fun _ => none) (fun _ => false) 0) = none := by
  refine ⟨?_, ?_, ?_⟩
  · obtain ⟨w, hw, hbad⟩ := exists_reaches (step plain .async) (fun _ _ => True)
      (init (fun _ => ([], [])) 2)
      (firstTxn (marked 1) ++ publishAsync ++
        [.ckptSync, .ckptLen, .ckptStore, .ckptSyncLock, .punch] ++ secondTxn (marked 2) ++
        publishAsync ++ [.unlock] ++ thirdTxn (marked 3) ++ [.writeback 2])
      (fun w => (walRecover (crash w.toStore (fun _ => none) (fun _ => false) 0)).any (fun w' =>
        decide (w'.acked = 1 ∧ w'.top = 1 ∧ 2 ∈ (w'.hist 1).snap.roots ∧
          w'.mem 2 ≠ (w'.hist 1).image 2)) = true) (by decide +kernel)
    obtain ⟨w', hw', hbad⟩ := (any_eq_true _ _).1 hbad
    obtain ⟨h1, h2, h3, h4⟩ := of_decide_eq_true hbad
    exact ⟨w, hw, w', hw', ⟨h1, h2⟩, not_recovered_of_page h1 h2 h3 h4⟩
  · obtain ⟨w, hw, hbad⟩ := exists_reaches (step plain .async) (fun _ _ => True)
      (init (fun _ => ([], [])) 2)
      (firstTxn (marked 1) ++ publishAsync ++
        [.ckptSync, .ckptLen, .ckptStore, .ckptSyncLock, .punch] ++ secondTxn (marked 2) ++
        publishAsync ++ [.writebackMeta false])
      (fun w => (walRecover (crash w.toStore (fun _ => none) (fun _ => false) 0)).any (fun w' =>
        decide (w'.acked = 1 ∧ w'.top = 2 ∧ 3 ∈ (w'.hist 2).snap.roots ∧
          w'.mem 3 ≠ (w'.hist 2).image 3 ∧
          (newestMetaUngated w'.memMeta).map (·.1.txnId) = some 2 ∧
          (w'.hist 1).snap.txnId = 1)) = true) (by decide +kernel)
    obtain ⟨w', hw', hbad⟩ := (any_eq_true _ _).1 hbad
    obtain ⟨h1, h2, h3, h4, h5, h6⟩ := of_decide_eq_true hbad
    refine ⟨w, hw, w', hw', ⟨h1, h2⟩, ?_⟩
    rintro ⟨n, hn, hle, hmeta, hpages⟩
    -- the newest meta is that of transaction 2
    obtain rfl : n = 2 := by
      by_contra hne
      obtain rfl : n = 1 := by omega
      have := congrArg (Option.map MetaSnapshot.txnId) hmeta
      rw [map_map] at this
      have h5' : some 2 = some (w'.hist 1).snap.txnId := h5.symm.trans this
      simp [h6] at h5'
    exact h4 (hpages 3 (.root h3))
  · obtain ⟨w, hw, hbad⟩ := exists_reaches (step plain .async) (fun _ _ => True)
      (init (fun _ => ([], [])) 2)
      (firstTxn (marked 1) ++ publishAsync ++ [.ckptSync, .ckptLen, .writebackLock])
      (fun w => (walRecover (crash w.toStore (fun _ => none) (fun _ => false) 0)).isNone = true)
      (by decide +kernel)
    exact ⟨w, hw, isNone_iff_eq_none.1 hbad⟩

end Mpedb.Wal
