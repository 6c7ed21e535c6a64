import Mpedb.CommitMode
import Mpedb.Proofs.Pages

/-!
# A power loss recovers a committed transaction

Between commits the newest meta is durable in its slot, its pages are as published both in the
mapping and on disk, and the other slot is older or torn (`Settled`). A commit touches only pages
that are not of the base snapshot, so the base stays recoverable until the new meta is written; from
then on the new pages are durable as well, and either meta will do (`Flipped`).
-/

namespace Mpedb.CommitMode

open Transition Function Option

variable {V : Type*} {fmt : PageFormat V}

/-- Every page of `c` holds what `c` published, in the mapping and on disk. -/
def Intact (mem disk : ℕ → V) (c : Published V) : Prop :=
  ∀ p ∈ c.live, mem p = c.image p ∧ disk p = c.image p

/-- `c` is durable in slot `s` and not older than the last acknowledged transaction. -/
structure Durable (fmt : PageFormat V) (w : World V) (c : Published V) (s : Bool) : Prop where
  ok : Published.OK fmt c
  mem : w.memMeta s = some c.snap
  disk : w.diskMeta s = some c.snap
  intact : Intact w.mem w.disk c
  acked : w.acked ≤ c.snap.txnId

/-- The transaction `c'` that the writer is about to publish over `c`. -/
structure Next (fmt : PageFormat V) (mem : ℕ → V) (c c' : Published V) : Prop where
  ok : Published.OK fmt c'
  txnId : c'.snap.txnId = c.snap.txnId + 1
  mem : ∀ p ∈ c'.live, mem p = c'.image p

/-- What holds of the commit that is on its way, stage by stage. -/
def StageOK (fmt : PageFormat V) (mem disk : ℕ → V) (c : Published V) (x : Writer V) :
    Stage V → Prop
  | .working => True
  | .planned c' => Next fmt mem c c' ∧
      ∀ p ∈ c'.live, p ∈ c.live ∨ p ∈ x.txn.dirty ++ x.txn.allocatedRuns
  | .synced c' => Next fmt mem c c' ∧ Intact mem disk c'
  | .recorded c' => Next fmt mem c c' ∧ Intact mem disk c'
  | .bodyStored c' => Next fmt mem c c' ∧ Intact mem disk c'
  | .flipped _ => False
  | .metaSynced _ => False

/-- What holds of a writer that started on the commit `c`. -/
structure WriterOK (fmt : PageFormat V) (mem disk : ℕ → V) (c : Published V) (s : Bool)
    (x : Writer V) : Prop where
  base : x.base = c.snap
  slot : x.slot = s
  live : x.live = c.live
  txn : x.txn.OK c.live
  stage : StageOK fmt mem disk c x x.stage

/-- The newest meta is durable and no newer one is in the mapping. -/
structure Settled (fmt : PageFormat V) (w : World V) (c : Published V) (rest : List (Published V))
    (s : Bool) : Prop where
  committed : w.committed = c :: rest
  below : ∀ d ∈ rest, d.snap.txnId ≤ c.snap.txnId
  durable : Durable fmt w c s
  memOther : Older (w.memMeta !s) c.snap s
  diskOther : Older (w.diskMeta !s) c.snap s
  gate : w.durableTxn = c.snap.txnId
  writer : ∀ x, w.lock = .held x → WriterOK fmt w.mem w.disk c s x

/-- The newest meta `c'` is in the mapping and may not have reached the disk; `c` is durable. -/
structure Flipped (fmt : PageFormat V) (w : World V) (c' c : Published V)
    (rest : List (Published V)) (s : Bool) : Prop where
  committed : w.committed = c' :: c :: rest
  below : ∀ d ∈ rest, d.snap.txnId ≤ c.snap.txnId
  durable : Durable fmt w c s
  next : Next fmt w.mem c c'
  intact : Intact w.mem w.disk c'
  mem : w.memMeta (!s) = some c'.snap
  disk : w.diskMeta (!s) = some c'.snap ∨ Older (w.diskMeta !s) c.snap s
  gate : w.durableTxn = c.snap.txnId
  writer : ∀ x, w.lock = .held x → x.slot = s ∧
    (x.stage = .flipped c' ∨ x.stage = .metaSynced c' ∧ w.diskMeta (!s) = some c'.snap)

/-- The invariant: the newest meta is on disk, or was just flipped. -/
def Inv (fmt : PageFormat V) (w : World V) : Prop :=
  (∃ c rest s, Settled fmt w c rest s) ∨ ∃ c' c rest s, Flipped fmt w c' c rest s

theorem inv_init (mem : ℕ → V) (dataStart : ℕ) : Inv fmt (World.init mem dataStart) := by
  refine Or.inl ⟨⟨genesis dataStart, [], mem⟩, [], false, rfl, fun d hd => by simp at hd,
    ⟨⟨⟨fun r hr => ?_, fun p hp => by simp at hp⟩, ?_⟩, rfl, rfl, fun p hp => by simp at hp,
      Nat.le_refl _⟩, ?_, ?_, rfl, fun x hx => by simp [World.init] at hx⟩
  · simp [genesis, MetaSnapshot.roots] at hr
  · simp only [genesis, fmt.freelist_zero]
    constructor <;> simp [pagesOf]
  · exact fun m' h => Or.inr ⟨rfl, by simpa [World.init] using h.symm⟩
  · exact fun m' h => Or.inr ⟨rfl, by simpa [World.init] using h.symm⟩

section Begin

variable {w w' : World V} {c c' : Published V} {rest : List (Published V)} {s : Bool}

section

variable (h : Settled fmt w c rest s)

include h

theorem Settled.newest :
    newestMetaUngated w.memMeta = some (c.snap, s) :=
  newestMetaUngated_eq h.durable.mem h.memOther

theorem Settled.freelist :
    fmt.freelist w.mem c.snap.freelistRoot = fmt.freelist c.image c.snap.freelistRoot :=
  fmt.freelist_eq h.durable.ok.closed fun p hp => (h.durable.intact p hp).1

theorem Settled.setLock {l : Lock V}
    (hl : ∀ x, l = .held x → WriterOK fmt w.mem w.disk c s x) :
    Settled fmt { w with lock := l } c rest s :=
  { h with durable := { h.durable with }, writer := hl }

theorem Settled.begin (hs : beginWrite fmt w = some w') :
    Settled fmt w' c rest s := by
  have hnew := newestMetaGated_eq h.durable.mem h.memOther (Nat.le_of_eq h.gate.symm)
  have hfind : w.committed.find? (·.snap = c.snap) = some c := by simp [h.committed]
  simp only [beginWrite, hnew, hfind, map_some, Option.some.injEq] at hs
  subst hs
  refine h.setLock fun x hx => ?_
  cases hx
  refine ⟨rfl, rfl, rfl, ?_, trivial⟩
  rw [h.freelist]
  exact Txn.OK.start h.durable.ok.accounted

theorem Settled.recover (hs : recoverAfterOwnerDeath w = some w') :
    Settled fmt w' c rest s := by
  simp only [recoverAfterOwnerDeath, h.newest, map_some, Option.some.injEq] at hs
  subst hs
  exact { h with
    durable := { h.durable with disk := h.durable.mem }
    diskOther := h.memOther
    gate := by simp [h.gate]
    writer := fun x hx => by simp at hx }

end

theorem Flipped.lt (h : Flipped fmt w c' c rest s) : c.snap.txnId < c'.snap.txnId := by
  have := h.next.txnId
  omega

theorem Flipped.newest (h : Flipped fmt w c' c rest s) :
    newestMetaUngated w.memMeta = some (c'.snap, !s) := by
  refine newestMetaUngated_eq h.mem ?_
  rw [Bool.not_not, h.durable.mem]
  exact Older.of_lt h.lt

theorem Flipped.unlock (h : Flipped fmt w c' c rest s) {l : Lock V} (hl : ∀ x, l ≠ .held x) :
    Flipped fmt { w with lock := l } c' c rest s :=
  { h with durable := { h.durable with }, writer := fun x hx => absurd hx (hl x) }

theorem Flipped.below_new (h : Flipped fmt w c' c rest s) :
    ∀ d ∈ c :: rest, d.snap.txnId ≤ c'.snap.txnId := by
  have hlt := h.lt
  intro d hd
  rcases List.mem_cons.1 hd with rfl | hd
  · omega
  · have := h.below d hd
    omega

theorem Flipped.recover (h : Flipped fmt w c' c rest s)
    (hs : recoverAfterOwnerDeath w = some w') : Settled fmt w' c' (c :: rest) (!s) := by
  have hlt := h.lt
  have hother : Older (w.memMeta !(!s)) c'.snap (!s) := by
    rw [Bool.not_not, h.durable.mem]
    exact Older.of_lt hlt
  simp only [recoverAfterOwnerDeath, h.newest, map_some, Option.some.injEq] at hs
  subst hs
  refine ⟨h.committed, h.below_new, ⟨h.next.ok, h.mem, h.mem, h.intact, ?_⟩, hother, hother, ?_,
    fun x hx => by simp at hx⟩
  · have := h.durable.acked
    simp only
    omega
  · simp only [h.gate]
    omega

end Begin

section Txn

variable {w w' : World V} {c : Published V} {rest : List (Published V)} {s : Bool} {x : Writer V}

theorem Settled.withTxn (h : Settled fmt w c rest s) (hx : WriterOK fmt w.mem w.disk c s x)
    (hst : x.stage = .working) {t : Txn} (ht : t.OK c.live) :
    Settled fmt { w with lock := .held (x.withTxn t) } c rest s := by
  refine h.setLock fun y hy => ?_
  cases hy
  exact { hx with txn := ht, stage := by simp [Writer.withTxn, hst, StageOK] }

/-- The work of a transaction is on pages that no commit reaches. -/
theorem settled_stepTxn (h : Settled fmt w c rest s) (hl : w.lock = .held x)
    (hst : x.stage = .working) {a : Label V} (hs : stepTxn fmt w x a = some w') :
    Settled fmt w' c rest s := by
  have hx := h.writer x hl
  cases a with
  | refill bound =>
    obtain ⟨t, ht, rfl⟩ := map_eq_some_iff.1 hs
    exact h.withTxn hx hst (hx.txn.refillReusable ht)
  | alloc p =>
    obtain ⟨t, ht, rfl⟩ := map_eq_some_iff.1 hs
    exact h.withTxn hx hst (hx.txn.alloc ht)
  | allocRun p =>
    obtain ⟨t, ht, rfl⟩ := map_eq_some_iff.1 hs
    exact h.withTxn hx hst (hx.txn.allocRun ht)
  | store p v =>
    simp only [stepTxn] at hs
    split_ifs at hs with hp
    cases hs
    -- the page was taken by the transaction, so it is not one of the base's
    have hne : p ∉ c.live := hx.txn.off_live p (by
      simp only [Txn.others, List.mem_append] at hp ⊢
      tauto)
    refine { h with
      durable := { h.durable with intact := fun q hq => ?_ }
      writer := fun y hy => ?_ }
    · have hqp : q ≠ p := fun he => hne (he ▸ hq)
      dsimp only
      rw [update_of_ne hqp]
      exact h.durable.intact q hq
    · obtain rfl : x = y := by simpa [hl] using hy
      exact { hx with stage := by simp [hst, StageOK] }
  | free p =>
    simp only [stepTxn] at hs
    split_ifs at hs with hp
    obtain ⟨t, ht, rfl⟩ := map_eq_some_iff.1 hs
    exact h.withTxn hx hst (hx.txn.free (hx.live ▸ hp.1) hp.2 ht)
  | freeExtent p =>
    simp only [stepTxn] at hs
    split_ifs at hs with hp
    cases hs
    exact h.withTxn hx hst (hx.txn.freeExtent (hx.live ▸ hp))
  | enterFreelistOp =>
    cases hs
    exact h.withTxn hx hst hx.txn.enterFreelistOp
  | plan q =>
    simp only [stepTxn] at hs
    split_ifs at hs with hp
    cases hs
    obtain ⟨hclosed, hlive, hplan⟩ := hp.2
    refine h.setLock fun y hy => ?_
    cases hy
    refine { hx with stage := ⟨⟨⟨hclosed, ?_⟩, ?_, fun _ _ => rfl⟩, fun p hp => ?_⟩ }
    · exact hx.txn.freelistPlan hplan (hx.live ▸ hlive)
    · simp [Plan.snap, hx.base]
    · rcases hlive p hp with h1 | h1
      · exact Or.inl (hx.live ▸ h1.1)
      · exact Or.inr h1
  | abort =>
    cases hs
    exact h.setLock fun y hy => by simp at hy
  | _ => simp [stepTxn] at hs

end Txn

section Commit

variable {w w' : World V} {c c' : Published V} {rest : List (Published V)} {s : Bool}
  {x : Writer V}

section

variable (h : Settled fmt w c rest s)

include h

section

variable (hl : w.lock = .held x)

include hl

theorem Settled.stage {st : Stage V}
    (hst : x.stage = st) :
    WriterOK fmt w.mem w.disk c s x ∧ StageOK fmt w.mem w.disk c x st :=
  ⟨h.writer x hl, hst ▸ (h.writer x hl).stage⟩

/-- The pages of the commit are on the disk before its meta page changes. -/
theorem settled_syncData
    (hst : x.stage = .planned c') :
    Settled fmt { w with
      disk := fun p => if p ∈ x.txn.dirty ++ x.txn.allocatedRuns then w.mem p else w.disk p
      lock := .held { x with stage := .synced c' } } c rest s := by
  obtain ⟨hx, hnext, hlive⟩ := h.stage hl hst
  refine { h with
    durable := { h.durable with intact := fun p hp => ?_ }
    writer := fun y hy => ?_ }
  · have := h.durable.intact p hp
    dsimp only
    split_ifs
    · exact ⟨this.1, this.1⟩
    · exact this
  · cases hy
    refine { hx with stage := ⟨hnext, fun p hp => ⟨hnext.mem p hp, ?_⟩⟩ }
    dsimp only
    split_ifs with hd
    · exact hnext.mem p hp
    · have := h.durable.intact p ((hlive p hp).resolve_right hd)
      rw [this.2, ← this.1, hnext.mem p hp]

theorem settled_storeBody
    (hst : x.stage = .recorded c') :
    Settled fmt { w with
      memMeta := Function.update w.memMeta (!x.slot) none
      lock := .held { x with stage := .bodyStored c' } } c rest s := by
  obtain ⟨hx, hstage⟩ := h.stage hl hst
  obtain rfl := hx.slot
  refine { h with
    durable := { h.durable with mem := by simp [update_of_ne, h.durable.mem] }
    memOther := by simp [Older.none]
    writer := fun y hy => ?_ }
  cases hy
  exact { hx with stage := hstage }

theorem flipped_storeChecksum
    (hst : x.stage = .bodyStored c') :
    Flipped fmt { w with
      memMeta := Function.update w.memMeta (!x.slot) (some c'.snap)
      committed := c' :: w.committed
      lock := .held { x with stage := .flipped c' } } c' c rest s := by
  obtain ⟨hx, hstage⟩ := h.stage hl hst
  obtain rfl := hx.slot
  refine ⟨by simp [h.committed], h.below,
    { h.durable with mem := by simp [update_of_ne, h.durable.mem] }, hstage.1, hstage.2,
    by simp, Or.inr h.diskOther, h.gate, fun y hy => ?_⟩
  cases hy
  exact ⟨rfl, Or.inl rfl⟩

/-- Each stage of a commit before the flip. -/
theorem inv_stepCommit_settled
    {a : Label V} (hs : stepCommit w x x.stage a = some w') : Inv fmt w' := by
  unfold stepCommit at hs
  split at hs
  · rename_i hst
    cases hs
    exact Or.inl ⟨c, rest, s, settled_syncData h hl hst⟩
  · rename_i hst
    cases hs
    obtain ⟨hx, hstage⟩ := h.stage hl hst
    refine Or.inl ⟨c, rest, s, h.setLock fun y hy => ?_⟩
    cases hy
    exact { hx with stage := hstage }
  · rename_i hst
    cases hs
    exact Or.inl ⟨c, rest, s, settled_storeBody h hl hst⟩
  · rename_i hst
    cases hs
    exact Or.inr ⟨_, c, rest, s, flipped_storeChecksum h hl hst⟩
  · rename_i hst
    exact (h.stage hl hst).2.elim
  · rename_i hst
    exact (h.stage hl hst).2.elim
  · cases hs
    exact Or.inl ⟨c, rest, s, h.setLock fun y hy => by simp at hy⟩
  · rename_i hst
    exact (h.stage hl hst).2.elim
  · simp at hs

end

end

theorem flipped_syncMeta (h : Flipped fmt w c' c rest s) (hl : w.lock = .held x)
    {d : Published V} (hst : x.stage = .flipped d) :
    Flipped fmt { w with
      diskMeta := Function.update w.diskMeta (!x.slot) (w.memMeta (!x.slot))
      lock := .held { x with stage := .metaSynced d } } c' c rest s := by
  obtain ⟨rfl, hx⟩ := h.writer x hl
  have hd : d = c' := by
    rcases hx with hx | ⟨hx, -⟩ <;> rw [hst] at hx <;> cases hx
    rfl
  subst hd
  refine { h with
    durable := { h.durable with disk := by simp [update_of_ne, h.durable.disk] }
    disk := Or.inl (by simp [h.mem])
    writer := fun y hy => ?_ }
  cases hy
  exact ⟨rfl, Or.inr ⟨rfl, by simp [h.mem]⟩⟩

/-- The commit is acknowledged when its meta page is on the disk. -/
theorem settled_ack (h : Flipped fmt w c' c rest s) (hl : w.lock = .held x)
    {d : Published V} (hst : x.stage = .metaSynced d) :
    Settled fmt { w with
      durableTxn := max w.durableTxn d.snap.txnId
      acked := d.snap.txnId
      lock := .free } c' (c :: rest) (!s) := by
  obtain ⟨-, hx⟩ := h.writer x hl
  have hd : d = c' ∧ w.diskMeta (!s) = some c'.snap := by
    rcases hx with hx | ⟨hx, hdisk⟩ <;> rw [hst] at hx <;> cases hx
    exact ⟨rfl, hdisk⟩
  obtain ⟨rfl, hdisk⟩ := hd
  have hlt := h.lt
  refine ⟨h.committed, h.below_new, ⟨h.next.ok, h.mem, hdisk, h.intact, Nat.le_refl _⟩, ?_, ?_, ?_,
    fun y hy => by simp at hy⟩
  · rw [Bool.not_not, h.durable.mem]
    exact Older.of_lt hlt
  · rw [Bool.not_not, h.durable.disk]
    exact Older.of_lt hlt
  · simp only [h.gate]
    omega

/-- Each stage of a commit after the flip. -/
theorem inv_stepCommit_flipped (h : Flipped fmt w c' c rest s) (hl : w.lock = .held x)
    {a : Label V} (hs : stepCommit w x x.stage a = some w') : Inv fmt w' := by
  obtain ⟨-, hx⟩ := h.writer x hl
  unfold stepCommit at hs
  split at hs
  case h_5 =>
    rename_i hst
    cases hs
    exact Or.inr ⟨c', c, rest, s, flipped_syncMeta h hl hst⟩
  case h_6 =>
    rename_i hst
    cases hs
    exact Or.inl ⟨c', c :: rest, !s, settled_ack h hl hst⟩
  case h_8 =>
    cases hs
    exact Or.inr ⟨c', c, rest, s, h.unlock fun y => by simp⟩
  case h_9 => simp at hs
  all_goals
    rename_i hst
    rcases hx with hx | ⟨hx, -⟩ <;> rw [hst] at hx <;> cases hx

end Commit

section Kernel

variable {w : World V} {c c' : Published V} {rest : List (Published V)} {s : Bool}

theorem Intact.writeback {mem disk : ℕ → V} (h : Intact mem disk c) (p : ℕ) :
    Intact mem (Function.update disk p (mem p)) c := by
  intro q hq
  rcases eq_or_ne q p with rfl | hne
  · rw [update_self]
    exact ⟨(h q hq).1, (h q hq).1⟩
  · rw [update_of_ne hne]
    exact h q hq

theorem StageOK.writeback {mem disk : ℕ → V} {x : Writer V} (p : ℕ) :
    ∀ {st : Stage V}, StageOK fmt mem disk c x st →
      StageOK fmt mem (Function.update disk p (mem p)) c x st
  | .synced _, h | .recorded _, h | .bodyStored _, h => ⟨h.1, h.2.writeback p⟩
  | .working, h | .planned _, h | .flipped _, h | .metaSynced _, h => h

theorem Settled.writeback (h : Settled fmt w c rest s) (p : ℕ) :
    Settled fmt { w with disk := Function.update w.disk p (w.mem p) } c rest s :=
  { h with
    durable := { h.durable with intact := h.durable.intact.writeback p }
    writer := fun x hx => { h.writer x hx with stage := (h.writer x hx).stage.writeback p } }

theorem Flipped.writeback (h : Flipped fmt w c' c rest s) (p : ℕ) :
    Flipped fmt { w with disk := Function.update w.disk p (w.mem p) } c' c rest s :=
  { h with
    durable := { h.durable with intact := h.durable.intact.writeback p }
    intact := h.intact.writeback p }

theorem Durable.writebackMeta (h : Durable fmt w c s) (o : Bool) :
    Durable fmt { w with diskMeta := Function.update w.diskMeta o (w.memMeta o) } c s := by
  refine { h with disk := ?_ }
  rcases eq_or_ne s o with rfl | hne
  · simp [h.mem]
  · simp [update_of_ne hne, h.disk]

theorem Settled.writebackMeta (h : Settled fmt w c rest s) (o : Bool) :
    Settled fmt { w with diskMeta := Function.update w.diskMeta o (w.memMeta o) } c rest s := by
  refine { h with durable := h.durable.writebackMeta o, diskOther := ?_ }
  rcases eq_or_ne (!s) o with rfl | hne
  · simpa using h.memOther
  · simpa [update_of_ne hne] using h.diskOther

/-- The kernel may write the meta page back at any time. -/
theorem Flipped.writebackMeta (h : Flipped fmt w c' c rest s) (o : Bool) :
    Flipped fmt { w with diskMeta := Function.update w.diskMeta o (w.memMeta o) } c' c rest s := by
  have hnew : w.diskMeta (!s) = some c'.snap →
      Function.update w.diskMeta o (w.memMeta o) (!s) = some c'.snap := by
    intro hd
    rcases eq_or_ne (!s) o with rfl | hne
    · simp [h.mem]
    · simp [update_of_ne hne, hd]
  refine { h with
    durable := h.durable.writebackMeta o
    disk := ?_
    writer := fun x hx => ?_ }
  · rcases eq_or_ne (!s) o with rfl | hne
    · exact Or.inl (by simp [h.mem])
    · rcases h.disk with hd | hd
      · exact Or.inl (hnew hd)
      · exact Or.inr (by simpa [update_of_ne hne] using hd)
  · obtain ⟨h1, h2 | ⟨h2, h3⟩⟩ := h.writer x hx
    · exact ⟨h1, Or.inl h2⟩
    · exact ⟨h1, Or.inr ⟨h2, hnew h3⟩⟩

theorem filter_committed {l : List (Published V)} {n : ℕ} (h : ∀ d ∈ l, d.snap.txnId ≤ n) :
    l.filter (·.snap.txnId ≤ n) = l :=
  List.filter_eq_self.2 fun d hd => by simpa using h d hd

theorem Settled.recovered (h : Settled fmt w c rest s) : Recovered fmt w := by
  refine ⟨c, by simp [h.committed], by rw [h.newest]; rfl, h.durable.acked, fun p hp => ?_⟩
  have hclosed := h.durable.ok.closed.congr fun q hq => (h.durable.intact q hq).1
  exact (h.durable.intact p (hclosed.mem_of_reach hp)).1

variable [DecidableEq V]

theorem crash_meta (w : World V) (g : ℕ → Option V) (torn : Bool → Bool) (o : Bool) :
    (w.memMeta o = w.diskMeta o → (crash w g torn).memMeta o = w.diskMeta o) ∧
      ((crash w g torn).memMeta o = none ∨ (crash w g torn).memMeta o = w.diskMeta o) := by
  simp only [crash]
  constructor
  · intro he
    simp [he]
  · split_ifs
    · exact Or.inl rfl
    · exact Or.inr rfl

theorem Intact.crash (h : Intact w.mem w.disk c) (g : ℕ → Option V) (torn : Bool → Bool) :
    Intact (crash w g torn).mem (crash w g torn).disk c := by
  intro p hp
  obtain ⟨h1, h2⟩ := h p hp
  simp [CommitMode.crash, h1, h2]

/-- After a power loss that leaves `c` the newest meta, `c` is the base. -/
theorem settled_crash {g : ℕ → Option V} {torn : Bool → Bool} (hok : Published.OK fmt c)
    (hint : Intact w.mem w.disk c) (hslot : (crash w g torn).memMeta s = some c.snap)
    (hother : Older ((crash w g torn).memMeta !s) c.snap s) (hacked : w.acked ≤ c.snap.txnId)
    (hcom : w.committed.filter (·.snap.txnId ≤ c.snap.txnId) = c :: rest) :
    Settled fmt (crash w g torn) c rest s := by
  have hnew : ((newestMetaUngated (crash w g torn).memMeta).map (·.1.txnId)).getD 0 =
      c.snap.txnId := by
    rw [newestMetaUngated_eq hslot hother]
    rfl
  have hcom' : (crash w g torn).committed = c :: rest := by
    rw [← hcom, ← hnew]
    rfl
  refine ⟨hcom', fun d hd => ?_, ⟨hok, hslot, hslot, hint.crash g torn, hacked⟩, hother, hother,
    hnew, fun x hx => by simp [crash] at hx⟩
  have : d ∈ w.committed.filter (·.snap.txnId ≤ c.snap.txnId) := by
    rw [hcom]
    exact List.mem_cons_of_mem _ hd
  simpa using (List.mem_filter.1 this).2

theorem Settled.crash (h : Settled fmt w c rest s) (g : ℕ → Option V) (torn : Bool → Bool) :
    Settled fmt (crash w g torn) c rest s := by
  have hslot := (crash_meta w g torn s).1 (by rw [h.durable.mem, h.durable.disk])
  refine settled_crash h.durable.ok h.durable.intact (hslot.trans h.durable.disk) ?_
    h.durable.acked ?_
  · rcases (crash_meta w g torn (!s)).2 with he | he <;> rw [he]
    · exact Older.none _ _
    · exact h.diskOther
  · rw [h.committed]
    exact filter_committed (by simpa using h.below)

/-- A crash between flip and sync leaves the old commit or the new one. -/
theorem Flipped.crash (h : Flipped fmt w c' c rest s) (g : ℕ → Option V) (torn : Bool → Bool) :
    (∃ rest, Settled fmt (crash w g torn) c rest s) ∨
      ∃ rest, Settled fmt (crash w g torn) c' rest (!s) := by
  have hlt := h.lt
  have hslot := (crash_meta w g torn s).1 (by rw [h.durable.mem, h.durable.disk])
  rw [h.durable.disk] at hslot
  have hold : Older ((CommitMode.crash w g torn).memMeta !s) c.snap s →
      ∃ rest, Settled fmt (CommitMode.crash w g torn) c rest s := fun ho => by
    refine ⟨rest, settled_crash h.durable.ok h.durable.intact hslot ho h.durable.acked ?_⟩
    rw [h.committed, List.filter_cons_of_neg (by simpa using hlt)]
    exact filter_committed (by simpa using h.below)
  rcases (crash_meta w g torn (!s)).2 with he | he
  · exact Or.inl (hold (he ▸ Older.none _ _))
  · rcases h.disk with hd | hd
    · refine Or.inr ⟨c :: rest, settled_crash h.next.ok h.intact (he.trans hd) ?_ ?_ ?_⟩
      · rw [Bool.not_not, hslot]
        exact Older.of_lt hlt
      · have := h.durable.acked
        omega
      · rw [h.committed]
        exact filter_committed (List.forall_mem_cons.2 ⟨Nat.le_refl _, h.below_new⟩)
    · exact Or.inl (hold (he ▸ hd))

end Kernel

section Run

variable [DecidableEq V] {w w' : World V}

theorem Inv.crash (h : Inv fmt w) (g : ℕ → Option V) (torn : Bool → Bool) :
    ∃ c rest s, Settled fmt (crash w g torn) c rest s := by
  rcases h with ⟨c, rest, s, h⟩ | ⟨c', c, rest, s, h⟩
  · exact ⟨c, rest, s, h.crash g torn⟩
  · rcases h.crash g torn with ⟨rest, hr⟩ | ⟨rest, hr⟩
    · exact ⟨c, rest, s, hr⟩
    · exact ⟨c', rest, !s, hr⟩

/-- A step of a run in which no writer starts over the meta of a failed sync. -/
theorem inv_step (h : Inv fmt w) {a : Label V} (hg : w.untroubled a = true)
    (hs : step fmt w a = some w') : Inv fmt w' := by
  unfold step at hs
  split at hs
  · rename_i hl
    rcases h with ⟨c, rest, s, h⟩ | ⟨c', c, rest, s, h⟩
    · exact Or.inl ⟨c, rest, s, h.begin hs⟩
    · have hle : c'.snap.txnId ≤ w.durableTxn := by
        simpa [World.untroubled, hl, h.newest] using hg
      have hlt := h.lt
      rw [h.gate] at hle
      omega
  · obtain ⟨w₁, h₁, hb⟩ := bind_eq_some_iff.1 hs
    rcases h with ⟨c, rest, s, h⟩ | ⟨c', c, rest, s, h⟩
    · exact Or.inl ⟨c, rest, s, (h.recover h₁).begin hb⟩
    · exact Or.inl ⟨c', c :: rest, !s, (h.recover h₁).begin hb⟩
  · cases hs
    rcases h with ⟨c, rest, s, h⟩ | ⟨c', c, rest, s, h⟩
    · exact Or.inl ⟨c, rest, s, h.setLock fun x hx => by simp at hx⟩
    · exact Or.inr ⟨c', c, rest, s, h.unlock fun x => by simp⟩
  · cases hs
    rcases h with ⟨c, rest, s, h⟩ | ⟨c', c, rest, s, h⟩
    · exact Or.inl ⟨c, rest, s, h.setLock fun x hx => by simp at hx⟩
    · exact Or.inr ⟨c', c, rest, s, h.unlock fun x => by simp⟩
  · cases hs
    rcases h with ⟨c, rest, s, h⟩ | ⟨c', c, rest, s, h⟩
    · exact Or.inl ⟨c, rest, s, h.writeback _⟩
    · exact Or.inr ⟨c', c, rest, s, h.writeback _⟩
  · cases hs
    rcases h with ⟨c, rest, s, h⟩ | ⟨c', c, rest, s, h⟩
    · exact Or.inl ⟨c, rest, s, h.writebackMeta _⟩
    · exact Or.inr ⟨c', c, rest, s, h.writebackMeta _⟩
  · cases hs
    exact Or.inl (h.crash _ _)
  · rename_i x _ _ _ _ hl
    split at hs
    · rename_i hst
      rcases h with ⟨c, rest, s, h⟩ | ⟨c', c, rest, s, h⟩
      · exact Or.inl ⟨c, rest, s, settled_stepTxn h hl hst hs⟩
      · obtain ⟨-, hx | ⟨hx, -⟩⟩ := h.writer x hl <;> rw [hst] at hx <;> cases hx
    · rcases h with ⟨c, rest, s, h⟩ | ⟨c', c, rest, s, h⟩
      · exact inv_stepCommit_settled h hl hs
      · exact inv_stepCommit_flipped h hl hs
  · simp at hs

/-- Whatever commits, failed syncs, deaths, takeovers, write-backs and power losses came before, a
power loss leaves a database that recovers to a committed transaction at least as new as the last
acknowledged one, with every page under its roots as that transaction published it, as long as no
writer started over the meta of a failed sync. -/
theorem recovered_crash (fmt : PageFormat V) (mem : ℕ → V) (dataStart : ℕ) (w : World V)
    (h : Reaches (step fmt) (fun w a => w.untroubled a = true) (World.init mem dataStart) w)
    (garbage : ℕ → Option V) (torn : Bool → Bool) : Recovered fmt (crash w garbage torn) := by
  have hinv : Inv fmt w :=
    h.invariant (inv_init mem dataStart) fun _ _ _ hi hg hs => inv_step hi hg hs
  obtain ⟨c, rest, s, hc⟩ := hinv.crash garbage torn
  exact hc.recovered

/-- The data sync of a first try fails. Transaction 2 frees page 2 and transaction 3 takes it again;
its writer dies after the flip, and the successor loses power in the middle of transaction 4. -/
theorem recovered_crash_reuse : ∃ w,
    Reaches (step PageFormat.plain) (fun w a => w.untroubled a = true)
        (World.init (fun _ => ([], [])) 2) w ∧
      w.acked = 2 ∧ w.committed.length = 4 ∧ w.mem 2 = ([5], []) ∧
      ∀ garbage torn, Recovered PageFormat.plain (crash w garbage torn) := by
  obtain ⟨w, hw, hacked, hlen, hmem⟩ := exists_reaches (step PageFormat.plain)
    (fun w a => w.untroubled a = true) (World.init (fun _ => ([], [])) 2)
    [.begin, .alloc 2, .enterFreelistOp, .plan ⟨2, 0, 0, false, [2], [], []⟩, .syncFails,
      .begin, .alloc 2, .enterFreelistOp, .plan ⟨2, 0, 0, false, [2], [], []⟩,
      .syncData, .record, .storeBody, .storeChecksum, .syncMeta, .ack,
      .begin, .alloc 3, .free 2, .enterFreelistOp, .alloc 4, .store 4 ([], [⟨2, .pages, 0, [2]⟩]),
      .plan ⟨3, 4, 0, false, [3, 4], [[2]], []⟩,
      .syncData, .record, .storeBody, .storeChecksum, .syncMeta, .ack,
      .begin, .refill 2, .alloc 2, .alloc 5, .store 2 ([5], []), .free 3, .enterFreelistOp,
      .alloc 6, .free 4, .store 6 ([], [⟨3, .pages, 0, [4, 3]⟩]),
      .plan ⟨2, 6, 0, false, [2, 5, 6], [[4, 3]], []⟩,
      .syncData, .record, .storeBody, .writebackMeta true, .storeChecksum, .die,
      .begin, .alloc 7, .writeback 7]
    (fun w => w.acked = 2 ∧ w.committed.length = 4 ∧ w.mem 2 = ([5], [])) (by decide)
  exact ⟨w, hw, hacked, hlen, hmem,
    recovered_crash PageFormat.plain (fun _ => ([], [])) 2 w hw⟩

/-- The meta sync of transaction 1 fails after the flip and the kernel writes its slot back. The
next writer starts from the genesis meta, takes the same page and stores other bytes into it; the
power loss then recovers the meta of transaction 1 with the second writer's bytes. -/
theorem recovered_crash_fails_after_failed_sync : ∃ w,
    Reaches (step PageFormat.plain) (fun _ _ => True) (World.init (fun _ => ([], [])) 2) w ∧
      ¬ Recovered PageFormat.plain (crash w (fun _ => none) (fun _ => false)) := by
  obtain ⟨w, hw, hpages⟩ := exists_reaches (step PageFormat.plain) (fun _ _ => True)
    (World.init (fun _ => ([], [])) 2)
    [.begin, .alloc 2, .enterFreelistOp, .plan ⟨2, 0, 0, false, [2], [], []⟩,
      .syncData, .record, .storeBody, .storeChecksum, .syncFails, .writebackMeta true,
      .begin, .alloc 2, .store 2 ([7], []), .writeback 2]
    (fun w => ∀ c ∈ (crash w (fun _ => none) (fun _ => false)).committed,
      (newestMetaUngated (crash w (fun _ => none) (fun _ => false)).memMeta).map Prod.fst =
        some c.snap →
      2 ∈ c.snap.roots ∧ (crash w (fun _ => none) (fun _ => false)).mem 2 ≠ c.image 2) (by decide)
  refine ⟨w, hw, ?_⟩
  rintro ⟨c, hc, hnew, -, hreach⟩
  obtain ⟨hroot, hne⟩ := hpages c hc hnew
  exact hne (hreach 2 (.root hroot))

end Run

end Mpedb.CommitMode
