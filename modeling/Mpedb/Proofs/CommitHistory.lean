import Mpedb.CommitHistory
import Mpedb.Lib.Transition
import Mpedb.Proofs.Session

/-!
# The first committer wins

A commit's footprint covers the rows it changed when every recorded key is the key of the row that
was written (`covers_footprint`); the slots of a window hold the footprints of its commits. So a
write that `opt_conflict` lets pass finds its row as the snapshot showed it (`opt_conflict_sound`).
-/

namespace Mpedb

open List Function SessionState OptRing

theorem Contents.writeAll_ne : ∀ (ws : List RowWrite) (c : Contents) {t : ℕ} {k : List UInt8},
    c.writeAll ws t k ≠ c t k → ∃ w ∈ ws, w.table = t ∧ w.key = k
  | [], _, _, _, h => absurd rfl h
  | w :: ws, c, t, k, h => by
    by_cases hw : t = w.table ∧ k = w.key
    · exact ⟨w, by simp, hw.1.symm, hw.2.symm⟩
    · have hc : c.write w t k = c t k := if_neg hw
      obtain ⟨w', hmem, hw'⟩ := writeAll_ne ws (c.write w) (t := t) (k := k) (by
        rw [hc]
        exact h)
      exact ⟨w', by simp [hmem], hw'⟩

/-- The sets have a bit in common. -/
def HasBit (s b : BitVec 64) : Prop := s &&& b ≠ 0#64

variable {b : BitVec 64}

theorem HasBit.or_left {s : BitVec 64} (h : HasBit s b) (s' : BitVec 64) : HasBit (s ||| s') b := by
  intro h0
  refine h (BitVec.eq_of_getLsbD_eq fun i hi => ?_)
  have hi' := congrArg (fun x => x.getLsbD i) h0
  simp only [BitVec.getLsbD_and, BitVec.getLsbD_or] at hi' ⊢
  revert hi'
  cases s.getLsbD i <;> cases b.getLsbD i <;> simp

theorem hasBit_or_self (hb : b ≠ 0#64) (s : BitVec 64) : HasBit (s ||| b) b := by
  rw [BitVec.or_comm]
  refine HasBit.or_left ?_ s
  rw [HasBit, BitVec.and_self]
  exact hb

theorem hasBit_allOnes (hb : b ≠ 0#64) (s : BitVec 64) :
    HasBit (s ||| .allOnes 64) b := by
  rw [BitVec.or_allOnes, HasBit, BitVec.allOnes_and]
  exact hb

theorem regionBit_ne_zero (h : BitVec 64) : regionBit h ≠ 0#64 := foldBit_ne_zero h.toNat

/-- Every row that differs from `base` is in the set of tables, and its key in the regions if
those are to be exact. -/
structure Covering (base : Contents) (exact : Prop) (regions tables : BitVec 64) (c : Contents) :
    Prop where
  table : ∀ t k, c t k ≠ base t k → HasBit tables (foldBit t)
  region : exact → ∀ t k, c t k ≠ base t k → HasBit regions (regionBit (keyHash k))

namespace Covering

variable {base c : Contents} {exact : Prop} {regions tables : BitVec 64}

theorem start : Covering base exact regions tables base :=
  ⟨fun _ _ h => absurd rfl h, fun _ _ _ h => absurd rfl h⟩

theorem widenRegions (h : Covering base exact regions tables c) (r : BitVec 64) :
    Covering base exact (regions ||| r) tables c :=
  ⟨h.table, fun he t k hk => (h.region he t k hk).or_left r⟩

theorem writeAll (h : Covering base exact regions tables c) {tables' : BitVec 64}
    {ws : List RowWrite} (htables : ∀ b, HasBit tables b → HasBit tables' b)
    (hws : ∀ w ∈ ws, HasBit tables' (foldBit w.table))
    (hregions : exact → ∀ w ∈ ws, HasBit regions (regionBit (keyHash w.key))) :
    Covering base exact regions tables' (c.writeAll ws) := by
  have hold : ∀ t k, c.writeAll ws t k ≠ base t k → c t k ≠ base t k ∨
      ∃ w ∈ ws, w.table = t ∧ w.key = k := by
    intro t k hk
    by_cases hc : c.writeAll ws t k = c t k
    · exact .inl (hc ▸ hk)
    · exact .inr (Contents.writeAll_ne ws c hc)
  refine ⟨fun t k hk => ?_, fun he t k hk => ?_⟩
  · rcases hold t k hk with hc | ⟨w, hw, rfl, rfl⟩
    · exact htables _ (h.table t k hc)
    · exact hws w hw
  · rcases hold t k hk with hc | ⟨w, hw, rfl, rfl⟩
    · exact h.region he t k hc
    · exact hregions he w hw

end Covering

namespace SessionStep

/-- The key a statement records is that of every row it writes, and no table is dropped. -/
def NamesRows : SessionStep → Prop
  | .stmt s => ∀ c ws, s.run c = .ok ws → ∀ w ∈ ws, ∀ h, s.key = some h → keyHash w.key = h
  | .dropTable _ => False
  | _ => True

/-- The step writes the contents without a statement. -/
def IsDirect : SessionStep → Prop
  | .direct _ => True
  | _ => False

/-- The step is a statement that names its row. -/
def Keyed : SessionStep → Prop
  | .stmt s => s.writes = true ∧ s.key ≠ none
  | _ => False

end SessionStep

/-- Every row the transaction changes is one it names: its statements write the row of the key they
record, or record none, and row calls that record nothing do not stand beside ones that record a
key. -/
def OptCommit.NamesRows : OptCommit → Prop
  | .session steps => (∀ step ∈ steps, step.NamesRows) ∧
      ((∀ step ∈ steps, ¬ step.IsDirect) ∨ ∀ step ∈ steps, ¬ step.Keyed)
  | .optimistic _ => True

/-- The records of a transaction cover its rows, those at its savepoints included. -/
structure Covers (base : Contents) (exact : Prop) (st : SessionState) : Prop where
  origin : st.base = base
  point : st.written.commitPoint = none
  rows : Covering base exact st.written.regions st.written.tables st.contents
  savepoints : ∀ sp ∈ st.savepoints, sp.commitPoint = none ∧
    Covering base exact st.written.regions sp.tables sp.contents
  regions : ¬ exact → st.written.regions = 0 ∨ st.written.regions = regionAny

namespace Covers

variable {base : Contents} {exact : Prop} {st : SessionState}

theorem tables_markTables : ∀ (ws : List RowWrite) (w : Written),
    (∀ b, HasBit w.tables b → HasBit (ws.foldl (fun w x => w.markTable x.table) w).tables b) ∧
      ∀ x ∈ ws, HasBit (ws.foldl (fun w x => w.markTable x.table) w).tables (foldBit x.table)
  | [], _ => ⟨fun _ h => h, by simp⟩
  | x :: ws, w => by
    obtain ⟨hold, hnew⟩ := tables_markTables ws (w.markTable x.table)
    refine ⟨fun b hb => hold b (hb.or_left _), fun y hy => ?_⟩
    rcases mem_cons.1 hy with rfl | hy
    · exact hold _ (hasBit_or_self (foldBit_ne_zero _) _)
    · exact hnew y hy

theorem applyRows (h : Covers base exact st) {r : Except Error (List RowWrite)}
    (hr : exact → ∀ ws, r = .ok ws → ∀ w ∈ ws,
      HasBit st.written.regions (regionBit (keyHash w.key))) :
    Covers base exact (st.applyRows r) := by
  rcases r with e | ws
  · exact h
  · obtain ⟨t, ht⟩ := markTables_frame ws st.written
    obtain ⟨hold, hnew⟩ := tables_markTables ws st.written
    rw [ht] at hold hnew
    simp only [SessionState.applyRows, ht]
    exact ⟨h.origin, h.point, h.rows.writeAll hold hnew fun he => hr he ws rfl,
      h.savepoints, h.regions⟩

theorem widen (h : Covers base exact st) {s : SessionStmt}
    (hkeyed : ¬ exact → s.writes = true → s.key = none) :
    Covers base exact { st with written := st.written.widen s } := by
  by_cases hs : s.writes
  · obtain ⟨c, d, a, b, hw⟩ := widen_frame st.written hs
    rw [hw]
    refine ⟨h.origin, h.point, h.rows.widenRegions _, fun sp hsp => ?_, fun he => .inr ?_⟩
    · exact ⟨(h.savepoints sp hsp).1, (h.savepoints sp hsp).2.widenRegions _⟩
    · simp only [hkeyed he hs]
      exact BitVec.or_allOnes
  · rw [widen_of_not_writes _ (by simpa using hs)]
    exact h

theorem hasBit_widen {s : SessionStmt} {c : Contents} {ws : List RowWrite} {w : RowWrite}
    {written : Written} (hrun : s.run c = .ok ws) (hw : w ∈ ws)
    (hnames : ∀ h, s.key = some h → keyHash w.key = h) :
    HasBit (written.widen s).regions (regionBit (keyHash w.key)) := by
  by_cases hs : s.writes
  · obtain ⟨_, _, _, _, hframe⟩ := widen_frame written hs
    rw [hframe]
    rcases hk : s.key with _ | h
    · exact hasBit_allOnes (regionBit_ne_zero _) _
    · rw [hnames h hk]
      exact hasBit_or_self (regionBit_ne_zero _) _
  · rw [s.readOnly (by simpa using hs) c ws hrun] at hw
    exact absurd hw (by simp)

theorem step (h : Covers base exact st) {step : SessionStep} (hnames : step.NamesRows)
    (hdirect : exact → ¬ step.IsDirect) (hkeyed : ¬ exact → ¬ step.Keyed) :
    Covers base exact (st.step step) := by
  rcases step with s | run | table | _ | n | n | _
  · refine (h.widen fun he hw => by_contra fun hk => hkeyed he ⟨hw, hk⟩).applyRows ?_
    intro _ ws hrun w hw
    exact hasBit_widen hrun hw (hnames _ ws hrun w hw)
  · exact h.applyRows fun he => (hdirect he trivial).elim
  · exact hnames.elim
  · refine ⟨h.origin, h.point, h.rows, fun sp hsp => ?_, h.regions⟩
    rcases mem_append.1 hsp with hsp | hsp
    · exact h.savepoints sp hsp
    · rw [mem_singleton.1 hsp]
      exact ⟨h.point, h.rows⟩
  · simp only [SessionState.step]
    split_ifs
    · exact ⟨h.origin, h.point, h.rows, fun sp hsp => h.savepoints sp (mem_of_mem_take hsp),
        h.regions⟩
    · exact h
  · simp only [SessionState.step]
    rcases hsp : st.savepoints[n]? with _ | sp
    · exact h
    · obtain ⟨hpoint, hrows⟩ := h.savepoints sp (mem_of_getElem? hsp)
      exact ⟨h.origin, hpoint, hrows,
        fun x hx => h.savepoints x (mem_of_mem_take hx), h.regions⟩
  · exact ⟨h.origin, rfl, h.origin ▸ .start, by simp [SessionState.step], h.regions⟩

theorem run : ∀ (steps : List SessionStep) (st : SessionState), Covers base exact st →
    (∀ step ∈ steps, step.NamesRows) → (exact → ∀ step ∈ steps, ¬ step.IsDirect) →
    (¬ exact → ∀ step ∈ steps, ¬ step.Keyed) → Covers base exact (st.run steps)
  | [], _, h, _, _, _ => h
  | x :: steps, st, h, hnames, hdirect, hkeyed => by
    refine run steps (st.step x) (h.step (hnames x (by simp)) (fun he => hdirect he x (by simp))
      fun he => hkeyed he x (by simp)) ?_ ?_ ?_
    · exact fun y hy => hnames y (by simp [hy])
    · exact fun he y hy => hdirect he y (by simp [hy])
    · exact fun he y hy => hkeyed he y (by simp [hy])

end Covers

/-- The footprint makes a write of this row a conflict. -/
def CommitFootprint.Catches (fp : CommitFootprint) (table : ℕ) (h : BitVec 64) : Prop :=
  HasBit fp.tableBits (foldBit table) ∧ fp.kind ≠ .empty ∧
    (fp.kind = .region → HasBit fp.keyHash (regionBit h)) ∧ (fp.kind = .point → fp.keyHash = h)

/-- The published footprint catches a write of every row that the transaction changed. -/
theorem covers_footprint {x : OptCommit} (hx : x.NamesRows) (c : Contents) {t : ℕ} {k : List UInt8}
    (hk : (x.run c).1 t k ≠ c t k) : (x.run c).2.footprint.Catches t (keyHash k) := by
  rcases x with steps | w
  · obtain ⟨hnames, hapart⟩ := hx
    have hcov : Covers c (∀ step ∈ steps, ¬ step.IsDirect) ((start c).run steps) :=
      Covers.run steps (.start c) ⟨rfl, rfl, .start, by simp [start], fun _ => .inl rfl⟩
        hnames id fun hd => hapart.resolve_left hd
    simp only [OptCommit.run] at hk ⊢
    generalize (start c).run steps = st at *
    have htable := hcov.rows.table t k hk
    have hne : st.written.tables ≠ 0#64 := by
      rintro h0
      rw [h0] at htable
      exact htable BitVec.zero_and
    rcases hs : st.written.shard with _ | s
    · have hfp : st.written.footprint.kind = .region ∧
          st.written.footprint.tableBits = st.written.tables ∧
          st.written.footprint.keyHash =
            if st.written.regions = 0 then regionAny else st.written.regions := by
        simp [Written.footprint, Written.summary, hcov.point, hne, hs]
      obtain ⟨hkind, hbits, hhash⟩ := hfp
      rw [CommitFootprint.Catches, hkind, hbits, hhash]
      refine ⟨htable, by simp, fun _ => ?_, by simp⟩
      have hany : HasBit regionAny (regionBit (keyHash k)) := by
        rw [HasBit, regionAny, BitVec.allOnes_and]
        exact regionBit_ne_zero _
      split_ifs with h0
      · exact hany
      · by_cases he : ∀ step ∈ steps, ¬ step.IsDirect
        · exact hcov.rows.region he t k hk
        · rw [(hcov.regions he).resolve_left h0]
          exact hany
    · have hfp : st.written.footprint.kind = .shard ∧
          st.written.footprint.tableBits = st.written.tables := by
        simp [Written.footprint, Written.summary, hcov.point, hne, hs]
      rw [CommitFootprint.Catches, hfp.1, hfp.2]
      exact ⟨htable, by simp, by simp, by simp⟩
  · have hw : t = w.table ∧ k = w.key := by
      by_contra hne
      exact hk (if_neg hne)
    obtain ⟨rfl, rfl⟩ := hw
    have hself : HasBit (foldBit w.table) (foldBit w.table) := by
      simpa using hasBit_or_self (foldBit_ne_zero w.table) 0
    exact ⟨hself, by simp [OptCommit.run, Written.footprint, Written.summary,
      Written.setCommitPoint],
      by simp [OptCommit.run, Written.footprint, Written.summary, Written.setCommitPoint],
      fun _ => rfl⟩

theorem slotConflicts_of_catches {ring : OptRing} {t table : ℕ} {h : BitVec 64} {e : OfpEntry}
    {fp : CommitFootprint} (hslot : ring.slot t = recorded e t fp)
    (hfp : fp.Catches table h) : ring.slotConflicts table h t = true := by
  obtain ⟨htable, hkind, hregion, hpoint⟩ := hfp
  have hbit : fp.tableBits &&& foldBit table ≠ 0#64 := htable
  simp only [slotConflicts, hslot, recorded]
  rcases hk : fp.kind with _ | _ | _ | _ | _ | n
  · exact absurd hk hkind
  · simp [hbit, hpoint hk]
  · simp [hbit]
  · have hreg : fp.keyHash &&& regionBit h ≠ 0#64 := hregion hk
    simp [hbit, hreg]
  · simp [hbit]
  · simp [hbit]

/-- Every id in the ring is one of the history, and the slots of the last commits hold their
footprints; only the oldest of them may have been torn by a writer that died. -/
structure RingInv (n : ℕ) (s : OptSystem) : Prop where
  le : n ≤ s.current
  ids : ∀ i, (s.ring i).txn = 0 ∨ n < (s.ring i).txn
  slots : ∀ t, n < t → t ≤ s.current → s.current < t + optRingSlots →
    (s.torn = true → s.current + 1 < t + optRingSlots) → ∃ e fp,
      s.ring.slot t = OptRing.recorded e t fp ∧
      ∀ table k, s.contents t table k ≠ s.contents (t - 1) table k → fp.Catches table (keyHash k)

namespace OptSystem

theorem ringInv_start (n : ℕ) (c : Contents) : RingInv n (start n c) :=
  ⟨le_rfl, fun _ => .inl rfl, fun t hn hle => absurd hle (by simp only [start]; omega)⟩

theorem txn_foldl_store {n : ℕ} : ∀ (l : List OfpStore) (e : OfpEntry),
    (∀ v, OfpStore.txn v ∈ l → v = n) →
    (l.foldl OfpEntry.store e).txn = e.txn ∨ (l.foldl OfpEntry.store e).txn = n
  | [], _, _ => .inl rfl
  | x :: l, e, h => by
    have ih := txn_foldl_store l (e.store x) fun v hv => h v (mem_cons_of_mem x hv)
    cases x with
    | txn v =>
      have hv : (e.store (.txn v)).txn = n := h v (by simp)
      rw [hv, or_self] at ih
      exact .inr ih
    | _ => exact ih

theorem txn_mem_recordStores {n v : ℕ} {fp : CommitFootprint}
    (h : OfpStore.txn v ∈ recordStores n fp) : v = n := by
  simpa [recordStores, keyStores] using h

variable {n : ℕ} {s : OptSystem}

theorem slot_storeAll_of_lt {t : ℕ} (hle : t ≤ s.current) (hlt : s.current + 1 < t + optRingSlots)
    (stores : List OfpStore) : (s.ring.storeAll (s.current + 1) stores).slot t = s.ring.slot t := by
  refine slot_setSlot_of_ne _ ?_ _
  simp only [optRingSlots] at hlt ⊢
  omega

variable {x : OptCommit}

theorem txn_storeAll (h : RingInv n s) {stores : List OfpStore}
    (hstores : ∀ st ∈ stores, st ∈ recordStores (s.current + 1) (s.next x)) (i : ℕ) :
    (s.ring.storeAll (s.current + 1) stores i).txn = 0 ∨
      n < (s.ring.storeAll (s.current + 1) stores i).txn := by
  by_cases hi : i = (s.current + 1) % optRingSlots
  · subst hi
    have hself : s.ring.storeAll (s.current + 1) stores ((s.current + 1) % optRingSlots) =
        stores.foldl OfpEntry.store (s.ring.slot (s.current + 1)) := update_self ..
    rw [hself]
    rcases txn_foldl_store stores (s.ring.slot (s.current + 1)) fun v hv =>
      txn_mem_recordStores (hstores _ hv) with hold | hnew
    · rw [hold]
      exact h.ids _
    · rw [hnew]
      exact .inr (Nat.lt_succ_of_le h.le)
  · have hold : s.ring.storeAll (s.current + 1) stores i = s.ring i := update_of_ne hi ..
    rw [hold]
    exact h.ids i

theorem RingInv.commit (h : RingInv n s) (hx : x.NamesRows) {s' : OptSystem}
    (hs : s.step (.commit x) = some s') : RingInv n s' := by
  obtain rfl := Option.some.inj hs
  refine ⟨Nat.le_succ_of_le h.le, txn_storeAll h fun _ hst => hst, fun t hn hle hlt _ => ?_⟩
  simp only at hle hlt
  by_cases ht : t = s.current + 1
  · subst ht
    refine ⟨_, s.next x, slot_optRecord_self .., fun table k hk => ?_⟩
    have hprev : s.current ≠ s.current + 1 := by omega
    simp only [update_self, Nat.add_sub_cancel, update_of_ne hprev] at hk
    exact covers_footprint hx _ hk
  · -- the slot that a dead writer tore is the one this commit has taken
    obtain ⟨e, fp, hslot, hfp⟩ := h.slots t hn (by omega) (by omega) fun _ => by omega
    refine ⟨e, fp, ?_, fun table k hk => ?_⟩
    · exact (slot_storeAll_of_lt (by omega) hlt _).trans hslot
    · have hprev : t - 1 ≠ s.current + 1 := by omega
      simp only [update_of_ne ht, update_of_ne hprev] at hk
      exact hfp table k hk

theorem RingInv.die (h : RingInv n s) {k : ℕ} {s' : OptSystem}
    (hs : s.step (.die x k) = some s') : RingInv n s' := by
  obtain rfl := Option.some.inj hs
  refine ⟨h.le, txn_storeAll h fun _ hst => mem_of_mem_take hst, fun t hn hle hlt htorn => ?_⟩
  simp only [Bool.or_eq_true, decide_eq_true_eq] at hle hlt htorn
  obtain ⟨e, fp, hslot, hfp⟩ := h.slots t hn hle hlt fun ht => htorn (.inl ht)
  refine ⟨e, fp, ?_, hfp⟩
  by_cases hk : 0 < k
  · exact (slot_storeAll_of_lt hle (htorn (.inr hk)) _).trans hslot
  · -- no store has been made: the slot is written back as it was
    obtain rfl : k = 0 := by omega
    have hsame : s.ring.storeAll (s.current + 1) [] = s.ring := update_eq_self ..
    simp only [take_zero, hsame]
    exact hslot

end OptSystem

/-- The commit of the step names its rows. -/
def OptSystem.Step.NamesRows : OptSystem.Step → Prop
  | .commit x => x.NamesRows
  | .die _ _ => True

theorem ringInv_of_reaches {n : ℕ} {c : Contents} {s : OptSystem}
    (h : Transition.Reaches OptSystem.step (fun _ a => a.NamesRows) (.start n c) s) :
    RingInv n s := by
  refine h.invariant (OptSystem.ringInv_start n c) fun s a s' hinv ha hs => ?_
  cases a with
  | commit x => exact OptSystem.RingInv.commit hinv ha hs
  | die x k => exact OptSystem.RingInv.die hinv hs

/-- A write that `opt_conflict` lets pass finds its row as every commit of the window left it: in
every history whose commits name the rows they change, dead writers among them, and for a window
shorter than the ring unless no dead writer has begun the next slot. -/
theorem opt_conflict_sound (n : ℕ) (c : Contents) (s : OptSystem)
    (hs : Transition.Reaches OptSystem.step (fun _ a => a.NamesRows) (.start n c) s)
    (snap table : ℕ) (h : BitVec 64) (hwindow : s.torn = false ∨ s.current - snap < optRingSlots)
    (hpass : s.ring.optConflict snap s.current table h = false) :
    ∀ t, snap < t → t ≤ s.current → ∀ key, keyHash key = h →
      s.contents t table key = s.contents (t - 1) table key := by
  rintro t hsnap hle key rfl
  have hinv := ringInv_of_reaches hs
  have hlong : ¬ optRingSlots < s.current - snap := by
    intro hlt
    simp [optConflict, hlt, show ¬ s.current ≤ snap by omega] at hpass
  have hslot : s.ring.slotConflicts table (keyHash key) t = false := by
    simp only [optConflict, show ¬ s.current ≤ snap by omega, hlong, if_false,
      any_eq_false, window, mem_range'_1] at hpass
    simpa using hpass t ⟨by omega, by omega⟩
  by_contra hne
  by_cases hn : n < t
  · obtain ⟨e, fp, hrec, hfp⟩ := hinv.slots t hn hle (by omega) fun ht => by
      rcases hwindow with htorn | hshort
      · exact absurd (ht.symm.trans htorn) (by simp)
      · omega
    rw [slotConflicts_of_catches hrec (hfp table key hne)] at hslot
    exact absurd hslot (by simp)
  · -- an id from before the ring was laid out is in no slot
    have hid : (s.ring.slot t).txn ≠ t := by
      have := hinv.ids (t % optRingSlots)
      simp only [slot]
      omega
    simp [slotConflicts, hid] at hslot

/-- A parent row in table 1 and its child in table 2. -/
def parentAndChild : Contents := fun table key =>
  if table = 1 ∧ key = [7] ∨ table = 2 ∧ key = [9] then some [.int 1] else none

/-- A `DELETE` by the key `[k]`, with the rows it removes. -/
def deleteByKey (k : UInt8) (rows : List RowWrite) : SessionStmt where
  writes := true
  key := some (keyHash [k])
  cols := none
  set := none
  shard := none
  params := []
  run _ := .ok rows
  readOnly h := nomatch h

/-- `DELETE` of the child row. -/
def childDelete : SessionStmt := deleteByKey 9 [⟨2, [9], none⟩]

/-- `DELETE` of the parent row, which takes the child with it. -/
def cascadingDelete : SessionStmt := deleteByKey 7 [⟨2, [9], none⟩, ⟨1, [7], none⟩]

theorem childDelete_namesRows : (OptCommit.session [.stmt childDelete]).NamesRows := by
  refine ⟨fun step hstep => ?_, .inl fun step hstep => ?_⟩ <;> cases mem_singleton.1 hstep
  · rintro c ws hws w hw h hh
    cases hws
    cases hh
    cases mem_singleton.1 hw
    rfl
  · exact id

/-- A history that fills the ring, after which a writer of nothing dies with two stores made. -/
def tornHistory : List OptSystem.Step :=
  .commit (.optimistic ⟨1, [7], none⟩) ::
    List.replicate 255 (.commit (.optimistic ⟨2, [9], some [.int 3]⟩)) ++ [.die (.session []) 2]

/-- A session that deletes the child by its key, and a writer that dies under the next id, let a
write of the parent pass. -/
theorem opt_conflict_passes_parent :
    ∃ s, Transition.Reaches OptSystem.step (fun _ a => a.NamesRows) (.start 0 parentAndChild) s ∧
      s.current = 1 ∧ s.torn = true ∧ s.contents 1 2 [9] ≠ s.contents 0 2 [9] ∧
      ∀ t, 0 < t → t ≤ s.current → ∀ key, keyHash key = keyHash [7] →
        s.contents t 1 key = s.contents (t - 1) 1 key := by
  have hs : Transition.Reaches OptSystem.step (fun _ a => a.NamesRows)
      (.start 0 parentAndChild) _ :=
    .tail (a := .die (.session []) 2)
      (.tail (a := .commit (.session [.stmt childDelete])) .refl childDelete_namesRows rfl)
      trivial rfl
  exact ⟨_, hs, rfl, rfl, by decide,
    opt_conflict_sound 0 parentAndChild _ hs 0 1 (keyHash [7]) (.inr (by decide))
      (by decide)⟩

/-- Two conflicts that are missed: the child row a cascade deletes is in no region the session
records, and the slot of the oldest commit of a full window is half overwritten by a writer that
died. -/
theorem opt_conflict_misses :
    (∃ s, Transition.Reaches OptSystem.step (fun _ _ => True) (.start 0 parentAndChild) s ∧
      s.current = 1 ∧ s.ring.optConflict 0 s.current 2 (keyHash [9]) = false ∧
      s.contents 1 2 [9] ≠ s.contents 0 2 [9]) ∧
    ∃ s, Transition.Reaches OptSystem.step (fun _ _ => True) (.start 0 parentAndChild) s ∧
      s.current = 256 ∧ s.ring.optConflict 0 s.current 1 (keyHash [7]) = false ∧
      s.contents 1 1 [7] ≠ s.contents 0 1 [7] :=
  ⟨Transition.exists_reaches _ _ _ [.commit (.session [.stmt cascadingDelete])] _
      (by decide),
    Transition.exists_reaches _ _ _ tornHistory _ (by decide +kernel)⟩

end Mpedb
