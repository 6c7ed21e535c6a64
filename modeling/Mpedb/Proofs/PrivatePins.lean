import Mpedb.PrivatePins
import Mpedb.Proofs.Pages
import Mpedb.Proofs.Readers

/-!
# Private snapshots stay as they were committed

The flag of a database is up exactly while its writer tries for an exclusive section or has one
open, provided the thread's nesting depth counts that one section only. No pin is returned while it
is up, and copying writers take pages that no pinned snapshot reaches. This needs that a pin is
returned only for the transaction that is still the newest (`System.orderly`).
-/

namespace Mpedb.Private

open List Function Private.System Writer Db

open Readers (Bound TxnCall)

variable {V : Type*}

/-! ## Undo -/

theorem restore_congr {mem mem' : ℕ → V} {q : ℕ} : ∀ (undo : List (ℕ × V)),
    q ∈ undo.map Prod.fst ∨ mem q = mem' q → restore undo mem q = restore undo mem' q
  | [], h => by simpa [restore] using h
  | x :: undo, h => by
    show Function.update (restore undo mem) x.1 x.2 q =
      Function.update (restore undo mem') x.1 x.2 q
    rcases eq_or_ne q x.1 with rfl | hne
    · simp
    · rw [update_of_ne hne, update_of_ne hne]
      refine restore_congr undo (h.imp_left fun hq => ?_)
      simpa [hne] using hq

theorem restore_of_notMem {mem : ℕ → V} {q : ℕ} : ∀ (undo : List (ℕ × V)),
    q ∉ undo.map Prod.fst → restore undo mem q = mem q
  | [], _ => rfl
  | x :: undo, h => by
    simp only [map_cons, mem_cons, not_or] at h
    show Function.update (restore undo mem) x.1 x.2 q = mem q
    rw [update_of_ne h.1]
    exact restore_of_notMem undo h.2

/-! ## The allocator's calls -/

variable {w : Writer V}

theorem ok_call {c : TxnCall} {t : Txn} (h : w.txn.OK w.live)
    (hc : callOK w c = true) (hs : c.run w.txn = some t) : t.OK w.live := by
  cases c with
  | alloc p => exact h.alloc hs
  | allocRun p => exact h.allocRun hs
  | free p =>
    simp only [callOK, decide_eq_true_eq] at hc
    exact h.free hc.1 hc.2 hs
  | freeExtent p =>
    simp only [callOK, decide_eq_true_eq] at hc
    cases hs
    exact h.freeExtent hc
  | enterFreelistOp =>
    cases hs
    exact h.enterFreelistOp

theorem tracked_call {avoid : ℕ → Prop} {lo : ℕ} {es : List FreeEntry} {t t' : Txn} {c : TxnCall}
    (h : t.Tracked avoid (fun _ => True) lo es) (ha : ∀ q, lo ≤ q → ¬ avoid q)
    (hs : c.run t = some t') : t'.Tracked avoid (fun _ => True) lo es := by
  cases c with
  | alloc p => exact h.alloc ha hs
  | allocRun p => exact h.allocRun ha (fun _ _ => trivial) hs
  | free p => exact h.free hs
  | freeExtent p =>
    cases hs
    exact h.freeExtent fun _ => trivial
  | enterFreelistOp =>
    cases hs
    exact h.enterFreelistOp

/-! ## The invariant of a database -/

/-- The flag is up on behalf of this transaction. -/
def Writer.flagged (w : Writer V) : Bool :=
  match w.stage with
  | .scanPins _ => true
  | .clearFlag => true
  | .working => w.inPlace
  | .finishing => w.inPlace
  | _ => false

/-- The writer may still write. -/
def Writer.Active (w : Writer V) : Prop := w.stage ≠ .finishing ∧ w.stage ≠ .unlocking

/-- What holds of a transaction in progress on the newest snapshot `S`, number `n`. -/
structure Writer.Sound (w : Writer V) (n : ℕ) (S : Snapshot V) (mem : ℕ → V) : Prop where
  base : w.base = n
  ok : w.txn.OK w.live
  tracked : w.txn.Tracked (fun _ => False) (fun _ => True) S.highWater S.entries
  live : w.live = S.live.filter (· ∉ w.undo.map Prod.fst)
  undo : w.inPlace = false → w.undo = []
  bound : w.bound.Below n
  pages : ∀ p ∈ S.live, restore w.undo mem p = S.image p

/-- Snapshot `T`, number `t`, is as it was committed, and the newest freelist lists none of its
pages under a commit that does not come after it. -/
structure Kept (refs : V → List ℕ) (n : ℕ) (S : Snapshot V) (mem : ℕ → V) (cache : ℕ)
    (T : Snapshot V) (t : ℕ) : Prop where
  le : t ≤ n
  closed : ClosedUnder refs T.image T.roots T.live
  intact : ∀ p ∈ T.live, mem p = T.image p
  lt : ∀ p ∈ T.live, p < S.highWater
  entries : ∀ e ∈ S.entries, e.txn ≤ t → ∀ p ∈ e.ids, p ∉ T.live
  cache : cache ≤ t

/-- The transaction has no page of snapshot `T` in hand, and its bound clears the pin of it. -/
structure Writer.Spares (w : Writer V) (S T : Snapshot V) (i t : ℕ) : Prop where
  tracked : w.txn.Tracked (· ∈ T.live) (fun _ => True) S.highWater S.entries
  bound : w.bound.Clears i t

/-- What holds of a database at every step. -/
structure Db.OK (refs : V → List ℕ) (D : Db V) : Prop where
  flag : D.flag = D.writer.any Writer.flagged
  accounted : Accounted D.snap.live D.snap.entries D.snap.highWater
  closed : ClosedUnder refs D.snap.image D.snap.roots D.snap.live
  cells : ∀ i c, D.pins i = some c → i < privPinSlots
  cache : D.cache ≤ D.current
  settled : (∀ w, D.writer = some w → ¬ w.Active) → ∀ p ∈ D.snap.live, D.mem p = D.snap.image p
  active : ∀ w, D.writer = some w → w.Active → w.Sound D.current D.snap D.mem
  trying : ∀ w, D.writer = some w → w.inPlace = true → w.stage ∈ [.working, .finishing, .unlocking]
  scanned : ∀ w i, D.writer = some w → w.stage = .scanPins i →
    ∀ j < i, ∀ c, D.pins j = some c → c.returned = false
  opened : ∀ w, D.writer = some w → w.Open → ∀ j c, D.pins j = some c → c.returned = false
  kept : ∀ i c, D.pins i = some c → c.returned = true →
    Kept refs D.current D.snap D.mem D.cache (D.snaps c.txn) c.txn
  spared : ∀ i c, D.pins i = some c → c.returned = true →
    ∀ w, D.writer = some w → w.Active → w.Spares D.snap (D.snaps c.txn) i c.txn

namespace Db.OK

variable {refs : V → List ℕ} {D : Db V}

variable {i : ℕ} {c : Option PinCell}

theorem pins_setPin {j : ℕ} {x : PinCell}
    (hx : (D.setPin i c).pins j = some x) : j = i ∧ c = some x ∨ D.pins j = some x := by
  rcases eq_or_ne j i with rfl | hj
  · simp only [setPin, update_self] at hx
    exact .inl ⟨rfl, hx⟩
  · simp only [setPin, update_of_ne hj] at hx
    exact .inr hx

theorem cells_setPin (h : D.OK refs) (hi : i < privPinSlots) (j : ℕ)
    (x : PinCell) (hx : (D.setPin i c).pins j = some x) : j < privPinSlots := by
  rcases pins_setPin hx with ⟨rfl, -⟩ | hold
  · exact hi
  · exact h.cells j x hold

/-- A pin that is not returned yet constrains nobody. -/
theorem setPin (h : D.OK refs) (hi : i < privPinSlots)
    (hc : ∀ x ∈ c, x.returned = false) : (D.setPin i c).OK refs := by
  have hreturned : ∀ {j x}, (D.setPin i c).pins j = some x → x.returned = true →
      D.pins j = some x := by
    intro j x hx hr
    rcases pins_setPin hx with ⟨-, hf⟩ | hold
    · simp [hc x hf] at hr
    · exact hold
  refine { h with
    cells := h.cells_setPin hi
    scanned := fun w k hw hk j hj x hx => ?_
    opened := fun w hw ho j x hx => ?_
    kept := fun j x hx hr => h.kept j x (hreturned hx hr) hr
    spared := fun j x hx hr => h.spared j x (hreturned hx hr) hr }
  · rcases pins_setPin hx with ⟨-, hf⟩ | hold
    · exact hc x hf
    · exact h.scanned w k hw hk j hj x hold
  · rcases pins_setPin hx with ⟨-, hf⟩ | hold
    · exact hc x hf
    · exact h.opened w hw ho j x hold

variable {w : Writer V}

section

variable (h : D.OK refs)

include h

theorem not_flagged (hflag : D.flag = false)
    (hw : D.writer = some w) : w.flagged = false := by
  have := h.flag
  rw [hflag, hw] at this
  exact this.symm

theorem flagged_of_open (hw : D.writer = some w) (ho : w.Open) :
    w.flagged = true := by
  have hstage := h.trying w hw ho.1
  simp only [mem_cons, not_mem_nil, or_false] at hstage
  rcases hstage with hs | hs | hs
  · simp [flagged, hs, ho.1]
  · simp [flagged, hs, ho.1]
  · exact absurd hs ho.2

theorem inPlace_of_flag (hflag : D.flag = false)
    (hw : D.writer = some w) (ha : w.Active) : w.inPlace = false := by
  by_contra hp
  have hnf := h.not_flagged hflag hw
  rw [h.flagged_of_open hw ⟨by simpa using hp, ha.2⟩] at hnf
  exact absurd hnf (by simp)

theorem pages_of_flag (hflag : D.flag = false) :
    ∀ p ∈ D.snap.live, D.mem p = D.snap.image p := by
  by_cases hactive : ∃ w, D.writer = some w ∧ w.Active
  · obtain ⟨w, hw, ha⟩ := hactive
    have hs := h.active w hw ha
    intro p hp
    rw [← hs.pages p hp, hs.undo (h.inPlace_of_flag hflag hw ha)]
    rfl
  · exact h.settled fun w hw ha => hactive ⟨w, hw, ha⟩

theorem spares_snap (hw : D.writer = some w) (ha : w.Active)
    (hplace : w.inPlace = false) (i : ℕ) : w.Spares D.snap D.snap i D.current := by
  have hs := h.active w hw ha
  have hlive : w.live = D.snap.live := by
    rw [hs.live, hs.undo hplace]
    simp
  refine ⟨⟨hs.tracked.entries, hs.tracked.highWater, fun q hq => ?_, fun _ _ => trivial⟩,
    hs.bound.clears i⟩
  rw [← hlive]
  refine hs.ok.off_live q ?_
  simp only [Txn.inHand, Txn.others, mem_append] at hq ⊢
  tauto

/-- The last access of a claim: the transaction is still the newest and the flag is down. -/
theorem returnPin {θ : ℕ} (hi : i < privPinSlots) (hflag : D.flag = false) :
    (D.setPin i (some ⟨D.current, θ, true⟩)).OK refs := by
  refine { h with
    cells := h.cells_setPin hi
    scanned := fun w k hw hk => ?_
    opened := fun w hw ho => ?_
    kept := fun j x hx hr => ?_
    spared := fun j x hx hr w hw ha => ?_ }
  · have hnf := h.not_flagged hflag hw
    simp [flagged, hk] at hnf
  · have hnf := h.not_flagged hflag hw
    rw [h.flagged_of_open hw ho] at hnf
    exact absurd hnf (by simp)
  · rcases pins_setPin hx with ⟨rfl, ⟨⟩⟩ | hold
    · exact ⟨le_rfl, h.closed, h.pages_of_flag hflag, h.accounted.live_lt,
        fun e he _ p hp hl => h.accounted.apart p hl (mem_pagesOf.2 ⟨e, he, hp⟩), h.cache⟩
    · exact h.kept j x hold hr
  · rcases pins_setPin hx with ⟨rfl, ⟨⟩⟩ | hold
    · exact h.spares_snap hw ha (h.inPlace_of_flag hflag hw ha) j
    · exact h.spared j x hold hr w hw ha

end

section Work

variable {D' : Db V} {w : Writer V} (h : D.OK refs) (hw : D.writer = some w)
  (hstage : w.stage = .working)

include h hw hstage

theorem working : w.Active ∧ w.Sound D.current D.snap D.mem := by
  have ha : w.Active := by simp [Writer.Active, hstage]
  exact ⟨ha, h.active w hw ha⟩

/-- A step of the writer on its own allocator spares what the pinned readers see. -/
theorem rework {cache : ℕ} (hcache : cache ≤ D.current) (w' : Writer V) (hframe : w' = { w with
      txn := w'.txn, bound := w'.bound, recomputed := w'.recomputed })
    (hok : w'.txn.OK w.live)
    (htracked : w'.txn.Tracked (fun _ => False) (fun _ => True) D.snap.highWater D.snap.entries)
    (hbound : w'.bound.Below D.current)
    (hpins : ∀ i c, D.pins i = some c → c.returned = true →
      cache ≤ c.txn ∧ w'.Spares D.snap (D.snaps c.txn) i c.txn) :
    ({ D with cache := cache }.setWriter w').OK refs := by
  have hstage' : w'.stage = .working := by rw [hframe, ← hstage]
  obtain ⟨-, hs⟩ := h.working hw hstage
  refine ⟨?_, h.accounted, h.closed, h.cells, hcache, fun hnot => ?_, ?_, ?_, ?_, ?_,
    fun i c hc hr => ?_, fun i c hc hr => ?_⟩
  · have hflag := h.flag
    rw [hw] at hflag
    rw [hframe]
    exact hflag
  · exact absurd (show w'.Active by simp [Writer.Active, hstage']) (hnot w' rfl)
  · rintro x ⟨⟩ -
    rw [hframe]
    exact { hs with ok := hok, tracked := htracked, bound := hbound }
  · rintro x ⟨⟩ -
    simp [hstage']
  · rintro x i ⟨⟩ hi
    simp [hstage'] at hi
  · rintro x ⟨⟩ ho
    refine h.opened w hw ⟨?_, by simp [hstage]⟩
    rw [hframe] at ho
    exact ho.1
  · exact { h.kept i c hc hr with cache := (hpins i c hc hr).1 }
  · rintro x ⟨⟩ -
    exact (hpins i c hc hr).2

theorem call {c : TxnCall} (hc : callOK w c = true) {t : Txn} (hs : c.run w.txn = some t) :
    (D.setWriter { w with txn := t }).OK refs := by
  obtain ⟨ha, hsound⟩ := h.working hw hstage
  refine h.rework hw hstage h.cache { w with txn := t } rfl (ok_call hsound.ok hc hs)
    (tracked_call hsound.tracked (fun _ _ => not_false) hs) hsound.bound fun i x hx hr => ?_
  have hkept := h.kept i x hx hr
  have hsp := h.spared i x hx hr w hw ha
  refine ⟨hkept.cache, tracked_call hsp.tracked (fun q hq hl => ?_) hs, hsp.bound⟩
  exact absurd (hkept.lt q hl) (by omega)

theorem refill (hs : D.refill w = some D') : D'.OK refs := by
  obtain ⟨ha, hsound⟩ := h.working hw hstage
  simp only [Db.refill] at hs
  split at hs
  · split_ifs at hs
    · cases hs
      refine h.rework hw hstage h.cache { w with recomputed := true, bound := _ } rfl hsound.ok
        hsound.tracked hsound.base.le fun i x hx hr => ?_
      exact ⟨(h.kept i x hx hr).cache, (h.spared i x hx hr w hw ha).tracked, .inr (Nat.zero_le i)⟩
    · cases hs
      refine h.rework hw hstage h.cache { w with bound := _ } rfl hsound.ok
        hsound.tracked h.cache fun i x hx hr => ?_
      exact ⟨(h.kept i x hx hr).cache, (h.spared i x hx hr w hw ha).tracked,
        (h.kept i x hx hr).cache⟩
  · simp at hs

/-- The scan has met a returned pin, or the pin's cell is still to come. -/
theorem scan (hs : D.scan w = some D') : D'.OK refs := by
  obtain ⟨ha, hsound⟩ := h.working hw hstage
  have hbelow := hsound.bound
  simp only [Db.scan] at hs
  split at hs
  next j o hb =>
    cases hs
    rw [hb] at hbelow
    refine h.rework hw hstage h.cache { w with bound := _ } rfl hsound.ok hsound.tracked ?_
      fun i x hx hr => ?_
    · dsimp only
      split_ifs
      · exact hbelow
      · rcases D.pins j with _ | c
        · exact hbelow
        · exact (min_le_left _ _).trans hbelow
    · have hsp := h.spared i x hx hr w hw ha
      have hclear := hsp.bound
      have hi := h.cells i x hx
      rw [hb] at hclear
      refine ⟨(h.kept i x hx hr).cache, hsp.tracked, ?_⟩
      split_ifs with hj
      · exact hclear.resolve_right (by omega)
      · rcases hclear with hle | hji
        · left
          rcases D.pins j with _ | c
          · exact hle
          · exact (min_le_left _ _).trans hle
        · rcases Nat.lt_or_eq_of_le hji with hlt | rfl
          · exact .inr hlt
          · left
            rw [hx]
            exact min_le_right _ _
  next o hb =>
    cases hs
    rw [hb] at hbelow
    refine h.rework hw hstage (max_le h.cache hbelow) { w with bound := _ } rfl hsound.ok
      hsound.tracked hbelow fun i x hx hr => ?_
    have hsp := h.spared i x hx hr w hw ha
    have hclear := hsp.bound
    rw [hb] at hclear
    exact ⟨max_le (h.kept i x hx hr).cache hclear, hsp.tracked, hclear⟩
  next => simp at hs

/-- A drawn entry is not above any pin that was returned. -/
theorem draw {frontier : Option ℕ} (hs : D.draw w frontier = some D') : D'.OK refs := by
  obtain ⟨ha, hsound⟩ := h.working hw hstage
  simp only [Db.draw] at hs
  split at hs
  next b hb =>
    cases hs
    rcases hrefill : w.txn.refillReusable b frontier with _ | t
    · refine h.rework hw hstage h.cache { w with bound := .none, txn := _ } rfl hsound.ok
        hsound.tracked trivial fun i x hx hr => ?_
      exact ⟨(h.kept i x hx hr).cache, (h.spared i x hx hr w hw ha).tracked, trivial⟩
    · refine h.rework hw hstage h.cache { w with bound := .none, txn := _ } rfl
        (hsound.ok.refillReusable hrefill) (hsound.tracked.refillReusable hrefill ?_ ?_) trivial
        fun i x hx hr => ?_
      · exact fun _ _ _ _ _ _ => not_false
      · exact fun _ _ _ _ _ => trivial
      have hkept := h.kept i x hx hr
      have hsp := h.spared i x hx hr w hw ha
      have hclear := hsp.bound
      rw [hb] at hclear
      refine ⟨hkept.cache, hsp.tracked.refillReusable hrefill ?_ fun _ _ _ _ _ => trivial, trivial⟩
      intro e he hcur _ q hq
      obtain ⟨e', he', -, hle⟩ := Readers.entry_of_refillReusable hrefill
      rw [hcur, Option.some.injEq] at he'
      subst he'
      exact hkept.entries e he (hle.trans hclear) q hq
  next => simp at hs

variable {p : ℕ}

/-- The page belongs to the transaction, so no pinned snapshot reaches it. -/
theorem store (hp : p ∈ w.txn.dirty ++ w.txn.allocatedRuns) (v : V) :
    { D with mem := Function.update D.mem p v }.OK refs := by
  obtain ⟨ha, hsound⟩ := h.working hw hstage
  have hhand : p ∈ w.txn.inHand := by
    simp only [Txn.inHand, mem_append] at hp ⊢
    tauto
  have hlive : p ∉ w.live := by
    refine hsound.ok.off_live p ?_
    simp only [Txn.others, mem_append] at hp ⊢
    tauto
  refine { h with
    settled := fun hnot => absurd ha (hnot w hw)
    active := fun x hx _ => ?_
    kept := fun i c hc hr => ?_ }
  · obtain rfl : w = x := Option.some.inj (hw.symm.trans hx)
    refine { hsound with pages := fun q hq => ?_ }
    refine Eq.trans (restore_congr w.undo ?_) (hsound.pages q hq)
    rcases eq_or_ne q p with rfl | hne
    · left
      by_contra hk
      exact hlive (hsound.live ▸ mem_filter.2 ⟨hq, by simpa using hk⟩)
    · exact .inr (update_of_ne hne ..)
  · have hk := h.kept i c hc hr
    have hsp := h.spared i c hc hr w hw ha
    refine { hk with intact := fun q hq => ?_ }
    have hne : q ≠ p := by
      rintro rfl
      exact hsp.tracked.avoids q hhand hq
    rw [← hk.intact q hq]
    exact update_of_ne hne ..

omit h hw hstage in
/-- A page taken over in place leaves the live ones and joins the dirty ones. -/
theorem ok_adopt {live : List ℕ} {t : Txn} (h : t.OK live) (hp : p ∈ live)
    (hpf : p ∉ t.freed ++ t.freedRuns) :
    Txn.OK (live.filter (· ≠ p)) { t with dirty := p :: t.dirty } := by
  have hothers : ∀ q, q ∈ Txn.others { t with dirty := p :: t.dirty } ↔ q = p ∨ q ∈ t.others := by
    intro q
    simp only [Txn.others, mem_append, mem_cons]
    tauto
  refine ⟨h.entries, ?_, h.freed_nodup, fun q hq => ?_, fun q hq => ?_, fun q hq => ?_,
    fun q hq => ?_, h.freed_lt⟩
  · rw [nodup_iff_count_le_one]
    intro q
    have hone := nodup_iff_count_le_one.1 h.nodup q
    simp only [Txn.others, count_append, count_cons] at hone ⊢
    rcases eq_or_ne p q with rfl | hne
    · have hzero : t.others.count p = 0 := count_eq_zero.2 fun ho => h.off_live p ho hp
      simp only [Txn.others, count_append] at hzero
      simp only [beq_self_eq_true, if_true]
      omega
    · simpa [hne] using hone
  · rcases (hothers q).1 hq with rfl | ho
    · simp
    · exact fun hl => h.off_live q ho (mem_filter.1 hl).1
  · rcases (hothers q).1 hq with rfl | ho
    · exact hpf
    · exact h.off_freed q ho
  · exact h.live_lt q (mem_filter.1 hq).1
  · rcases (hothers q).1 hq with rfl | ho
    · exact h.live_lt q hp
    · exact h.others_lt q ho

/-- In place means that no pin is returned, so the page may change under its snapshot. -/
theorem adopt (hplace : w.inPlace = true) (hp : p ∈ w.live)
    (hpf : p ∉ w.txn.freed ++ w.txn.freedRuns) : (D.setWriter (D.adopt w p)).OK refs := by
  obtain ⟨ha, hsound⟩ := h.working hw hstage
  -- no pin has been returned since the section was opened
  have hnone := h.opened w hw ⟨hplace, by simp [hstage]⟩
  have hkeys : p ∉ w.undo.map Prod.fst := by
    rw [hsound.live] at hp
    simpa using (mem_filter.1 hp).2
  have hpage : D.mem p = D.snap.image p := by
    rw [← hsound.pages p (mem_filter.1 (hsound.live ▸ hp)).1, restore_of_notMem w.undo hkeys]
  have hreturned : ∀ {i c}, D.pins i = some c → c.returned = true → False := by
    intro i c hc hr
    simp [hnone i c hc] at hr
  refine ⟨?_, h.accounted, h.closed, h.cells, h.cache, fun hnot => ?_, ?_, ?_, ?_, ?_,
    fun i c hc hr => (hreturned hc hr).elim, fun i c hc hr => (hreturned hc hr).elim⟩
  · have hflag := h.flag
    rw [hw] at hflag
    exact hflag
  · exact absurd (show (D.adopt w p).Active from ha) (hnot _ rfl)
  · rintro x ⟨⟩ -
    refine ⟨hsound.base, ok_adopt hsound.ok hp hpf, { hsound.tracked with
      avoids := fun _ _ => not_false, runs := fun _ _ => trivial }, ?_, ?_, hsound.bound,
      fun q hq => ?_⟩
    · simp only [Db.adopt]
      rw [hsound.live, filter_filter]
      refine filter_congr fun q _ => ?_
      simp only [map_cons, mem_cons, not_or, Bool.decide_and]
    · intro hf
      exact absurd (hf.symm.trans hplace) (by simp)
    · show Function.update (restore w.undo D.mem) p (D.mem p) q = D.snap.image q
      rcases eq_or_ne q p with rfl | hne
      · rw [update_self, hpage]
      · rw [update_of_ne hne, hsound.pages q hq]
  · rintro x ⟨⟩ -
    simp [Db.adopt, hstage]
  · rintro x i ⟨⟩ hi
    simp [Db.adopt, hstage] at hi
  · rintro x ⟨⟩ -
    exact hnone

/-- The pages that the commit frees are listed under its own number, above all pins. -/
theorem commit {q : Plan} (hs : D.commit refs w q = some D') : D'.OK refs := by
  obtain ⟨-, hsound⟩ := h.working hw hstage
  simp only [Db.commit] at hs
  split_ifs at hs with hplan
  obtain ⟨es, hes, rfl⟩ := Option.map_eq_some_iff.1 hs
  have hsnap : ∀ x, snap { D with
      current := w.base + 1
      snaps := Function.update D.snaps (w.base + 1) ⟨q.roots, q.live, D.mem, es, w.txn.highWater⟩
      writer := x } = ⟨q.roots, q.live, D.mem, es, w.txn.highWater⟩ := fun x => by
    simp [snap]
  refine ⟨?_, ?_, ?_, h.cells, ?_, fun _ => ?_, ?_, ?_, ?_, ?_, fun i c hc hr => ?_,
    fun i c hc hr => ?_⟩
  · rw [h.flag, hw]
    simp [flagged, hstage]
  · rw [hsnap]
    exact hsound.ok.freelistPlan hes hplan.2
  · rw [hsnap]
    exact hplan.1
  · have := h.cache
    have := hsound.base
    dsimp only
    omega
  · rw [hsnap]
    exact fun _ _ => rfl
  · rintro x ⟨⟩ hx
    exact absurd rfl hx.1
  · rintro x ⟨⟩ -
    simp
  · rintro x i ⟨⟩ hi
    simp at hi
  · rintro x ⟨⟩ ho
    exact h.opened w hw ⟨ho.1, by simp [hstage]⟩
  · have hk := h.kept i c hc hr
    have hle := hk.le
    have hbase := hsound.base
    have hold : Function.update D.snaps (w.base + 1) ⟨q.roots, q.live, D.mem, es, w.txn.highWater⟩
        c.txn = D.snaps c.txn := update_of_ne (by omega) ..
    rw [hsnap]
    simp only [hold]
    refine ⟨by omega, hk.closed, hk.intact, fun p hp => ?_, fun e he hte p hp => ?_, hk.cache⟩
    · exact (hk.lt p hp).trans_le hsound.tracked.highWater
    · rcases Txn.mem_freelistPlan hes he with ⟨hn, -⟩ | ⟨e₀, he₀, ht₀, -, hsub⟩
      · omega
      · rw [hsound.tracked.entries] at he₀
        exact hk.entries e₀ he₀ (ht₀ ▸ hte) p (hsub p hp)
  · rintro x ⟨⟩ hx
    exact absurd rfl hx.1

/-- What was taken over in place is put back. -/
theorem abort :
    ({ D with mem := restore w.undo D.mem }.setWriter { w with stage := .finishing }).OK refs := by
  obtain ⟨-, hsound⟩ := h.working hw hstage
  refine ⟨?_, h.accounted, h.closed, h.cells, h.cache, fun _ => hsound.pages, ?_, ?_, ?_, ?_,
    fun i c hc hr => ?_, fun i c hc hr => ?_⟩
  · have hflag := h.flag
    rw [hw] at hflag
    exact hflag.trans (by simp [setWriter, flagged, hstage])
  · rintro x ⟨⟩ hx
    exact absurd rfl hx.1
  · rintro x ⟨⟩ -
    simp
  · rintro x i ⟨⟩ hi
    simp at hi
  · rintro x ⟨⟩ ho
    exact h.opened w hw ⟨ho.1, by simp [hstage]⟩
  · have hk := h.kept i c hc hr
    have hplace : w.inPlace = false := by
      by_contra hp
      have := h.opened w hw ⟨by simpa using hp, by simp [hstage]⟩ i c hc
      simp [hr] at this
    refine { hk with intact := ?_ }
    rw [hsound.undo hplace]
    exact hk.intact
  · rintro x ⟨⟩ hx
    exact absurd rfl hx.1

/-- Each operation of a writer at work. -/
theorem work {op : WriteOp V} (hs : D.work refs w op = some D') : D'.OK refs := by
  cases op <;> simp only [Db.work, reduceCtorEq] at hs
  case call c =>
    split_ifs at hs with hc
    obtain ⟨t, ht, rfl⟩ := Option.map_eq_some_iff.1 hs
    exact h.call hw hstage hc ht
  case store p v =>
    split_ifs at hs with hp
    cases hs
    exact h.store hw hstage hp v
  case adopt p =>
    split_ifs at hs with hp
    cases hs
    exact h.adopt hw hstage hp.1 hp.2.1 hp.2.2
  case refill => exact h.refill hw hstage hs
  case scan => exact h.scan hw hstage hs
  case draw frontier => exact h.draw hw hstage hs
  case commit q => exact h.commit hw hstage hs
  case abort =>
    cases hs
    exact h.abort hw hstage

end Work

section Begin

variable {D' : Db V} {w : Writer V}

section

variable (h : D.OK refs)

include h

theorem lock (hw : D.writer = none) (θ : ℕ) : (D.lock θ).OK refs := by
  have hpages := h.settled (by simp [hw])
  refine ⟨?_, h.accounted, h.closed, h.cells, h.cache, fun hnot => ?_, ?_, ?_, ?_, ?_, h.kept,
    fun i c hc hr => ?_⟩
  · have hflag := h.flag
    rw [hw] at hflag
    exact hflag
  · exact absurd (by simp [Writer.Active]) (hnot _ rfl)
  · rintro x ⟨⟩ -
    exact ⟨rfl, Txn.OK.start h.accounted, Txn.Tracked.start, by simp; rfl, fun _ => rfl, trivial,
      hpages⟩
  · rintro x ⟨⟩ hp
    simp at hp
  · rintro x i ⟨⟩ hi
    simp at hi
  · rintro x ⟨⟩ ho
    exact absurd ho.1 (by simp)
  · rintro x ⟨⟩ -
    exact ⟨Txn.Tracked.start, trivial⟩

section

variable (hw : D.writer = some w)

include hw

/-- The writer moves between the stages before its work. -/
theorem restage (ha : w.Active) (hplace : w.inPlace = false)
    (w' : Writer V) (hframe : w' = { w with stage := w'.stage, inPlace := w'.inPlace })
    (ha' : w'.Active) (hplace' : w'.inPlace = true → w'.stage = .working)
    (hscan : ∀ i, w'.stage = .scanPins i → ∀ j < i, ∀ c, D.pins j = some c → c.returned = false)
    (hopen : w'.inPlace = true → ∀ j c, D.pins j = some c → c.returned = false) :
    ({ D with flag := w'.flagged }.setWriter w').OK refs := by
  have hsound := h.active w hw ha
  refine ⟨rfl, h.accounted, h.closed, h.cells, h.cache, fun hnot => absurd ha' (hnot w' rfl), ?_,
    ?_, ?_, ?_, h.kept, fun i c hc hr => ?_⟩
  · rintro x ⟨⟩ -
    rw [hframe]
    exact { hsound with undo := fun _ => hsound.undo hplace }
  · rintro x ⟨⟩ hp
    simp [hplace' hp]
  · rintro x i ⟨⟩ hi
    exact hscan i hi
  · rintro x ⟨⟩ ho
    exact hopen ho.1
  · rintro x ⟨⟩ -
    rw [hframe]
    exact { h.spared i c hc hr w hw ha with }

theorem inPlace_of_trying
    (hn : w.stage ∉ [.working, .finishing, .unlocking]) : w.inPlace = false := by
  by_contra hp
  exact hn (h.trying w hw (by simpa using hp))

/-- The flag goes up before the pins are scanned: a pin is seen, or takes itself back. -/
theorem tryBegin (hs : D.tryBegin w = some D') :
    D'.OK refs := by
  have hflag := h.flag
  rw [hw] at hflag
  simp only [Db.tryBegin] at hs
  split at hs
  next hstage =>
    cases hs
    have hp := h.inPlace_of_trying hw (by simp [hstage])
    exact h.restage hw (by simp [Writer.Active, hstage]) hp { w with stage := .scanPins 0 } rfl
      (by simp [Writer.Active]) (by simp [hp]) (by simp) (by simp [hp])
  next i hstage =>
    have hp := h.inPlace_of_trying hw (by simp [hstage])
    have hup : D.flag = true := by simpa [flagged, hstage] using hflag
    have hself : ∀ w' : Writer V, w'.flagged = true →
        D.setWriter w' = { D with flag := w'.flagged }.setWriter w' := by
      intro w' hw'
      rw [hw', ← hup]
    have ha : w.Active := by simp [Writer.Active, hstage]
    split_ifs at hs with hi hsome
    · cases hs
      rw [hself _ (by simp [flagged])]
      refine h.restage hw ha hp { w with inPlace := true, stage := .working } rfl
        (by simp [Writer.Active]) (fun _ => rfl) (by simp) fun _ j c hc => ?_
      exact h.scanned w i hw hstage j (lt_of_lt_of_le (h.cells j c hc) hi) c hc
    · cases hs
      rw [hself _ (by simp [flagged])]
      exact h.restage hw ha hp { w with stage := .clearFlag } rfl (by simp [Writer.Active])
        (by simp [hp]) (by simp) (by simp [hp])
    · cases hs
      rw [hself _ (by simp [flagged])]
      refine h.restage hw ha hp { w with stage := .scanPins (i + 1) } rfl (by simp [Writer.Active])
        (by simp [hp]) ?_ (by simp [hp])
      rintro k ⟨⟩ j hj c hc
      rcases Nat.lt_succ_iff_lt_or_eq.1 hj with hlt | rfl
      · exact h.scanned w i hw hstage j hlt c hc
      · simp [hc] at hsome
  next hstage =>
    cases hs
    have hp := h.inPlace_of_trying hw (by simp [hstage])
    have hdown : flagged { w with stage := .working } = false := by
      simp [flagged, hp]
    have := h.restage hw (by simp [Writer.Active, hstage]) hp { w with stage := .working } rfl
      (by simp [Writer.Active]) (fun _ => rfl) (by simp) (by simp [hp])
    rwa [hdown] at this
  next => simp at hs

theorem close (hstage : w.stage = .finishing) :
    ({ D with flag := false }.setWriter { w with stage := .unlocking }).OK refs := by
  have hna : ¬ w.Active := fun ha => ha.1 hstage
  refine ⟨rfl, h.accounted, h.closed, h.cells, h.cache, fun _ => ?_, ?_, ?_, ?_, ?_, h.kept, ?_⟩
  · refine h.settled fun x hx => ?_
    obtain rfl : w = x := Option.some.inj (hw.symm.trans hx)
    exact hna
  · rintro x ⟨⟩ hx
    exact absurd rfl hx.2
  · rintro x ⟨⟩ -
    simp
  · rintro x i ⟨⟩ hi
    simp at hi
  · rintro x ⟨⟩ ho
    exact absurd rfl ho.2
  · rintro i c hc hr x ⟨⟩ hx
    exact absurd rfl hx.2

theorem unlock (hstage : w.stage = .unlocking) :
    { D with writer := none }.OK refs := by
  have hna : ¬ w.Active := fun ha => ha.2 hstage
  refine ⟨?_, h.accounted, h.closed, h.cells, h.cache, fun _ => ?_, by simp, by simp, by simp,
    by simp, h.kept, by simp⟩
  · have hflag := h.flag
    rw [hw] at hflag
    simpa [flagged, hstage] using hflag
  · refine h.settled fun x hx => ?_
    obtain rfl : w = x := Option.some.inj (hw.symm.trans hx)
    exact hna

end

end

end Begin

end Db.OK

/-! ## Threads -/

/-- A thread pins or begins to write only outside its exclusive sections, and a claim returns only
the transaction that is still the newest. -/
def System.orderly (s : System V) : Label V → Bool
  | .pin θ _ => (s.thread θ).depth = 0
  | .begin θ _ => (s.thread θ).depth = 0
  | .run θ _ =>
    match (s.thread θ).call with
    | .check d _ _ t => (s.db d).flag || (s.db d).current = t
    | _ => true
  | _ => true

/-- The transaction is in `try_begin_exclusive_write`. -/
def Writer.Trying (w : Writer V) : Prop := w.stage ∉ [.working, .finishing, .unlocking]

/-- What holds of the threads and the databases they work on. -/
structure System.Threads (s : System V) : Prop where
  checks : ∀ θ d k i t, (s.thread θ).call = .check d k i t → (s.db d).pins i = some ⟨t, θ, false⟩
  unpins : ∀ θ d k i, (s.thread θ).call = .unpin d k i → ∃ t, (s.db d).pins i = some ⟨t, θ, false⟩
  shallow : ∀ θ, (s.thread θ).call ≠ .idle → (s.thread θ).depth = 0
  begins : ∀ θ d, (s.thread θ).call = .begin d →
    ∃ w, (s.db d).writer = some w ∧ w.thread = θ ∧ w.Trying
  deep : ∀ d w, (s.db d).writer = some w → w.Open → (s.thread w.thread).depth = 1
  alone : ∀ d w d' w', (s.db d).writer = some w → (s.db d').writer = some w' → w.Open → w'.Open →
    w'.thread = w.thread → d' = d

/-- What holds of the system at every step. -/
structure System.OK (refs : V → List ℕ) (s : System V) : Prop where
  dbs : ∀ d, (s.db d).OK refs
  threads : s.Threads

section Frames

variable {s : System V}

theorem db_setDb (d : ℕ) (D : Db V) (d' : ℕ) :
    (s.setDb d D).db d' = if d' = d then D else s.db d' := by
  simp [setDb, update_apply]

theorem thread_setThread (θ : ℕ) (x : Thread) (θ' : ℕ) :
    (s.setThread θ x).thread θ' = if θ' = θ then x else s.thread θ' := by
  simp [setThread, update_apply]

@[simp] theorem thread_setDb (d : ℕ) (D : Db V) : (s.setDb d D).thread = s.thread := rfl

@[simp] theorem db_setThread (θ : ℕ) (x : Thread) : (s.setThread θ x).db = s.db := rfl

@[simp] theorem db_setCall (θ : ℕ) (c : Call) : (s.setCall θ c).db = s.db := rfl

variable {d : ℕ}

theorem frame_setDb {α : Type*} (f : Db V → α) {D : Db V} (h : f D = f (s.db d)) (d' : ℕ) :
    f ((s.setDb d D).db d') = f (s.db d') := by
  rw [db_setDb]
  split_ifs with hd
  · rw [h, hd]
  · rfl

theorem pins_setDb_setPin {i d' j : ℕ} {x : Option PinCell} {c : PinCell}
    (hfree : (s.db d).pins i ≠ some c) (hp : (s.db d').pins j = some c) :
    ((s.setDb d ((s.db d).setPin i x)).db d').pins j = some c := by
  rw [db_setDb]
  split_ifs with hd
  · subst hd
    have hj : j ≠ i := fun he => hfree (he ▸ hp)
    simpa [setPin, update_of_ne hj] using hp
  · exact hp

theorem setThread_self (s : System V) (θ : ℕ) : s.setThread θ (s.thread θ) = s := by
  rw [setThread, update_eq_self]

theorem dbs_setDb {refs : V → List ℕ} (h : ∀ d, (s.db d).OK refs) {D : Db V}
    (hD : D.OK refs) (d' : ℕ) : ((s.setDb d D).db d').OK refs := by
  rw [db_setDb]
  split_ifs
  · exact hD
  · exact h d'

end Frames

namespace System.Threads

variable {s s' : System V}

/-- An access of one thread, which leaves the pins of the others alone. -/
theorem access (h : s.Threads) (θ : ℕ) (hthread : ∀ θ' ≠ θ, s'.thread θ' = s.thread θ')
    (hdepth : (s'.thread θ).depth = (s.thread θ).depth)
    (hwriter : ∀ d, (s'.db d).writer = (s.db d).writer)
    (hpins : ∀ d i t θ', θ' ≠ θ → (s.db d).pins i = some ⟨t, θ', false⟩ →
      (s'.db d).pins i = some ⟨t, θ', false⟩)
    (hcheck : ∀ d k i t, (s'.thread θ).call = .check d k i t →
      (s'.db d).pins i = some ⟨t, θ, false⟩)
    (hunpin : ∀ d k i, (s'.thread θ).call = .unpin d k i →
      ∃ t, (s'.db d).pins i = some ⟨t, θ, false⟩)
    (hshallow : (s'.thread θ).call ≠ .idle → (s.thread θ).depth = 0)
    (hbegin : ∀ d, (s'.thread θ).call ≠ .begin d) : s'.Threads := by
  refine ⟨fun θ' d k i t ht => ?_, fun θ' d k i ht => ?_, fun θ' ht => ?_, fun θ' d ht => ?_,
    fun d w hw ho => ?_, fun d w d' w' hw hw' => ?_⟩
  · rcases eq_or_ne θ' θ with rfl | hne
    · exact hcheck d k i t ht
    · rw [hthread θ' hne] at ht
      exact hpins d i t θ' hne (h.checks θ' d k i t ht)
  · rcases eq_or_ne θ' θ with rfl | hne
    · exact hunpin d k i ht
    · rw [hthread θ' hne] at ht
      obtain ⟨t, hpin⟩ := h.unpins θ' d k i ht
      exact ⟨t, hpins d i t θ' hne hpin⟩
  · rcases eq_or_ne θ' θ with rfl | hne
    · rw [hdepth]
      exact hshallow ht
    · rw [hthread θ' hne] at ht ⊢
      exact h.shallow θ' ht
  · rcases eq_or_ne θ' θ with rfl | hne
    · exact absurd ht (hbegin d)
    · rw [hthread θ' hne] at ht
      rw [hwriter]
      exact h.begins θ' d ht
  · rw [hwriter] at hw
    rcases eq_or_ne w.thread θ with rfl | hne
    · rw [hdepth]
      exact h.deep d w hw ho
    · rw [hthread w.thread hne]
      exact h.deep d w hw ho
  · rw [hwriter] at hw hw'
    exact h.alone d w d' w' hw hw'

variable {d : ℕ}

/-- A step of the writer of `d`. Its thread may go on in its call or return, and its depth may
change with the section. -/
theorem writes (h : s.Threads) {D : Db V} {w : Writer V}
    (hw : (s.db d).writer = some w) (w' : Writer V) (hD : D.writer = some w')
    (hpins : D.pins = (s.db d).pins)
    (hwt : w'.thread = w.thread) (x : Thread) (hx : x.call = .idle ∨ x.call = .begin d)
    (hbegin : x.call = .begin d → x.depth = 0 ∧ w'.Trying)
    (hdeep : w'.Open → x.depth = 1)
    (hothers : ∀ d' ≠ d, ∀ w₁, (s.db d').writer = some w₁ → w₁.Open → w₁.thread = w.thread →
      ¬ w'.Open ∧ x.depth = (s.thread w.thread).depth) :
    ((s.setDb d D).setThread w.thread x).Threads := by
  have hthread : ∀ θ, ((s.setDb d D).setThread w.thread x).thread θ =
      if θ = w.thread then x else s.thread θ := thread_setThread _ _
  have hwriter : ∀ {d' w₁}, (((s.setDb d D).setThread w.thread x).db d').writer = some w₁ →
      d' = d ∧ w₁ = w' ∨ d' ≠ d ∧ (s.db d').writer = some w₁ := by
    intro d' w₁ h₁
    rw [db_setThread, db_setDb] at h₁
    split_ifs at h₁ with hd
    · exact .inl ⟨hd, Option.some.inj (h₁.symm.trans hD)⟩
    · exact .inr ⟨hd, h₁⟩
  refine ⟨fun θ d' k i t ht => ?_, fun θ d' k i ht => ?_, fun θ ht => ?_, fun θ d' ht => ?_,
    fun d' w₁ hw₁ ho => ?_, fun d₁ w₁ d₂ w₂ hw₁ hw₂ ho₁ ho₂ he => ?_⟩
  · rw [hthread] at ht
    rw [db_setThread, frame_setDb pins hpins]
    split_ifs at ht
    · rcases hx with hx | hx <;> simp [hx] at ht
    · exact h.checks θ d' k i t ht
  · rw [hthread] at ht
    rw [db_setThread, frame_setDb pins hpins]
    split_ifs at ht
    · rcases hx with hx | hx <;> simp [hx] at ht
    · exact h.unpins θ d' k i ht
  · rw [hthread] at ht ⊢
    split_ifs at ht ⊢
    · exact (hbegin (hx.resolve_left ht)).1
    · exact h.shallow θ ht
  · rw [hthread] at ht
    split_ifs at ht with hθ
    · have hd : d' = d := by
        rcases hx with hx | hx <;> rw [hx] at ht <;> simp at ht
        exact ht.symm
      subst hd
      refine ⟨w', ?_, by rw [hwt, hθ], (hbegin ht).2⟩
      rw [db_setThread, db_setDb, if_pos rfl, hD]
    · obtain ⟨w₁, hw₁, ht₁, htry⟩ := h.begins θ d' ht
      have hd : d' ≠ d := by
        rintro rfl
        obtain rfl : w = w₁ := Option.some.inj (hw.symm.trans hw₁)
        exact hθ ht₁.symm
      refine ⟨w₁, ?_, ht₁, htry⟩
      rw [db_setThread, db_setDb, if_neg hd]
      exact hw₁
  · rw [hthread]
    rcases hwriter hw₁ with ⟨rfl, rfl⟩ | ⟨hd, hold₁⟩
    · rw [hwt, if_pos rfl]
      exact hdeep ho
    · split_ifs with hθ
      · rw [(hothers d' hd w₁ hold₁ ho hθ).2, ← hθ]
        exact h.deep d' w₁ hold₁ ho
      · exact h.deep d' w₁ hold₁ ho
  · rcases hwriter hw₁ with ⟨rfl, rfl⟩ | ⟨hd₁, hold₁⟩ <;>
      rcases hwriter hw₂ with ⟨rfl, rfl⟩ | ⟨hd₂, hold₂⟩
    · rfl
    · exact absurd ho₁ (hothers d₂ hd₂ w₂ hold₂ ho₂ (he.trans hwt)).1
    · exact absurd ho₂ (hothers d₁ hd₁ w₁ hold₁ ho₁ (he.symm.trans hwt)).1
    · exact h.alone d₁ w₁ d₂ w₂ hold₁ hold₂ ho₁ ho₂ he

/-- The thread that locks has no open section and becomes the writer. -/
theorem lock (h : s.Threads) {θ : ℕ} (hnone : (s.db d).writer = none)
    (hdepth : (s.thread θ).depth = 0) :
    ((s.setDb d ((s.db d).lock θ)).setCall θ (.begin d)).Threads := by
  have hthread : ∀ θ', ((s.setDb d ((s.db d).lock θ)).setCall θ (.begin d)).thread θ' =
      if θ' = θ then ⟨0, .begin d⟩ else s.thread θ' := by
    intro θ'
    simp [setCall, thread_setThread, hdepth]
  have hwriter : ∀ {d' w₁}, (((s.setDb d ((s.db d).lock θ)).setCall θ (.begin d)).db d').writer =
      some w₁ → w₁.Open → (s.db d').writer = some w₁ := by
    intro d' w₁ h₁ ho
    rw [db_setCall, db_setDb] at h₁
    split_ifs at h₁ with hd
    · cases h₁
      exact absurd ho.1 (by simp)
    · exact h₁
  refine ⟨fun θ' d' k i t ht => ?_, fun θ' d' k i ht => ?_, fun θ' ht => ?_, fun θ' d' ht => ?_,
    fun d' w hw ho => ?_, fun d₁ w₁ d₂ w₂ hw₁ hw₂ ho₁ ho₂ =>
      h.alone d₁ w₁ d₂ w₂ (hwriter hw₁ ho₁) (hwriter hw₂ ho₂) ho₁ ho₂⟩
  · rw [hthread] at ht
    rw [db_setCall, frame_setDb pins (D := (s.db d).lock θ) rfl]
    split_ifs at ht
    exact h.checks θ' d' k i t ht
  · rw [hthread] at ht
    rw [db_setCall, frame_setDb pins (D := (s.db d).lock θ) rfl]
    split_ifs at ht
    exact h.unpins θ' d' k i ht
  · rw [hthread] at ht ⊢
    split_ifs at ht ⊢
    · rfl
    · exact h.shallow θ' ht
  · rw [hthread] at ht
    rw [db_setCall, db_setDb]
    split_ifs at ht with hθ
    · obtain rfl : d = d' := by simpa using ht
      rw [if_pos rfl]
      exact ⟨_, rfl, hθ.symm, by simp [Writer.Trying]⟩
    · obtain ⟨w, hw, hrest⟩ := h.begins θ' d' ht
      have hd : d' ≠ d := by
        rintro rfl
        simp [hnone] at hw
      exact ⟨w, by rw [if_neg hd, hw], hrest⟩
  · have hold := h.deep d' w (hwriter hw ho) ho
    rw [hthread]
    split_ifs with hθ
    · rw [hθ, hdepth] at hold
      exact absurd hold (by simp)
    · exact hold

/-- The writer leaves once it no longer tries to open a section. -/
theorem unlock (h : s.Threads) {w : Writer V} (hw : (s.db d).writer = some w)
    (hstage : ¬ w.Trying) : (s.setDb d { s.db d with writer := none }).Threads := by
  have hwriter : ∀ {d' w₁}, ((s.setDb d { s.db d with writer := none }).db d').writer = some w₁ →
      (s.db d').writer = some w₁ := by
    intro d' w₁ h₁
    rw [db_setDb] at h₁
    split_ifs at h₁
    exact h₁
  refine ⟨fun θ d' k i t ht => ?_, fun θ d' k i ht => ?_, h.shallow, fun θ d' ht => ?_,
    fun d' w₁ hw₁ => h.deep d' w₁ (hwriter hw₁),
    fun d₁ w₁ d₂ w₂ hw₁ hw₂ => h.alone d₁ w₁ d₂ w₂ (hwriter hw₁) (hwriter hw₂)⟩
  · rw [frame_setDb pins (D := { s.db d with writer := none }) rfl]
    exact h.checks θ d' k i t ht
  · rw [frame_setDb pins (D := { s.db d with writer := none }) rfl]
    exact h.unpins θ d' k i ht
  · obtain ⟨w₁, hw₁, ht₁, htry⟩ := h.begins θ d' ht
    have hd : d' ≠ d := by
      rintro rfl
      obtain rfl : w = w₁ := Option.some.inj (hw.symm.trans hw₁)
      exact hstage htry
    exact ⟨w₁, by rw [db_setDb, if_neg hd, hw₁], ht₁, htry⟩

end System.Threads

/-- The work of a writer keeps the pins and the stage's meaning. -/
theorem work_writer {refs : V → List ℕ} {D D' : Db V} {op : WriteOp V}
    (hw : D.writer = some w) (hstage : w.stage = .working) (hs : D.work refs w op = some D') :
    ∃ w', D'.writer = some w' ∧ D'.pins = D.pins ∧ w'.thread = w.thread ∧ (w'.Open ↔ w.Open) := by
  cases op <;> simp only [work, refill, scan, draw, commit] at hs
  case call c =>
    split_ifs at hs
    obtain ⟨t, -, rfl⟩ := Option.map_eq_some_iff.1 hs
    exact ⟨_, rfl, rfl, rfl, Iff.rfl⟩
  case store p v =>
    split_ifs at hs
    cases hs
    exact ⟨w, hw, rfl, rfl, Iff.rfl⟩
  case commit q =>
    split_ifs at hs
    obtain ⟨es, -, rfl⟩ := Option.map_eq_some_iff.1 hs
    exact ⟨_, rfl, rfl, rfl, by simp [Writer.Open, hstage]⟩
  case abort =>
    cases hs
    exact ⟨_, rfl, rfl, rfl, by simp [Writer.Open, hstage]⟩
  all_goals
    (repeat' split at hs) <;> simp only [Option.some.injEq, reduceCtorEq] at hs <;> subst hs <;>
      exact ⟨_, rfl, rfl, rfl, Iff.rfl⟩

theorem tryBegin_writer {D D' : Db V} (hs : D.tryBegin w = some D') :
    ∃ w', D'.writer = some w' ∧ D'.pins = D.pins ∧ w'.thread = w.thread ∧
      (w'.inPlace = w.inPlace ∧ w'.Trying ∨ w'.stage = .working) := by
  simp only [tryBegin] at hs
  split at hs
  · cases hs
    exact ⟨_, rfl, rfl, rfl, .inl ⟨rfl, by simp [Writer.Trying]⟩⟩
  · split_ifs at hs
    · cases hs
      exact ⟨_, rfl, rfl, rfl, .inr rfl⟩
    · cases hs
      exact ⟨_, rfl, rfl, rfl, .inl ⟨rfl, by simp [Writer.Trying]⟩⟩
    · cases hs
      exact ⟨_, rfl, rfl, rfl, .inl ⟨rfl, by simp [Writer.Trying]⟩⟩
  · cases hs
    exact ⟨_, rfl, rfl, rfl, .inr rfl⟩
  · simp at hs

namespace System.OK

variable {refs : V → List ℕ} {s s' : System V}

variable {θ : ℕ}

theorem setCall (h : s.OK refs) {c : Call} (hdepth : (s.thread θ).depth = 0)
    (hcheck : ∀ d k i t, c ≠ .check d k i t)
    (hunpin : ∀ d k i, c = .unpin d k i → ∃ t, (s.db d).pins i = some ⟨t, θ, false⟩)
    (hbegin : ∀ d, c ≠ .begin d) : (s.setCall θ c).OK refs := by
  have hself : ((s.setCall θ c).thread θ) = { s.thread θ with call := c } := by
    simp [System.setCall, thread_setThread]
  refine ⟨h.dbs, h.threads.access θ (fun θ' hne => ?_) ?_ (fun _ => rfl)
    (fun _ _ _ _ _ hp => hp) (fun d k i t hc => ?_) (fun d k i hc => ?_) (fun _ => hdepth)
    fun d => ?_⟩
  · simp [System.setCall, thread_setThread, hne]
  · rw [hself]
  · rw [hself] at hc
    exact absurd hc (hcheck d k i t)
  · rw [hself] at hc
    exact hunpin d k i hc
  · rw [hself]
    exact hbegin d

variable {d : ℕ}

/-- A thread writes a cell that no other thread holds. -/
theorem setPin (h : s.OK refs) {i : ℕ} {x : Option PinCell} {c : Call}
    (hdepth : (s.thread θ).depth = 0) (hD : ((s.db d).setPin i x).OK refs)
    (hfree : ∀ t θ', θ' ≠ θ → (s.db d).pins i ≠ some ⟨t, θ', false⟩)
    (hcheck : ∀ d' k j t, c = .check d' k j t → d' = d ∧ j = i ∧ x = some ⟨t, θ, false⟩)
    (hunpin : ∀ d' k j, c ≠ .unpin d' k j) (hbegin : ∀ d', c ≠ .begin d') :
    ((s.setDb d ((s.db d).setPin i x)).setCall θ c).OK refs := by
  have hself : ((s.setDb d ((s.db d).setPin i x)).setCall θ c).thread θ =
      { s.thread θ with call := c } := by
    simp [System.setCall, thread_setThread]
  refine ⟨dbs_setDb h.dbs hD, h.threads.access θ (fun θ' hne => ?_) ?_ (frame_setDb writer rfl)
    (fun d' j t θ' hne => pins_setDb_setPin (hfree t θ' hne)) (fun d' k j t hc => ?_)
    (fun d' k j hc => ?_) (fun _ => hdepth) fun d' => ?_⟩
  · simp [System.setCall, thread_setThread, hne]
  · rw [hself]
  · rw [hself] at hc
    obtain ⟨rfl, rfl, rfl⟩ := hcheck d' k j t hc
    rw [db_setCall, db_setDb]
    simp [setPin]
  · rw [hself] at hc
    exact absurd hc (hunpin d' k j)
  · rw [hself]
    exact hbegin d'

/-- Each point at which a call of a thread can stand. -/
theorem runCall (h : s.OK refs) {fail : Bool} (horder : s.orderly (.run θ fail) = true)
    (hs : s.runCall θ fail (s.thread θ).call = some s') : s'.OK refs := by
  have hshallow := h.threads.shallow θ
  have hnext : ∀ d k, (nextRound d k) = .idle ∨ nextRound d k = .spin d (k + 1) := by
    intro d k
    unfold nextRound
    split <;> simp
  have hmine : ∀ {d i t}, (s.db d).pins i = some ⟨t, θ, false⟩ →
      ∀ t' θ', θ' ≠ θ → (s.db d).pins i ≠ some ⟨t', θ', false⟩ := by
    intro d i t hcell t' θ' hne hp
    rw [hcell, Option.some.injEq, PinCell.mk.injEq] at hp
    exact hne hp.2.1.symm
  rcases hcall : (s.thread θ).call with _ | ⟨d, k⟩ | ⟨d, k⟩ | ⟨d, k, i, t⟩ | ⟨d, k, i,
    t⟩ | ⟨d, k, i⟩ | d <;>
    rw [hcall] at hs hshallow <;> simp only [System.runCall] at hs
  case idle => simp at hs
  case spin | readMeta =>
    cases hs
    split_ifs <;> exact h.setCall (hshallow (by simp)) (by simp) (by simp) (by simp)
  case tryPin =>
    split_ifs at hs with hi hfree
    · cases hs
      rcases hnext d k with he | he <;> rw [he] <;>
        exact h.setCall (hshallow (by simp)) (by simp) (by simp) (by simp)
    · cases hs
      refine h.setPin (hshallow (by simp)) ((h.dbs d).setPin (by omega) (by simp)) ?_ ?_ (by simp)
        (by simp)
      · intro t' θ' _ hp
        simp [hp] at hfree
      · rintro d' k' j t' ⟨⟩
        exact ⟨rfl, rfl, rfl⟩
    · cases hs
      exact h.setCall (hshallow (by simp)) (by simp) (by simp) (by simp)
  case check =>
    have hcell := h.threads.checks θ d k i t hcall
    have hdepth := hshallow (by simp)
    split_ifs at hs with hforeign
    · cases hs
      refine h.setCall hdepth (by simp) ?_ (by simp)
      rintro d' k' j ⟨⟩
      exact ⟨t, hcell⟩
    · cases hs
      have hflag : (s.db d).flag = false := by simpa [foreign, hdepth] using hforeign
      obtain rfl : (s.db d).current = t := by simpa [orderly, hcall, hflag] using horder
      exact h.setPin hdepth ((h.dbs d).returnPin ((h.dbs d).cells i _ hcell) hflag) (hmine hcell)
        (by simp) (by simp) (by simp)
  case unpin =>
    cases hs
    obtain ⟨t, hcell⟩ := h.threads.unpins θ d k i hcall
    rcases hnext d k with he | he <;> rw [he] <;>
      exact h.setPin (hshallow (by simp)) ((h.dbs d).setPin ((h.dbs d).cells i _ hcell) (by simp))
        (hmine hcell) (by simp) (by simp) (by simp)
  case begin =>
    obtain ⟨w, hw, hs⟩ := Option.bind_eq_some_iff.1 hs
    obtain ⟨D, hD, rfl⟩ := Option.map_eq_some_iff.1 hs
    obtain ⟨w₀, hw₀, rfl, htry⟩ := h.threads.begins θ d hcall
    obtain rfl : w = w₀ := Option.some.inj (hw.symm.trans hw₀)
    obtain ⟨w', hw', hpins, hwt, hstage⟩ := tryBegin_writer hD
    have hdepth := hshallow (by simp)
    have hplace := (h.dbs d).inPlace_of_trying hw htry
    refine ⟨dbs_setDb h.dbs ((h.dbs d).tryBegin hw hD), ?_⟩
    simp only [hw', hdepth]
    have hothers : ∀ d' ≠ d, ∀ w₁, (s.db d').writer = some w₁ → w₁.Open →
        w₁.thread ≠ w.thread := by
      intro d' _ w₁ hw₁ ho ht
      have := h.threads.deep d' w₁ hw₁ ho
      rw [ht, hdepth] at this
      exact absurd this (by simp)
    rcases hstage with ⟨hsame, htry'⟩ | hwork
    · have hnw : w'.stage ≠ .working := fun he => htry' (by simp [he])
      refine h.threads.writes hw w' hw' hpins hwt _ (.inr (by simp [hnw]))
        (fun _ => ?_) (fun ho => ?_)
        fun d' hd w₁ hw₁ ho ht => absurd ht (hothers d' hd w₁ hw₁ ho)
      · exact ⟨by simp [hsame, hplace], htry'⟩
      · exact absurd (ho.1.symm.trans (hsame.trans hplace)) (by simp)
    · refine h.threads.writes hw w' hw' hpins hwt _ (.inl (by simp [hwork]))
        (fun hc => ?_) (fun ho => ?_)
        fun d' hd w₁ hw₁ ho ht => absurd ht (hothers d' hd w₁ hw₁ ho)
      · simp [hwork] at hc
      · simp [ho.1]

/-- The end of a write transaction. -/
theorem close (h : s.OK refs) {w : Writer V} (hw : (s.db d).writer = some w)
    (hidle : (s.thread w.thread).call = .idle) (hstage : w.stage = .finishing) :
    (s.close d w).OK refs := by
  have hD := (h.dbs d).close hw hstage
  have hnot : ¬ ({ w with stage := Stage.unlocking } : Writer V).Open := fun ho => ho.2 rfl
  unfold System.close
  split_ifs with hplace
  · have hopen : w.Open := ⟨hplace, by simp [hstage]⟩
    have hdepth := h.threads.deep d w hw hopen
    simp only [hdepth]
    refine ⟨dbs_setDb h.dbs hD, h.threads.writes hw { w with stage := .unlocking } ?_ ?_ rfl _
      (.inl hidle) (fun hc => absurd (hidle.symm.trans hc) (by simp)) (fun ho => absurd ho hnot)
      fun d' hd w₁ hw₁ ho ht => ?_⟩
    · rfl
    · rfl
    · exact absurd (h.threads.alone d w d' w₁ hw hw₁ hopen ho ht) hd
  · have hflag : (s.db d).flag = false := by
      have := (h.dbs d).flag
      rw [hw] at this
      simpa [flagged, hstage, hplace] using this
    have hself : s.setDb d ((s.db d).setWriter { w with stage := .unlocking }) =
        s.setDb d ({ s.db d with flag := false }.setWriter { w with stage := .unlocking }) := by
      rw [← hflag]
    rw [hself, ← setThread_self (s.setDb d _) w.thread]
    refine ⟨dbs_setDb h.dbs hD, h.threads.writes hw { w with stage := .unlocking } ?_ ?_ rfl _
      (.inl hidle) (fun hc => absurd (hidle.symm.trans hc) (by simp)) (fun ho => absurd ho hnot)
      fun d' hd w₁ hw₁ ho ht => ⟨hnot, rfl⟩⟩
    · rfl
    · rfl

/-- A step of the writer: its work, or its end. -/
theorem stepWrite (h : s.OK refs) {w : Writer V} {op : WriteOp V}
    (hw : (s.db d).writer = some w) (hidle : (s.thread w.thread).call = .idle)
    (hs : s.stepWrite refs d w op = some s') : s'.OK refs := by
  simp only [System.stepWrite] at hs
  split at hs
  next hstage =>
    obtain ⟨D, hD, rfl⟩ := Option.map_eq_some_iff.1 hs
    obtain ⟨w', hw', hpins, hwt, hopen⟩ := work_writer hw hstage hD
    rw [← setThread_self (s.setDb d D) w.thread]
    refine ⟨dbs_setDb h.dbs ((h.dbs d).work hw hstage hD), h.threads.writes hw w' hw' hpins hwt _
      (.inl hidle) (fun hc => absurd (hidle.symm.trans hc) (by simp))
      (fun ho => h.threads.deep d w hw (hopen.1 ho)) fun d' hd w₁ hw₁ ho ht => ⟨fun ho' => ?_, rfl⟩⟩
    exact hd (h.threads.alone d w d' w₁ hw hw₁ (hopen.1 ho') ho ht)
  next hstage =>
    cases hs
    exact h.close hw hidle hstage
  next hstage =>
    cases hs
    exact ⟨dbs_setDb h.dbs ((h.dbs d).unlock hw hstage),
      h.threads.unlock hw (by simp [Writer.Trying, hstage])⟩
  next => simp at hs

/-- By who acts: a new call, a call under way, or a writer. -/
theorem step (h : s.OK refs) {l : Label V} (horder : s.orderly l = true)
    (hs : s.step refs l = some s') : s'.OK refs := by
  cases l <;> simp only [System.step] at hs
  case pin θ d =>
    split_ifs at hs
    cases hs
    exact h.setCall (by simpa [orderly] using horder) (by simp) (by simp) (by simp)
  case run θ fail => exact h.runCall horder hs
  case release d i =>
    split at hs
    next c hc =>
      split_ifs at hs with hr
      cases hs
      refine ⟨dbs_setDb h.dbs ((h.dbs d).setPin ((h.dbs d).cells i c hc) (by simp)),
        h.threads.access c.owner (fun _ _ => rfl) rfl (frame_setDb writer rfl)
        (fun d' j t θ' _ => pins_setDb_setPin fun hp => ?_) ?_ ?_ ?_ ?_⟩
      · rw [hc, Option.some.injEq] at hp
        simp [hp] at hr
      all_goals simp [hr.2]
    next => simp at hs
  case begin θ d =>
    split_ifs at hs with hc
    cases hs
    have hnone : (s.db d).writer = none := by simpa using hc.1
    exact ⟨dbs_setDb h.dbs ((h.dbs d).lock hnone θ),
      h.threads.lock hnone (by simpa [orderly] using horder)⟩
  case write d op =>
    obtain ⟨w, hw, hs⟩ := Option.bind_eq_some_iff.1 hs
    split_ifs at hs with hidle
    exact h.stepWrite hw hidle hs

end System.OK

theorem ok_start (refs : V → List ℕ) (mem : ℕ → ℕ → V) (dataStart : ℕ) :
    (start mem dataStart).OK refs := by
  refine ⟨fun d => ⟨rfl, ⟨?_, ?_, ?_, ?_⟩, ⟨?_, ?_⟩, ?_, le_rfl, ?_, ?_, ?_, ?_, ?_, ?_, ?_⟩,
    ⟨?_, ?_, ?_, ?_, ?_, ?_⟩⟩
  all_goals simp [start, snap, pagesOf]

theorem ok_of_reaches {refs : V → List ℕ} {mem : ℕ → ℕ → V} {dataStart : ℕ} {s : System V}
    (h : Transition.Reaches (fun s l => step s refs l) (fun s l => s.orderly l = true)
      (start mem dataStart) s) : s.OK refs :=
  h.invariant (P := fun s => s.OK refs) (ok_start refs mem dataStart)
    fun _ _ _ hinv hl hs => hinv.step hl hs

/-- A thread that holds a pin sees every page of its snapshot as it was committed, no pin of a
database is held while an exclusive section on it is open, and its flag is down unless such a
section is open or being tried for. -/
theorem private_pin_safe (refs : V → List ℕ) (mem : ℕ → ℕ → V) (dataStart : ℕ) (s : System V)
    (hs : Transition.Reaches (fun s l => System.step s refs l) (fun s l => s.orderly l = true)
      (System.start mem dataStart) s) (d : ℕ) :
    (∀ θ t, s.Holds θ d t → ∀ p, Reach refs (s.db d).mem ((s.db d).snaps t).roots p →
      (s.db d).mem p = ((s.db d).snaps t).image p) ∧
    (∀ w, (s.db d).writer = some w → w.Open → ∀ θ t, ¬ s.Holds θ d t) ∧
    ((s.db d).flag = true → ∃ w, (s.db d).writer = some w ∧ (w.Open ∨ w.Trying)) := by
  have hok := (ok_of_reaches hs).dbs d
  refine ⟨fun θ t ⟨i, hi⟩ p hp => ?_, fun w hw ho θ t ⟨i, hi⟩ => ?_, fun hflag => ?_⟩
  · have hk := hok.kept i _ hi rfl
    exact hk.intact p ((hk.closed.congr hk.intact).mem_of_reach hp)
  · exact absurd (hok.opened w hw ho i _ hi) (by simp)
  · rw [hok.flag] at hflag
    obtain ⟨w, hw, hf⟩ := (Option.any_eq_true _ _).1 hflag
    refine ⟨w, hw, ?_⟩
    simp only [flagged] at hf
    split at hf
    next hst => exact .inr (by simp [Writer.Trying, hst])
    next hst => exact .inr (by simp [Writer.Trying, hst])
    next hst => exact .inl ⟨hf, by simp [hst]⟩
    next hst => exact .inl ⟨hf, by simp [hst]⟩
    next => simp at hf

/-! ## Good and bad schedules -/

/-- Pages that lead nowhere. -/
def noRefs : ℕ → List ℕ := fun _ => []

/-- A write transaction of thread `θ` on `d`, with the accesses of its begin. -/
def writeRun (θ d begins : ℕ) (ops : List (WriteOp ℕ)) : List (Label ℕ) :=
  .begin θ d :: List.replicate begins (.run θ false) ++ (ops ++ [WriteOp.close, WriteOp.unlock]).map
  (.write d)

/-- Page 10 is made with 7 in it; no pin stands in the way of an exclusive section. -/
def firstCommit : List (Label ℕ) := writeRun 0 0 66
  [.call (.alloc 10), .store 10 7, .call .enterFreelistOp, .commit ⟨[10], [10], [], []⟩]

/-- A reader pins transaction 1, and the next commit copies the page. -/
def copiedRun : List (Label ℕ) :=
  firstCommit ++ (.pin 1 0 :: List.replicate 4 (.run 1 false)) ++ writeRun 0 0 3
    [.call (.alloc 11), .store 11 8, .call (.free 10), .call .enterFreelistOp,
      .commit ⟨[11], [11], [[10]], []⟩]

/-- A reader loads the meta of transaction 1 and stores its pin after the page has been written in
place. -/
def stalePinRun : List (Label ℕ) :=
  firstCommit ++ (.pin 1 0 :: List.replicate 2 (.run 1 false)) ++ writeRun 0 0 66
    [.adopt 10, .store 10 9, .call .enterFreelistOp, .commit ⟨[10], [10], [], []⟩] ++
    List.replicate 2 (.run 1 false)

/-- A thread with a section open on database 0 writes to database 1. -/
def nestedRun : List (Label ℕ) :=
  .begin 0 0 :: List.replicate 66 (.run 0 false) ++ writeRun 0 1 66 [.abort]

/-- A thread with a section open on database 0 pins database 1, where another thread has one. -/
def foreignRun : List (Label ℕ) :=
  .begin 0 0 :: List.replicate 66 (.run 0 false) ++
    (.begin 2 1 :: List.replicate 66 (.run 2 false)) ++
      (.pin 0 1 :: List.replicate 4 (.run 0 false))

/-- The pinned page is as it was while the newest transaction has another one. -/
theorem private_pin_safe_copied :
    ∃ s, Transition.Reaches (fun s l => System.step s noRefs l) (fun s l => s.orderly l = true)
        (System.start (fun _ _ => 0) 10) s ∧
      ((s.db 0).current = 2 ∧ (s.db 0).pins 0 = some ⟨1, 1, true⟩ ∧
        ((s.db 0).snaps 1).roots = [10] ∧ ((s.db 0).snaps 1).image 10 = 7) ∧
      (s.db 0).mem 10 = ((s.db 0).snaps 1).image 10 := by
  obtain ⟨s, hs, hcur, hpin, hroots, himage⟩ := Transition.exists_reaches
    (fun s l => step s noRefs l) (fun s l => s.orderly l = true)
    (start (fun _ _ => 0) 10) copiedRun
    (fun s => (s.db 0).current = 2 ∧ (s.db 0).pins 0 = some ⟨1, 1, true⟩ ∧
      ((s.db 0).snaps 1).roots = [10] ∧ ((s.db 0).snaps 1).image 10 = 7) (by decide +kernel)
  refine ⟨s, hs, ⟨hcur, hpin, hroots, himage⟩, ?_⟩
  refine (private_pin_safe noRefs _ 10 s hs 0).1 1 1 ⟨0, hpin⟩ 10 (.root ?_)
  simp [hroots]

/-- A pin of a transaction that was not the newest any more, a flag that stays up, and a pin in
another thread's exclusive section. -/
theorem private_pin_unsafe :
    (∃ s, Transition.Reaches (fun s l => System.step s noRefs l) (fun _ _ => True)
        (System.start (fun _ _ => 0) 10) s ∧ (s.db 0).pins 0 = some ⟨1, 1, true⟩ ∧
      ((s.db 0).snaps 1).roots = [10] ∧ (s.db 0).mem 10 ≠ ((s.db 0).snaps 1).image 10) ∧
    (∃ s, Transition.Reaches (fun s l => System.step s noRefs l) (fun _ _ => True)
        (System.start (fun _ _ => 0) 10) s ∧ (s.db 1).writer.isNone ∧ (s.db 1).flag = true) ∧
    ∃ s, Transition.Reaches (fun s l => System.step s noRefs l) (fun _ _ => True)
        (System.start (fun _ _ => 0) 10) s ∧ (s.db 1).pins 0 = some ⟨0, 0, true⟩ ∧
      (s.db 1).writer.any (fun w => w.inPlace && w.thread = 2 && w.stage = .working) := by
  refine ⟨?_, ?_, ?_⟩
  · exact Transition.exists_reaches _ _ _ stalePinRun _ (by decide +kernel)
  · exact Transition.exists_reaches _ _ _ nestedRun _ (by decide +kernel)
  · exact Transition.exists_reaches _ _ _ foreignRun _ (by decide +kernel)

end Mpedb.Private
