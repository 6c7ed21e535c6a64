import Mpedb.Footprint
import Mathlib.Tactic.Linarith

/-!
# Reading the ring back

A slot holds what the last `opt_record` of its number stored (`slot_recordAll`), as long as the
window of ids is no longer than the ring. A pending offset that is carried over the recorded
splices lands where the splice algebra puts it (`opt_rebase_eq_rebase_through`), unless a pure
insertion meets the start of a removal.
-/

namespace Mpedb

open List Written

namespace OptRing

variable (ring : OptRing)

@[simp] theorem slot_setSlot_self (txn : ℕ) (e : OfpEntry) : (ring.setSlot txn e).slot txn = e :=
  Function.update_self ..

theorem slot_setSlot_of_ne {t txn : ℕ} (h : t % optRingSlots ≠ txn % optRingSlots) (e : OfpEntry) :
    (ring.setSlot txn e).slot t = ring.slot t :=
  Function.update_of_ne h ..

theorem foldl_keyStores : ∀ (ks : List (BitVec 64)) (n : ℕ) (e : OfpEntry),
    ((ks.zipIdx n).map fun k => OfpStore.key k.2 k.1).foldl OfpEntry.store e =
      { e with keys := fun i => if h : n ≤ i ∧ i - n < ks.length then ks.get ⟨i - n, h.2⟩
                                else e.keys i }
  | [], n, e => by simp
  | k :: ks, n, e => by
    simp only [zipIdx_cons, map_cons, foldl_cons]
    rw [foldl_keyStores ks (n + 1)]
    simp only [OfpEntry.store]
    congr 1
    funext i
    by_cases hi : n = i
    · subst hi
      simp
    · by_cases hk : n + 1 ≤ i ∧ i - (n + 1) < ks.length
      · have hk' : n ≤ i ∧ i - n < (k :: ks).length := by
          simp only [length_cons]
          omega
        rw [dif_pos hk, dif_pos hk']
        have hidx : i - n = i - (n + 1) + 1 := by omega
        simp [hidx]
      · have hk' : ¬ (n ≤ i ∧ i - n < (k :: ks).length) := by
          simp only [length_cons]
          omega
        rw [dif_neg hk, dif_neg hk', Function.update_of_ne (fun h => hi h.symm)]

/-- The slot after a record. -/
def recorded (e : OfpEntry) (txn : ℕ) (fp : CommitFootprint) : OfpEntry where
  txn := txn
  kind := fp.kind
  tableBits := fp.tableBits
  keyHash := fp.keyHash
  cols := fp.cols
  nkeys := exactKeys fp
  keys i := if h : i < ((fp.keys.getD []).take (exactKeys fp)).length
    then ((fp.keys.getD []).take (exactKeys fp)).get ⟨i, h⟩ else e.keys i
  range := fp.range
  delta := fp.delta

theorem foldl_recordStores (e : OfpEntry) (txn : ℕ) (fp : CommitFootprint) :
    (recordStores txn fp).foldl OfpEntry.store e = recorded e txn fp := by
  simp only [recordStores, keyStores, foldl_append, foldl_cons, foldl_nil,
    foldl_keyStores, OfpEntry.store, recorded]
  simp

theorem slot_optRecord_self (txn : ℕ) (fp : CommitFootprint) :
    (ring.optRecord txn fp).slot txn = recorded (ring.slot txn) txn fp := by
  rw [optRecord, storeAll, slot_setSlot_self, foldl_recordStores]

theorem slot_optRecord_of_ne {t txn : ℕ} (h : t % optRingSlots ≠ txn % optRingSlots)
    (fp : CommitFootprint) : (ring.optRecord txn fp).slot t = ring.slot t :=
  slot_setSlot_of_ne ring h _

theorem exactKeys_le (fp : CommitFootprint) : exactKeys fp ≤ ofpMaxKeys := by
  unfold exactKeys
  split
  · split
    · exact And.right ‹_›
    · exact Nat.zero_le _
  · exact Nat.zero_le _

theorem mem_optKeys {t : ℕ} {e : OfpEntry} {fp : CommitFootprint} {ks : List (BitVec 64)}
    (hslot : ring.slot t = recorded e t fp) (hkeys : fp.keys = some ks)
    (hn : exactKeys fp = ks.length) (hne : ks ≠ []) {k : BitVec 64} (hk : k ∈ ks) :
    ∃ theirs, ring.optKeys t = some theirs ∧ k ∈ theirs := by
  have hle : ks.length ≤ ofpMaxKeys := hn ▸ exactKeys_le fp
  have hpos : 0 < ks.length := length_pos_iff.2 hne
  have hnk : (ring.slot t).nkeys = ks.length := by rw [hslot]; exact hn
  obtain ⟨i, hi, rfl⟩ := getElem_of_mem hk
  refine ⟨_, if_neg (by omega), mem_map.2 ⟨i, mem_range.2 (by omega), ?_⟩⟩
  rw [if_pos (by omega), hslot]
  simp [recorded, hkeys, hn, hi]

/-- The ring after commits `snap + 1, snap + 2, …` recorded their footprints. -/
def recordAll (ring : OptRing) (snap : ℕ) (fps : List CommitFootprint) : OptRing :=
  match fps with
  | [] => ring
  | fp :: fps => recordAll (ring.optRecord (snap + 1) fp) (snap + 1) fps

theorem slot_recordAll_of_ne : ∀ (fps : List CommitFootprint) (ring : OptRing) (snap t : ℕ),
    (∀ i < fps.length, t % optRingSlots ≠ (snap + 1 + i) % optRingSlots) →
    (recordAll ring snap fps).slot t = ring.slot t
  | [], _, _, _, _ => rfl
  | fp :: fps, ring, snap, t, h => by
    rw [recordAll, slot_recordAll_of_ne fps _ (snap + 1) t fun i hi => ?_]
    · exact slot_optRecord_of_ne ring (h 0 (by simp)) fp
    · rw [show snap + 1 + 1 + i = snap + 1 + (i + 1) by omega]
      exact h (i + 1) (by simpa using hi)

/-- The slots of the ids after `snap` hold the footprints, one after another. -/
def Holds (ring : OptRing) : ℕ → List CommitFootprint → Prop
  | _, [] => True
  | snap, fp :: fps => (∃ e, ring.slot (snap + 1) = recorded e (snap + 1) fp) ∧
      Holds ring (snap + 1) fps

theorem holds_recordAll : ∀ (fps : List CommitFootprint) (ring : OptRing) (snap : ℕ),
    fps.length ≤ optRingSlots → Holds (recordAll ring snap fps) snap fps
  | [], _, _, _ => trivial
  | fp :: fps, ring, snap, h => by
    simp only [length_cons, optRingSlots] at h
    refine ⟨⟨ring.slot (snap + 1), ?_⟩,
      holds_recordAll fps _ (snap + 1) (by simp only [optRingSlots]; omega)⟩
    rw [recordAll, slot_recordAll_of_ne fps _ (snap + 1) (snap + 1) fun i hi => ?_,
      slot_optRecord_self]
    simp only [optRingSlots]
    omega

end OptRing

/-- The footprint names the cell, its exact key and column, and the splice that was applied to it,
in the range and in the change of length. -/
structure RecordsSplice (cell : CellEdit) (fp : CommitFootprint) (e : Splice) : Prop where
  kind : fp.kind ≠ .empty
  table : fp.tableBits &&& cell.tableBit ≠ 0
  keys : fp.keys = some [cell.key]
  cols : fp.cols &&& cell.colBit ≠ 0
  range : fp.range = e.offset * 2 ^ 32 + e.stop
  stop_lt : e.stop < 2 ^ 32
  range_ne : fp.range ≠ rangeAny
  delta : fp.delta = e.delta

namespace OptRing

variable {ring : OptRing} {cell : CellEdit}

theorem RecordsSplice.touches {t : ℕ} {entry : OfpEntry} {fp : CommitFootprint} {e : Splice}
    (h : RecordsSplice cell fp e) (hslot : ring.slot t = recorded entry t fp) :
    ring.touchesCell cell t = true := by
  obtain ⟨theirs, htheirs, hmem⟩ := mem_optKeys ring hslot h.keys
    (by simp [exactKeys, h.keys, ofpMaxKeys]) (by simp) (mem_singleton_self cell.key)
  simpa [touchesCell, hslot, recorded, h.kind, htheirs, hmem] using And.intro h.table h.cols

theorem rebaseWalk_cons {t : ℕ} {entry : OfpEntry} {fp : CommitFootprint} {e : Splice}
    (h : RecordsSplice cell fp e) (hslot : ring.slot t = recorded entry t fp) (ts : List ℕ)
    (pos : ℕ) :
    ring.rebaseWalk cell (t :: ts) pos =
      if pos < e.stop ∧ e.offset < (pos + cell.len) % 2 ^ 64 then some .collision
      else if e.offset ≤ pos then (checkedAddSigned pos e.delta).bind (ring.rebaseWalk cell ts)
      else ring.rebaseWalk cell ts pos := by
  have hstop := h.stop_lt
  have hoff : e.offset ≤ e.stop := Nat.le_add_right ..
  have hlo : fp.range / 2 ^ 32 % 2 ^ 32 = e.offset := by rw [h.range]; omega
  have hhi : fp.range % 2 ^ 32 = e.stop := by rw [h.range]; omega
  have htouch := RecordsSplice.touches h hslot
  simp only [rebaseWalk, hslot, recorded, htouch, h.range_ne, hlo, hhi, h.delta]
  simp only [ne_eq, not_true_eq_false, if_false, Bool.not_true, Bool.false_eq_true]
  rcases checkedAddSigned pos e.delta with _ | pos' <;> rfl

end OptRing

namespace Splice

variable {mine e : Splice}

theorem clash_eq_none : clash mine e = none ↔ ¬ (mine.offset < e.stop ∧ e.offset < mine.stop) := by
  have hmine : mine.stop = mine.offset + mine.remove := rfl
  have he : e.stop = e.offset + e.remove := rfl
  unfold clash
  split_ifs <;> simp <;> omega

/-- A pure insertion at the very start of a removal that changes the length of the value: the
algebra leaves it where it is, the ring moves it. -/
def Tied (mine e : Splice) : Prop :=
  mine.remove = 0 ∧ mine.offset = e.offset ∧ 0 < e.remove ∧ e.insert.length ≠ e.remove

/-- No splice of the history ties with the pending one, as rebased up to there. -/
def Untied : Splice → List Splice → Prop
  | _, [] => True
  | mine, e :: l => ¬ Tied mine e ∧ ∀ mine', mine.rebase e = .ok mine' → Untied mine' l

theorem rebase_of_clash {c : Clash} (h : clash mine e = some c) : mine.rebase e = .error c := by
  rw [rebase, h]

theorem rebase_of_not_clash (h : clash mine e = none) : mine.rebase e = .ok (mine.shift e) := by
  rw [rebase, h]

theorem rebase_ok_iff {mine' : Splice} :
    mine.rebase e = .ok mine' ↔ clash mine e = none ∧ mine.shift e = mine' := by
  unfold rebase
  rcases clash mine e with _ | c <;> simp

theorem rebaseThrough_cons (mine e : Splice) (l : List Splice) :
    mine.rebaseThrough (e :: l) = (mine.rebase e).bind (·.rebaseThrough l) := by
  rfl

theorem stop_shift_le (mine e : Splice) : (mine.shift e).stop ≤ mine.stop + e.insert.length := by
  have hmine : mine.stop = mine.offset + mine.remove := rfl
  unfold shift
  rw [stop, hmine]
  dsimp only
  split_ifs <;> omega

theorem checkedAddSigned_delta (hclash : clash mine e = none) (htie : ¬ Tied mine e)
    (hle : e.offset ≤ mine.offset) (hfit : mine.offset + e.insert.length < 2 ^ 64) :
    checkedAddSigned mine.offset e.delta = some (mine.shift e).offset := by
  rw [clash_eq_none] at hclash
  unfold Tied at htie
  have hmine : mine.stop = mine.offset + mine.remove := rfl
  have he : e.stop = e.offset + e.remove := rfl
  have hd : e.delta = (e.insert.length : ℤ) - e.remove := rfl
  unfold checkedAddSigned shift
  rw [if_pos (by omega), Option.some_inj]
  dsimp only
  split_ifs <;> omega

end Splice

namespace OptRing

variable {ring : OptRing} {cell : CellEdit}

/-- The pending splice's outcome as the ring reports it. -/
def outcomeOf : Except Clash Splice → RebaseOutcome
  | .ok mine => .at mine.offset
  | .error _ => .collision

theorem rebaseWalk_recorded {t : ℕ} {entry : OfpEntry} {fp : CommitFootprint} {e mine : Splice}
    (h : RecordsSplice cell fp e) (hslot : ring.slot t = recorded entry t fp)
    (hlen : mine.remove = cell.len) (htie : ¬ mine.Tied e)
    (hfit : mine.stop + e.insert.length < 2 ^ 64) (ts : List ℕ) :
    ring.rebaseWalk cell (t :: ts) mine.offset = match mine.rebase e with
      | .ok mine' => ring.rebaseWalk cell ts mine'.offset
      | .error _ => some .collision := by
  have hstop : mine.offset + cell.len = mine.stop := by rw [Splice.stop, hlen]
  rw [rebaseWalk_cons h hslot, hstop, Nat.mod_eq_of_lt (by omega)]
  rcases hclash : Splice.clash mine e with _ | c
  · have hnot := Splice.clash_eq_none.1 hclash
    rw [if_neg hnot, Splice.rebase_of_not_clash hclash]
    by_cases hle : e.offset ≤ mine.offset
    · rw [if_pos hle, Splice.checkedAddSigned_delta hclash htie hle (by omega)]
      rfl
    · have hstay : (mine.shift e).offset = mine.offset :=
        if_neg (by have he : e.stop = e.offset + e.remove := rfl; omega)
      rw [if_neg hle, ← hstay]
  · have hspan := mt Splice.clash_eq_none.2 (hclash ▸ Option.some_ne_none c)
    rw [if_pos (not_not.1 hspan), Splice.rebase_of_clash hclash]

/-- By recursion on the commits since the snapshot: the walk rebases as the splices do. -/
theorem rebaseWalk_eq : ∀ (hist : List (CommitFootprint × Splice)) (snap : ℕ) (mine : Splice),
    ring.Holds snap (hist.map Prod.fst) → (∀ c ∈ hist, RecordsSplice cell c.1 c.2) →
    mine.remove = cell.len → mine.Untied (hist.map Prod.snd) →
    mine.stop + (hist.map fun c => c.2.insert.length).sum < 2 ^ 64 →
    ring.rebaseWalk cell (List.range' (snap + 1) hist.length) mine.offset =
      some (outcomeOf (mine.rebaseThrough (hist.map Prod.snd)))
  | [], _, _, _, _, _, _, _ => rfl
  | (fp, e) :: hist, snap, mine, hholds, hrec, hlen, huntied, hfit => by
    obtain ⟨⟨entry, hslot⟩, hholds⟩ := hholds
    obtain ⟨htie, huntied⟩ := huntied
    simp only [map_cons, sum_cons] at hfit
    simp only [length_cons, List.range'_succ, map_cons]
    have hrec₁ : RecordsSplice cell fp e := hrec (fp, e) (by simp)
    rw [rebaseWalk_recorded hrec₁ hslot hlen htie (by omega), Splice.rebaseThrough_cons]
    rcases hrebase : mine.rebase e with c | mine'
    · rfl
    · obtain ⟨-, rfl⟩ := Splice.rebase_ok_iff.1 hrebase
      have hshift := Splice.stop_shift_le mine e
      exact rebaseWalk_eq hist (snap + 1) (mine.shift e) hholds
        (fun c hc => hrec c (by simp [hc])) hlen (huntied _ hrebase) (by omega)

end OptRing

/-- A splice of a cell as the ring sees it. -/
def cellEdit (table : ℕ) (key : BitVec 64) (col : ℕ) (mine : Splice) : CellEdit where
  tableBit := foldBit table
  key := key
  colBit := foldBit col
  start := mine.offset
  len := mine.remove

theorem foldBit_ne_zero (id : ℕ) : foldBit id ≠ 0#64 := by
  intro h
  have hbit := congrArg (fun b => b.getLsbD (id % 64)) h
  simp [foldBit, Nat.mod_lt] at hbit

theorem spliceUpdate_eq (table col : ℕ) (key : BitVec 64) (e : Splice) :
    spliceUpdate table key col e =
      { tables := foldBit table, commitPoint := none, regions := regionBit key, keys := some [key]
        range := some (min (2 ^ 32 - 1) e.offset, max 0 e.stop), delta := saturatingAdd 0 e.delta
        cols := foldBit col, shard := none, shardSeen := true } := by
  simp [spliceUpdate, recordShard, markTable, recordDelta,
    recordRange, recordCol, recordKey, fresh, addKey,
    ofpMaxKeys]

/-- A session that splices one cell records its splice exactly, if the range and the change of
length can be published at all. -/
theorem recordsSplice_spliceUpdate {table col : ℕ} {key : BitVec 64} {e mine : Splice}
    (hstop : e.stop < 2 ^ 32) (hoffset : e.offset < 2 ^ 32 - 1)
    (hdelta : -2 ^ 63 ≤ e.delta ∧ e.delta < 2 ^ 63) :
    RecordsSplice (cellEdit table key col mine)
      (spliceUpdate table key col e).footprint e := by
  have hle : e.offset ≤ e.stop := Nat.le_add_right ..
  have htable := foldBit_ne_zero table
  have hcol := foldBit_ne_zero col
  have hmin : min (2 ^ 32 - 1) e.offset = e.offset := by omega
  have hrange : (spliceUpdate table key col e).footprint.range =
      e.offset * 2 ^ 32 + e.stop := by
    rw [spliceUpdate_eq]
    simp only [footprint, hmin, Nat.zero_max, packRange]
    rw [if_pos hle, if_pos ⟨by omega, hstop, hle⟩]
  refine ⟨?_, ?_, ?_, ?_, hrange, hstop, ?_, ?_⟩
  · simp [spliceUpdate_eq, footprint, summary, htable]
  · simp [spliceUpdate_eq, footprint, summary, htable, cellEdit]
  · simp [spliceUpdate_eq, footprint, cellEdit]
  · simp [spliceUpdate_eq, footprint, hcol, cellEdit]
  · rw [hrange, rangeAny]
    omega
  · simp only [spliceUpdate_eq, footprint, saturatingAdd]
    omega

/-- `opt_rebase` over a window of splices that are each recorded exactly is the rebase of the
algebra: it answers with the rebased offset where that succeeds and with a collision where it
clashes. -/
theorem opt_rebase_eq_rebase_through (ring : OptRing) (cell : CellEdit) (snap : ℕ) (mine : Splice)
    (hist : List (CommitFootprint × Splice)) (hrec : ∀ c ∈ hist, RecordsSplice cell c.1 c.2)
    (hstart : mine.offset = cell.start) (hlen : mine.remove = cell.len)
    (hwindow : hist.length ≤ optRingSlots)
    (hfit : mine.stop + (hist.map fun c => c.2.insert.length).sum < 2 ^ 64)
    (huntied : mine.Untied (hist.map Prod.snd)) :
    (∀ a, (ring.recordAll snap (hist.map Prod.fst)).optRebase cell snap (snap + hist.length) =
        some (.at a) ↔ ∃ m, mine.rebaseThrough (hist.map Prod.snd) = .ok m ∧ m.offset = a) ∧
      ((ring.recordAll snap (hist.map Prod.fst)).optRebase cell snap (snap + hist.length) =
        some .collision ↔ ∃ c, mine.rebaseThrough (hist.map Prod.snd) = .error c) := by
  have hholds := OptRing.holds_recordAll (hist.map Prod.fst) ring snap (by simpa using hwindow)
  have hwalk := OptRing.rebaseWalk_eq hist snap mine hholds hrec hlen huntied hfit
  have heq : (ring.recordAll snap (hist.map Prod.fst)).optRebase cell snap (snap + hist.length) =
      some (OptRing.outcomeOf (mine.rebaseThrough (hist.map Prod.snd))) := by
    unfold OptRing.optRebase
    rcases hist with _ | ⟨c, hist⟩
    · simpa [hstart, OptRing.rebaseWalk] using hwalk
    · simp only [length_cons] at hwindow
      rw [if_neg (by simp), if_neg (by simp only [length_cons]; omega), OptRing.window,
        Nat.add_sub_cancel_left, ← hstart]
      exact hwalk
  rw [heq]
  rcases mine.rebaseThrough (hist.map Prod.snd) with c | m <;> simp [OptRing.outcomeOf]

/-- A replacement of two bytes by four, far before the pending one, moves it by two. -/
theorem opt_rebase_past_replacement :
    (OptRing.zeroed.recordAll 5
      [(Written.spliceUpdate 1 7 0 ⟨0, 2, [97, 98, 99, 100]⟩).footprint]).optRebase
        (cellEdit 1 7 0 ⟨10, 2, [122]⟩) 5 6 = some (.at 12) := by
  have h := opt_rebase_eq_rebase_through OptRing.zeroed (cellEdit 1 7 0 ⟨10, 2, [122]⟩) 5
    ⟨10, 2, [122]⟩ [((spliceUpdate 1 7 0 ⟨0, 2, [97, 98, 99, 100]⟩).footprint,
      ⟨0, 2, [97, 98, 99, 100]⟩)]
    (by
      intro c hc
      rw [mem_singleton.1 hc]
      exact recordsSplice_spliceUpdate (by decide) (by decide) (by decide))
    rfl rfl (by decide) (by decide)
    ⟨by simp [Splice.Tied], fun _ _ => trivial⟩
  exact (h.1 12).2 ⟨_, rfl, rfl⟩

/-- A pure insertion at offset 10 behind the deletion of the four bytes from 10 on: the algebra
leaves it at 10, the ring moves it to 6, into text the deletion did not touch. -/
theorem opt_rebase_moves_tied_insertion :
    (OptRing.zeroed.recordAll 5 [(Written.spliceUpdate 1 7 0 ⟨10, 4, []⟩).footprint]).optRebase
        (cellEdit 1 7 0 ⟨10, 0, [120]⟩) 5 6 = some (.at 6) ∧
      Splice.rebaseThrough ⟨10, 0, [120]⟩ [⟨10, 4, []⟩] = .ok ⟨10, 0, [120]⟩ := by
  decide

end Mpedb
