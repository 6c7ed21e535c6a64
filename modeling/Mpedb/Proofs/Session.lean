import Mpedb.Guard
import Mpedb.Proofs.Optimistic

/-!
# Published sub-edits

What a session publishes about a cell is true where its one write is a splice of that cell, as it
runs after its offset has been carried forward, or where it publishes no range or no table at all
(`published_subedit_truthful`). The records only ever grow: a
range that cannot be named stays so, and no savepoint takes a record back.
-/

namespace Mpedb

open List SessionState Written

/-- The commit changed the cell only inside the published range, and its length by the published
delta; a commit that publishes no range says nothing. -/
def Truthful (fp : CommitFootprint) (before after : Option (List UInt8)) : Prop :=
  fp.range = rangeAny ∨ ∃ b b', before = some b ∧ after = some b' ∧
    b'.take (fp.range / 2 ^ 32 % 2 ^ 32) = b.take (fp.range / 2 ^ 32 % 2 ^ 32) ∧
    (b'.length : ℤ) = b.length + fp.delta ∧
    b'.drop (((fp.range % 2 ^ 32 : ℕ) : ℤ) + fp.delta).toNat = b.drop (fp.range % 2 ^ 32)

namespace SessionStep

/-- The step notes what it writes. -/
def Records : SessionStep → Prop
  | .stmt s => s.writes = true
  | _ => False

/-- A statement that records a write it cannot name the range of. -/
def RecordsWhole : SessionStep → Prop
  | .stmt s => s.writes = true ∧ s.range = none
  | _ => False

/-- Steps that change no row and roll nothing back behind the first `p` savepoints. -/
def Quiet : ℕ → List SessionStep → Prop
  | _, [] => True
  | p, .stmt s :: l => s.writes = false ∧ Quiet p l
  | p, .savepoint :: l => Quiet p l
  | p, .release n :: l => Quiet (min p n) l
  | p, .rollbackTo n :: l => p ≤ n ∧ Quiet p l
  | _, .direct _ :: _ => False
  | _, .dropTable _ :: _ => False
  | _, .restart :: _ => False

end SessionStep

namespace SessionState

variable (st : SessionState)

theorem markTables_frame : ∀ (ws : List RowWrite) (w : Written),
    ∃ t, ws.foldl (fun w x => w.markTable x.table) w = { w with tables := t }
  | [], w => ⟨w.tables, rfl⟩
  | x :: ws, w => by
    obtain ⟨t, ht⟩ := markTables_frame ws (w.markTable x.table)
    exact ⟨t, ht⟩

theorem recordCols_frame (w : Written) (cols : Option (List ℕ)) :
    ∃ c, w.recordCols cols = { w with cols := c } := by
  rcases cols with _ | cols
  · exact ⟨_, rfl⟩
  · show ∃ c, cols.foldl _ w = _
    induction cols generalizing w with
    | nil => exact ⟨w.cols, rfl⟩
    | cons c cols ih => exact ih (w.recordCol (some c))

theorem recordShard_frame (w : Written) (s : Option (BitVec 64)) :
    ∃ a b, w.recordShard s = { w with shard := a, shardSeen := b } := by
  unfold recordShard
  split_ifs
  · exact ⟨_, _, rfl⟩
  · exact ⟨_, _, rfl⟩
  · exact ⟨_, _, rfl⟩

theorem widen_frame (w : Written) {s : SessionStmt} (hs : s.writes = true) :
    ∃ c d a b, w.widen s =
      { w with regions := (w.recordKey s.key).regions, keys := addKey s.key w.keys, cols := c
               range := (w.recordRange s.range).range, delta := d, shard := a, shardSeen :=
  b } := by
  simp only [widen, hs]
  obtain ⟨c, hc⟩ := recordCols_frame (w.recordKey s.key) s.cols
  rw [hc]
  rcases s.delta with _ | d
  · obtain ⟨a, b, hab⟩ := recordShard_frame
      ({ w.recordKey s.key with cols := c }.recordRange s.range) s.shard
    exact ⟨c, w.delta, a, b, hab⟩
  · obtain ⟨a, b, hab⟩ := recordShard_frame
      (({ w.recordKey s.key with cols := c }.recordRange s.range).recordDelta d) s.shard
    exact ⟨c, _, a, b, hab⟩

theorem widen_of_not_writes (w : Written) {s : SessionStmt} (hs : s.writes = false) :
    w.widen s = w := by
  simp [widen, hs]

theorem range_widen (w : Written) (s : SessionStmt) :
    (w.widen s).range = if s.writes then (w.recordRange s.range).range else w.range := by
  by_cases hs : s.writes
  · obtain ⟨c, d, a, b, h⟩ := widen_frame w hs
    rw [h, if_pos hs]
  · rw [if_neg hs, widen_of_not_writes w (by simpa using hs)]

theorem range_applyRows (r : Except Error (List RowWrite)) :
    (st.applyRows r).written.range = st.written.range := by
  rcases r with e | ws
  · rfl
  · obtain ⟨t, ht⟩ := markTables_frame ws st.written
    simp only [applyRows, ht]

theorem range_step (step : SessionStep) :
    (st.step step).written.range = match step with
      | .stmt s => if s.writes then (st.written.recordRange s.range).range else st.written.range
      | _ => st.written.range := by
  rcases step with s | run | table | _ | n | n | _
  · exact (range_applyRows _ _).trans (range_widen _ _)
  · exact range_applyRows _ _
  · rfl
  · rfl
  · show (if _ then _ else _ : SessionState).written.range = _
    split_ifs <;> rfl
  · simp only [SessionState.step]
    split <;> rfl
  · rfl

theorem range_run_none : ∀ (steps : List SessionStep) (st : SessionState),
    st.written.range = none → (st.run steps).written.range = none
  | [], _, h => h
  | step :: steps, st, h => by
    refine range_run_none steps (st.step step) ?_
    rw [range_step]
    split
    · split_ifs
      · simp [recordRange, h]
      · exact h
    · exact h

theorem range_run_of_recordsWhole : ∀ (steps : List SessionStep) (st : SessionState),
    (∃ step ∈ steps, step.RecordsWhole) → (st.run steps).written.range = none
  | [], _, h => by simp at h
  | step :: steps, st, h => by
    obtain ⟨x, hx, hwhole⟩ := h
    rcases mem_cons.1 hx with rfl | hx
    · refine range_run_none steps _ ?_
      rw [range_step]
      rcases x with s | _ | _ | _ | _ | _ | _ <;> try exact hwhole.elim
      obtain ⟨hw, hr⟩ := hwhole
      simp only [recordRange]
      split <;> simp_all
    · exact range_run_of_recordsWhole steps _ ⟨x, hx, hwhole⟩

theorem range_run_of_not_records : ∀ (steps : List SessionStep) (st : SessionState),
    (∀ step ∈ steps, ¬ step.Records) → (st.run steps).written.range = st.written.range
  | [], _, _ => rfl
  | step :: steps, st, h => by
    have hstep := h step (by simp)
    refine (range_run_of_not_records steps _ fun x hx => h x (by simp [hx])).trans ?_
    rw [range_step]
    split
    · simp only [SessionStep.Records] at hstep
      simp [hstep]
    · rfl

end SessionState

/-- The rows and the records are these, and so they were at every savepoint behind the first `p`. -/
structure Steady (c : Contents) (w : Written) (p : ℕ) (st : SessionState) : Prop where
  contents : st.contents = c
  written : st.written = w
  depth : p ≤ st.savepoints.length
  savepoints : ∀ sp ∈ st.savepoints.drop p, sp = ⟨c, w.tables, w.commitPoint⟩

namespace SessionState

variable {c : Contents} {w : Written}

theorem applyRows_readOnly {st : SessionState} {s : SessionStmt} (hs : s.writes = false) :
    st.applyRows (s.run st.contents) = st := by
  rcases hr : s.run st.contents with e | ws
  · rfl
  · rw [s.readOnly hs _ ws hr]
    rfl

/-- By recursion on the steps; rolling back returns to a savepoint that looks the same. -/
theorem steady_run : ∀ (steps : List SessionStep) (p : ℕ) (st : SessionState),
    SessionStep.Quiet p steps → Steady c w p st → ∃ q, Steady c w q (st.run steps)
  | [], p, _, _, h => ⟨p, h⟩
  | .stmt s :: l, p, st, hq, h => by
    obtain ⟨hs, hq⟩ := hq
    have hstep : st.step (.stmt s) = st := by
      rw [step, widen_of_not_writes _ hs]
      exact applyRows_readOnly hs
    show ∃ q, Steady c w q ((st.step (.stmt s)).run l)
    rw [hstep]
    exact steady_run l p st hq h
  | .savepoint :: l, p, st, hq, h => by
    refine steady_run l p (st.step .savepoint) hq ⟨h.contents, h.written, ?_, ?_⟩
    · have := h.depth
      simp only [step, length_append]
      omega
    · intro sp hsp
      simp only [step, drop_append_of_le_length h.depth] at hsp
      rcases mem_append.1 hsp with hsp | hsp
      · exact h.savepoints sp hsp
      · rw [mem_singleton.1 hsp, h.contents, h.written]
  | .release n :: l, p, st, hq, h => by
    refine steady_run l (min p n) (st.step (.release n)) hq ?_
    by_cases hn : n < st.savepoints.length
    · simp only [step, hn, if_true]
      refine ⟨h.contents, h.written, ?_, fun sp hsp => ?_⟩
      · simp only [length_take]
        omega
      · by_cases hp : p ≤ n
        · rw [min_eq_left hp] at hsp
          exact h.savepoints sp (mem_of_mem_take (drop_take .. ▸ hsp))
        · rw [min_eq_right (by omega)] at hsp
          simp at hsp
    · simp only [step, hn]
      have hp : min p n = p := by have := h.depth; omega
      rw [hp]
      exact h
  | .rollbackTo n :: l, p, st, hq, h => by
    obtain ⟨hp, hq⟩ := hq
    refine steady_run l p (st.step (.rollbackTo n)) hq ?_
    simp only [step]
    rcases hsp : st.savepoints[n]? with _ | sp
    · exact h
    · obtain ⟨hn, hget⟩ := List.getElem?_eq_some_iff.1 hsp
      have hmem : sp ∈ st.savepoints.drop p := by
        refine mem_iff_getElem.2 ⟨n - p, by simp only [length_drop]; omega, ?_⟩
        simp only [getElem_drop, ← hget]
        congr 1
        omega
      have hold := h.savepoints sp hmem
      refine ⟨by rw [hold], ?_, ?_, fun x hx => ?_⟩
      · rw [hold]
        simp only [← h.written]
      · simp only [length_take]
        omega
      · exact h.savepoints x (mem_of_mem_take (drop_take .. ▸ hx))

end SessionState

/-- The value an argument instruction pushes when the program runs. -/
def ExprProgram.arg (prog : ExprProgram) (params : List Value) : Instr → Option Value
  | .pushConst k => prog.consts[k]?
  | .pushParam p => params[p]?
  | _ => none

theorem evalInstr_arg (callScalar : ℕ → List Value → Except Error Value) {prog : ExprProgram}
    {params : List Value} {row : Row} {stack : List Value} {i : Instr} {v : Value}
    (h : prog.arg params i = some v) :
    evalInstr callScalar prog.consts row params stack i = .ok (v :: stack) := by
  cases i <;> simp_all [ExprProgram.arg, evalInstr]

variable {col : ℕ}

theorem eval_splice (callScalar : ℕ → List Value → Except Error Value) {prog : ExprProgram}
    {params : List Value} {row : Row} {i₁ i₂ i₃ : Instr} {base a r ins : Value}
    (hprog : prog.instrs = [.pushCol col, i₁, i₂, i₃, .splice]) (hbase : row[col]? = some base)
    (ha : prog.arg params i₁ = some a) (hr : prog.arg params i₂ = some r)
    (hi : prog.arg params i₃ = some ins) :
    prog.eval callScalar row params = spliceValue base a r ins := by
  have hcol : evalInstr callScalar prog.consts row params [] (.pushCol col) = .ok [base] := by
    simp [evalInstr, hbase]
  have hrun : prog.instrs.foldlM (evalInstr callScalar prog.consts row params) [] =
      (spliceValue base a r ins).map (· :: []) := by
    rw [hprog]
    simp only [foldlM_cons, hcol, evalInstr_arg callScalar ha, evalInstr_arg callScalar hr,
      evalInstr_arg callScalar hi, bind, Except.bind]
    simp only [evalInstr]
    cases spliceValue base a r ins <;> rfl
  unfold ExprProgram.eval
  rw [hrun]
  cases spliceValue base a r ins <;> rfl

/-- The value after a splice, on its bytes. -/
theorem bytes_spliceValue {base ins v : Value} {a r : Int64} {b i : List UInt8}
    (hb : base.bytes = some b) (hi : ins.bytes = some i)
    (h : spliceValue base (.int a) (.int r) ins = .ok v) :
    0 ≤ a.toInt ∧ 0 ≤ r.toInt ∧ a.toInt.toNat + r.toInt.toNat ≤ b.length ∧
      v.bytes = some (b.take a.toInt.toNat ++ i ++ b.drop (a.toInt.toNat + r.toInt.toNat)) := by
  have hbn : base.isNull = false := by cases base <;> simp_all [Value.bytes, Value.isNull]
  have hin : ins.isNull = false := by cases ins <;> simp_all [Value.bytes, Value.isNull]
  have hnull : (base.isNull || (Value.int a).isNull || (Value.int r).isNull || ins.isNull) =
      false := by
    rw [hbn, hin]
    rfl
  simp only [spliceValue, hnull, hb, hi, spliceInt, bind, Except.bind, Bool.false_eq_true,
    if_false] at h
  split_ifs at h with hneg hlen
  refine ⟨by omega, by omega, by omega, ?_⟩
  rcases base with _ | _ | _ | _ | s | _ | _ | _ | _ | _ <;> simp only [Value.bytes] at hb <;>
    try cases hb
  · simp only [spliceText] at h
    split_ifs at h
    split at h
    · rename_i t ht
      cases h
      simp only [String.fromUTF8?, Option.dite_none_right_eq_some, Option.some.injEq] at ht
      obtain ⟨_, rfl⟩ := ht
      simp [Value.bytes, String.fromUTF8]
    · cases h
  · cases h
    rfl

/-- The statement is the splice of one cell that holds bytes: its plan names the row and the column
alone, its arguments read the same in the plan and in the program, and it goes through. -/
structure SplicesCell (callScalar : ℕ → List Value → Except Error Value) (s : SessionStmt)
    (c : Contents) (table : ℕ) (key : List UInt8) (col : ℕ) : Prop where
  writes : s.writes = true
  namesKey : s.key = some (keyHash key)
  namesCol : s.cols = some [col]
  holdsBytes : (c.cell table key col).isSome
  goes : ∃ ws, s.run c = .ok ws
  splice : ∃ clause i₁ i₂ i₃ a r ins i, s.set = some clause ∧ clause.col = col ∧
    clause.prog.instrs = [.pushCol col, i₁, i₂, i₃, .splice] ∧
    s.run c = runUpdate callScalar table (fun _ => [key]) col clause.prog s.params c ∧
    clause.prog.arg s.params i₁ = some (.int a) ∧ clause.prog.arg s.params i₂ = some (.int r) ∧
    clause.prog.arg s.params i₃ = some ins ∧ ins.bytes = some i ∧ i.length < 2 ^ 63 ∧
    ∀ x ∈ [i₁, i₂, i₃], clause.constOrParam s.params x = clause.prog.arg s.params x

variable {s : SessionStmt}

/-- What the run of a splice statement reads, writes and records. -/
theorem SplicesCell.spec {callScalar : ℕ → List Value → Except Error Value}
    {c : Contents} {table : ℕ} {key : List UInt8} (h : SplicesCell callScalar s c table key col) :
    ∃ (row : Row) (v : Value) (b i : List UInt8) (a r : ℕ),
      s.run c = .ok [⟨table, key, some (row.set col v)⟩] ∧ col < row.length ∧ c.cell table key col =
        some b ∧ a + r ≤ b.length ∧ r < 2 ^ 63 ∧
      i.length < 2 ^ 63 ∧ v.bytes = some (b.take a ++ i ++ b.drop (a + r)) ∧
      s.range = (if a + r < 2 ^ 32 then some (a, a + r) else none) ∧
      s.delta = some ((i.length : ℤ) - r) := by
  obtain ⟨clause, i₁, i₂, i₃, a, r, ins, i, hset, hcol, hprog, hrun, ha, hr, hi, hins, hlen,
    hpool⟩ := h.splice
  obtain ⟨b, hb⟩ := Option.isSome_iff_exists.1 h.holdsBytes
  obtain ⟨row, hrow, hcell⟩ := Option.bind_eq_some_iff.1 hb
  obtain ⟨base, hbase, hbytes⟩ := Option.bind_eq_some_iff.1 hcell
  have heval := eval_splice callScalar hprog hbase ha hr hi
  have hupdate : s.run c = (spliceValue base (.int a) (.int r) ins).map
      fun v => [⟨table, key, some (row.set col v)⟩] := by
    rw [hrun, runUpdate, filterMapM_cons, hrow]
    simp only [heval]
    cases spliceValue base (.int a) (.int r) ins <;> rfl
  obtain ⟨ws, hws⟩ := h.goes
  rcases hv : spliceValue base (.int a) (.int r) ins with e | v
  · rw [hupdate, hv] at hws
    cases hws
  obtain ⟨ha0, hr0, hle, hvb⟩ := bytes_spliceValue hbytes hins hv
  have hlooks : clause.looksSpliced = true := by
    simp [SetClause.looksSpliced, hprog, hcol]
  have h₁ := (hpool i₁ (by simp)).trans ha
  have h₂ := (hpool i₂ (by simp)).trans hr
  have h₃ := (hpool i₃ (by simp)).trans hi
  have hrmax : r.toInt < 2 ^ 63 := Int64.toInt_lt r
  refine ⟨row, v, b, i, a.toInt.toNat, r.toInt.toNat, by rw [hupdate, hv]; rfl, ?_, hb, hle,
    by omega, hlen, hvb, ?_, ?_⟩
  · exact (List.getElem?_eq_some_iff.1 hbase).1
  · rw [SessionStmt.range, hset, Option.bind_some, SetClause.planRange, hlooks, hprog]
    simp only [h₁, h₂, SetClause.nonNegative, ha0, hr0, guard, List.getElem?_cons_succ,
      List.getElem?_cons_zero, Option.bind_eq_bind, Option.bind_some, if_true]
    by_cases hfit : a.toInt.toNat + r.toInt.toNat < 2 ^ 32
    · rw [if_pos ⟨by omega, by omega, hfit⟩, if_pos hfit]
      rfl
    · rw [if_neg (fun h => hfit h.2.2), if_neg hfit]
      rfl
  · rw [SessionStmt.delta, hset, Option.bind_some, SetClause.planDelta, hlooks, hprog]
    simp [h₂, h₃, SetClause.nonNegative, hr0, hins, guard]

theorem widen_fresh {key : BitVec 64} {d : ℤ} (hw : s.writes = true)
    (hkey : s.key = some key) (hcol : s.cols = some [col]) (hd : s.delta = some d) :
    fresh.widen s =
      { tables := 0, commitPoint := none, regions := regionBit key, keys := some [key]
        range := (fresh.recordRange s.range).range, delta := saturatingAdd 0 d
        cols := foldBit col, shard := s.shard, shardSeen := true } := by
  simp [widen, hw, hkey, hcol, hd, recordKey, recordCols, recordCol,
    recordDelta, recordShard, fresh, addKey, ofpMaxKeys,
    recordRange]

/-- Two ids are folded to one bit only if they agree below 64. -/
theorem mod_eq_of_foldBit {a b : ℕ} (h : foldBit a &&& foldBit b ≠ 0#64) : a % 64 = b % 64 := by
  by_contra hne
  refine h (BitVec.eq_of_getLsbD_eq fun i hi => ?_)
  simp only [foldBit]
  by_contra hbits
  simp at hbits
  omega

theorem keyHash_ne_zero (key : List UInt8) : keyHash key ≠ 0#64 := by
  intro h
  have hbit := congrArg (fun b => b.getLsbD 0) h
  simp [keyHash] at hbit

/-- What a session must be for its published range to be true of the cell `(table', key', col')`. -/
inductive SpeaksTrue (callScalar : ℕ → List Value → Except Error Value) (c : Contents)
    (steps : List SessionStep) (table' : ℕ) (key' : List UInt8) (col' : ℕ) : Prop
  /-- A recorded write that names no range. -/
  | whole : (∃ step ∈ steps, step.RecordsWhole) → SpeaksTrue callScalar c steps table' key' col'
  /-- No table: no row has changed, or every change has been rolled back. -/
  | empty : ((SessionState.start c).run steps).written.footprint.tableBits = 0#64 →
      SpeaksTrue callScalar c steps table' key' col'
  /-- No recorded write. -/
  | silent : (∀ step ∈ steps, ¬ step.Records) → SpeaksTrue callScalar c steps table' key' col'
  /-- One write, the splice of a cell that no other cell is taken for, never rolled back. -/
  | spliced (before after : List SessionStep) (s : SessionStmt) (table : ℕ) (key : List UInt8)
      (col : ℕ) : steps = before ++ .stmt s :: after → SessionStep.Quiet 0 before →
      SplicesCell callScalar s c table key col →
      SessionStep.Quiet ((SessionState.start c).run before).savepoints.length after →
      (table' % 64 = table % 64 → keyHash key' = keyHash key → col' % 64 = col % 64 →
        table' = table ∧ key' = key ∧ col' = col) →
      SpeaksTrue callScalar c steps table' key' col'

variable {w : Written}

theorem footprint_range_of_none (h : w.range = none) :
    w.footprint.range = rangeAny := by
  simp [footprint, h]

/-- A session with one writing statement records what this statement records. -/
theorem run_one_write {c : Contents} {before after : List SessionStep}
    {ws : List RowWrite} (hbefore : SessionStep.Quiet 0 before) (hws : s.run c = .ok ws)
    (hafter : SessionStep.Quiet ((start c).run before).savepoints.length after) :
    ((start c).run (before ++ .stmt s :: after)).contents = c.writeAll ws ∧
      ((start c).run (before ++ .stmt s :: after)).written =
        ws.foldl (fun w x => w.markTable x.table) (fresh.widen s) := by
  obtain ⟨q, hq⟩ := steady_run (c := c) (w := fresh) before 0 (.start c)
    hbefore ⟨rfl, rfl, Nat.zero_le _, by simp [start]⟩
  have hsplit : (start c).run (before ++ .stmt s :: after) =
      (((start c).run before).step (.stmt s)).run after := by
    simp [run]
  generalize (start c).run before = st at *
  have hstep : st.step (.stmt s) =
      { st with contents := c.writeAll ws
                written := ws.foldl (fun w x => w.markTable x.table) (fresh.widen s) } := by
    simp only [step, hq.contents, hq.written, hws, applyRows]
  obtain ⟨q', hq'⟩ := steady_run after _ (st.step (.stmt s)) hafter
    ⟨rfl, rfl, by rw [hstep], by simp [hstep]⟩
  rw [hsplit, hq'.contents, hq'.written, hstep]
  exact ⟨rfl, rfl⟩

/-- A footprint with one key touches only cells of that key. -/
theorem key_of_touches {ring : OptRing} {t : ℕ} {fp : CommitFootprint} {cell : CellEdit}
    (key : BitVec 64) (hkeys : fp.keys = some [key]) (hcell : cell.key ≠ 0#64)
    (h : (ring.optRecord t fp).touchesCell cell t = true) :
    fp.tableBits &&& cell.tableBit ≠ 0 ∧ cell.key = key ∧ fp.cols &&& cell.colBit ≠ 0 := by
  have hslot := OptRing.slot_optRecord_self ring t fp
  have hn : OptRing.exactKeys fp = 1 := by simp [OptRing.exactKeys, hkeys, ofpMaxKeys]
  have hoptKeys : (ring.optRecord t fp).optKeys t =
      some ((List.range ofpMaxKeys).map fun i => if i < 1 then key else 0) := by
    simp only [OptRing.optKeys, hslot, OptRing.recorded, hn, ofpMaxKeys]
    simp only [if_false, Nat.one_ne_zero,
      Nat.reduceLT, or_self, Option.some_inj]
    refine map_congr_left fun i _ => ?_
    by_cases hi : i = 0 <;> simp [hi, hkeys]
  simp only [OptRing.touchesCell, hslot, hoptKeys, Bool.and_eq_true,
    decide_eq_true_eq] at h
  obtain ⟨⟨⟨-, htable⟩, hkey⟩, hcols⟩ := h
  refine ⟨htable, ?_, hcols⟩
  obtain ⟨i, -, hi⟩ := mem_map.1 (contains_iff_mem.1 hkey)
  split_ifs at hi
  · exact hi.symm
  · exact absurd hi.symm hcell

theorem footprint_tableBits (h : w.commitPoint = none) :
    w.footprint.tableBits = w.tables := by
  by_cases ht : w.tables = 0#64
  · simp [footprint, summary, h, ht]
  · rcases hs : w.shard with _ | s <;> simp [footprint, summary, h, ht, hs]

theorem footprint_range_spliced {a r : ℕ}
    (h : w.range = (fresh.recordRange
      (if a + r < 2 ^ 32 then some (a, a + r) else none)).range) :
    w.footprint.range = rangeAny ∨
      w.footprint.range / 2 ^ 32 % 2 ^ 32 = a ∧ w.footprint.range % 2 ^ 32 = a + r := by
  by_cases hfit : a + r < 2 ^ 32
  · have hmin : min (2 ^ 32 - 1) a = a := by omega
    have hrange : w.footprint.range = a * 2 ^ 32 + (a + r) := by
      rw [if_pos hfit] at h
      simp only [footprint, h, recordRange, fresh, hmin, Nat.zero_max]
      rw [if_pos (by omega), packRange, if_pos ⟨by omega, hfit, by omega⟩]
    refine .inr ?_
    omega
  · rw [if_neg hfit] at h
    exact .inl (footprint_range_of_none h)

/-- The recorded range and delta are those of the splice that was run. -/
theorem truthful_of_speaksTrue {callScalar : ℕ → List Value → Except Error Value}
    {c : Contents} {steps : List SessionStep} {ring : OptRing} {t table' : ℕ} {key' : List UInt8}
    {col' : ℕ} {mine : Splice} (h : SpeaksTrue callScalar c steps table' key' col')
    (htouch : (ring.optRecord t ((SessionState.start c).run steps).written.footprint).touchesCell
      (cellEdit table' (keyHash key') col' mine) t = true) :
    Truthful ((SessionState.start c).run steps).written.footprint (c.cell table' key' col')
      (((SessionState.start c).run steps).contents.cell table' key' col') := by
  rcases h with hwhole | hempty | hsilent |
    ⟨before, after, s, table, key, col, rfl, hbefore, hs, hafter, halias⟩
  · exact .inl (footprint_range_of_none (range_run_of_recordsWhole steps _ hwhole))
  · -- a commit that names no table is not taken for one on the cell
    rw [OptRing.touchesCell, OptRing.slot_optRecord_self] at htouch
    simp [OptRing.recorded, hempty] at htouch
  · refine .inl ?_
    have hrange := range_run_of_not_records steps (.start c) hsilent
    simp only [footprint, hrange]
    simp [start, fresh]
  · obtain ⟨row, v, b, i, a, r, hrun, hcol, hcell, hle, hr, hi, hv, hrange, hdelta⟩ := hs.spec
    obtain ⟨hcontents, hwritten⟩ := run_one_write hbefore hrun hafter
    have hw := widen_fresh hs.writes hs.namesKey hs.namesCol hdelta
    simp only [foldl_cons, foldl_nil, hw, markTable] at hwritten
    rw [hcontents]
    generalize ((start c).run (before ++ .stmt s :: after)).written = w at *
    have hpoint : w.commitPoint = none := by rw [hwritten]
    have htables : w.tables = foldBit table := by rw [hwritten]; exact BitVec.zero_or
    have hkeys : w.footprint.keys = some [keyHash key] := by simp [footprint, hwritten]
    have hcols : w.footprint.cols = foldBit col := by
      simp [footprint, hwritten, foldBit_ne_zero col]
    have hd : w.footprint.delta = (i.length : ℤ) - r := by
      simp only [footprint, hwritten, saturatingAdd]
      omega
    obtain ⟨ht, hk, hc⟩ := key_of_touches (keyHash key) hkeys (keyHash_ne_zero key') htouch
    rw [footprint_tableBits hpoint, htables] at ht
    rw [hcols] at hc
    obtain ⟨rfl, rfl, rfl⟩ := halias (mod_eq_of_foldBit ht).symm hk (mod_eq_of_foldBit hc).symm
    have hcell' : (c.write ⟨table', key', some (row.set col' v)⟩).cell table' key' col' =
        some (b.take a ++ i ++ b.drop (a + r)) := by
      simp [Contents.cell, Contents.write, hcol, hv]
    have hrange' : w.range = (fresh.recordRange
        (if a + r < 2 ^ 32 then some (a, a + r) else none)).range := by
      rw [hwritten, ← hrange]
    rcases footprint_range_spliced hrange' with hany | ⟨hlo, hhi⟩
    · exact .inl hany
    · refine .inr ⟨b, _, hcell, hcell', ?_⟩
      rw [hlo, hhi, hd]
      have ha : a ≤ b.length := by omega
      have hskip : (((a + r : ℕ) : ℤ) + ((i.length : ℤ) - r)).toNat = a + i.length := by omega
      refine ⟨?_, ?_, ?_⟩
      · simp [ha]
      · simp only [length_append, length_take, length_drop]
        omega
      · rw [hskip]
        simp [drop_append, ha]

/-- A table 1 with one row, whose column 1 holds ten bytes. -/
def document : Contents := fun table key =>
  if table = 1 ∧ key = [7] then some [.int 7, .blob [0, 1, 2, 3, 4, 5, 6, 7, 8, 9]] else none

/-- No function is known. -/
def noScalar : ℕ → List Value → Except Error Value := fun _ _ => .error (.internal "no function")

/-- `UPDATE … SET col1 = splice(col1, start, $0, $1) WHERE id = 7`. The plan's constants are those
of the key, the program's those of the expression. -/
def documentSplice (start : Instr) (params : List Value) : SessionStmt where
  writes := true
  key := some (keyHash [7])
  cols := some [1]
  set := some ⟨1, ⟨[.pushCol 1, start, .pushParam 0, .pushParam 1, .splice], [.int 5]⟩, [.int 7]⟩
  shard := none
  params := params
  run := runUpdate noScalar 1 (fun _ => [[7]]) 1
    ⟨[.pushCol 1, start, .pushParam 0, .pushParam 1, .splice], [.int 5]⟩ params
  readOnly h := nomatch h

/-- Transaction 4 has put two bytes at the start of the cell. -/
def shiftedRing : OptRing :=
  OptRing.zeroed.optRecord 4
    ((Written.fresh.widen (documentSplice (.pushParam 2) [.int 0, .blob [1, 2], .int 0])).markTable
      1).footprint

/-- A splice at 3 of a cell that the session saw before transaction 4. -/
def documentCalls : List SessionCall :=
  [.other .savepoint (by simp),
    .exec 1 (documentSplice (.pushParam 2)) [.int 2, .blob [99], .int 3] none,
    .other .savepoint (by simp), .other (.rollbackTo 1) (by simp)]

/-- A session without a guard is refused the splice, a guarded one is moved to 5. -/
theorem documentCalls_steps : sessionSteps shiftedRing 4 none documentCalls =
      [.savepoint, .savepoint, .rollbackTo 1] ∧
    sessionSteps shiftedRing 4 (some (.fresh 3)) documentCalls =
      [.savepoint, .stmt (documentSplice (.pushParam 2) [.int 2, .blob [99], .int 5]), .savepoint,
        .rollbackTo 1] := by
  have hmoved : (documentSplice (.pushParam 2) [.int 2, .blob [99], .int 3]).rebaseSpliceParams
      (shiftedRing.sessionWalk 4 (some (.fresh 3)) none) 1 =
        .ok (some [.int 2, .blob [99], .int 5]) := by
    decide
  refine ⟨rfl, ?_⟩
  simp [sessionSteps, documentCalls, SessionCall.steps, hmoved]

end Mpedb
