import Mpedb.Dml
import Mpedb.Proofs.RowCalls

/-!
# Calls of a statement

In a healthy transaction the trees of every table are right, the transaction works with the indexes
of its catalog, and every index can be evaluated on every row its table may hold. Row calls keep
this, or fail and leave everything as it was, or fail at a key that is too long; the reads leave the
tables alone and find what they follow.
-/

namespace Mpedb

open Fallible

/-- A row call changes the list of indexes never, and adds no row that is not valid. -/
structure Frame (tb : TableDef) (t t' : TableTxn) : Prop where
  bundle : t'.bundle = t.bundle
  published : t'.published = t.published
  rows : ∀ pk row, t'.pk.map.lookup pk = some row →
    t.pk.map.lookup pk = some row ∨ validateRow tb row = .ok ()

section Frame

variable {h : Handle} {t t₁ t' : TableTxn}

theorem Frame.refl (tb : TableDef) (t : TableTxn) : Frame tb t t :=
  ⟨rfl, rfl, fun _ _ hl => .inl hl⟩

variable {tb : TableDef}

theorem Frame.trans (hf : Frame tb t t₁) (hf' : Frame tb t₁ t') : Frame tb t t' :=
  ⟨hf'.bundle.trans hf.bundle, hf'.published.trans hf.published, fun pk row hl =>
    (hf'.rows pk row hl).elim (hf.rows pk row) .inr⟩

theorem frame_setTree (tb : TableDef) (t : TableTxn) (i : ℕ) (tree : Tree Key) :
    Frame tb t (t.setTree i tree) := ⟨rfl, rfl, fun _ _ hl => .inl hl⟩

theorem frame_erase (tb : TableDef) (t : TableTxn) (key : Key) (n : ℕ) :
    Frame tb t { t with pk := ⟨t.pk.map.erase key, n⟩ } := by
  refine ⟨rfl, rfl, fun pk row hl => .inl ?_⟩
  simp only [SortedMap.lookup_erase] at hl
  split_ifs at hl
  exact hl

theorem frame_insert {row : Row} (hval : validateRow tb row = .ok ())
    (t : TableTxn) (key : Key) (n : ℕ) :
    Frame tb t { t with pk := ⟨t.pk.map.insert key row, n⟩ } := by
  refine ⟨rfl, rfl, fun pk row' hl => ?_⟩
  simp only [SortedMap.lookup_insert] at hl
  split_ifs at hl
  · cases hl
    exact .inr hval
  · exact .inl hl

/-- A relation between the table before and the table after that holds across every write a row call
makes for the row under `key`. -/
structure CallRel (tb : TableDef) (key : Key) (r : TableTxn → TableTxn → Prop) : Prop where
  refl : ∀ t, r t t
  trans : ∀ {t t₁ t'}, r t t₁ → r t₁ t' → r t t'
  setTree : ∀ t i tree, r t (t.setTree i tree)
  erase : ∀ t n, r t { t with pk := ⟨t.pk.map.erase key, n⟩ }
  insert : ∀ t row n, validateRow tb row = .ok () → tb.pkKey row = key →
    r t { t with pk := ⟨t.pk.map.insert key row, n⟩ }

theorem frame_callRel (tb : TableDef) (key : Key) : CallRel tb key (Frame tb) where
  refl := .refl tb
  trans := .trans
  setTree := frame_setTree tb
  erase t n := frame_erase tb t key n
  insert t _ n hval _ := frame_insert hval t key n

namespace CallRel

variable {r : TableTxn → TableTxn → Prop} {key : Key}

/-- The entries taken back are under the key of the row. -/
theorem undoPartialInsert (hr : CallRel h.table key r) (values : Row) :
    ∀ (inst : List (IndexDef × ℕ)) (t : TableTxn), r t
    (Mpedb.undoPartialInsert h key values inst t).1
  | [], t => by
    unfold Mpedb.undoPartialInsert
    split <;> rename_i hd
    · exact hr.refl t
    · cases (Prod.mk.inj hd).1
      exact hr.erase t _
  | (ix, i) :: inst, t => by
    unfold Mpedb.undoPartialInsert
    split
    · exact hr.refl t
    · exact hr.undoPartialInsert values inst t
    split
    · exact hr.refl t
    split
    · exact hr.refl t
    · exact hr.trans (hr.setTree ..) (hr.undoPartialInsert values inst _)

variable {values : Row}

theorem insertEntries (hr : CallRel h.table key r) {asExtent : Bool} :
    ∀ (ixs : List IndexDef) (i : ℕ) (inst : List (IndexDef × ℕ)) (t : TableTxn),
      r t (Mpedb.insertEntries h asExtent key values i ixs inst t).1
  | [], i, inst, t => hr.refl t
  | ix :: ixs, i, inst, t => by
    unfold Mpedb.insertEntries
    split
    · exact hr.refl t
    · exact hr.insertEntries ixs (i + 1) inst t
    split
    · exact hr.refl t
    split
    · exact hr.refl t
    · split_ifs
      · have hu := hr.undoPartialInsert values inst t
        split <;> rename_i heq <;> rw [heq] at hu <;> exact hu
      · exact hr.refl t
    · exact hr.trans (hr.setTree ..) (hr.insertEntries ixs (i + 1) _ _)

theorem eachIndex {tb : TableDef} (hr : CallRel tb key r)
    {f : IndexDef → ℕ → Option (Tree Key) → Except Error (Option (Tree Key))} :
    ∀ (ixs : List IndexDef) (i : ℕ) (t : TableTxn), r t (Mpedb.eachIndex f i ixs t).1
  | [], i, t => hr.refl t
  | ix :: ixs, i, t => by
    unfold Mpedb.eachIndex
    split
    · exact hr.refl t
    · exact hr.eachIndex ixs (i + 1) t
    · exact hr.trans (hr.setTree ..) (hr.eachIndex ixs (i + 1) _)

/-- By the calls on its trees: a call of the engine relates the table before and after it. -/
theorem insertRow (hrefl : ∀ t, r t t)
    (hr : ∀ row, h.table.generated (h.table.storeAffinity values) = .ok row →
      CallRel h.table (h.table.pkKey row) r) (t : TableTxn) :
      r t (Mpedb.insertRow h t values).1 := by
  unfold Mpedb.insertRow
  split_ifs
  · exact hrefl t
  split
  · exact hrefl t
  rename_i row hgen
  have hr := hr row hgen
  split
  · exact hr.refl t
  rename_i hval
  split
  · exact hr.refl t
  simp only []
  split
  · exact hr.refl t
  split_ifs
  · exact hr.refl t
  split
  · exact hr.refl t
  rcases btreeInsert_insertOnly t.pk.map (h.table.pkKey row) row (payloadLen h
    (h.extentThreshold.any (· < encodedLen row h.table.columns)) (encodedLen row h.table.columns))
    with ⟨msg, hi⟩ | ⟨-, hi⟩ | ⟨-, hi⟩ <;> rw [hi]
  · exact hr.refl t
  · exact hr.trans (hr.insert t row _ hval rfl) (hr.insertEntries t.bundle 0 [] _)
  · exact hr.refl t

theorem deleteByPk {pkValues : List Value}
    (hr : CallRel h.table (encodeKeySpec pkValues h.table.pkSpecs) r) (t : TableTxn) :
    r t (Mpedb.deleteByPk h t pkValues).1 := by
  unfold Mpedb.deleteByPk
  split_ifs
  · exact hr.refl t
  simp only []
  split
  · exact hr.refl t
  rename_i old _
  have he := hr.trans (hr.erase t (t.pk.count - 1)) (hr.eachIndex (f := deleteEntry h
    (encodeKeySpec pkValues h.table.pkSpecs) old) t.bundle 0 _)
  split <;> rename_i heq <;> rw [heq] at he <;> exact he

/-- As for `insertRow`; the row is replaced under its own key. -/
theorem updateByPk (hrefl : ∀ t, r t t)
    (hr : ∀ row, h.table.generated (h.table.storeAffinity values) = .ok row →
      CallRel h.table (h.table.pkKey row) r) (t : TableTxn) :
      r t (Mpedb.updateByPk h t values).1 := by
  unfold Mpedb.updateByPk
  split_ifs
  · exact hrefl t
  split
  · exact hrefl t
  rename_i new hgen
  have hr := hr new hgen
  split
  · exact hr.refl t
  rename_i hval
  simp only []
  split
  · exact hr.refl t
  rename_i old _
  split
  · exact hr.refl t
  split
  · exact hr.refl t
  split
  · exact hr.refl t
  rcases btreeInsert_upsert t.pk.map (h.table.pkKey new) new (payloadLen h
    (h.extentThreshold.any (· < encodedLen new h.table.columns)) (encodedLen new h.table.columns))
    with ⟨msg, hi⟩ | ⟨b, hi⟩ <;> rw [hi]
  · exact hr.refl t
  have he := hr.trans (hr.insert t new t.pk.count hval rfl)
    (hr.eachIndex (f := updateEntry h (h.table.pkKey new) old new) t.bundle 0 _)
  simp only []
  split <;> rename_i heq <;> rw [heq] at he <;> exact he

end CallRel

theorem insertRow_frame (t : TableTxn) (values : Row) : Frame h.table t (insertRow h t values).1 :=
  CallRel.insertRow (.refl _) (fun _ _ => frame_callRel ..) t

theorem deleteByPk_frame (t : TableTxn) (pkValues : List Value) :
    Frame h.table t (deleteByPk h t pkValues).1 := (frame_callRel ..).deleteByPk t

theorem updateByPk_frame (t : TableTxn) (values : Row) :
    Frame h.table t (updateByPk h t values).1 :=
  CallRel.updateByPk (.refl _) (fun _ _ => frame_callRel ..) t

theorem eachIndex_ok {f : IndexDef → ℕ → Option (Tree Key) → Except Error (Option (Tree Key))} :
    ∀ (ixs : List IndexDef) (i : ℕ) (t : TableTxn),
      (∀ n ix, ixs[n]? = some ix → ∃ o, f ix (i + n) (t.sec (i + n)) = .ok o) →
      (eachIndex f i ixs t).2 = .ok ()
  | [], i, t, _ => rfl
  | ix :: ixs, i, t, hf => by
    obtain ⟨o, ho⟩ := hf 0 ix rfl
    rw [add_zero] at ho
    have hrest : ∀ t₁ : TableTxn, (∀ j, i < j → t₁.sec j = t.sec j) →
        (eachIndex f (i + 1) ixs t₁).2 = .ok () := fun t₁ ht₁ =>
      eachIndex_ok ixs (i + 1) t₁ fun n ix' hix' => by
        rw [ht₁ _ (by omega), add_right_comm]
        exact hf (n + 1) ix' hix'
    simp only [eachIndex, ho]
    rcases o with _ | tree
    · exact hrest t fun _ _ => rfl
    · exact hrest _ fun j hj => by rw [setTree_sec, if_neg (by omega)]

/-- An update that finds no row has changed nothing. -/
theorem updateByPk_false {values : Row} (hr : updateByPk h t values = (t', .ok false)) :
    t' = t := by
  unfold updateByPk at hr
  split at hr
  · cases hr
  split at hr
  · cases hr
  split at hr
  · cases hr
  simp only [] at hr
  split at hr
  · cases hr
    rfl
  split at hr
  · cases hr
  split at hr
  · cases hr
  split at hr
  · cases hr
  split at hr
  · cases hr
  split at hr <;> cases hr

theorem deleteByPk_false {pkValues : List Value}
    (hr : deleteByPk h t pkValues = (t', .ok false)) : t' = t := by
  unfold deleteByPk at hr
  split at hr
  · cases hr
  simp only [] at hr
  split at hr
  · cases hr
    rfl
  split at hr <;> cases hr

theorem Value.eq_int {v : Value} (hf : v.fits .int64 = true) (hn : v.isNull = false) :
    ∃ x, v = .int x := by
  cases v <;> simp_all [Value.fits, Value.columnType, Value.isNull]

/-- A row that was validated has no NULL in a NOT NULL column. -/
theorem validateRow_notNull {row : Row} (hv : validateRow tb row = .ok ()) {i : ℕ}
    {cd : ColumnDef} (hcd : tb.columns[i]? = some cd) (hn : cd.nullable = false) :
    (row.col i).isNull = false := by
  have hcols : ∀ (vs : List Value) (cs : List ColumnDef), vs.length = cs.length →
      checkColumns tb vs cs = .ok () → ∀ i cd, cs[i]? = some cd → cd.nullable = false →
      (vs.getD i .null).isNull = false := by
    intro vs cs
    induction vs generalizing cs with
    | nil =>
      intro hlen _ i cd hcd
      rw [List.length_eq_zero_iff.1 hlen.symm] at hcd
      cases hcd
    | cons v vs ih =>
      intro hlen hc i cd hcd hn
      rcases cs with _ | ⟨c₀, cs⟩
      · cases hcd
      simp only [checkColumns] at hc
      split at hc
      · cases hc
      split at hc
      · cases hc
      rename_i hty
      rcases i with _ | i
      · cases hcd
        unfold checkType at hty
        split at hty
        · split at hty
          · cases hty
          · rename_i hnn
            simpa [hn] using hnn
        · cases hty
      · exact ih cs (Nat.succ.inj hlen) hc i cd hcd hn
  unfold validateRow at hv
  split at hv
  · cases hv
  rename_i hlen
  split at hv
  · cases hv
  · rename_i hc
    exact hcols row tb.columns (not_not.1 hlen) hc i cd hcd hn

end Frame

/-- The indexes can be evaluated on every row that fits the table, and a key expression has one
type. -/
def IndexesOK (tb : TableDef) (ixs : List IndexDef) : Prop :=
  ∀ ix ∈ ixs, (∀ row, RowOK tb row → Evaluates tb ix row) ∧
    ∀ row row', RowOK tb row → RowOK tb row' → ExprsAlike ix row row'

/-- The trees of a table are right, `ixs` are its indexes, and no row has a NULL in its primary
key. -/
structure TableHealthy (st : SchemaTable) (ixs : List IndexDef) (t : TableTxn) : Prop where
  sound : Sound st.handle t
  bundle : t.bundle = ixs
  published : t.published = ixs
  keys : ∀ pk row, t.pk.map.lookup pk = some row → ∀ i ∈ st.table.primaryKey, ∀ cd,
    st.table.columns[i]? = some cd → (row.col i).isNull = false

/-- How a row call on a healthy table ends; the results in `same` come with an unchanged table. -/
def CallEnds {α : Type} (st : SchemaTable) (ixs : List IndexDef) (same : α → Prop) (t : TableTxn) :
    TableTxn × Except Error α → Prop :=
  Fallible.Ends (fun a t' => TableHealthy st ixs t' ∧ (same a → t' = t))
    fun e t' => t' = t ∨ ∃ msg, e = .unsupported msg

section Table

variable {st : SchemaTable} {ixs : List IndexDef} {t : TableTxn}

theorem TableHealthy.callEnds {α : Type} {same : α → Prop} (hh : TableHealthy st ixs t)
    {r : TableTxn × Except Error α} (hE : Ends st.handle t r) (hF : Frame st.table t r.1)
    (hs : ∀ a, same a → r.2 = .ok a → r.1 = t) : CallEnds st ixs same t r := by
  rcases r with ⟨t', e | a⟩
  · exact hE
  · refine ⟨⟨hE, hF.bundle.trans hh.bundle, hF.published.trans hh.published,
      fun pk row hl i hi cd hcd => ?_⟩, fun ha => hs a ha rfl⟩
    rcases hF.rows pk row hl with hl | hval
    · exact hh.keys pk row hl i hi cd hcd
    · exact validateRow_notNull hval hcd (st.pk_notNull i hi cd hcd)

variable (hx : IndexesOK st.table ixs) (hh : TableHealthy st ixs t)

include hx hh

theorem TableHealthy.rowMeets (values : Row) : RowMeets st.handle t values := by
  intro row _ hval ix hix
  rw [hh.bundle] at hix
  have hr := validateRow_ok hval
  exact ⟨(hx ix hix).1 row hr, fun pk row' hl => (hx ix hix).2 row row' hr
    (hh.sound.rows pk row' hl).2⟩

theorem TableHealthy.insertRow_ends (values : Row) :
    CallEnds st ixs (fun _ => False) t (insertRow st.handle t values) :=
  hh.callEnds (Mpedb.insertRow_ends hh.sound (hh.bundle.trans hh.published.symm)
    (hh.rowMeets hx values)) (insertRow_frame t values) fun _ hf => hf.elim

theorem TableHealthy.updateByPk_ends (values : Row) :
    CallEnds st ixs (· = false) t (updateByPk st.handle t values) := by
  refine hh.callEnds (Mpedb.updateByPk_ends hh.sound (hh.bundle.trans hh.published.symm)
    (hh.rowMeets hx values)) (updateByPk_frame t values) fun b hb hr => ?_
  subst hb
  exact updateByPk_false (Prod.ext rfl hr)

omit hx in
theorem TableHealthy.deleteByPk_ends (pkValues : List Value) :
    CallEnds st ixs (· = false) t (deleteByPk st.handle t pkValues) := by
  refine hh.callEnds (Mpedb.deleteByPk_ends hh.sound (hh.bundle.trans hh.published.symm) pkValues)
    (deleteByPk_frame t pkValues) fun b hb hr => ?_
  subst hb
  exact deleteByPk_false (Prod.ext rfl hr)

omit hx in
/-- On a healthy table that can be written a delete does not fail. -/
theorem TableHealthy.deleteByPk_ok (hw : st.handle.writeBlocked = false) (pkValues : List Value) :
    ∃ b, (deleteByPk st.handle t pkValues).2 = .ok b := by
  unfold deleteByPk
  rw [if_neg (by simp [hw])]
  simp only []
  split
  · exact ⟨false, rfl⟩
  rename_i old hold
  set key := encodeKeySpec pkValues st.handle.table.pkSpecs
  have hok : (eachIndex (deleteEntry st.handle key old) 0 t.bundle
      { t with pk := ⟨t.pk.map.erase key, t.pk.count - 1⟩ }).2 = .ok () := by
    refine eachIndex_ok _ _ _ fun n ix hix => ?_
    rw [hh.bundle, ← hh.published] at hix
    obtain ⟨tree, htree, hT⟩ := hh.sound.trees n ix hix
    obtain ⟨o, ho, -⟩ := deleteEntry_spec hT hold
      (hh.sound.evaluates ix (List.mem_of_getElem? hix) key old hold) (0 + n)
    exact ⟨o, by rw [← ho, zero_add]; exact congrArg _ htree⟩
  split <;> rename_i heq <;> rw [heq] at hok
  · cases hok
  · exact ⟨true, rfl⟩

omit hx in
theorem TableHealthy.lookupIndex_ok {i : ℕ} (hi : i < ixs.length) (values : List Value) :
    ∃ o, lookupIndex st t i values = .ok o := by
  obtain ⟨tree, htree, hT⟩ := hh.sound.trees i ixs[i]
    (by rw [hh.published]; exact List.getElem?_eq_getElem hi)
  unfold lookupIndex
  rw [htree]
  simp only []
  split
  · exact ⟨_, rfl⟩
  · rename_i pk hpk
    obtain ⟨row, hrow, -⟩ := (hT.indexes _ pk).1 hpk
    rw [hrow]
    exact ⟨_, rfl⟩

omit hx in
theorem TableHealthy.uniqueVictims_ok (row : Row) : ∀ (l : List IndexDef) (i : ℕ),
    i + l.length ≤ ixs.length → ∃ pks, uniqueVictims st t row i l = .ok pks
  | [], i, _ => ⟨[], rfl⟩
  | ix :: l, i, hi => by
    rw [List.length_cons] at hi
    obtain ⟨pks, hpks⟩ := TableHealthy.uniqueVictims_ok row l (i + 1) (by omega)
    obtain ⟨o, ho⟩ := hh.lookupIndex_ok (i := i) (by omega) (ix.columns.map row.col)
    simp only [uniqueVictims]
    split
    · exact ⟨pks, hpks⟩
    · rw [ho, hpks]
      exact ⟨_, rfl⟩

omit hx in
/-- The highest key of a healthy table with a rowid decodes to an integer. -/
theorem TableHealthy.maxRowid_ok {rc : ℕ} (hrc : st.rowidAliasCol = some rc) :
    ∃ m, maxRowid t = .ok m := by
  unfold SchemaTable.rowidAliasCol at hrc
  split at hrc
  · rename_i c hpk
    split at hrc
    · rename_i hty
      obtain ⟨cd, hcd, hint⟩ := (Option.any_eq_true _ _).1 hty
      unfold maxRowid
      split
      · exact ⟨0, rfl⟩
      rename_i key row hlast
      have hl := SortedMap.mem_entries.1 (List.mem_of_getLast? hlast)
      obtain ⟨rfl, hr⟩ := hh.sound.rows key row hl
      have hnn := hh.keys _ row hl c (by rw [hpk]; exact List.mem_singleton_self c) cd hcd
      have hfit := hr.2 c cd hcd
      rw [of_decide_eq_true hint] at hfit
      obtain ⟨x, hx⟩ := Value.eq_int hfit hnn
      have hkey : st.handle.table.pkKey row = 0x01 :: encodeI64 x := by
        have hspec : st.handle.table.pkSpecs = [.forColumn .int64 cd.collation] := by
          unfold TableDef.pkSpecs
          rw [show st.handle.table.primaryKey = [c] from hpk, List.map_singleton,
            show st.handle.table.columns[c]? = some cd from hcd]
          simp only [of_decide_eq_true hint]
        unfold TableDef.pkKey
        rw [hspec, show st.handle.table.primaryKey = [c] from hpk, List.map_singleton, hx]
        simp [encodeKeySpec, encodeValueSpec, KeySpec.forColumn, encodeValueCollated, encodeValue]
      rw [hkey]
      exact ⟨_, rfl⟩
    · cases hrc
  · cases hrc

end Table

section Reads

variable (c : Context)

theorem keeps_chargeWork (n : ℕ) (which : String) : Keeps DbTxn.tables (chargeWork c n which) :=
  fun _ => rfl

theorem keeps_read {α : Type} (f : Read α) (params : List Value) :
    Keeps DbTxn.tables (f.run c params) :=
  (keeps_reading _).bind fun r => (keeps_chargeWork c r.1 _).bind fun _ => keeps_lift _

theorem keeps_scanByIndex (st : SchemaTable) (id i : ℕ) (values : List Value) :
    Keeps DbTxn.tables (scanByIndex c st id i values) := by
  unfold scanByIndex
  split
  · exact keeps_pure _
  refine (keeps_reading _).bind fun t => ?_
  split
  · exact (keeps_reading _).bind fun _ => keeps_pure _
  split
  · exact keeps_fail _
  · exact (keeps_chargeWork c _ _).bind fun _ => keeps_lift _

theorem keeps_scanRowsRaw (st : SchemaTable) (id : ℕ) : Keeps DbTxn.tables (scanRowsRaw c st id) :=
  (keeps_reading _).bind fun _ => (keeps_chargeWork c _ _).bind fun _ => keeps_pure _

theorem keeps_nextRowid (st : SchemaTable) (id : ℕ) : Keeps DbTxn.tables (nextRowid st id) := by
  refine (keeps_reading _).bind fun m => ?_
  split
  · exact keeps_pure _
  · exact (keeps_reading _).bind fun _ =>
      Keeps.bind (keeps_modify fun _ => rfl) fun _ => keeps_pure _

theorem keeps_noteRowid (st : SchemaTable) (id : ℕ) (rowid : Int64) :
    Keeps DbTxn.tables (noteRowid st id rowid) := by
  unfold noteRowid
  split
  · exact keeps_modify fun _ => rfl
  · exact keeps_pure _

theorem keeps_parentExists (r : Resolved) (key : List Value) :
    Keeps DbTxn.tables (parentExists r key) := by
  unfold parentExists
  split <;> exact (keeps_reading _).bind fun _ => keeps_pure _

theorem keeps_checkChild (id : ℕ) (row : Row) : Keeps DbTxn.tables (checkChild c id row) := by
  refine (keeps_lift _).bind fun st => keeps_foldlM (fun held fk => ?_) _ _
  unfold checkKey
  split
  · exact keeps_pure _
  refine (keeps_reading _).bind fun r => (keeps_parentExists r _).bind fun b => ?_
  split
  · exact keeps_pure _
  split
  · exact keeps_pure _
  · exact keeps_fail _

theorem keeps_childrenWithKey (id : ℕ) (child : SchemaTable) (cols : List ℕ) (key : List Value) :
    Keeps DbTxn.tables (childrenWithKey c id child cols key) := by
  unfold childrenWithKey
  split
  · exact (keeps_reading _).bind fun _ => keeps_pure _
  refine (keeps_reading _).bind fun t => ?_
  split
  · exact keeps_scanByIndex c child id _ key
  · exact (keeps_scanRowsRaw c child id).bind fun _ => (keeps_chargeWork c _ _).bind fun _ =>
      keeps_pure _

theorem keeps_guard (levels id : ℕ) (old : Row) (new : Option Row) :
    Keeps DbTxn.tables (onParentChange c levels .guard id old new) := by
  rcases levels with _ | levels
  · exact keeps_fail _
  refine (keeps_lift _).bind fun st => keeps_foldlM (fun held ref => ?_) _ _
  refine (keeps_lift _).bind fun child => ?_
  split
  · exact keeps_pure _
  refine (keeps_reading _).bind fun r => ?_
  split
  · exact keeps_pure _
  refine keeps_ite (keeps_pure _) (keeps_ite (keeps_pure _) ?_)
  refine (keeps_childrenWithKey c _ child _ _).bind fun victims => keeps_ite (keeps_pure _) ?_
  rw [if_pos rfl]
  exact keeps_ite (keeps_pure _) (keeps_fail _)

end Reads

/-- Every table of the schema is healthy, with the indexes `ixs`. -/
def Healthy (c : Context) (ixs : ℕ → List IndexDef) (tables : ℕ → TableTxn) : Prop :=
  ∀ id st, c.schema[id]? = some st → TableHealthy st (ixs id) (tables id)

/-- The indexes of every table can be evaluated on its rows. -/
def SchemaOK (c : Context) (ixs : ℕ → List IndexDef) : Prop :=
  ∀ id st, c.schema[id]? = some st → IndexesOK st.table (ixs id)

/-- The action leaves a healthy transaction healthy if it succeeds. -/
def Preserves {ε α : Type} (c : Context) (ixs : ℕ → List IndexDef) (m : Fallible DbTxn ε α) :
    Prop :=
  Triple (fun s => Healthy c ixs s.tables) m (fun _ s => Healthy c ixs s.tables) fun _ _ => True

section TxnCall

variable {c : Context} {ixs : ℕ → List IndexDef} {id : ℕ} {st : SchemaTable}

variable {ε α : Type} {m : Fallible DbTxn ε α}

theorem preserves_of_keeps (h : Keeps DbTxn.tables m) :
    Preserves c ixs m := (h.triple (Healthy c ixs)).conseq (fun _ h => h) (fun _ _ h => h)
  fun _ _ _ => trivial

theorem Preserves.bind {β : Type} {f : α → Fallible DbTxn ε β}
    (hm : Preserves c ixs m) (hf : ∀ a, Preserves c ixs (f a)) : Preserves c ixs (m >>= f) :=
  Triple.bind hm hf

theorem preserves_foldlM {β : Type} {f : β → α → Fallible DbTxn ε β}
    (h : ∀ b a, Preserves c ixs (f b a)) (l : List α) (b : β) : Preserves c ixs (l.foldlM f b) :=
  triple_foldlM (I := fun (_ : List α) (_ : β) (s : DbTxn) => Healthy c ixs s.tables)
    (fun b a _ => h b a) l b

theorem Preserves.mapFailure {ε' : Type} {f : ε → ε'}
    (hm : Preserves c ixs m) : Preserves c ixs (m.mapFailure f) := Triple.mapFailure hm

/-- What a row call does to its table, seen from the whole transaction. -/
theorem triple_onTable {same : α → Prop} {call : TableTxn → TableTxn × Except Error α}
    (hst : c.schema[id]? = some st)
    (hcall : ∀ t, TableHealthy st (ixs id) t → CallEnds st (ixs id) same t (call t))
    (C : (ℕ → TableTxn) → Prop) :
    Triple (fun s => Healthy c ixs s.tables ∧ C s.tables) (onTable id call)
      (fun a s => Healthy c ixs s.tables ∧ (same a → C s.tables))
      fun e s => (Healthy c ixs s.tables ∧ C s.tables) ∨ ∃ msg, e = .unsupported msg := by
  rintro s ⟨hs, hC⟩
  have hend := hcall _ (hs id st hst)
  have hself : ∀ t', t' = s.tables id → (s.setTable id t').tables = s.tables := by
    rintro _ rfl
    exact Function.update_eq_self ..
  unfold onTable
  rcases hc : call (s.tables id) with ⟨t', e | a⟩ <;> rw [hc] at hend
  · rcases hend with ht | hmsg
    · exact .inl ((hself t' ht).symm ▸ ⟨hs, hC⟩)
    · exact .inr hmsg
  · refine ⟨fun id' st' hst' => ?_, fun ha => (hself t' (hend.2 ha)).symm ▸ hC⟩
    by_cases heq : id' = id
    · subst heq
      cases hst.symm.trans hst'
      simpa [DbTxn.setTable] using hend.1
    · simpa [DbTxn.setTable, heq] using hs id' st' hst'

theorem preserves_onTable {same : α → Prop}
    {call : TableTxn → TableTxn × Except Error α} (hst : c.schema[id]? = some st)
    (hcall : ∀ t, TableHealthy st (ixs id) t → CallEnds st (ixs id) same t (call t)) :
    Preserves c ixs (onTable id call) :=
  (triple_onTable hst hcall fun _ => True).conseq (fun _ h => ⟨h, trivial⟩) (fun _ _ h => h.1)
    fun _ _ _ => trivial

variable (hx : SchemaOK c ixs)

include hx

/-- The child row is rewritten or removed between the two phases of its own references. -/
theorem preserves_actOn {recurse : Phase → ℕ → Row → Option Row → TxnCall (List Deferred)}
    (hrec : ∀ phase id old new, Preserves c ixs (recurse phase id old new))
    (hst : c.schema[id]? = some st) (fk : ForeignKeyDef) (action : FkAction) (deleted : Bool)
    (newKey : Option (List Value)) (held : List Deferred) (victim : Row) :
    Preserves c ixs (actOn c recurse id st fk action deleted newKey held victim) := by
  have hdown : ∀ phase new, Preserves c ixs (onChild c recurse phase id st victim new) := by
    intro phase new
    unfold onChild
    split
    · exact hrec phase id victim new
    · exact preserves_of_keeps (keeps_pure _)
  refine (preserves_of_keeps (keeps_chargeWork c _ _)).bind fun _ => ?_
  split
  · exact (hdown _ _).bind fun _ => (preserves_onTable hst fun t ht =>
      ht.deleteByPk_ends _).bind fun _ => (hdown _ _).bind fun _ =>
        preserves_of_keeps (keeps_pure _)
  · exact (hdown _ _).bind fun _ => (preserves_onTable hst fun t ht =>
      ht.updateByPk_ends (hx id st hst) _).bind fun _ => (hdown _ _).bind fun _ =>
        (preserves_of_keeps (keeps_checkChild c id _)).bind fun _ =>
          preserves_of_keeps (keeps_pure _)

/-- Whatever the reference asks for, the tables stay healthy. -/
theorem preserves_onReference {recurse : Phase → ℕ → Row → Option Row → TxnCall (List Deferred)}
    (hrec : ∀ phase id old new, Preserves c ixs (recurse phase id old new)) (phase : Phase)
    (old : Row) (new : Option Row) (held : List Deferred) (ref : ℕ × ℕ) :
    Preserves c ixs (onReference c recurse phase old new held ref) := by
  have hchild : Triple (fun s : DbTxn => Healthy c ixs s.tables) (Fallible.lift (tableOf c ref.1))
      (fun st s => c.schema[ref.1]? = some st ∧ Healthy c ixs s.tables) fun _ _ => True := by
    refine triple_lift (fun s st hs hst => ⟨?_, hs⟩) fun _ _ _ _ => trivial
    unfold tableOf at hst
    split at hst
    · split at hst
      · cases hst
      · cases hst
        assumption
    · cases hst
  have hkept : Preserves c ixs (pure held : TxnCall (List Deferred)) :=
    preserves_of_keeps (keeps_pure _)
  refine hchild.bind fun st => triple_fact fun hst => ?_
  split
  · exact hkept
  refine (preserves_of_keeps (keeps_reading _)).bind fun r => ?_
  split
  · exact hkept
  refine triple_ite hkept (triple_ite hkept ?_)
  refine (preserves_of_keeps (keeps_childrenWithKey c _ st _ _)).bind fun victims =>
    triple_ite hkept (triple_ite (preserves_of_keeps (keeps_ite (keeps_pure _) (keeps_fail _))) ?_)
  exact preserves_foldlM (preserves_actOn hx hrec hst _ _ _ _) _ _

theorem preserves_onParentChange : ∀ (levels : ℕ) (phase : Phase) (id : ℕ) (old : Row)
    (new : Option Row), Preserves c ixs (onParentChange c levels phase id old new)
  | 0, _, _, _, _ => preserves_of_keeps (keeps_fail _)
  | levels + 1, phase, _, old, new =>
    (preserves_of_keeps (keeps_lift _)).bind fun _ => preserves_foldlM
      (preserves_onReference hx (preserves_onParentChange levels) phase old new) _ _

end TxnCall

end Mpedb
