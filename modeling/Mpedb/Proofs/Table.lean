import Mpedb.Lib.DerivedIndex
import Mpedb.Lib.Transition
import Mpedb.Proofs.Keycode
import Mpedb.Table

/-!
# Row calls keep the secondary indexes

A tree is right when it is the index derived from the rows (`TreeOK`). Each call is taken tree by
tree: what it does to one tree when the row under one key is added, removed or replaced. An insert
that meets a taken key in a unique index takes its own writes back exactly (`undo_installed`).
-/

namespace Mpedb

open DerivedIndex List Option SortedMap Bool Value

variable {tb : TableDef} {ix : IndexDef} {row row' : Row} {pk pk' k : Key}

/-! ## Entries of a row -/

/-- The entry of a row in an index; a row whose evaluation fails has none. -/
def entry (tb : TableDef) (ix : IndexDef) (row : Row) (pk : Key) : Option Key :=
  match indexEntryKey tb ix row pk with
  | .ok okey => okey
  | .error _ => none

/-- The predicate and the key expressions of the index can be evaluated on the row. -/
def Evaluates (tb : TableDef) (ix : IndexDef) (row : Row) : Prop :=
  ∃ okey, indexEntryKey tb ix row [] = .ok okey

/-- The row has the width of the table and values of its columns' types. -/
def RowOK (tb : TableDef) (row : Row) : Prop :=
  row.length = tb.columns.length ∧ ∀ c cd, tb.columns[c]? = some cd → (row.col c).fits cd.ty = true

/-- The key expressions of the index give values of one type on both rows, or NULL. -/
def ExprsAlike (ix : IndexDef) (row row' : Row) : Prop :=
  ∀ src prog, some (src, prog) ∈ ix.exprs → ∀ v v', prog row = .ok v → prog row' = .ok v' →
    v.isNull = false → v'.isNull = false → v.columnType = v'.columnType

theorem ExprsAlike.symm (h : ExprsAlike ix row row') : ExprsAlike ix row' row :=
  fun src prog hm v v' hv hv' hn hn' => (h src prog hm v' v hv' hv hn' hn).symm

theorem indexEntryKey_ok {okey : Option Key} (h : indexEntryKey tb ix row pk = .ok okey)
    (pk' : Key) : ∃ okey', indexEntryKey tb ix row pk' = .ok okey' := by
  unfold indexEntryKey at h ⊢
  rcases hp : indexPredicateAdmits ix.predicate tb.name row with e | b <;> simp only [hp] at h ⊢
  · cases h
  · cases b
    · exact ⟨_, rfl⟩
    · rcases hk : keyParts ix row with e | parts <;> simp only [hk] at h ⊢
      · cases h
      · exact ⟨_, rfl⟩

theorem evaluates_of_indexEntryKey {okey : Option Key}
    (h : indexEntryKey tb ix row pk = .ok okey) : Evaluates tb ix row := indexEntryKey_ok h []

theorem Evaluates.indexEntryKey (h : Evaluates tb ix row) (pk : Key) :
    indexEntryKey tb ix row pk = .ok (entry tb ix row pk) := by
  obtain ⟨okey, h⟩ := h
  obtain ⟨okey', h'⟩ := indexEntryKey_ok h pk
  simp only [entry, h']

theorem entry_eq_some (h : entry tb ix row pk = some k) :
    ∃ parts, keyParts ix row = .ok parts ∧
      indexRowKey ix.unique parts pk (tb.indexSpecs ix) = some k := by
  unfold entry at h
  split at h
  · rename_i okey hok
    subst h
    unfold indexEntryKey at hok
    split at hok
    · cases hok
    · cases hok
    · split at hok
      · cases hok
      · rename_i parts hparts
        exact ⟨parts, hparts, Except.ok.inj hok⟩
  · cases h

theorem entry_unique (hu : ix.unique = true) (pk pk' : Key) :
    entry tb ix row pk = entry tb ix row pk' := by
  unfold entry indexEntryKey indexRowKey
  rw [hu]
  rfl

/-- The checks of a row go over its columns; none of them misses one. -/
theorem validateRow_ok (h : validateRow tb row = .ok ()) : RowOK tb row := by
  have hcols : ∀ (vs : List Value) (cs : List ColumnDef), checkColumns tb vs cs = .ok () →
      ∀ c cd, cs[c]? = some cd → (vs.getD c .null).fits cd.ty = true := by
    intro vs cs
    induction vs generalizing cs with
    | nil =>
      intro _ c cd _
      simp [fits, columnType]
    | cons v vs ih =>
      intro h c cd hc
      cases cs with
      | nil => simp at hc
      | cons c₀ cs =>
        simp only [checkColumns] at h
        split at h
        · cases h
        · split at h
          · cases h
          · rename_i hty
            cases c with
            | zero =>
              cases hc
              unfold checkType at hty
              split_ifs at hty with hf
              exact hf
            | succ c => exact ih cs h c cd hc
  unfold validateRow at h
  split_ifs at h with hlen
  split at h
  · cases h
  · rename_i hc
    exact ⟨by simpa using hlen, hcols row tb.columns hc⟩

/-! ## Keys of two rows -/

/-- Two values of one column are encoded in the same way. -/
theorem alike_col (hr : RowOK tb row) (hr' : RowOK tb row') {c : ℕ}
    (hn : (row.col c).isNull = false) (hn' : (row'.col c).isNull = false)
    (coll : ColumnDef → Collation) :
    Alike (match tb.columns[c]? with
      | none => {}
      | some cd => .forColumn cd.ty (coll cd)) (row.col c) (row'.col c) := by
  rcases hc : tb.columns[c]? with _ | cd
  · -- past the last column there is no value
    have hlen : row.length ≤ c := by rw [hr.1]; exact List.getElem?_eq_none_iff.1 hc
    have : row.col c = .null := by simp [Row.col, getD_eq_getElem?_getD, hlen]
    rw [this] at hn
    cases hn
  · have h := hr.2 c cd hc
    have h' := hr'.2 c cd hc
    by_cases hany : cd.ty = .any
    · exact .inl (by simp [KeySpec.forColumn, hany])
    · right
      have typed : ∀ v : Value, v.fits cd.ty = true → v.isNull = false →
          v.columnType = some cd.ty := by
        intro v hf hv
        rcases hty : v.columnType with _ | ty
        · rw [isNull_of_columnType hty] at hv
          cases hv
        · simpa [fits, hany, hty] using hf
      rw [typed _ h hn, typed _ h' hn']

theorem allAlike_cols (hr : RowOK tb row) (hr' : RowOK tb row') :
    ∀ (cols : List ℕ) (coll : ℕ → ColumnDef → Collation),
    (cols.map row.col).any isNull = false → (cols.map row'.col).any isNull = false →
    AllAlike (cols.mapIdx fun k c => match tb.columns[c]? with
      | none => {}
      | some cd => .forColumn cd.ty (coll k cd)) (cols.map row.col) (cols.map row'.col)
  | [], _, _, _ => trivial
  | c :: cols, coll, hn, hn' => by
    simp only [map_cons, any_cons, or_eq_false_iff] at hn hn'
    rw [mapIdx_cons]
    exact ⟨alike_col hr hr' hn.1 hn'.1 (coll 0),
      allAlike_cols hr hr' cols (fun k => coll (k + 1)) hn.2 hn'.2⟩

/-- The parts of an expression key are alike if each program gives values of one type. -/
theorem allAlike_exprs (hr : RowOK tb row) (hr' : RowOK tb row') :
    ∀ (es : List (Option (String × Program))) (cols : List ℕ) (coll : ℕ → ColumnDef → Collation)
      {ps ps' : List Value},
    (∀ src prog, some (src, prog) ∈ es → ∀ v v', prog row = .ok v → prog row' = .ok v' →
      v.isNull = false → v'.isNull = false → v.columnType = v'.columnType) →
    exprParts row cols es = .ok ps → exprParts row' cols es = .ok ps' →
    ps.any isNull = false → ps'.any isNull = false →
    AllAlike (cols.mapIdx fun k c => match tb.columns[c]? with
      | none => {}
      | some cd => .forColumn cd.ty (coll k cd)) ps ps'
  | [], cols, coll, ps, ps', _, hp, hp', _, _ => by
    cases hp
    cases hp'
    exact trivial
  | none :: es, cols, coll, ps, ps', he, hp, hp', hn, hn' => by
    simp only [exprParts] at hp hp'
    split at hp
    · cases hp
    · split at hp'
      · cases hp'
      · rename_i vs hvs _ vs' hvs'
        cases hp
        cases hp'
        rw [any_cons, or_eq_false_iff] at hn hn'
        cases cols with
        | nil => exact absurd hn.1 (by simp [isNull])
        | cons c cols =>
          rw [mapIdx_cons]
          exact ⟨alike_col hr hr' hn.1 hn'.1 (coll 0), allAlike_exprs hr hr' es cols
            (fun k => coll (k + 1)) (fun src prog hm => he src prog (mem_cons_of_mem _ hm))
            hvs hvs' hn.2 hn'.2⟩
  | some (src, prog) :: es, cols, coll, ps, ps', he, hp, hp', hn, hn' => by
    simp only [exprParts] at hp hp'
    split at hp
    · cases hp
    · split at hp
      · cases hp
      · split at hp'
        · cases hp'
        · split at hp'
          · cases hp'
          · rename_i v hv _ vs hvs _ v' hv' _ vs' hvs'
            cases hp
            cases hp'
            rw [any_cons, or_eq_false_iff] at hn hn'
            have halike := he src prog (mem_cons_self ..) v v' hv hv' hn.1 hn'.1
            have hrest := fun src prog hm => he src prog (mem_cons_of_mem _ hm)
            cases cols with
            | nil => exact ⟨.inr halike, allAlike_exprs hr hr' es [] coll hrest hvs hvs' hn.2 hn'.2⟩
            | cons c cols =>
              rw [mapIdx_cons]
              exact ⟨.inr halike, allAlike_exprs hr hr' es cols (fun k => coll (k + 1)) hrest hvs
                hvs' hn.2 hn'.2⟩

theorem clear_pkKey (tb : TableDef) (row : Row) : Code.Clear 0xff (tb.pkKey row) := by
  have hnil : Code.Clear (0xff : UInt8) [] := Code.clear_nil
  have := clear_encodeKeySpec (tb.primaryKey.map row.col) tb.pkSpecs hnil
  rwa [append_nil] at this

theorem entry_pk_inj (hu : ix.unique = false) (hr : RowOK tb row) (hr' : RowOK tb row')
    (he : ExprsAlike ix row row') (h : entry tb ix row (tb.pkKey row) = some k)
    (h' : entry tb ix row' (tb.pkKey row') = some k) : tb.pkKey row = tb.pkKey row' := by
  obtain ⟨ps, hps, hk⟩ := entry_eq_some h
  obtain ⟨ps', hps', hk'⟩ := entry_eq_some h'
  rw [hu] at hk hk'
  refine indexRowKey_pk_inj ?_ (clear_pkKey tb row) (clear_pkKey tb row') hk hk'
  have hn := (indexRowKey_eq_some.1 hk).1
  have hn' := (indexRowKey_eq_some.1 hk').1
  unfold keyParts at hps hps'
  split_ifs at hps hps'
  · cases hps
    cases hps'
    exact allAlike_cols hr hr' ix.columns (fun k cd => (ix.collations[k]?.join).getD cd.collation)
      hn hn'
  · exact allAlike_exprs hr hr' ix.exprs ix.columns
      (fun k cd => (ix.collations[k]?.join).getD cd.collation) he hps hps' hn hn'

/-! ## An update that does not move the key -/

theorem Value.eq_null {v : Value} (h : v.isNull = true) : v = .null := by
  cases v with
  | null => rfl
  | _ => cases h

/-- Columns that compare equal under their collations have the same key bytes. -/
theorem encodeKeySpec_of_not_changed (old new : Row) : ∀ (cols : List ℕ) (specs : List KeySpec),
    cols.length = specs.length →
    ((cols.zip specs).any fun (c, spec) => match old[c]?, new[c]? with
      | some o, some n => !indexValueEqual o n spec
      | _, _ => true) = false →
    (cols.map old.col).any isNull = (cols.map new.col).any isNull ∧
      encodeKeySpec (cols.map old.col) specs = encodeKeySpec (cols.map new.col) specs
  | [], _, _, _ => ⟨rfl, rfl⟩
  | c :: cols, [], hl, _ => by cases hl
  | c :: cols, spec :: specs, hl, h => by
    rw [zip_cons_cons, any_cons, or_eq_false_iff] at h
    obtain ⟨hrest, henc⟩ := encodeKeySpec_of_not_changed old new cols specs (by simpa using hl) h.2
    have hcol : (old.col c).isNull = (new.col c).isNull ∧
        encodeValueSpec (old.col c) spec = encodeValueSpec (new.col c) spec := by
      have h₁ := h.1
      rcases ho : old[c]? with _ | o <;> rcases hn : new[c]? with _ | n <;>
        simp only [ho, hn, true_eq_false] at h₁
      have hoc : old.col c = o := by simp [Row.col, getD_eq_getElem?_getD, ho]
      have hnc : new.col c = n := by simp [Row.col, getD_eq_getElem?_getD, hn]
      rw [hoc, hnc]
      unfold indexValueEqual at h₁
      rcases hno : o.isNull <;> rcases hnn : n.isNull <;> simp only [hno, hnn] at h₁
      · exact ⟨rfl, by simpa using h₁⟩
      · cases h₁
      · cases h₁
      · rw [eq_null hno, eq_null hnn]
        exact ⟨rfl, rfl⟩
    simp only [map_cons, any_cons, encodeKeySpec, headD_cons, tail_cons]
    exact ⟨by rw [hcol.1, hrest], by rw [hcol.2, henc]⟩

theorem entry_of_not_changed {old new : Row} (he : ix.exact = false)
    (h : keyChanged tb ix old new = false) (pk : Key) :
    entry tb ix old pk = entry tb ix new pk := by
  unfold IndexDef.exact at he
  simp only [or_eq_false_iff, isSome_eq_false_iff, isNone_iff_eq_none,
    not_eq_false', List.isEmpty_iff] at he
  obtain ⟨hn, henc⟩ := encodeKeySpec_of_not_changed old new ix.columns (tb.indexSpecs ix)
    (by simp [TableDef.indexSpecs]) h
  unfold entry indexEntryKey keyParts indexPredicateAdmits indexRowKey
  rw [he.1, he.2]
  simp only [isEmpty_nil, if_true, hn, henc]

/-! ## One tree -/

/-- The tree of an index holds exactly the entries of the rows, and their number is stored. -/
structure TreeOK (tb : TableDef) (ix : IndexDef) (rows : SortedMap Key Row) (tree : Tree Key) :
    Prop where
  count : tree.count = tree.map.size
  indexes : Indexes (entry tb ix) rows.lookup tree.map.lookup

section Tree

variable {rows rows' : SortedMap Key Row} {tree : Tree Key}

theorem entryAt_of_lookup (tb : TableDef) (ix : IndexDef) (h : rows.lookup pk = some row) :
    entryAt (entry tb ix) rows.lookup pk = entry tb ix row pk := by simp [entryAt, h]

theorem entryAt_of_none (h : rows.lookup pk = none) :
    entryAt (entry tb ix) rows.lookup pk = none := by simp [entryAt, h]

section

variable (hT : TreeOK tb ix rows tree)

include hT

theorem TreeOK.keep
    (hrows : ∀ pk', pk' ≠ pk → rows'.lookup pk' = rows.lookup pk')
    (he : entryAt (entry tb ix) rows'.lookup pk = entryAt (entry tb ix) rows.lookup pk) :
    TreeOK tb ix rows' tree := by
  refine ⟨hT.count, hT.indexes.reenter hrows (fun k hk pk' hpk' => ?_) fun k => ?_⟩
  · have := (indexes_iff.1 hT.indexes k pk).2 (he ▸ hk)
    exact Option.some.inj (hpk'.symm.trans this)
  · rw [he]
    split_ifs with hk
    · exact (indexes_iff.1 hT.indexes k pk).2 hk
    · rfl

theorem TreeOK.add
    (hrows : ∀ pk', pk' ≠ pk → rows'.lookup pk' = rows.lookup pk')
    (hold : entryAt (entry tb ix) rows.lookup pk = none)
    (hnew : entryAt (entry tb ix) rows'.lookup pk = some k) (hk : tree.map.lookup k = none) :
    TreeOK tb ix rows' ⟨tree.map.insert k pk, tree.count + 1⟩ := by
  refine ⟨?_, hT.indexes.reenter hrows (fun k' hk' pk' hpk' => ?_) fun k' => ?_⟩
  · rw [size_insert hk, hT.count]
  · rw [hnew, Option.some.injEq] at hk'
    rw [← hk', hk] at hpk'
    cases hpk'
  · rw [lookup_insert, hnew, hold]
    simp only [Option.some.injEq, reduceCtorEq, if_false]
    split_ifs with h₁ h₂ h₂
    · rfl
    · exact absurd h₁.symm h₂
    · exact absurd h₂.symm h₁
    · rfl

theorem TreeOK.lookup_entry
    (h : entryAt (entry tb ix) rows.lookup pk = some k) : tree.map.lookup k = some pk :=
  (indexes_iff.1 hT.indexes k pk).2 h

theorem TreeOK.remove
    (hrows : ∀ pk', pk' ≠ pk → rows'.lookup pk' = rows.lookup pk')
    (hold : entryAt (entry tb ix) rows.lookup pk = some k)
    (hnew : entryAt (entry tb ix) rows'.lookup pk = none) :
    TreeOK tb ix rows' ⟨tree.map.erase k, tree.count - 1⟩ := by
  refine ⟨?_, hT.indexes.reenter hrows (fun k' hk' => by rw [hnew] at hk'; cases hk') fun k' => ?_⟩
  · have := size_erase (m := tree.map) (k := k) (by rw [hT.lookup_entry hold]; simp)
    have := hT.count
    show tree.count - 1 = (tree.map.erase k).size
    omega
  · rw [lookup_erase, hnew, hold]
    simp only [Option.some.injEq, reduceCtorEq, if_false]
    split_ifs with h₁ h₂ h₂
    · rfl
    · exact absurd h₁.symm h₂
    · exact absurd h₂.symm h₁
    · rfl

theorem TreeOK.fresh (hu : ix.unique = false)
    (hkeys : ∀ pk row, rows.lookup pk = some row → pk = tb.pkKey row ∧ RowOK tb row)
    (halike : ∀ pk row', rows.lookup pk = some row' → ExprsAlike ix row row') (hr : RowOK tb row)
    (hpk : rows.lookup (tb.pkKey row) = none) (he : entry tb ix row (tb.pkKey row) = some k) :
    tree.map.lookup k = none := by
  rcases hl : tree.map.lookup k with _ | pk'
  · rfl
  · obtain ⟨row', hrow', he'⟩ := (hT.indexes k pk').1 hl
    obtain ⟨rfl, hr'⟩ := hkeys pk' row' hrow'
    rw [entry_pk_inj hu hr hr' (halike _ row' hrow') he he'] at hpk
    rw [hpk] at hrow'
    cases hrow'

end

end Tree

/-! ## The loops over the indexes -/

theorem setTree_sec (t : TableTxn) (i j : ℕ) (tree : Tree Key) :
    (t.setTree i tree).sec j = if j = i then some tree else t.sec j := by
  simp only [TableTxn.setTree, Function.update_apply]

/-- What the loop does if `f` turns every tree into one that is right, or fails for a key that is
too long. -/
theorem eachIndex_spec {f : IndexDef → ℕ → Option (Tree Key) → Except Error (Option (Tree Key))}
    {P : IndexDef → Tree Key → Prop} : ∀ (ixs : List IndexDef) (i : ℕ) (t : TableTxn),
    (∀ n ix, ixs[n]? = some ix → ∃ tree, t.sec (i + n) = some tree ∧
      ((∃ o, f ix (i + n) (some tree) = .ok o ∧ P ix (o.getD tree)) ∨
        ∃ msg, f ix (i + n) (some tree) = .error (.unsupported msg))) →
    ∃ t' r, eachIndex f i ixs t = (t', r) ∧ t'.pk = t.pk ∧ t'.bundle = t.bundle ∧
      t'.published = t.published ∧ (∀ j < i, t'.sec j = t.sec j) ∧
      ((r = .ok () ∧ ∀ n ix, ixs[n]? = some ix → ∃ tree, t'.sec (i + n) = some tree ∧ P ix tree) ∨
        ∃ msg, r = .error (.unsupported msg))
  | [], i, t, _ => ⟨t, .ok (), rfl, rfl, rfl, rfl, fun _ _ => rfl, .inl ⟨rfl, by simp⟩⟩
  | ix :: ixs, i, t, h => by
    obtain ⟨tree, htree, hf⟩ := h 0 ix rfl
    simp only [add_zero] at htree hf
    rcases hf with ⟨o, ho, hP⟩ | ⟨msg, hmsg⟩
    · -- the state for the rest of the loop, with the tree of this index as `f` leaves it
      obtain ⟨t₁, ht₁, hpk, hb, hp, hsec⟩ : ∃ t₁, eachIndex f i (ix :: ixs) t =
          eachIndex f (i + 1) ixs t₁ ∧ t₁.pk = t.pk ∧ t₁.bundle = t.bundle ∧
          t₁.published = t.published ∧
          ∀ j, t₁.sec j = if j = i then some (o.getD tree) else t.sec j := by
        rcases o with _ | tree'
        · refine ⟨t, by simp only [eachIndex, htree, ho], rfl, rfl, rfl, fun j => ?_⟩
          split_ifs with hj
          · rw [hj, htree]
            rfl
          · rfl
        · exact ⟨t.setTree i tree', by simp only [eachIndex, htree, ho], rfl, rfl, rfl,
            fun j => setTree_sec ..⟩
      rw [ht₁]
      obtain ⟨t', r, heq, hpk', hb', hp', hlt, hr⟩ :=
        eachIndex_spec (f := f) (P := P) ixs (i + 1) t₁
        (fun n ix' hix' => by
          rw [hsec, if_neg (by omega), show i + 1 + n = i + (n + 1) by omega]
          exact h (n + 1) ix' hix')
      refine ⟨t', r, heq, hpk'.trans hpk, hb'.trans hb, hp'.trans hp, fun j hj => ?_, ?_⟩
      · rw [hlt j (by omega), hsec, if_neg (by omega)]
      · refine hr.imp_left fun ⟨hok, hrest⟩ => ⟨hok, fun n ix' hix' => ?_⟩
        cases n with
        | zero =>
          cases hix'
          exact ⟨o.getD tree, by rw [add_zero, hlt i (by omega), hsec, if_pos rfl], hP⟩
        | succ n =>
          obtain ⟨tree', h₁, h₂⟩ := hrest n ix' hix'
          exact ⟨tree', by rw [← h₁]; congr 1; omega, h₂⟩
    · exact ⟨t, _, by simp only [eachIndex, htree, hmsg], rfl, rfl, rfl, fun _ _ => rfl,
        .inr ⟨msg, rfl⟩⟩

theorem btreeInsert_insertOnly {β : Type} (m : SortedMap Key β) (k : Key) (v : β) (len : ℕ) :
    (∃ msg, btreeInsert m k v len .insertOnly = .error (.unsupported msg)) ∨
      (m.lookup k = none ∧ btreeInsert m k v len .insertOnly = .ok (m.insert k v, false)) ∨
      m.lookup k ≠ none ∧ btreeInsert m k v len .insertOnly = .ok (m, true) := by
  unfold btreeInsert
  split_ifs
  · exact .inl ⟨_, rfl⟩
  · exact .inl ⟨_, rfl⟩
  · rcases m.lookup k with _ | v'
    · exact .inr (.inl ⟨rfl, rfl⟩)
    · exact .inr (.inr ⟨by simp, rfl⟩)

theorem btreeInsert_upsert {β : Type} (m : SortedMap Key β) (k : Key) (v : β) (len : ℕ) :
    (∃ msg, btreeInsert m k v len .upsert = .error (.unsupported msg)) ∨
      ∃ b, btreeInsert m k v len .upsert = .ok (m.insert k v, b) := by
  unfold btreeInsert
  split_ifs
  · exact .inl ⟨_, rfl⟩
  · exact .inl ⟨_, rfl⟩
  · rcases m.lookup k with _ | v'
    · exact .inr ⟨false, rfl⟩
    · exact .inr ⟨true, rfl⟩

section Entries

variable {h : Handle} {rows : SortedMap Key Row} {tree : Tree Key}

variable {key : Key}

theorem lookup_erase_ne (pk' : Key) (hne : pk' ≠ key) :
    (rows.erase key).lookup pk' = rows.lookup pk' := by rw [SortedMap.lookup_erase, if_neg hne]

variable {old : Row}

theorem dropOldEntry_spec (hT : TreeOK tb ix rows tree)
    (hold : rows.lookup key = some old) :
    ∃ tree', dropOldEntry ix tree (entry tb ix old key) = .ok tree' ∧
      TreeOK tb ix (rows.erase key) tree' := by
  have he := entryAt_of_lookup tb ix hold
  have hnone : entryAt (entry tb ix) (rows.erase key).lookup key = none :=
    entryAt_of_none (lookup_erase_self ..)
  rcases hk : entry tb ix old key with _ | okey <;> rw [hk] at he
  · exact ⟨tree, rfl, hT.keep lookup_erase_ne (hnone.trans he.symm)⟩
  · refine ⟨_, ?_, hT.remove lookup_erase_ne he hnone⟩
    simp only [dropOldEntry, btreeDelete, hT.lookup_entry he, isSome_some]

theorem deleteEntry_spec (hT : TreeOK h.table ix rows tree)
    (hold : rows.lookup key = some old) (hev : Evaluates h.table ix old)
    (i : ℕ) : ∃ o, deleteEntry h key old ix i (some tree) = .ok o ∧
      TreeOK h.table ix (rows.erase key) (o.getD tree) := by
  obtain ⟨tree', hdrop, hT'⟩ := dropOldEntry_spec hT hold
  unfold deleteEntry
  rw [hev.indexEntryKey key]
  rcases hk : entry h.table ix old key with _ | okey <;> rw [hk] at hdrop
  · cases hdrop
    exact ⟨none, rfl, hT'⟩
  · have hl := hT.lookup_entry ((entryAt_of_lookup h.table ix hold).trans hk)
    simp only [dropOldEntry, btreeDelete, hl] at hdrop ⊢
    cases hdrop
    exact ⟨_, rfl, hT'⟩

theorem addNewEntry_spec (row : Row) (hT : TreeOK tb ix rows tree) (hkey : rows.lookup key = none)
    (hfresh : ∀ k, entry tb ix row key = some k → tree.map.lookup k = none) :
    (∃ tree', addNewEntry key tree (entry tb ix row key) = .ok tree' ∧
      TreeOK tb ix (rows.insert key row) tree') ∨
      ∃ msg, addNewEntry key tree (entry tb ix row key) = .error (.unsupported msg) := by
  have hrows : ∀ pk', pk' ≠ key → (rows.insert key row).lookup pk' = rows.lookup pk' :=
    fun pk' hne => by rw [lookup_insert, if_neg hne]
  have he := entryAt_of_lookup tb ix
    (lookup_insert_self rows key row)
  have hnone : entryAt (entry tb ix) rows.lookup key = none := entryAt_of_none hkey
  rcases hk : entry tb ix row key with _ | nkey <;> rw [hk] at he
  · exact .inl ⟨tree, rfl, hT.keep hrows (he.trans hnone.symm)⟩
  · have hl := hfresh nkey hk
    rcases btreeInsert_insertOnly tree.map nkey key key.length with ⟨msg, hm⟩ | ⟨-, hm⟩ | ⟨hne, -⟩
    · exact .inr ⟨msg, by simp only [addNewEntry, hm]⟩
    · exact .inl ⟨_, by simp only [addNewEntry, hm], hT.add hrows hnone he hl⟩
    · exact absurd hl hne

theorem insert_erase (rows : SortedMap Key Row) (key : Key) (new : Row) :
    (rows.erase key).insert key new = rows.insert key new := by
  refine ext_lookup fun k => ?_
  rw [lookup_insert, lookup_insert, lookup_erase]
  split_ifs <;> rfl

/-- An update moves the entry, leaves it, or adds or removes it as the predicates say. -/
theorem updateEntry_spec (hT : TreeOK h.table ix rows tree) {new : Row}
    (hold : rows.lookup key = some old)
    (hev : Evaluates h.table ix old) (hev' : Evaluates h.table ix new)
    (hfresh : (ix.exact || keyChanged h.table ix old new) = true → ∀ k,
      entry h.table ix new key = some k → entry h.table ix old key ≠ some k →
      tree.map.lookup k = none) (i : ℕ) :
    (∃ o, updateEntry h key old new ix i (some tree) = .ok o ∧
      TreeOK h.table ix (rows.insert key new) (o.getD tree)) ∨
      ∃ msg, updateEntry h key old new ix i (some tree) = .error (.unsupported msg) := by
  have hrows : ∀ pk', pk' ≠ key → (rows.insert key new).lookup pk' = rows.lookup pk' :=
    fun pk' hne => by rw [lookup_insert, if_neg hne]
  have hnew := entryAt_of_lookup h.table ix
    (lookup_insert_self rows key new)
  -- an entry that stays needs no write
  have hsame : entry h.table ix old key = entry h.table ix new key →
      TreeOK h.table ix (rows.insert key new) tree := fun heq =>
    hT.keep hrows (hnew.trans (heq.symm.trans (entryAt_of_lookup h.table ix hold).symm))
  unfold updateEntry
  split_ifs with hskip
  · simp only [and_eq_true, not_eq_true'] at hskip
    exact .inl ⟨none, rfl, hsame (entry_of_not_changed hskip.1 hskip.2 key)⟩
  · have hch : (ix.exact || keyChanged h.table ix old new) = true := by
      rcases hx : ix.exact <;> rcases hc : keyChanged h.table ix old new <;> simp_all
    rw [hev.indexEntryKey key, hev'.indexEntryKey key]
    simp only []
    split_ifs with heq
    · exact .inl ⟨none, rfl, hsame heq⟩
    · obtain ⟨tree₁, hdrop, hT₁⟩ := dropOldEntry_spec hT hold
      have hfresh₁ : ∀ k, entry h.table ix new key = some k → tree₁.map.lookup k = none := by
        intro k hk
        have hne : entry h.table ix old key ≠ some k := fun h' => heq (h'.trans hk.symm)
        -- only the old entry has gone since the tree was probed
        have hl := hfresh hch k hk hne
        rcases hl₁ : tree₁.map.lookup k with _ | pk'
        · rfl
        · obtain ⟨row', hrow', he'⟩ := (hT₁.indexes k pk').1 hl₁
          rw [lookup_erase] at hrow'
          split_ifs at hrow'
          rw [(hT.indexes k pk').2 ⟨row', hrow', he'⟩] at hl
          cases hl
      simp only [hdrop]
      rcases addNewEntry_spec new hT₁ (lookup_erase_self ..) hfresh₁ with
        ⟨tree', hadd, hT'⟩ | ⟨msg, hmsg⟩
      · exact .inl ⟨some tree', by rw [hadd]; rfl, insert_erase rows key new ▸ hT'⟩
      · exact .inr ⟨msg, by rw [hmsg]; rfl⟩

/-- What the check of an extent row has looked up is not in the trees. -/
theorem extentPrecheck_spec {t : TableTxn} : ∀ (ixs : List IndexDef) (i : ℕ),
    extentPrecheck h t row i ixs = .ok () → ∀ n ix tree k, ixs[n]? = some ix →
      t.sec (i + n) = some tree → ix.unique = true → Evaluates h.table ix row →
      entry h.table ix row [] = some k → tree.map.lookup k = none
  | [], _, _, _, _, _, _, hix, _, _, _, _ => by simp at hix
  | ix₀ :: ixs, i, hok, n, ix, tree, k, hix, htree, hu, hev, hk => by
    have next : extentPrecheck h t row (i + 1) ixs = .ok () → n ≠ 0 →
        tree.map.lookup k = none := by
      intro hok hn
      obtain ⟨n, rfl⟩ := Nat.exists_eq_succ_of_ne_zero hn
      exact extentPrecheck_spec ixs (i + 1) hok n ix tree k hix
        (by rw [← htree]; congr 1; omega) hu hev hk
    by_cases hn : n = 0
    · subst hn
      cases hix
      simp only [extentPrecheck, hu, hev.indexEntryKey, hk, Bool.not_true, Bool.false_eq_true,
        if_false, show t.sec i = some tree from htree] at hok
      split_ifs at hok with hs
      simpa using hs
    · refine next ?_ hn
      unfold extentPrecheck at hok
      split_ifs at hok
      · exact hok
      · split at hok
        · cases hok
        · exact hok
        · split at hok
          · cases hok
          · split_ifs at hok
            exact hok

/-- What the check of an update has looked up is not in the trees. -/
theorem updatePrecheck_spec {t : TableTxn} {new : Row} : ∀ (ixs : List IndexDef) (i : ℕ),
    updatePrecheck h t old new i ixs = .ok () → ∀ n ix tree k, ixs[n]? = some ix →
      t.sec (i + n) = some tree → ix.unique = true →
      (ix.exact || keyChanged h.table ix old new) = true → Evaluates h.table ix old →
      Evaluates h.table ix new → entry h.table ix new [] = some k →
      entry h.table ix old [] ≠ some k → tree.map.lookup k = none
  | [], _, _, _, _, _, _, hix, _, _, _, _, _, _, _ => by simp at hix
  | ix₀ :: ixs, i, hok, n, ix, tree, k, hix, htree, hu, hch, hev, hev', hk, hne => by
    have next : updatePrecheck h t old new (i + 1) ixs = .ok () → n ≠ 0 →
        tree.map.lookup k = none := by
      intro hok hn
      obtain ⟨n, rfl⟩ := Nat.exists_eq_succ_of_ne_zero hn
      exact updatePrecheck_spec ixs (i + 1) hok n ix tree k hix
        (by rw [← htree]; congr 1; omega) hu hch hev hev' hk hne
    by_cases hn : n = 0
    · subst hn
      cases hix
      have hskip : (!ix₀.unique || (!ix₀.exact && !keyChanged h.table ix₀ old new)) = false := by
        rcases hx : ix₀.exact <;> rcases hc : keyChanged h.table ix₀ old new <;> simp_all
      have hown : ownEntry h ix₀ old k = .ok false := by
        unfold ownEntry
        split_ifs
        · simpa [hev.indexEntryKey] using hne
        · rfl
      simp only [updatePrecheck, hskip, hev'.indexEntryKey, hk, hown, false_eq_true, if_false,
        show t.sec i = some tree from htree] at hok
      split_ifs at hok with hs
      simpa using hs
    · refine next ?_ hn
      unfold updatePrecheck at hok
      split_ifs at hok
      · exact hok
      · split at hok
        · cases hok
        · exact hok
        · split at hok
          · cases hok
          · exact hok
          · split at hok
            · cases hok
            · split_ifs at hok
              exact hok

end Entries

/-! ## Insert -/

/-- `t` is `s` with a row and its entries in the indexes of the list, the latest first. -/
inductive Installed (h : Handle) (key : Key) (row : Row) (s : TableTxn) :
    List (IndexDef × ℕ) → TableTxn → Prop
  | nil : Installed h key row s []
      { s with pk := ⟨s.pk.map.insert key row, s.pk.count + 1⟩ }
  | cons {t : TableTxn} {ix : IndexDef} {i : ℕ} {inst : List (IndexDef × ℕ)} {ikey : Key}
      {tree : Tree Key} : Installed h key row s inst t →
      indexEntryKey h.table ix row key = .ok (some ikey) → t.sec i = some tree →
      tree.map.lookup ikey = none →
      Installed h key row s ((ix, i) :: inst)
        (t.setTree i ⟨tree.map.insert ikey key, tree.count + 1⟩)

section Insert

variable {h : Handle} {key : Key} {s : TableTxn}

variable {inst : List (IndexDef × ℕ)} {t : TableTxn}

theorem undo_installed (hkey : s.pk.map.lookup key = none)
    (hi : Installed h key row s inst t) : undoPartialInsert h key row inst t = (s, .ok ()) := by
  induction hi with
  | nil =>
    simp only [undoPartialInsert, btreeDelete, lookup_insert_self, isSome_some,
      erase_insert hkey, Nat.add_sub_cancel]
  | @cons t ix i inst ikey tree _ he htree hl ih =>
    have hsec : (t.setTree i ⟨tree.map.insert ikey key, tree.count + 1⟩).sec i =
        some ⟨tree.map.insert ikey key, tree.count + 1⟩ := by rw [setTree_sec, if_pos rfl]
    simp only [undoPartialInsert, he, hsec, btreeDelete, lookup_insert_self,
      isSome_some, erase_insert hl, Nat.add_sub_cancel]
    rw [← ih]
    simp only [TableTxn.setTree, Function.update_idem]
    rw [← htree, Function.update_eq_self]

theorem Installed.frame (hi : Installed h key row s inst t) :
    t.pk = ⟨s.pk.map.insert key row, s.pk.count + 1⟩ ∧ t.bundle = s.bundle ∧
      t.published = s.published := by
  induction hi with
  | nil => exact ⟨rfl, rfl, rfl⟩
  | cons _ _ _ _ ih => exact ih

/-- How the loop over the indexes from number `i` on may end: with an entry in each of them, in the
state before the insert, or at a key that is too long. -/
def EntriesEnd (h : Handle) (key : Key) (row : Row) (s : TableTxn) (i : ℕ) (ixs : List IndexDef)
    (t : TableTxn) : TableTxn × Except Error Unit → Prop
  | (t', .ok ()) => t'.pk = t.pk ∧ t'.bundle = t.bundle ∧ t'.published = t.published ∧
      (∀ j < i, t'.sec j = t.sec j) ∧ ∀ n ix, ixs[n]? = some ix → ∃ tree,
        t'.sec (i + n) = some tree ∧ TreeOK h.table ix (s.pk.map.insert key row) tree
  | (t', .error e) => t' = s ∨ ∃ msg, e = .unsupported msg

/-- One entry more is installed, and the rest follows. -/
theorem EntriesEnd.cons {i : ℕ} {ixs : List IndexDef} {t₁ : TableTxn} {tree₁ : Tree Key}
    {inst₁ : List (IndexDef × ℕ)} (hi : Installed h key row s inst t)
    (hi₁ : Installed h key row s inst₁ t₁) (htree₁ : t₁.sec i = some tree₁)
    (hT₁ : TreeOK h.table ix (s.pk.map.insert key row) tree₁)
    (hsec : ∀ j, j ≠ i → t₁.sec j = t.sec j) {res : TableTxn × Except Error Unit}
    (hres : EntriesEnd h key row s (i + 1) ixs t₁ res) :
    EntriesEnd h key row s i (ix :: ixs) t res := by
  rcases res with ⟨t', e | _⟩
  · exact hres
  · obtain ⟨hpk, hb, hp, hlt, hTs⟩ := hres
    obtain ⟨f₁, f₂, f₃⟩ := hi₁.frame
    obtain ⟨g₁, g₂, g₃⟩ := hi.frame
    refine ⟨hpk.trans (f₁.trans g₁.symm), hb.trans (f₂.trans g₂.symm), hp.trans (f₃.trans g₃.symm),
      fun j hj => ?_, fun n ix' hix' => ?_⟩
    · rw [hlt j (by omega), hsec j (by omega)]
    · cases n with
      | zero =>
        cases hix'
        exact ⟨tree₁, by rw [add_zero, hlt i (by omega), htree₁], hT₁⟩
      | succ n =>
        obtain ⟨tree', h₁, h₂⟩ := hTs n ix' hix'
        exact ⟨tree', by rw [← h₁]; congr 1; omega, h₂⟩

/-- By recursion on the indexes; a failure takes back what was installed. -/
theorem insertEntries_spec (hkey : s.pk.map.lookup key = none) (asExtent : Bool) :
    ∀ (ixs : List IndexDef) (i : ℕ) (inst : List (IndexDef × ℕ)) (t : TableTxn),
    Installed h key row s inst t →
    (∀ n ix, ixs[n]? = some ix → Evaluates h.table ix row ∧ ∃ tree, t.sec (i + n) = some tree ∧
      TreeOK h.table ix s.pk.map tree ∧ ((ix.unique && !asExtent) = false → ∀ k,
        entry h.table ix row key = some k → tree.map.lookup k = none)) →
    EntriesEnd h key row s i ixs t (insertEntries h asExtent key row i ixs inst t)
  | [], i, inst, t, _, _ => ⟨rfl, rfl, rfl, fun _ _ => rfl, by simp⟩
  | ix :: ixs, i, inst, t, hi, hall => by
    obtain ⟨hev, tree, htree, hT, hfresh⟩ := hall 0 ix rfl
    rw [add_zero] at htree
    have hnext : ∀ (t₁ : TableTxn) (inst₁ : List (IndexDef × ℕ)), Installed h key row s inst₁ t₁ →
        (∀ j, j ≠ i → t₁.sec j = t.sec j) → EntriesEnd h key row s (i + 1) ixs t₁
          (insertEntries h asExtent key row (i + 1) ixs inst₁ t₁) := by
      intro t₁ inst₁ hi₁ hsec
      refine insertEntries_spec hkey asExtent ixs (i + 1) inst₁ t₁ hi₁ fun n ix' hix' => ?_
      rw [hsec _ (by omega), show i + 1 + n = i + (n + 1) by omega]
      exact hall (n + 1) ix' hix'
    have hrows : ∀ pk', pk' ≠ key → (s.pk.map.insert key row).lookup pk' = s.pk.map.lookup pk' :=
      fun pk' hne => by rw [lookup_insert, if_neg hne]
    have he := entryAt_of_lookup h.table ix
      (lookup_insert_self s.pk.map key row)
    have hnone : entryAt (entry h.table ix) s.pk.map.lookup key = none := entryAt_of_none hkey
    have hev' := hev.indexEntryKey key
    rcases hk : entry h.table ix row key with _ | ikey <;> rw [hk] at he hev'
    · simp only [insertEntries, hev']
      exact (hnext t inst hi fun _ _ => rfl).cons hi hi htree
        (hT.keep hrows (he.trans hnone.symm)) fun _ _ => rfl
    · rcases btreeInsert_insertOnly tree.map ikey key key.length with
        ⟨msg, hm⟩ | ⟨hl, hm⟩ | ⟨hne, hm⟩
      · simp only [insertEntries, hev', htree, hm]
        exact .inr ⟨msg, rfl⟩
      · simp only [insertEntries, hev', htree, hm]
        have hi₁ := hi.cons hev' htree hl
        have hsec : ∀ j, j ≠ i →
            (t.setTree i ⟨tree.map.insert ikey key, tree.count + 1⟩).sec j = t.sec j :=
          fun j hj => by rw [setTree_sec, if_neg hj]
        exact (hnext _ _ hi₁ hsec).cons hi hi₁ (by rw [setTree_sec, if_pos rfl])
          (hT.add hrows hnone he hl) hsec
      · -- the key is taken: the index is unique, and the row goes again
        have hu : (ix.unique && !asExtent) = true := by
          by_contra hu
          exact hne (hfresh (not_eq_true _ ▸ hu) ikey hk)
        simp only [insertEntries, hev', htree, hm, hu, undo_installed hkey hi]
        exact .inl rfl

end Insert

end Mpedb
