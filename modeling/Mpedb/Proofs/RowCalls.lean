import Mpedb.Proofs.Table

/-!
# Sequences of calls on a table

Every call keeps the trees right and leaves nothing behind when it fails, as long as the rows it is
given can be evaluated by the indexes, the key expressions give values of one type, and the
transaction works with the indexes that are in its catalog.
-/

namespace Mpedb

open DerivedIndex List SortedMap

/-! ## The invariant -/

/-- What holds of a table in a transaction: counts, keys and index trees match the rows. -/
structure Sound (h : Handle) (t : TableTxn) : Prop where
  count : t.pk.count = t.pk.map.size
  rows : ∀ pk row, t.pk.map.lookup pk = some row → pk = h.table.pkKey row ∧ RowOK h.table row
  trees : ∀ i ix, t.published[i]? = some ix → ∃ tree, t.sec i = some tree ∧
    TreeOK h.table ix t.pk.map tree
  evaluates : ∀ ix ∈ t.published, ∀ pk row, t.pk.map.lookup pk = some row →
    Evaluates h.table ix row
  alike : ∀ ix ∈ t.published, ∀ pk row pk' row', t.pk.map.lookup pk = some row →
    t.pk.map.lookup pk' = some row' → ExprsAlike ix row row'

/-- The row that a call writes for `values`, once it is valid, can be evaluated by every index, and
its key expressions give values of the types they have in the other rows. -/
def RowMeets (h : Handle) (t : TableTxn) (values : Row) : Prop :=
  ∀ row, h.table.generated (h.table.storeAffinity values) = .ok row →
    validateRow h.table row = .ok () → ∀ ix ∈ t.bundle, Evaluates h.table ix row ∧
      ∀ pk row', t.pk.map.lookup pk = some row' → ExprsAlike ix row row'

/-- The transaction works with the indexes of its catalog, and the rows are as the indexes need
them. -/
def Meets (h : Handle) (t : TableTxn) : Call → Prop
  | .insertRow values | .updateByPk values => t.bundle = t.published ∧ RowMeets h t values
  | .deleteByPk _ | .dropIndex _ => t.bundle = t.published
  | .createIndex ix => t.bundle = t.published ∧ ∀ pk row pk' row',
      t.pk.map.lookup pk = some row → t.pk.map.lookup pk' = some row' → ExprsAlike ix row row'
  | .reloadBundle => True

/-- How a call may end: in a sound state, or with an error and the state it started from, or at a
key that is too long. -/
def Ends {α : Type} (h : Handle) (t : TableTxn) : TableTxn × Except Error α → Prop
  | (t', .ok _) => Sound h t'
  | (t', .error e) => t' = t ∨ ∃ msg, e = .unsupported msg

variable {h : Handle} {t t' : TableTxn}

theorem exprsAlike_self (ix : IndexDef) (row : Row) : ExprsAlike ix row row := by
  intro src prog _ v v' hv hv' _ _
  rw [hv] at hv'
  cases hv'
  rfl

/-- Writing one row keeps a table sound if every index tree follows. -/
theorem Sound.write (hS : Sound h t) {row : Row} (hr : RowOK h.table row)
    (hev : ∀ ix ∈ t.published, Evaluates h.table ix row)
    (halike : ∀ ix ∈ t.published, ∀ pk row', t.pk.map.lookup pk = some row' →
      ExprsAlike ix row row')
    (hmap : t'.pk.map = t.pk.map.insert (h.table.pkKey row) row)
    (hcount : t'.pk.count = t'.pk.map.size) (hp : t'.published = t.published)
    (htrees : ∀ i ix, t.published[i]? = some ix → ∃ tree, t'.sec i = some tree ∧
      TreeOK h.table ix (t.pk.map.insert (h.table.pkKey row) row) tree) : Sound h t' := by
  have hl : ∀ pk row', t'.pk.map.lookup pk = some row' →
      (pk = h.table.pkKey row ∧ row' = row) ∨ t.pk.map.lookup pk = some row' := by
    intro pk row' hpk
    rw [hmap, lookup_insert] at hpk
    split_ifs at hpk with heq
    · exact .inl ⟨heq, (Option.some.inj hpk).symm⟩
    · exact .inr hpk
  refine ⟨hcount, fun pk row' hpk => ?_, fun i ix hix => ?_, fun ix hix pk row' hpk => ?_,
    fun ix hix pk row₁ pk' row₂ hpk hpk' => ?_⟩
  · rcases hl pk row' hpk with ⟨rfl, rfl⟩ | hpk
    · exact ⟨rfl, hr⟩
    · exact hS.rows pk row' hpk
  · rw [hmap]
    exact htrees i ix (hp ▸ hix)
  · rw [hp] at hix
    rcases hl pk row' hpk with ⟨-, rfl⟩ | hpk
    · exact hev ix hix
    · exact hS.evaluates ix hix pk row' hpk
  · rw [hp] at hix
    rcases hl pk row₁ hpk with ⟨-, rfl⟩ | hpk <;> rcases hl pk' row₂ hpk' with ⟨-, rfl⟩ | hpk'
    · exact exprsAlike_self ix _
    · exact halike ix hix pk' row₂ hpk'
    · exact (halike ix hix pk row₁ hpk).symm
    · exact hS.alike ix hix pk row₁ pk' row₂ hpk hpk'

theorem Sound.erase (hS : Sound h t) {key : Key} (hmap : t'.pk.map = t.pk.map.erase key)
    (hcount : t'.pk.count = t'.pk.map.size) (hp : t'.published = t.published)
    (htrees : ∀ i ix, t.published[i]? = some ix → ∃ tree, t'.sec i = some tree ∧
      TreeOK h.table ix (t.pk.map.erase key) tree) : Sound h t' := by
  have hl : ∀ pk row, t'.pk.map.lookup pk = some row → t.pk.map.lookup pk = some row := by
    intro pk row hpk
    rw [hmap, lookup_erase] at hpk
    split_ifs at hpk
    exact hpk
  refine ⟨hcount, fun pk row hpk => hS.rows pk row (hl pk row hpk), fun i ix hix => ?_,
    fun ix hix pk row hpk => hS.evaluates ix (hp ▸ hix) pk row (hl pk row hpk),
    fun ix hix pk row pk' row' hpk hpk' => hS.alike ix (hp ▸ hix) pk row pk' row' (hl pk row hpk)
      (hl pk' row' hpk')⟩
  rw [hmap]
  exact htrees i ix (hp ▸ hix)

/-! ## Row calls -/

/-- The pre-checks exclude what would stop the index entries half-way; what stops them else is
undone. -/
theorem insertRow_ends (hS : Sound h t) (hb : t.bundle = t.published) {values : Row}
    (hm : RowMeets h t values) : Ends h t (insertRow h t values) := by
  unfold insertRow
  split_ifs
  · exact .inl rfl
  split
  · exact .inl rfl
  rename_i row hgen
  split
  · exact .inl rfl
  rename_i hval
  split
  · exact .inl rfl
  simp only []
  set key := h.table.pkKey row
  set asExtent := h.extentThreshold.any (· < encodedLen row h.table.columns)
  split
  · exact .inl rfl
  rename_i hpre
  split_ifs
  · exact .inl rfl
  split
  · exact .inl rfl
  rcases btreeInsert_insertOnly t.pk.map key row (payloadLen h asExtent
    (encodedLen row h.table.columns)) with ⟨msg, hi⟩ | ⟨hkey, hi⟩ | ⟨-, hi⟩ <;> rw [hi]
  · exact .inl rfl
  · have hr := validateRow_ok hval
    have hrow := hm row hgen hval
    rw [hb] at hrow
    have hend := insertEntries_spec (h := h) hkey asExtent t.bundle 0 []
      { t with pk := ⟨t.pk.map.insert key row, t.pk.count + 1⟩ } .nil fun n ix hix => by
        rw [hb] at hix
        have hix' := mem_of_getElem? hix
        obtain ⟨tree, htree, hT⟩ := hS.trees n ix hix
        refine ⟨(hrow ix hix').1, tree, by rw [zero_add]; exact htree, hT, fun hu k hk => ?_⟩
        rcases hu' : ix.unique
        · exact hT.fresh hu' hS.rows (hrow ix hix').2 hr hkey hk
        · -- a unique index was probed on the extent path
          rw [hu', Bool.true_and, Bool.not_eq_false'] at hu
          rw [if_pos hu] at hpre
          exact extentPrecheck_spec t.bundle 0 hpre n ix tree k (hb ▸ hix)
            (by rw [zero_add]; exact htree) hu' (hrow ix hix').1
            ((entry_unique hu' [] key).trans hk)
    simp only []
    generalize insertEntries h asExtent key row 0 t.bundle [] _ = res at hend ⊢
    rcases res with ⟨t', e | _⟩
    · exact hend
    · obtain ⟨hpk, -, hp, -, htrees⟩ := hend
      refine hS.write hr (fun ix hix => (hrow ix hix).1) (fun ix hix => (hrow ix hix).2)
        (by rw [hpk]) ?_ hp fun i ix hix => ?_
      · rw [hpk]
        rw [size_insert hkey, hS.count]
      · obtain ⟨tree, htree, hT⟩ := htrees i ix (hb ▸ hix)
        exact ⟨tree, by rwa [zero_add] at htree, hT⟩
  · exact .inl rfl

/-- The entries of a row that is deleted are all there. -/
theorem deleteByPk_ends (hS : Sound h t) (hb : t.bundle = t.published) (pkValues : List Value) :
    Ends h t (deleteByPk h t pkValues) := by
  unfold deleteByPk
  split_ifs
  · exact .inl rfl
  simp only []
  set key := encodeKeySpec pkValues h.table.pkSpecs
  split
  · exact hS
  rename_i old hold
  obtain ⟨t', r, hrun, hpk, -, hp, -, hr⟩ := eachIndex_spec (f := deleteEntry h key old)
    (P := fun ix tree => TreeOK h.table ix (t.pk.map.erase key) tree) t.bundle 0
    { t with pk := ⟨t.pk.map.erase key, t.pk.count - 1⟩ } fun n ix hix => by
      rw [hb] at hix
      obtain ⟨tree, htree, hT⟩ := hS.trees n ix hix
      refine ⟨tree, by rw [zero_add]; exact htree, .inl ?_⟩
      exact deleteEntry_spec hT hold (hS.evaluates ix (mem_of_getElem? hix) key old hold) _
  rw [hrun]
  rcases hr with ⟨rfl, htrees⟩ | ⟨msg, rfl⟩
  · refine hS.erase (by rw [hpk]) ?_ hp fun i ix hix => ?_
    · rw [hpk]
      show t.pk.count - 1 = (t.pk.map.erase key).size
      have := size_erase (m := t.pk.map) (k := key) (by rw [hold]; simp)
      have := hS.count
      omega
    · obtain ⟨tree, htree, hT⟩ := htrees i ix (hb ▸ hix)
      exact ⟨tree, by rwa [zero_add] at htree, hT⟩
  · exact .inr ⟨msg, rfl⟩

/-- The new entries do not collide, since the pre-checks have looked for them. -/
theorem updateByPk_ends (hS : Sound h t) (hb : t.bundle = t.published) {values : Row}
    (hm : RowMeets h t values) : Ends h t (updateByPk h t values) := by
  unfold updateByPk
  split_ifs
  · exact .inl rfl
  split
  · exact .inl rfl
  rename_i new hgen
  split
  · exact .inl rfl
  rename_i hval
  simp only []
  set key := h.table.pkKey new
  split
  · exact hS
  rename_i old hold
  split
  · exact .inl rfl
  rename_i hpre
  split
  · exact .inl rfl
  split
  · exact .inl rfl
  rcases btreeInsert_upsert t.pk.map key new (payloadLen h
    (h.extentThreshold.any (· < encodedLen new h.table.columns)) (encodedLen new h.table.columns))
    with ⟨msg, hi⟩ | ⟨b, hi⟩ <;> rw [hi]
  · exact .inl rfl
  simp only []
  have hr := validateRow_ok hval
  have hrow := hm new hgen hval
  rw [hb] at hrow
  obtain ⟨t', r, hrun, hpk, -, hp, -, hend⟩ := eachIndex_spec (f := updateEntry h key old new)
    (P := fun ix tree => TreeOK h.table ix (t.pk.map.insert key new) tree) t.bundle 0
    { t with pk := ⟨t.pk.map.insert key new, t.pk.count⟩ } fun n ix hix => by
      rw [hb] at hix
      have hix' := mem_of_getElem? hix
      obtain ⟨tree, htree, hT⟩ := hS.trees n ix hix
      have hev := hS.evaluates ix hix' key old hold
      refine ⟨tree, by rw [zero_add]; exact htree,
        updateEntry_spec hT hold hev (hrow ix hix').1 (fun hch k hk hne => ?_) _⟩
      rcases hu : ix.unique
      · -- another row with this entry would be the row itself, which has another one
        rcases hl : tree.map.lookup k with _ | pk'
        · rfl
        obtain ⟨row', hrow', he'⟩ := (hT.indexes k pk').1 hl
        obtain ⟨rfl, hr'⟩ := hS.rows pk' row' hrow'
        have heq := entry_pk_inj hu hr hr' ((hrow ix hix').2 _ row' hrow') hk he'
        rw [← heq] at hrow' he'
        cases hold.symm.trans hrow'
        exact absurd he' hne
      · exact updatePrecheck_spec t.bundle 0 hpre n ix tree k (hb ▸ hix)
          (by rw [zero_add]; exact htree) hu hch hev (hrow ix hix').1
          ((entry_unique hu [] key).trans hk) (by rwa [entry_unique hu [] key])
  rw [hrun]
  rcases hend with ⟨rfl, htrees⟩ | ⟨msg, rfl⟩
  · refine hS.write hr (fun ix hix => (hrow ix hix).1) (fun ix hix => (hrow ix hix).2)
      (by rw [hpk]) ?_ hp fun i ix hix => ?_
    · rw [hpk]
      rw [size_insert_of_mem (by rw [hold]; simp), hS.count]
    · obtain ⟨tree, htree, hT⟩ := htrees i ix (hb ▸ hix)
      exact ⟨tree, by rwa [zero_add] at htree, hT⟩
  · exact .inr ⟨msg, rfl⟩

/-! ## Index DDL -/

variable {ix : IndexDef}

/-- The collected entries are those of the rows, each with its key. -/
theorem collectEntries_spec : ∀ {l : List (Key × Row)} {es : List (Key × Key)},
    collectEntries h ix l = .ok es → (∀ e ∈ l, Evaluates h.table ix e.2) ∧
      ∀ k pk, (k, pk) ∈ es ↔ ∃ row, (pk, row) ∈ l ∧ entry h.table ix row pk = some k
  | [], es, hc => by
    cases hc
    simp
  | (pk₀, row₀) :: l, es, hc => by
    simp only [collectEntries] at hc
    split at hc
    · cases hc
    rename_i okey hokey
    split at hc
    · cases hc
    rename_i es' hes'
    obtain ⟨hev, hmem⟩ := collectEntries_spec hes'
    have hentry : entry h.table ix row₀ pk₀ = okey := by simp only [entry, hokey]
    refine ⟨fun e he => ?_, fun k pk => ?_⟩
    · rcases mem_cons.1 he with rfl | he
      · exact evaluates_of_indexEntryKey hokey
      · exact hev e he
    · have hcons : (∃ row, (pk, row) ∈ (pk₀, row₀) :: l ∧ entry h.table ix row pk = some k) ↔
          (pk = pk₀ ∧ okey = some k) ∨ (k, pk) ∈ es' := by
        rw [hmem]
        constructor
        · rintro ⟨row, hm, he⟩
          rcases mem_cons.1 hm with hm | hm
          · cases hm
            exact .inl ⟨rfl, hentry.symm.trans he⟩
          · exact .inr ⟨row, hm, he⟩
        · rintro (⟨rfl, hk⟩ | ⟨row, hm, he⟩)
          · exact ⟨row₀, mem_cons_self .., hentry.trans hk⟩
          · exact ⟨row, mem_cons_of_mem _ hm, he⟩
      rw [hcons]
      rcases okey with _ | ikey
      · cases hc
        simp
      · cases hc
        simp only [mem_cons, Prod.mk.injEq, Option.some.injEq]
        constructor
        · rintro (⟨rfl, rfl⟩ | hm)
          · exact .inl ⟨rfl, rfl⟩
          · exact .inr hm
        · rintro (⟨rfl, rfl⟩ | hm)
          · exact .inl ⟨rfl, rfl⟩
          · exact .inr hm

/-- Rows with different keys give different entries. -/
theorem collectEntries_keys : ∀ {l : List (Key × Row)} {es : List (Key × Key)},
    collectEntries h ix l = .ok es → l.Pairwise (fun a b => a.1 < b.1) →
    (∀ k pk row pk' row', (pk, row) ∈ l → (pk', row') ∈ l → entry h.table ix row pk = some k →
      entry h.table ix row' pk' = some k → pk = pk') → es.Pairwise fun a b => a.1 ≠ b.1
  | [], es, hc, _, _ => by
    cases hc
    exact .nil
  | (pk₀, row₀) :: l, es, hc, hl, hinj => by
    simp only [collectEntries] at hc
    split at hc
    · cases hc
    rename_i okey hokey
    split at hc
    · cases hc
    rename_i es' hes'
    obtain ⟨hlt, hl⟩ := pairwise_cons.1 hl
    have hrest := collectEntries_keys hes' hl fun k pk row pk' row' hm hm' =>
      hinj k pk row pk' row' (mem_cons_of_mem _ hm) (mem_cons_of_mem _ hm')
    have hentry : entry h.table ix row₀ pk₀ = okey := by simp only [entry, hokey]
    rcases okey with _ | ikey
    · cases hc
      exact hrest
    · cases hc
      refine pairwise_cons.2 ⟨fun e hm heq => ?_, hrest⟩
      obtain ⟨k, pk⟩ := e
      obtain ⟨row, hm', he⟩ := ((collectEntries_spec hes').2 k pk).1 hm
      obtain rfl : ikey = k := heq
      have := hinj ikey pk₀ row₀ pk row (mem_cons_self ..) (mem_cons_of_mem _ hm') hentry he
      exact absurd (hlt _ hm') (by rw [this]; exact lt_irrefl _)

/-- A tree built from entries holds what it held and the entries. -/
theorem buildTree_spec : ∀ {es : List (Key × Key)} {tree tree' : Tree Key},
    buildTree h ix es tree = .ok tree' → tree.count = tree.map.size →
    (ix.unique = false → (∀ e ∈ es, tree.map.lookup e.1 = none) ∧
      es.Pairwise fun a b => a.1 ≠ b.1) →
    tree'.count = tree'.map.size ∧ ∀ k pk, tree'.map.lookup k = some pk ↔
      tree.map.lookup k = some pk ∨ (k, pk) ∈ es
  | [], tree, tree', hb, hc, _ => by
    cases hb
    exact ⟨hc, by simp⟩
  | (ikey, pk₀) :: es, tree, tree', hb, hc, hsep => by
    simp only [buildTree] at hb
    rcases btreeInsert_insertOnly tree.map ikey pk₀ pk₀.length with ⟨msg, hi⟩ | ⟨hl, hi⟩ | ⟨hne, hi⟩
      <;> simp only [hi] at hb
    · cases hb
    · rw [Bool.and_false] at hb
      obtain ⟨hc', hmem⟩ := buildTree_spec hb (by
        rw [size_insert hl, hc]) fun hu => by
          obtain ⟨hnone, hpw⟩ := hsep hu
          obtain ⟨hne, hpw⟩ := pairwise_cons.1 hpw
          refine ⟨fun e he => ?_, hpw⟩
          rw [lookup_insert, if_neg (Ne.symm (hne e he))]
          exact hnone e (mem_cons_of_mem _ he)
      refine ⟨hc', fun k pk => (hmem k pk).trans ?_⟩
      rw [lookup_insert]
      by_cases hk : k = ikey
      · subst hk
        rw [hl]
        simp [eq_comm]
      · simp [hk]
    · by_cases hu : ix.unique = true
      · rw [hu] at hb
        cases hb
      · exact absurd ((hsep (Bool.not_eq_true _ ▸ hu)).1 _ (mem_cons_self ..)) hne

theorem withAddedIndex_ok {tb : TableDef} {ixs ixs' : List IndexDef}
    (hw : withAddedIndex tb ixs ix = .ok ixs') : ixs' = ixs ++ [ix] := by
  unfold withAddedIndex at hw
  split at hw
  · cases hw
  split at hw
  · cases hw
  split at hw
  · cases hw
  split at hw
  · cases hw
  split at hw
  · cases hw
  · exact (Except.ok.inj hw).symm

/-- A new index is built from all rows, or not published. -/
theorem createIndex_ends (hS : Sound h t) (hb : t.bundle = t.published)
    (halike : ∀ pk row pk' row', t.pk.map.lookup pk = some row →
      t.pk.map.lookup pk' = some row' → ExprsAlike ix row row') :
      Ends h t (createIndex h t ix) := by
  unfold createIndex
  simp only []
  set ix' : IndexDef := { ix with state := .ready }
  split
  · exact .inl rfl
  rename_i ixs hadd
  split
  · exact .inl rfl
  rename_i es hes
  split
  · exact .inl rfl
  rename_i tree htree
  rw [hb] at hadd
  obtain ⟨hev, hmem⟩ := collectEntries_spec hes
  obtain ⟨hcount, hlookup⟩ := buildTree_spec htree rfl fun hu => by
    refine ⟨fun _ _ => rfl, collectEntries_keys hes t.pk.map.sorted ?_⟩
    intro k pk row pk' row' hm hm' he he'
    rw [mem_entries] at hm hm'
    obtain ⟨rfl, hr⟩ := hS.rows pk row hm
    obtain ⟨rfl, hr'⟩ := hS.rows pk' row' hm'
    exact entry_pk_inj hu hr hr' (halike _ row _ row' hm hm') he he'
  have hT : TreeOK h.table ix' t.pk.map tree := by
    refine ⟨hcount, fun k pk => ?_⟩
    rw [hlookup, hmem]
    simp only [mem_entries]
    exact ⟨fun hk => hk.resolve_left (by simp), .inr⟩
  have hpub : ∀ ix₁, ix₁ ∈ ixs → ix₁ ∈ t.published ∨ ix₁ = ix' := by
    intro ix₁ hix₁
    rw [withAddedIndex_ok hadd, mem_append, mem_singleton] at hix₁
    exact hix₁
  refine ⟨hS.count, hS.rows, fun i ix₁ hix₁ => ?_, fun ix₁ hix₁ pk row hpk => ?_,
    fun ix₁ hix₁ pk row pk' row' hpk hpk' => ?_⟩
  · show ∃ tree₁, (t.setTree t.bundle.length tree).sec i = some tree₁ ∧ _
    replace hix₁ : (t.published ++ [ix'])[i]? = some ix₁ := withAddedIndex_ok hadd ▸ hix₁
    rw [setTree_sec, hb]
    by_cases hi : i < t.published.length
    · rw [List.getElem?_append_left hi] at hix₁
      rw [if_neg (by omega)]
      exact hS.trees i ix₁ hix₁
    · rw [List.getElem?_append_right (by omega)] at hix₁
      have hz : i - t.published.length = 0 := by
        by_contra hz
        rw [List.getElem?_eq_none (by simp; omega)] at hix₁
        cases hix₁
      rw [hz] at hix₁
      cases hix₁
      rw [if_pos (by omega)]
      exact ⟨tree, rfl, hT⟩
  · rcases hpub ix₁ hix₁ with hix₁ | rfl
    · exact hS.evaluates ix₁ hix₁ pk row hpk
    · exact hev (pk, row) (mem_entries.2 hpk)
  · rcases hpub ix₁ hix₁ with hix₁ | rfl
    · exact hS.alike ix₁ hix₁ pk row pk' row' hpk hpk'
    · exact halike pk row pk' row' hpk hpk'

/-- The other indexes keep their trees under their new numbers. -/
theorem dropIndex_ends (hS : Sound h t) (hb : t.bundle = t.published) (pos : ℕ) :
    Ends h t (dropIndex h t pos) := by
  unfold dropIndex
  split
  · exact .inl rfl
  rename_i ix hix
  split_ifs
  · exact .inl rfl
  split
  · exact .inl rfl
  have hpos : pos < t.published.length := by
    rw [← hb]
    exact (List.getElem?_eq_some_iff.1 hix).1
  refine ⟨hS.count, hS.rows, fun i ix₁ hix₁ => ?_, fun ix₁ hix₁ => ?_, fun ix₁ hix₁ => ?_⟩
  · replace hix₁ : (t.published.eraseIdx pos)[i]? = some ix₁ := hb ▸ hix₁
    show ∃ tree, (if i < pos then t.sec i else if i + 1 < t.bundle.length then t.sec (i + 1)
      else if i + 1 = t.bundle.length then none else t.sec i) = some tree ∧ _
    rw [hb]
    have hi : i < t.published.length - 1 := by
      have := (List.getElem?_eq_some_iff.1 hix₁).1
      rwa [length_eraseIdx_of_lt hpos] at this
    rw [List.getElem?_eraseIdx] at hix₁
    split_ifs at hix₁ with hlt
    · rw [if_pos hlt]
      exact hS.trees i ix₁ hix₁
    · rw [if_neg hlt, if_pos (by omega)]
      exact hS.trees (i + 1) ix₁ hix₁
  · exact hS.evaluates ix₁ (hb ▸ mem_of_mem_eraseIdx hix₁)
  · exact hS.alike ix₁ (hb ▸ mem_of_mem_eraseIdx hix₁)

/-! ## Every call -/

theorem Ends.map {α β : Type} {res : TableTxn × Except Error α} (f : α → β) (hE : Ends h t res) :
    Ends h t (res.1, res.2.map f) := by
  rcases res with ⟨t', e | a⟩
  · exact hE
  · exact hE

variable {call : Call}

theorem perform_ends (hS : Sound h t) (hm : Meets h t call) :
    Ends h t (perform h t call) := by
  cases call with
  | insertRow values => exact insertRow_ends hS hm.1 hm.2
  | updateByPk values => exact (updateByPk_ends hS hm.1 hm.2).map _
  | deleteByPk pkValues => exact (deleteByPk_ends hS hm pkValues).map _
  | createIndex ix => exact createIndex_ends hS hm.1 hm.2
  | dropIndex pos => exact dropIndex_ends hS hm pos
  | reloadBundle => exact ⟨hS.count, hS.rows, hS.trees, hS.evaluates, hS.alike⟩

theorem sound_callStep (hS : Sound h t) (hm : Meets h t call)
    (hs : callStep h t call = some t') : Sound h t' := by
  have hE := perform_ends hS hm
  unfold callStep at hs
  rcases hp : perform h t call with ⟨t₁, e | _⟩ <;> rw [hp] at hs hE
  · simp only [] at hs
    split_ifs at hs with hc
    cases hs
    rcases hE with rfl | ⟨msg, rfl⟩
    · exact hS
    · cases hc
  · cases hs
    exact hE

/-- The stored counts are the numbers of entries, and each secondary tree holds one entry for each
row that the index admits, under the row's key in the index and with its primary key. -/
structure Consistent (h : Handle) (t : TableTxn) : Prop where
  rowCount : t.pk.count = t.pk.map.size
  index : ∀ i ix, t.published[i]? = some ix → ∃ tree, t.sec i = some tree ∧
    tree.count = tree.map.size ∧ ∀ k pk, tree.map.lookup k = some pk ↔
      ∃ row, t.pk.map.lookup pk = some row ∧ indexEntryKey h.table ix row pk = .ok (some k)

theorem Sound.consistent (hS : Sound h t) : Consistent h t := by
  refine ⟨hS.count, fun i ix hix => ?_⟩
  obtain ⟨tree, htree, hT⟩ := hS.trees i ix hix
  refine ⟨tree, htree, hT.count, fun k pk => (hT.indexes k pk).trans ?_⟩
  refine exists_congr fun row => and_congr_right fun hrow => ?_
  rw [(hS.evaluates ix (mem_of_getElem? hix) pk row hrow).indexEntryKey pk, Except.ok.injEq]

/-- A table without rows. -/
def TableTxn.fresh (ixs : List IndexDef) : TableTxn where
  bundle := ixs
  published := ixs
  pk := {}
  sec i := if i < ixs.length then some {} else none

theorem sound_fresh (h : Handle) (ixs : List IndexDef) : Sound h (.fresh ixs) where
  count := rfl
  rows _ _ hpk := nomatch hpk
  trees _ _ hix := ⟨{}, if_pos (List.getElem?_eq_some_iff.1 hix).1, rfl, indexes_empty⟩
  evaluates _ _ _ _ hpk := nomatch hpk
  alike _ _ _ _ _ _ hpk := nomatch hpk

open Transition in
/-- In every sequence of calls that meet the conditions, from a sound state such as an empty table,
the indexes are consistent throughout, and a call that fails leaves the state as it was, unless a
key is too long. -/
theorem indexes_consistent {h : Handle} {t₀ t : TableTxn} (h₀ : Sound h t₀)
    (hr : Reaches (callStep h) (Meets h) t₀ t) :
    Consistent h t ∧ ∀ call, Meets h t call → ∀ t' e, perform h t call = (t', .error e) →
      (e.isConstraint = true → t' = t) ∧ (t' = t ∨ ∃ msg, e = .unsupported msg) := by
  have hS : Sound h t := hr.invariant h₀ fun s call s' hs hm hstep => sound_callStep hs hm hstep
  refine ⟨hS.consistent, fun call hm t' e hp => ?_⟩
  have hE := perform_ends hS hm
  rw [hp] at hE
  refine ⟨fun hc => hE.resolve_right ?_, hE⟩
  rintro ⟨msg, rfl⟩
  cases hc

/-! ## Runs on small tables -/

/-- A column that may be NULL. -/
def nullableColumn (name : String) (ty : ColumnType) : ColumnDef :=
  ⟨name, ty, true, .binary, .blob, false, none, none⟩

/-- The program of `abs(c)` for a column `c`. -/
def absProgram (c : ℕ) : Program := fun row => match row.col c with
  | .null => .ok .null
  | .int x =>
    if x = Int64.minValue then
      .error (.typeMismatch "abs(): integer overflow (i64::MIN has no absolute value)")
    else .ok (.int (if x < 0 then -x else x))
  | .float x => .ok (.float ⟨x.bits &&& 0x7fffffffffffffff⟩)
  | v => .error (.typeMismatch s!"abs() expects a number, got {v.typeName}")

/-- `t(id INTEGER PRIMARY KEY, a INTEGER)`. -/
def intTable : Handle where
  table := ⟨"t", [nullableColumn "id" .int64, nullableColumn "a" .int64], [0], id, .ok⟩

/-- `CREATE INDEX ON t(abs(a))`. -/
def absIndex : IndexDef := { columns := [indexExprCol], exprs := [some ("abs(a)", absProgram 1)] }

/-- `CREATE UNIQUE INDEX ON t(a)`. -/
def uniqueIndex : IndexDef := { columns := [1], unique := true }

/-- A row with `a = 5` into a table whose rows have `a = 5` as well. -/
theorem meets_five {t : TableTxn} {x : Int64} (hb : t.bundle = [absIndex, uniqueIndex])
    (hp : t.published = [absIndex, uniqueIndex])
    (hrows : ∀ pk row, t.pk.map.lookup pk = some row → ∃ z : Int64, row = [.int z, .int 5]) :
    Meets intTable t (.insertRow [.int x, .int 5]) := by
  have habs : ∀ z : Int64, absProgram 1 [.int z, .int 5] = .ok (.int 5) := fun z => rfl
  refine ⟨hb.trans hp.symm, fun row hgen _ ix hix => ?_⟩
  cases hgen
  rw [hb] at hix
  rcases mem_cons.1 hix with rfl | hix
  · refine ⟨⟨_, rfl⟩, fun pk row' hrow' src prog hm v v' hv hv' _ _ => ?_⟩
    obtain ⟨z, rfl⟩ := hrows pk row' hrow'
    cases mem_singleton.1 hm
    cases (habs x).symm.trans hv
    cases (habs z).symm.trans hv'
    rfl
  · cases mem_singleton.1 hix
    exact ⟨⟨_, rfl⟩, fun _ _ _ _ _ hm => absurd hm (not_mem_nil)⟩

open Transition in
/-- A row that a unique index refuses leaves the table as it was. -/
theorem indexes_consistent_unique : ∃ t e,
    Reaches (callStep intTable) (Meets intTable) (.fresh [absIndex, uniqueIndex]) t ∧
      Consistent intTable t ∧ t.pk.count = 1 ∧
      perform intTable t (.insertRow [.int 2, .int 5]) = (t, .error e) ∧ e.isConstraint = true := by
  set t₁ := (perform intTable (.fresh [absIndex, uniqueIndex]) (.insertRow [.int 1, .int 5])).1
    with ht₁
  have hstep : callStep intTable (.fresh [absIndex, uniqueIndex]) (.insertRow [.int 1, .int 5]) =
      some t₁ := by
    have hok : (perform intTable (.fresh [absIndex, uniqueIndex])
      (.insertRow [.int 1, .int 5])).2 = .ok () := by decide
    unfold callStep
    rw [show perform intTable (.fresh [absIndex, uniqueIndex]) (.insertRow [.int 1, .int 5]) =
      (t₁, .ok ()) from Prod.ext rfl hok]
  have hm : Meets intTable (.fresh [absIndex, uniqueIndex]) (.insertRow [.int 1, .int 5]) :=
    meets_five rfl rfl fun _ _ hpk => nomatch hpk
  have hr := Reaches.refl.tail hm hstep
  obtain ⟨hc, hf⟩ := indexes_consistent (sound_fresh intTable [absIndex, uniqueIndex]) hr
  have hrows : ∀ pk row, t₁.pk.map.lookup pk = some row → ∃ z : Int64, row = [.int z, .int 5] := by
    intro pk row hpk
    have hentries : t₁.pk.map.entries =
        [(intTable.table.pkKey [.int 1, .int 5], [.int 1, .int 5])] := by
      decide
    rw [← mem_entries] at hpk
    cases mem_singleton.1 hpk
    exact ⟨1, rfl⟩
  have herr : (perform intTable t₁ (.insertRow [.int 2, .int 5])).2 =
      .error (.uniqueViolation "t" "t.a") := by decide
  have hperform : perform intTable t₁ (.insertRow [.int 2, .int 5]) = (_, _) := Prod.ext rfl herr
  have hsame := (hf _ (meets_five rfl rfl hrows) _ _ hperform).1 rfl
  rw [hsame] at hperform
  exact ⟨t₁, _, hr, hc, by decide, hperform, rfl⟩

/-- `t(id TEXT PRIMARY KEY, a)`, where `a` is typeless. -/
def anyTable : Handle where
  table := ⟨"t", [nullableColumn "id" .text, nullableColumn "a" .any], [0], id, .ok⟩

/-- `CREATE INDEX ON t(coalesce(a, a))`: the key part is an expression, and keeps its type. -/
def coalesceIndex : IndexDef :=
  { columns := [indexExprCol], exprs := [some ("coalesce(a, a)", fun row => .ok (row.col 1))] }

theorem callStep_ok (hok : (perform h t call).2 = .ok ()) :
    callStep h t call = some (perform h t call).1 := by
  unfold callStep
  rw [show perform h t call = ((perform h t call).1, .ok ()) from Prod.ext rfl hok]

/-- A tree with a wrong count, or with an entry that no row has, or without the entry of a row. -/
theorem not_consistent (i : ℕ) (ix : IndexDef) (hix : t.published[i]? = some ix)
    (hbad : (t.sec i).any (fun tree => decide (tree.count ≠ tree.map.size) ||
      (tree.map.entries.any fun e => ((t.pk.map.lookup e.2).bind
        fun row => (indexEntryKey h.table ix row e.2).toOption.join) != some e.1) ||
      t.pk.map.entries.any fun e => ((indexEntryKey h.table ix e.2 e.1).toOption.join).any
        fun k => tree.map.lookup k != some e.1) = true) : ¬ Consistent h t := by
  intro hc
  obtain ⟨tree, htree, hcount, hmem⟩ := hc.index i ix hix
  simp only [htree, Option.any_some, Bool.or_eq_true, decide_eq_true_eq, hcount, ne_eq,
    not_true_eq_false, false_or, any_eq_true] at hbad
  rcases hbad with ⟨⟨k, pk⟩, hm, hne⟩ | ⟨⟨pk, row⟩, hm, hne⟩
  · obtain ⟨row, hrow, hk⟩ := (hmem k pk).1 (mem_entries.1 hm)
    simp [hrow, hk, Except.toOption] at hne
  · obtain ⟨k, hk, hne⟩ := (Option.any_eq_true _ _).1 hne
    have hok : indexEntryKey h.table ix row pk = .ok (some k) := by
      rcases hr : indexEntryKey h.table ix row pk with e | okey <;>
        simp only [hr, Except.toOption, Option.join_none, Option.join_some, reduceCtorEq] at hk
      rw [hk]
    rw [(hmem k pk).2 ⟨row, mem_entries.1 hm, hok⟩] at hne
    simp at hne

open Transition in
/-- What goes wrong without the conditions. An update that meets an error in a key expression
returns a constraint error after it has replaced the row, and leaves the old entry in the index.
Entries of values of different types can be the same bytes (the text `abc` before the primary key,
and an integer that goes on into the primary key of the first row), and a build over them counts one
entry too many. A transaction that goes on with its old list of indexes does not maintain a new
one. -/
theorem indexes_inconsistent :
    (∃ t t' e, Reaches (callStep intTable) (fun t _ => t.bundle = t.published)
      (.fresh [absIndex]) t ∧
      perform intTable t (.updateByPk [.int 1, .int Int64.minValue]) = (t', .error e) ∧
      e.isConstraint = true ∧ t'.pk ≠ t.pk ∧ ¬ Consistent intTable t') ∧
    (∃ t, Reaches (callStep anyTable) (fun t _ => t.bundle = t.published) (.fresh []) t ∧
      ¬ Consistent anyTable t) ∧
    ∃ t, Reaches (callStep intTable) (fun _ _ => True) (.fresh []) t ∧ ¬ Consistent intTable t := by
  refine ⟨?_, ?_, ?_⟩
  · set t := (perform intTable (.fresh [absIndex]) (.insertRow [.int 1, .int 5])).1
    exact ⟨t, (perform intTable t (.updateByPk [.int 1, .int Int64.minValue])).1, .typeMismatch
      "abs(): integer overflow (i64::MIN has no absolute value)", .tail .refl rfl
      (callStep_ok (by decide)), Prod.ext rfl (by decide), rfl, by decide,
      not_consistent 0 absIndex rfl (by decide)⟩
  · set t₁ := (perform anyTable (.fresh []) (.insertRow [.text "xyz\x01q", .text "abc"])).1
    have h₁ : callStep anyTable (.fresh []) (.insertRow [.text "xyz\x01q", .text "abc"]) =
        some t₁ :=
      callStep_ok (by decide)
    set t₂ := (perform anyTable t₁ (.insertRow [.text "q", .int (-2206092015782299270)])).1
    have h₂ : callStep anyTable t₁ (.insertRow [.text "q", .int (-2206092015782299270)]) =
        some t₂ :=
      callStep_ok (by decide)
    set t₃ := (perform anyTable t₂ (.createIndex coalesceIndex)).1
    have h₃ : callStep anyTable t₂ (.createIndex coalesceIndex) = some t₃ :=
      callStep_ok (by decide)
    exact ⟨t₃, .tail (.tail (.tail .refl rfl h₁) rfl h₂) rfl h₃,
      not_consistent 0 coalesceIndex rfl (by decide)⟩
  · set t₁ := (perform intTable (.fresh []) (.createIndex uniqueIndex)).1
    have h₁ : callStep intTable (.fresh []) (.createIndex uniqueIndex) = some t₁ :=
      callStep_ok (by decide)
    set t₂ := (perform intTable t₁ (.insertRow [.int 1, .int 5])).1
    have h₂ : callStep intTable t₁ (.insertRow [.int 1, .int 5]) = some t₂ :=
      callStep_ok (by decide)
    exact ⟨t₂, .tail (.tail .refl trivial h₁) trivial h₂,
      not_consistent 0 uniqueIndex rfl (by decide)⟩

end Mpedb
