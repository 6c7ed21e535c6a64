import Mpedb.Proofs.Compaction

/-!
# What a table keeps when the ids are compacted

The trees of a table and the records of the listed families are found under its new id; the records
of the other families stay where they are. Compaction therefore keeps the meaning of every live
table exactly when these records already read alike under the old and the new id.
-/

namespace Mpedb

open Bytes SortedMap List SegSnapshot

namespace IdSchema

variable {tables : List TableSlot} {t : TableSlot} {base : ℕ}

/-- A live table is found again under its new id. -/
theorem find_renumbered (next : ℕ) {p : TableSlot → Bool} (hid : ∀ t i, p { t with id := i } = p t)
    (hlive : ∀ t, p t = true → t.dead = false)
    (hd : ∀ (i : ℕ) (t : TableSlot), tables[i]? = some t → t.id = base + i)
    (h : tables.find? p = some t) :
    ∃ n, (renumbered next tables).find? p = some { t with id := n } ∧
      (idMap next tables).lookup t.id = some n := by
  induction tables generalizing base next with
  | nil => cases h
  | cons t₀ tables ih =>
    have htail : ∀ (i : ℕ) (t : TableSlot), tables[i]? = some t → t.id = base + 1 + i :=
      fun i t ht => by
      have := hd (i + 1) t (by simpa using ht)
      omega
    have hhead := hd 0 t₀ rfl
    by_cases hp : p t₀ = true
    · rw [List.find?_cons_of_pos hp] at h
      cases h
      refine ⟨next, ?_, ?_⟩
      · rw [renumbered, if_neg (by simp [hlive _ hp]), List.find?_cons_of_pos
          (by rw [hid]; exact hp)]
      · rw [idMap, if_neg (by simp [hlive _ hp]), lookup_cons_self]
    · rw [List.find?_cons_of_neg hp] at h
      cases hdead : t₀.dead with
      | true =>
        rw [renumbered, idMap, if_pos hdead, if_pos hdead]
        exact ih next htail h
      | false =>
        obtain ⟨n, hfind, hlookup⟩ := ih (next + 1) htail h
        -- the table stands further behind, so its id is another one
        obtain ⟨i, hi⟩ := List.getElem?_of_mem (mem_of_find?_eq_some h)
        have hne : (t.id == t₀.id) = false := by
          have := htail i t hi
          simp only [beq_eq_false_iff_ne]
          omega
        refine ⟨n, ?_, ?_⟩
        · rw [renumbered, if_neg (by simp [hdead]), List.find?_cons_of_neg (by rw [hid]; exact hp),
            hfind]
        · rw [idMap, if_neg (by simp [hdead]), lookup_cons, hne]
          exact hlookup

variable {s : IdSchema} {name : String} {o : ℕ}

theorem tableId_compacted (h : s.tableId name = some o) : ∃ t n, s.tables[o]? = some t ∧
    s.renumber o = some n ∧ s.compacted.1.tableId name = some n ∧
    s.compacted.1.tables[n]? = some { t with id := n } := by
  obtain ⟨t, hfind, rfl⟩ := Option.map_eq_some_iff.1 h
  have hd : ∀ (i : ℕ) (t : TableSlot), s.tables[i]? = some t → t.id = 0 + i := by
    simpa using s.dense
  obtain ⟨n, hfind', hlookup⟩ := find_renumbered 0 (fun _ _ => rfl)
    (fun t ht => by simpa using (Bool.and_eq_true_iff.1 ht).1) hd hfind
  obtain ⟨i, hi⟩ := List.getElem?_of_mem (mem_of_find?_eq_some hfind)
  obtain ⟨i', hi'⟩ := List.getElem?_of_mem (mem_of_find?_eq_some hfind')
  refine ⟨t, n, ?_, hlookup, ?_, ?_⟩
  · rw [s.dense i t hi]
    exact hi
  · exact Option.map_eq_some_iff.2 ⟨_, hfind', rfl⟩
  · have : n = i' := s.compacted.1.dense i' _ hi'
    rw [this] at hi' ⊢
    exact hi'

end IdSchema

/-- Two snapshots that differ at most in why a directory entry is missing. -/
structure SegSnapshot.Same (a b : SegSnapshot) : Prop where
  modGen : a.modGen.toOption = b.modGen.toOption
  rowCount : a.rowCount.toOption = b.rowCount.toOption
  types : a.types = b.types
  blocks : a.blocks = b.blocks
  watermark : a.watermark = b.watermark
  rows : a.rows = b.rows

/-- Every aggregate gets the same answer. -/
structure AnswersAlike (a b : SegSnapshot) : Prop where
  column : ∀ (σ : Type) (col : ℕ) (ty : ColumnType) (push : σ → Value → Except Error σ) (acc : σ),
    a.columnAnswer col ty push acc = b.columnAnswer col ty push acc
  group : ∀ (σ : Type) (needed : List (ℕ × ColumnType)) (push : σ → Row → Except Error σ) (acc : σ),
    a.groupAnswer needed push acc = b.groupAnswer needed push acc
  filtered : ∀ (σ : Type) (host : ExprHost) (fastOff : Bool) (prog : FilterProgram)
    (params : List Value)
    (aggCol : ℕ) (aggTy predTy : ColumnType) (push : σ → Value → Except Error σ) (acc : σ),
    a.filteredAnswer host fastOff prog params aggCol aggTy predTy push acc =
      b.filteredAnswer host fastOff prog params aggCol aggTy predTy push acc

namespace AnswersAlike

variable {a b c : SegSnapshot}

theorem symm (h : AnswersAlike a b) : AnswersAlike b a :=
  ⟨fun σ col ty push acc => (h.column σ col ty push acc).symm,
    fun σ needed push acc => (h.group σ needed push acc).symm,
    fun σ host fastOff prog params aggCol aggTy predTy push acc =>
      (h.filtered σ host fastOff prog params aggCol aggTy predTy push acc).symm⟩

theorem trans (h : AnswersAlike a b) (h' : AnswersAlike b c) : AnswersAlike a c :=
  ⟨fun σ col ty push acc => (h.column σ col ty push acc).trans (h'.column σ col ty push acc),
    fun σ needed push acc => (h.group σ needed push acc).trans (h'.group σ needed push acc),
    fun σ host fastOff prog params aggCol aggTy predTy push acc =>
      (h.filtered σ host fastOff prog params aggCol aggTy predTy push acc).trans
        (h'.filtered σ host fastOff prog params aggCol aggTy predTy push acc)⟩

theorem loadAll_congr {gen covered : ℕ} (h : a.blocks = b.blocks) : ∀ needed :
    List (ℕ × ColumnType), emitGroupSegments.loadAll a gen covered needed =
      emitGroupSegments.loadAll b gen covered needed
  | [] => rfl
  | (col, ty) :: needed => by
    have hload : a.loadColumn col ty gen covered = b.loadColumn col ty gen covered := by
      unfold loadColumn
      rw [h]
    rw [emitGroupSegments.loadAll, emitGroupSegments.loadAll, hload,
      loadAll_congr h needed]

theorem emitGroupSegments_congr {σ : Type} (h : a.blocks = b.blocks) (width : ℕ)
    (needed : List (ℕ × ColumnType)) (gen covered : ℕ) (push : σ → Row → Except Error σ) (acc : σ) :
    a.emitGroupSegments width needed gen covered push acc =
      b.emitGroupSegments width needed gen covered push acc := by
  unfold emitGroupSegments
  rw [loadAll_congr h]

/-- No feed and no scan tells one missing directory entry from another. -/
theorem of_same (h : a.Same b) : AnswersAlike a b := by
  obtain ⟨hg, hn, hty, hb, hw, hr⟩ := h
  obtain ⟨g, n, types, blocks, watermark, rows⟩ := a
  obtain ⟨g', n', types', blocks', watermark', rows'⟩ := b
  subst hty hb hw hr
  have hgroup := fun (σ : Type) => emitGroupSegments_congr
    (a := ⟨g, n, types, blocks, watermark, rows⟩)
    (b := ⟨g', n', types, blocks, watermark, rows⟩) (σ := σ) rfl
  cases g with
  | error e =>
    cases g' with
    | ok gen => cases hg
    | error e' =>
      refine ⟨fun _ _ _ _ _ => rfl, fun σ needed push acc => ?_, fun _ _ _ _ _ _ _ _ _ _ => rfl⟩
      simp only [groupAnswer, feedGroupFromSegments, hgroup]
      rfl
  | ok gen =>
    cases g' with
    | error e' => cases hg
    | ok gen' =>
      cases hg
      cases n with
      | error e =>
        cases n' with
        | ok m => cases hn
        | error e' =>
          refine ⟨fun _ _ _ _ _ => rfl, fun σ needed push acc => ?_, fun _ _ _ _ _ _ _ _ _ _ => rfl⟩
          simp only [groupAnswer, feedGroupFromSegments, hgroup]
          rfl
      | ok m =>
        cases n' with
        | error e' => cases hn
        | ok m' =>
          cases hn
          exact ⟨fun _ _ _ _ _ => rfl, fun _ _ _ _ => rfl, fun _ _ _ _ _ _ _ _ _ _ => rfl⟩

end AnswersAlike

/-- The trees of a table and its records of the listed families. -/
structure ListedAlike (s s' : CatalogState) (o n : ℕ) : Prop where
  trees : ∀ indexNo, s'.catalog.lookup (catTreeKey n indexNo) =
    s.catalog.lookup (catTreeKey o indexNo)
  pages : s'.rowsAt = s.rowsAt ∧ s'.maxRowid = s.maxRowid
  policies : ∀ name, sysGet s'.catalog (polSubkey n name) = sysGet s.catalog (polSubkey o name)
  enabled : sysGet s'.catalog (rlsenKey n) = sysGet s.catalog (rlsenKey o)
  epoch : sysGet s'.catalog (polepKey n) = sysGet s.catalog (polepKey o)
  dirty : ∀ pkHash, sysGet s'.catalog (dirtyKey n pkHash) = sysGet s.catalog (dirtyKey o pkHash)
  stats : ∀ indexNo, sysGet s'.catalog (statsKey n indexNo) = sysGet s.catalog (statsKey o indexNo)

/-- What a table reads of the other families: table `n` of one state with the records under
`recordId`, and table `o` of another. -/
structure UnlistedAlike (s : CatalogState) (o : ℕ) (s' : CatalogState) (n recordId : ℕ) : Prop where
  capture : captureBits s'.catalog recordId = captureBits s.catalog o
  rowid : (s'.nextRowidAbove n (rowidSeq s'.catalog recordId)).toOption = (s.nextRowid o).toOption
  answers : AnswersAlike (s'.segSnapshot n recordId) (s.segSnapshot o o)
  cursors : ∀ tag ∈ ["pull/", "push/"], ∀ link,
    sysGet s'.catalog (cursorKey tag link recordId) = sysGet s.catalog (cursorKey tag link o)
  bases : ∀ link pkHash,
    sysGet s'.catalog (baseKey link recordId pkHash) = sysGet s.catalog (baseKey link o pkHash)
  mirror : ∀ family ∈ ["map/", "imp/", "park/", "skip/"], ∀ pkHash,
    sysGet s'.catalog (mirrorKey family recordId pkHash) =
      sysGet s.catalog (mirrorKey family o pkHash)
  triggers : triggersOf s'.catalog recordId = triggersOf s.catalog o

section Compacted

variable {codec : SchemaCodec} {s s' : CatalogState} {o n : ℕ}

theorem listed_compacted (h : compactTableIds codec s = .ok s')
    (hn : s.schema.renumber o = some n) :
    ListedAlike s s' o n := by
  -- the listed families put the id right behind their beginning
  have record (lead : Key) (hspec : ∃ spec ∈ idKeys, spec.lead = lead ∧ spec.idAt =
      0) (rest : Key) :
      sysGet s'.catalog (lead ++ be 4 n ++ rest) = sysGet s.catalog (lead ++ be 4 o ++ rest) := by
    obtain ⟨spec, hmem, rfl, hid⟩ := hspec
    have hmid : ([] : Key).length = spec.idAt := hid.symm
    simpa using record_compacted h hn hmem hmid rest
  refine ⟨directory_compacted h hn, (compactTableIds_eq h).2.1, fun name => ?_, ?_, ?_,
    fun pkHash => ?_, fun indexNo => ?_⟩
  · simpa only [polSubkey, append_assoc] using record (ascii "pol/") (by decide) (ascii "/" ++ name)
  · simpa only [rlsenKey, append_nil] using record (ascii "rlsen/") (by decide) []
  · simpa only [polepKey, append_nil] using record (ascii "polep/") (by decide) []
  · simpa only [dirtyKey] using record (ascii "cdc" ++ 0 :: ascii "d/") (by decide) pkHash
  · exact record (ascii "stats" ++ [0]) (by decide) (be 4 indexNo)

theorem catalogEntry_compacted (h : compactTableIds codec s = .ok s')
    (hn : s.schema.renumber o = some n) (indexNo : ℕ) :
    (catalogEntry s'.catalog n indexNo).toOption = (catalogEntry s.catalog o indexNo).toOption := by
  unfold catalogEntry
  rw [directory_compacted h hn]
  cases s.catalog.lookup (catTreeKey o indexNo) with
  | none => rfl
  | some bytes => rfl

theorem toOption_map {α β : Type} {x y : Except Error α} (h : x.toOption = y.toOption) (f : α → β) :
    (x.map f).toOption = (y.map f).toOption := by
  cases x <;> cases y <;> cases h <;> rfl

section

variable (h : compactTableIds codec s = .ok s')

include h

theorem nextRowid_compacted (hn : s.schema.renumber o = some n)
    (hauto : s'.schema.autoincrement n = s.schema.autoincrement o) (stored : Int64) :
    (s'.nextRowidAbove n stored).toOption = (s.nextRowidAbove o stored).toOption := by
  have hentry := catalogEntry_compacted h hn 0
  have hmax := (compactTableIds_eq h).2.1.2
  unfold CatalogState.nextRowidAbove
  rw [hauto, hmax]
  rcases h₁ : catalogEntry s'.catalog n 0 with e | ⟨root, rest⟩ <;>
    rcases h₂ : catalogEntry s.catalog o 0 with e' | ⟨root', rest'⟩ <;>
    rw [h₁, h₂] at hentry <;> cases hentry <;> rfl

theorem colsegBlocks_compacted (id col : ℕ) :
    colsegBlocks s'.catalog id col = colsegBlocks s.catalog id col := by
  refine congrArg (fun records : List (Key × List UInt8) => (records.zipIdx.takeWhile fun e =>
    decide (e.1.1 = sysKey (colsegKey id col e.2))).map (·.1.2))
      (filter_entries_congr (p := fun k =>
      (sysKey (colsegLead id col)).isPrefixOf k && k.length = (sysKey (colsegKey id col 0)).length)
      fun k hk => ?_)
  obtain ⟨rest, rfl⟩ := List.isPrefixOf_iff_prefix.1 (Bool.and_eq_true_iff.1 hk).1
  have := record_kept h (ascii "colseg" ++ [0]) (by decide) (be 4 id ++ be 2 col ++ rest)
  simpa only [sysGet, sysKey, colsegLead, append_assoc, cons_append] using this

theorem triggersOf_compacted (id : ℕ) :
    triggersOf s'.catalog id = triggersOf s.catalog id := by
  refine congrArg (fun records : List (Key × List UInt8) => (records.filter fun e =>
    decide (triggerTable e.2 = some id)).map fun e => (e.1, e.2.drop 10)) (filter_entries_congr
      (p := fun k => (sysKey (ascii "trigger/")).isPrefixOf k) fun k hk => ?_)
  obtain ⟨rest, rfl⟩ := List.isPrefixOf_iff_prefix.1 hk
  exact record_kept h (ascii "trigger/") (by decide) rest

theorem segSnapshot_compacted (hn : s.schema.renumber o = some n)
    (htypes : s'.schema.tables[n]?.map (·.types) = s.schema.tables[o]?.map (·.types)) (id : ℕ) :
    (s'.segSnapshot n id).Same (s.segSnapshot o id) where
  modGen := toOption_map (catalogEntry_compacted h hn 0) _
  rowCount := toOption_map (catalogEntry_compacted h hn 0) _
  types := congrArg (·.getD []) htypes
  blocks := funext (colsegBlocks_compacted h id)
  watermark := by
    have := record_kept h (0 :: ascii "w") (by decide) (be 4 id)
    simp only [CatalogState.segSnapshot, columnarWatermark, colwmSubkey, this]
  rows := by
    simp only [CatalogState.segSnapshot, (compactTableIds_eq h).2.1.1,
      catalogEntry_compacted h hn 0]

theorem unlisted_compacted (hn : s.schema.renumber o = some n)
    {t : TableSlot} (ht : s.schema.tables[o]? = some t)
    (ht' : s'.schema.tables[n]? = some { t with id := n })
    (id : ℕ) : UnlistedAlike s o s' n id ↔ UnlistedAlike s o s o id := by
  have sync (rest : Key) := record_kept h (ascii "sync" ++ [0]) (by decide) rest
  have mir (rest : Key) := record_kept h (ascii "mir" ++ [0]) (by decide) rest
  have hcapture : captureBits s'.catalog id = captureBits s.catalog id := by
    have := record_kept h cdcTabsKey (by decide) []
    rw [append_nil] at this
    simp only [captureBits, captureConfig, this]
  have hseq : rowidSeq s'.catalog id = rowidSeq s.catalog id := by
    have := record_kept h (ascii "rowidseq/") (by decide) (be 4 id)
    simp only [rowidSeq, rowidSeqKey, this]
  have hrowid := nextRowid_compacted h hn (by simp [IdSchema.autoincrement, ht, ht'])
    (rowidSeq s.catalog id)
  have hanswers := AnswersAlike.of_same (segSnapshot_compacted h hn (by simp [ht, ht']) id)
  have hcursor (tag : String) (link : ℕ) :
      sysGet s'.catalog (cursorKey tag link id) = sysGet s.catalog (cursorKey tag link id) := by
    simpa only [cursorKey, append_assoc] using sync (ascii tag ++ be 8 link ++ ascii "/" ++ be 4 id)
  have hbase (link : ℕ) (pkHash : Key) :
      sysGet s'.catalog (baseKey link id pkHash) = sysGet s.catalog (baseKey link id pkHash) := by
    simpa only [baseKey, append_assoc] using sync (ascii "b/" ++ be 8 link ++ be 4 id ++ pkHash)
  have hmirror (family : String) (pkHash : Key) :
      sysGet s'.catalog (mirrorKey family id pkHash) =
        sysGet s.catalog (mirrorKey family id pkHash) := by
    simpa only [mirrorKey, append_assoc] using mir (ascii family ++ be 4 id ++ pkHash)
  have htriggers := triggersOf_compacted h id
  constructor
  · rintro ⟨h₁, h₂, h₃, h₄, h₅, h₆, h₇⟩
    refine ⟨hcapture ▸ h₁, hrowid.symm.trans (hseq ▸ h₂), hanswers.symm.trans h₃,
      fun tag htag link => ?_, fun link pkHash => ?_, fun family hf pkHash => ?_, htriggers ▸ h₇⟩
    · rw [← hcursor, h₄ tag htag link]
    · rw [← hbase, h₅ link pkHash]
    · rw [← hmirror, h₆ family hf pkHash]
  · rintro ⟨h₁, h₂, h₃, h₄, h₅, h₆, h₇⟩
    refine ⟨hcapture ▸ h₁, hseq ▸ hrowid.trans h₂, hanswers.trans h₃, fun tag htag link => ?_,
      fun link pkHash => ?_, fun family hf pkHash => ?_, htriggers ▸ h₇⟩
    · rw [hcursor, h₄ tag htag link]
    · rw [hbase, h₅ link pkHash]
    · rw [hmirror, h₆ family hf pkHash]

end

/-- After a compaction every live table, looked up by its name, reads its trees and all of its
records as before, if and only if the records of the families that are not moved read under its new
id as they do under its old one. -/
theorem compactTableIds_preserves_iff (h : compactTableIds codec s = .ok s') :
    (∀ name o, s.schema.tableId name = some o → ∃ n, s'.schema.tableId name = some n ∧
      ListedAlike s s' o n ∧ UnlistedAlike s o s' n n) ↔
    ∀ name o n, s.schema.tableId name = some o → s.schema.renumber o = some n →
    UnlistedAlike s o s o n := by
  have hschema := (compactTableIds_eq h).1
  constructor
  · intro hall name o n ho hn
    obtain ⟨t, n₁, ht, hn₁, hname, ht'⟩ := IdSchema.tableId_compacted ho
    obtain ⟨n₂, hname', -, hun⟩ := hall name o ho
    rw [hschema, hname] at hname'
    cases hname'
    cases hn.symm.trans hn₁
    rw [← hschema] at ht'
    exact (unlisted_compacted h hn ht ht' n).1 hun
  · intro hall name o ho
    obtain ⟨t, n, ht, hn, hname, ht'⟩ := IdSchema.tableId_compacted ho
    rw [← hschema] at hname ht'
    exact ⟨n, hname, listed_compacted h hn, (unlisted_compacted h hn ht ht' n).2
      (hall name o n ho hn)⟩

end Compacted

/-- A dropped table and a live one with an empty tree, and the records given. -/
def oneDropped (autoincrement : Bool) (records : Catalog) : CatalogState where
  schema :=
    { tables := [⟨0, "old", true, false, []⟩, ⟨1, "t", false, autoincrement, [.int64]⟩]
      dense := by
        intro i t h
        rcases i with _ | _ | i
        · cases h
          rfl
        · cases h
          rfl
        · cases h
      small := by simp }
  catalog := records.insert (catTreeKey 1 0) (List.replicate 16 0)
  rowsAt := fun _ => []
  maxRowid := fun _ => .ok none

/-- A codec that accepts every schema. -/
def plainCodec : SchemaCodec := ⟨fun _ => .ok (), fun _ => []⟩

/-- A table with row security and no record of the other families. -/
def securedTable : CatalogState := oneDropped false (empty.insert (sysKey (rlsenKey 1)) [1])

theorem compactTableIds_preserves_iff_secured :
    ∃ s', compactTableIds plainCodec securedTable = .ok s' ∧
    ∃ n, s'.schema.tableId "t" = some n ∧ ListedAlike securedTable s' 1 n ∧
    UnlistedAlike securedTable 1 s' n n := by
  obtain ⟨s', hs'⟩ : ∃ s', compactTableIds plainCodec securedTable = .ok s' := ⟨_, rfl⟩
  refine ⟨s', hs', (compactTableIds_preserves_iff hs').2 ?_ "t" 1 (by decide)⟩
  have hentries : securedTable.catalog.entries =
      [(catTreeKey 1 0, List.replicate 16 0), (sysKey (rlsenKey 1), [1])] := by decide
  have hblocks (id col : ℕ) : colsegBlocks securedTable.catalog id col = [] := by
    unfold colsegBlocks
    rw [hentries]
    simp [sysKey, colsegLead, catTreeKey, ascii, rlsenKey, sysPrefixByte]
  intro name o n ho hn
  have ho : o = 1 := by
    obtain ⟨t, hfind, rfl⟩ := Option.map_eq_some_iff.1 ho
    have hlive := List.find?_some hfind
    have hmem := mem_of_find?_eq_some hfind
    simp only [securedTable, oneDropped, mem_cons, not_mem_nil, or_false] at hmem
    rcases hmem with rfl | rfl
    · simp at hlive
    · rfl
  subst ho
  cases hn
  exact
    { capture := rfl
      rowid := rfl
      answers :=
        .of_same ⟨rfl, rfl, rfl, funext fun col => (hblocks 0 col).trans (hblocks 1 col).symm, rfl,
          rfl⟩
      cursors := fun _ _ _ => rfl
      bases := fun _ _ => rfl
      mirror := fun _ _ _ => rfl
      triggers := rfl }

/-- An AUTOINCREMENT table that had handed out 5 starts again at 1. -/
theorem compactTableIds_restarts_rowids : ∃ s s', compactTableIds plainCodec s = .ok s' ∧
    s.schema.tableId "t" = some 1 ∧ s'.schema.tableId "t" = some 0 ∧
    s.nextRowid 1 = .ok 6 ∧ s'.nextRowid 0 = .ok 1 :=
  ⟨oneDropped true (empty.insert (sysKey (rowidSeqKey 1)) (le 8 5)), _, rfl, by decide, by decide,
    by decide, by decide⟩

end Mpedb
