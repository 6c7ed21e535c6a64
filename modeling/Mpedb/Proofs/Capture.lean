import Mpedb.Capture
import Mpedb.Proofs.RowCalls

/-!
# The dirty set covers every change

A call that succeeds changes the rows of its table at one key and records that key with what became
of the row; a call that fails with a constraint error has changed nothing, as long as the index
expressions can be evaluated. Along a transaction the last record of a key tells its last state. The
streamed insert makes no record.
-/

namespace Mpedb

open Bytes SortedMap List

/-! ## Records -/

theorem DirtyOp.fromTag_tag (op : DirtyOp) : DirtyOp.fromTag op.tag = .ok op := by cases op <;> rfl

/-- An entry is read back, whatever its fields. -/
theorem DirtyEntry.decode_encode (e : DirtyEntry) : DirtyEntry.decode e.encode = .ok e := by
  have hlen : ¬ e.encode.length < 17 := by
    simp only [encode, length_cons, length_append, length_be]
    omega
  have htxn : ofBe ((e.encode.drop 1).take 8) = e.lastTxn.toNat := by
    rw [encode, drop_succ_cons, drop_zero, take_append_of_le_length (by simp),
      take_of_length_le (by simp), ofBe_be]
    exact Nat.mod_eq_of_lt e.lastTxn.toNat_lt
  have hrest : e.encode.drop 9 = be 8 e.wallUs.toUInt64.toNat ++ e.pkKeycode := by
    rw [encode, drop_succ_cons, drop_append_of_le_length (by simp),
      drop_eq_nil_of_le (by simp), nil_append]
  have hwall : ofBe ((e.encode.drop 9).take 8) = e.wallUs.toUInt64.toNat := by
    rw [hrest, take_append_of_le_length (by simp), take_of_length_le (by simp), ofBe_be]
    exact Nat.mod_eq_of_lt e.wallUs.toUInt64.toNat_lt
  have hkey : e.encode.drop 17 = e.pkKeycode := by
    rw [show 17 = 9 + 8 from rfl, ← drop_drop, hrest, drop_append_of_le_length (by simp),
      drop_eq_nil_of_le (by simp), nil_append]
  unfold decode
  rw [if_neg hlen, hkey]
  simp only [encode, headD_cons, DirtyOp.fromTag_tag]
  simp [pure, Except.pure, bind, Except.bind]

namespace CaptureEnv

variable {env : CaptureEnv}

theorem dirtyKey_inj {id id' : UInt32} {k k' : Key}
    (h : env.dirtyKey id.toNat k = env.dirtyKey id'.toNat k') :
    id = id' ∧ env.xxh3 k = env.xxh3 k' := by
  obtain ⟨hid, hhash⟩ := append_inj h (by simp)
  have hid := (append_inj hid rfl).2
  have hid := congrArg ofBe hid
  have hhash := congrArg ofBe hhash
  have lt4 (x : UInt32) : x.toNat < 256 ^ 4 := x.toNat_lt
  have lt16 (x : BitVec 128) : x.toNat < 256 ^ 16 := x.isLt
  rw [ofBe_be, ofBe_be, Nat.mod_eq_of_lt (lt4 _), Nat.mod_eq_of_lt (lt4 _)] at hid
  rw [ofBe_be, ofBe_be, Nat.mod_eq_of_lt (lt16 _), Nat.mod_eq_of_lt (lt16 _)] at hhash
  exact ⟨UInt32.toNat_inj.1 hid, BitVec.eq_of_toNat_eq hhash⟩

end CaptureEnv

section Rows

variable {h : Handle} {t t' : TableTxn} {key : Key} {row : Row}

/-- Taking the entries back removes the row; if that fails the error is no constraint error. -/
theorem undoPartialInsert_rows :
    ∀ {installed : List (IndexDef × ℕ)} {t : TableTxn} {r : Except Error Unit},
    (∀ e ∈ installed, Evaluates h.table e.1 row) →
    undoPartialInsert h key row installed t = (t', r) →
    (r = .ok () → t'.pk.map = t.pk.map.erase key) ∧ ∀ e, r = .error e → e.isConstraint = false
  | [], t, r, _, hu => by
    unfold undoPartialInsert btreeDelete at hu
    split at hu
    · cases hu
      refine ⟨by simp, ?_⟩
      rintro e ⟨⟩
      rfl
    · rename_i m hm
      cases hu
      exact ⟨fun _ => (Prod.mk.inj hm).1.symm, by simp⟩
  | (ix, i) :: rest, t, r, hev, hu => by
    have hrest : ∀ e ∈ rest, Evaluates h.table e.1 row := fun e he => hev e (mem_cons_of_mem _ he)
    unfold undoPartialInsert at hu
    rw [(hev _ (mem_cons_self ..)).indexEntryKey key] at hu
    split at hu
    · rename_i heq
      cases heq
    · exact undoPartialInsert_rows hrest hu
    · split at hu
      · cases hu
        refine ⟨by simp, ?_⟩
        rintro e ⟨⟩
        rfl
      · split at hu
        · cases hu
          refine ⟨by simp, ?_⟩
          rintro e ⟨⟩
          rfl
        · have := undoPartialInsert_rows hrest hu
          exact this

variable {len : ℕ} {e : Error}

theorem btreeInsert_error {β : Type} {m : SortedMap Key β} {k : Key} {v : β} {mode : InsertMode}
    (hb : btreeInsert m k v len mode = .error e) : e.isConstraint = false := by
  unfold btreeInsert at hb
  split_ifs at hb
  · cases hb
    rfl
  · cases hb
    rfl
  · split at hb <;> cases hb

/-- The entries of the indexes do not touch the rows unless one is refused. -/
theorem insertEntries_rows {asExtent : Bool} : ∀ {ixs : List IndexDef} {i : ℕ}
    {installed : List (IndexDef × ℕ)} {t : TableTxn} {r : Except Error Unit},
    (∀ ix ∈ ixs, Evaluates h.table ix row) → (∀ e ∈ installed, Evaluates h.table e.1 row) →
    insertEntries h asExtent key row i ixs installed t = (t', r) →
    (r = .ok () → t'.pk.map = t.pk.map) ∧
      ∀ e, r = .error e → e.isConstraint = true → t'.pk.map = t.pk.map.erase key
  | [], i, installed, t, r, _, _, hi => by
    cases hi
    exact ⟨fun _ => rfl, by simp⟩
  | ix :: ixs, i, installed, t, r, hev, hin, hi => by
    have hixs : ∀ ix ∈ ixs, Evaluates h.table ix row := fun ix hix => hev ix (mem_cons_of_mem _ hix)
    have hix := hev ix (mem_cons_self ..)
    unfold insertEntries at hi
    rw [hix.indexEntryKey key] at hi
    split at hi
    · rename_i heq
      cases heq
    · exact insertEntries_rows hixs hin hi
    · split at hi
      · cases hi
        refine ⟨by simp, ?_⟩
        rintro e ⟨⟩ hc
        cases hc
      · split at hi
        · rename_i hb
          cases hi
          refine ⟨by simp, ?_⟩
          rintro e ⟨⟩ hc
          rw [btreeInsert_error hb] at hc
          cases hc
        · split_ifs at hi
          · split at hi
            · rename_i e hu
              cases hi
              refine ⟨by simp, ?_⟩
              rintro e' ⟨⟩ hc
              rw [(undoPartialInsert_rows hin hu).2 e rfl] at hc
              cases hc
            · rename_i hu
              cases hi
              exact ⟨by simp, fun _ _ _ => (undoPartialInsert_rows hin hu).1 rfl⟩
          · cases hi
            refine ⟨by simp, ?_⟩
            rintro e ⟨⟩ hc
            cases hc
        · have hin' : ∀ e ∈ (ix, i) :: installed, Evaluates h.table e.1 row := by
            intro e he
            rcases mem_cons.1 he with rfl | he
            · exact hix
            · exact hin e he
          have := insertEntries_rows hixs hin' hi
          exact this

theorem eachIndex_rows {f : IndexDef → ℕ → Option (Tree Key) → Except Error (Option (Tree Key))} :
    ∀ {ixs : List IndexDef} {i : ℕ} {t : TableTxn} {r : Except Error Unit},
    (∀ ix ∈ ixs, ∀ i root e, f ix i root = .error e → e.isConstraint = false) →
    eachIndex f i ixs t = (t', r) → t'.pk = t.pk ∧ ∀ e, r = .error e → e.isConstraint = false
  | [], i, t, r, _, he => by
    cases he
    exact ⟨rfl, nofun⟩
  | ix :: ixs, i, t, r, hf, he => by
    have hixs := fun ix hix => hf ix (mem_cons_of_mem _ hix)
    unfold eachIndex at he
    split at he
    · rename_i e hfe
      cases he
      refine ⟨rfl, ?_⟩
      rintro e' ⟨⟩
      exact hf ix (mem_cons_self ..) _ _ e hfe
    · exact eachIndex_rows hixs he
    · have := eachIndex_rows hixs he
      exact this

theorem deleteEntry_error {ix : IndexDef} {i : ℕ} {root : Option (Tree Key)}
    (hev : Evaluates h.table ix row) (hd : deleteEntry h key row ix i root = .error e) :
    e.isConstraint = false := by
  unfold deleteEntry at hd
  rw [hev.indexEntryKey key] at hd
  split at hd
  · rename_i heq
    cases heq
  · cases hd
  · split at hd
    · cases hd
      rfl
    · split at hd
      · split_ifs at hd
        cases hd
        rfl
      · cases hd

/-- An update of an entry fails only with errors that end the transaction. -/
theorem updateEntry_error {new : Row} {ix : IndexDef} {i : ℕ} {root : Option (Tree Key)}
    (hev : Evaluates h.table ix row) (hev' : Evaluates h.table ix new)
    (hu : updateEntry h key row new ix i root = .error e) : e.isConstraint = false := by
  unfold updateEntry at hu
  rw [hev.indexEntryKey key, hev'.indexEntryKey key] at hu
  split_ifs at hu with hsame
  simp only [] at hu
  split_ifs at hu
  split at hu
  · cases hu
    rfl
  · split at hu
    · rename_i hdrop
      cases hu
      unfold dropOldEntry at hdrop
      split at hdrop
      · cases hdrop
      · split at hdrop
        · split_ifs at hdrop
          cases hdrop
          rfl
        · cases hdrop
    · rename_i tree hdrop
      unfold addNewEntry at hu
      split at hu
      · cases hu
      · split at hu
        · rename_i hb
          cases hu
          exact btreeInsert_error hb
        · cases hu
          rfl
        · cases hu

/-- What a call without a constraint error has done: nothing that is not recorded. -/
def Records (t : TableTxn) (key : Key) : TableTxn × Except Error (Option DirtyOp) → Prop
  | (t', .ok none) => t'.pk.map = t.pk.map
  | (t', .ok (some op)) => (∀ k, k ≠ key → t'.pk.map.lookup k = t.pk.map.lookup k) ∧
      ((t'.pk.map.lookup key).isSome = true ↔ op = .upsert)
  | (t', .error e) => e.isConstraint = true → t'.pk.map = t.pk.map

/-- `Records` for a call whose result says what it did. -/
def RecordsAs {α : Type} (op : α → Option DirtyOp) (t : TableTxn) (key : Key)
    (res : TableTxn × Except Error α) : Prop := Records t key (res.1, res.2.map op)

theorem records_write (hm : t'.pk.map = t.pk.map.insert key row) :
    Records t key (t', .ok (some .upsert)) := by
  refine ⟨fun k hk => ?_, ?_⟩
  · rw [hm, lookup_insert, if_neg hk]
  · simp [hm]

theorem records_erase (hm : t'.pk.map = t.pk.map.erase key) :
    Records t key (t', .ok (some .delete)) := by
  refine ⟨fun k hk => ?_, ?_⟩
  · rw [hm, lookup_erase, if_neg hk]
  · simp [hm]

theorem btreeInsert_map {β : Type} {m m' : SortedMap Key β} {k : Key} {v : β} {mode : InsertMode}
    {b : Bool} (hb : btreeInsert m k v len mode = .ok (m', b)) (hm : mode = .upsert ∨ b = false) :
    m' = m.insert k v := by
  unfold btreeInsert at hb
  split_ifs at hb
  split at hb <;> cases hb
  · simp at hm
  · rfl
  · rfl

theorem insertEntries_records {asExtent : Bool} {ixs : List IndexDef} {t₁ : TableTxn}
    (hev : ∀ ix ∈ ixs, Evaluates h.table ix row) (hnone : t.pk.map.lookup key = none)
    (ht : t₁.pk.map = t.pk.map.insert key row) :
    RecordsAs (fun _ => some .upsert) t key (insertEntries h asExtent key row 0 ixs [] t₁) := by
  rcases hres : insertEntries h asExtent key row 0 ixs [] t₁ with ⟨t', e | _⟩ <;>
    obtain ⟨hok, herr⟩ := insertEntries_rows hev (by simp) hres
  · exact fun hc => (herr e rfl hc).trans (ht ▸ erase_insert hnone)
  · exact records_write ((hok rfl).trans ht)

/-- An insert that succeeds records an upsert of its row, one that is refused changes no row. -/
theorem insertRow_records {values : Row}
    (hev : ∀ row, h.table.generated (h.table.storeAffinity values) = .ok row →
      ∀ ix ∈ t.bundle, Evaluates h.table ix row) :
    RecordsAs (fun _ => some .upsert) t (h.rowKey values) (insertRow h t values) := by
  unfold insertRow
  split_ifs
  · exact fun _ => rfl
  split
  · exact fun _ => rfl
  rename_i row hgen
  have hkey : h.rowKey values = h.table.pkKey row := by simp only [Handle.rowKey, hgen]
  rw [hkey]
  split
  · exact fun _ => rfl
  split
  · exact fun _ => rfl
  simp only []
  split
  · exact fun _ => rfl
  split_ifs
  · exact fun _ => rfl
  split
  · exact fun _ => rfl
  rcases btreeInsert_insertOnly t.pk.map (h.table.pkKey row) row (payloadLen h
    (h.extentThreshold.any (· < encodedLen row h.table.columns)) (encodedLen row h.table.columns))
    with ⟨msg, hi⟩ | ⟨hnone, hi⟩ | ⟨-, hi⟩ <;> rw [hi]
  · exact fun _ => rfl
  · exact insertEntries_records (hev row hgen) hnone rfl
  · exact fun _ => rfl

/-- A delete records what it has deleted. -/
theorem deleteByPk_records {pkValues : List Value}
    (hev : ∀ old, t.pk.map.lookup (encodeKeySpec pkValues h.table.pkSpecs) = some old →
      ∀ ix ∈ t.bundle, Evaluates h.table ix old) :
    RecordsAs (fun found => if found then some .delete else none) t
      (encodeKeySpec pkValues h.table.pkSpecs) (deleteByPk h t pkValues) := by
  unfold deleteByPk
  split_ifs
  · exact fun _ => rfl
  simp only []
  set key := encodeKeySpec pkValues h.table.pkSpecs
  split
  · rfl
  rename_i old hold
  have hf : ∀ ix ∈ t.bundle, ∀ i root e, deleteEntry h key old ix i root = .error e →
      e.isConstraint = false := fun ix hix _ _ _ he => deleteEntry_error (hev old hold ix hix) he
  split
  · rename_i t₁ e he
    intro hc
    rw [(eachIndex_rows hf he).2 e rfl] at hc
    cases hc
  · rename_i t₁ he
    exact records_erase (by rw [(eachIndex_rows hf he).1])

/-- An update records an upsert if it has found its row. -/
theorem updateByPk_records {values : Row}
    (hev : ∀ new, h.table.generated (h.table.storeAffinity values) = .ok new → ∀ ix ∈ t.bundle,
      Evaluates h.table ix new ∧
      ∀ old, t.pk.map.lookup (h.table.pkKey new) = some old → Evaluates h.table ix old) :
    RecordsAs (fun found => if found then some .upsert else none) t (h.rowKey values)
      (updateByPk h t values) := by
  unfold updateByPk
  split_ifs
  · exact fun _ => rfl
  split
  · exact fun _ => rfl
  rename_i new hgen
  have hkey : h.rowKey values = h.table.pkKey new := by simp only [Handle.rowKey, hgen]
  rw [hkey]
  split
  · exact fun _ => rfl
  simp only []
  split
  · rfl
  rename_i old hold
  split
  · exact fun _ => rfl
  split
  · exact fun _ => rfl
  split
  · exact fun _ => rfl
  split
  · exact fun _ => rfl
  rename_i m b hb
  have hf : ∀ ix ∈ t.bundle, ∀ i root e, updateEntry h (h.table.pkKey new) old new ix i root =
      .error e →
      e.isConstraint = false := fun ix hix _ _ _ he =>
    updateEntry_error ((hev new hgen ix hix).2 old hold) (hev new hgen ix hix).1 he
  split
  · rename_i t₁ e he
    intro hc
    rw [(eachIndex_rows hf he).2 e rfl] at hc
    cases hc
  · rename_i t₁ he
    have hm : t₁.pk.map = m := by rw [(eachIndex_rows hf he).1]
    exact records_write (hm.trans (btreeInsert_map hb (.inl rfl)))

theorem optimisticInsert_records :
    RecordsAs (fun added => if added then some .upsert else none) t key
    (optimisticInsert h t key row len) := by
  unfold optimisticInsert
  split_ifs
  · exact fun _ => rfl
  split
  · exact fun _ => rfl
  · rfl
  · rename_i m hb
    exact records_write (btreeInsert_map hb (.inr rfl))

theorem optimisticUpsert_records :
    RecordsAs (fun _ => some .upsert) t key (optimisticUpsert h t key row len) := by
  unfold optimisticUpsert
  split_ifs
  · exact fun _ => rfl
  split
  · exact fun _ => rfl
  · rename_i m b hb
    exact records_write (btreeInsert_map hb (.inl rfl))

theorem optimisticDelete_records :
    RecordsAs (fun found => if found then some .delete else none) t key
    (optimisticDelete h t key) := by
  unfold optimisticDelete btreeDelete
  split_ifs
  · exact fun _ => rfl
  split
  · rfl
  · rename_i m hm
    exact records_erase (Prod.mk.inj hm).1.symm

/-- No streamed insert, and the predicates and expressions of the table's indexes can be evaluated
on the row written and on the row it replaces or removes. -/
def RowCall.Captured (h : Handle) (t : TableTxn) : RowCall → Prop
  | .insertRow values => ∀ row, h.table.generated (h.table.storeAffinity values) = .ok row →
      ∀ ix ∈ t.bundle, Evaluates h.table ix row
  | .insertRowStreaming _ _ _ => False
  | .updateByPk values => ∀ new, h.table.generated (h.table.storeAffinity values) = .ok new →
      ∀ ix ∈ t.bundle, Evaluates h.table ix new ∧
        ∀ old, t.pk.map.lookup (h.table.pkKey new) = some old → Evaluates h.table ix old
  | .deleteByPk pkValues => ∀ old, t.pk.map.lookup
      (encodeKeySpec pkValues h.table.pkSpecs) = some old →
      ∀ ix ∈ t.bundle, Evaluates h.table ix old
  | .optimisticInsert _ _ _ | .optimisticUpsert _ _ _ | .optimisticDelete _ => True

theorem RowCall.run_records (isFts : Bool) {c : RowCall} (hc : c.Captured h t) :
    Records t (c.key h) (c.run h isFts t) := by
  cases c with
  | insertRow values => exact insertRow_records hc
  | insertRowStreaming values streamCol src => exact hc.elim
  | updateByPk values => exact updateByPk_records hc
  | deleteByPk pkValues => exact deleteByPk_records hc
  | optimisticInsert key row len => exact optimisticInsert_records
  | optimisticUpsert key row len => exact optimisticUpsert_records
  | optimisticDelete key => exact optimisticDelete_records

end Rows

/-! ## Transactions -/

/-- A row of a table by its key. -/
def CaptureTxn.row (s : CaptureTxn) (id : UInt32) (k : Key) : Option Row :=
  (s.tables id.toNat).pk.map.lookup k

namespace CaptureEnv

variable (env : CaptureEnv) (config : CaptureConfig)

/-- The row that a call writes. -/
def touched (m : Mutation) : UInt32 × Key := (m.id, m.call.key (env.handle config m.id.toNat))

/-- Every call of the transaction is captured in the state in which it runs. -/
def AllCaptured : CaptureTxn → List Mutation → Prop
  | _, [] => True
  | s, m :: ms => m.call.Captured (env.handle config m.id.toNat) (s.tables m.id.toNat) ∧
      ∀ s', env.mutationStep s m = some s' → AllCaptured s' ms

/-- No two rows of a table that the transaction touches have one hash. -/
def HashesApart (ms : List Mutation) : Prop :=
  ∀ m ∈ ms, ∀ m' ∈ ms, m.id = m'.id → env.xxh3 (env.touched config m).2 =
    env.xxh3 (env.touched config m').2 →
    (env.touched config m).2 = (env.touched config m').2

instance (ms : List Mutation) : Decidable (env.HashesApart config ms) :=
  inferInstanceAs (Decidable (∀ m ∈ ms, ∀ m' ∈ ms, _ → _ → _))

/-- The record of a row in its last state. -/
def Recorded (s : CaptureTxn) (id : UInt32) (k : Key) : Prop :=
  ∃ wallUs, sysGet s.catalog (env.dirtyKey id.toNat k) = some (DirtyEntry.encode
    ⟨if (s.row id k).isSome then .upsert else .delete, env.txnId + 1, wallUs, k⟩)

/-- `done` are the rows touched since `s₀`. -/
structure Covers (s₀ s : CaptureTxn) (done : List (UInt32 × Key)) : Prop where
  rows : ∀ id k, (id, k) ∉ done → s.row id k = s₀.row id k
  records : ∀ id k, (id, k) ∈ done → config.captured.contains id.toNat = true → env.Recorded s id k
  kept : ∀ key, (∀ e ∈ done, config.captured.contains e.1.toNat = true →
    key ≠ sysKey (env.dirtyKey e.1.toNat e.2)) → s.catalog.lookup key = s₀.catalog.lookup key

variable {env config} {s₀ s s' : CaptureTxn} {done : List (UInt32 × Key)} {m : Mutation}

theorem Covers.refl : Covers env config s s [] :=
  ⟨fun _ _ _ => rfl, nofun, fun _ _ => rfl⟩

section

variable (h : Covers env config s₀ s done)

include h

theorem Covers.captureConfig_eq :
    captureConfig s.catalog = captureConfig s₀.catalog := by
  have hkey : sysGet s.catalog cdcTabsKey = sysGet s₀.catalog cdcTabsKey := by
    refine h.kept _ fun e _ _ heq => ?_
    have := congrArg List.length heq
    simp [sysKey, cdcTabsKey, dirtyKey, Mpedb.dirtyKey, ascii] at this
  simp only [captureConfig, hkey]

theorem Covers.same {t : TableTxn} {id : ℕ}
    (ht : t.pk.map = (s.tables id).pk.map) :
    Covers env config s₀ ⟨Function.update s.tables id t, s.catalog⟩ done := by
  have hrow (id' : UInt32) (k : Key) :
      CaptureTxn.row ⟨Function.update s.tables id t, s.catalog⟩ id' k = s.row id' k := by
    unfold CaptureTxn.row
    by_cases hid : id'.toNat = id
    · subst hid
      simp [ht]
    · simp only [Function.update_of_ne hid]
  refine ⟨fun id' k hk => (hrow id' k).trans (h.rows id' k hk), fun id' k hk hcap => ?_, h.kept⟩
  obtain ⟨wallUs, hw⟩ := h.records id' k hk hcap
  exact ⟨wallUs, by rw [hrow]; exact hw⟩

/-- One record more covers the row that was changed. -/
theorem Covers.record (hon : env.captureEnabled = true) {t : TableTxn}
    {id : UInt32} {key : Key} {op : DirtyOp} {wallUs : Int64}
    (hother : ∀ k, k ≠ key → t.pk.map.lookup k = (s.tables id.toNat).pk.map.lookup k)
    (hop : (t.pk.map.lookup key).isSome = true ↔ op = .upsert)
    (hhash : ∀ k, (id, k) ∈ done → env.xxh3 k = env.xxh3 key → k = key) :
    Covers env config s₀ ⟨Function.update s.tables id.toNat t,
      env.captureDirty config id.toNat key op wallUs s.catalog⟩ ((id, key) :: done) := by
  set s' : CaptureTxn := ⟨Function.update s.tables id.toNat t,
    env.captureDirty config id.toNat key op wallUs s.catalog⟩
  have hrow (id' : UInt32) (k : Key) (hne : (id', k) ≠ (id, key)) : s'.row id' k = s.row id' k := by
    unfold CaptureTxn.row
    by_cases hid : id' = id
    · subst hid
      simp only [s', Function.update_self]
      exact hother k fun hk => hne (by rw [hk])
    · have hid' : id'.toNat ≠ id.toNat := fun h => hid (UInt32.toNat_inj.1 h)
      simp only [s', Function.update_of_ne hid']
  have hself : s'.row id key = t.pk.map.lookup key := by
    simp only [CaptureTxn.row, s', Function.update_self]
  have hcat (hcap : config.captured.contains id.toNat = true) : s'.catalog = s.catalog.insert
      (sysKey (env.dirtyKey id.toNat key))
      (DirtyEntry.encode ⟨op, env.txnId + 1, wallUs, key⟩) := by
    simp only [s', captureDirty, hon, hcap, Bool.not_true, Bool.false_eq_true, if_false]
  refine ⟨fun id' k hk => ?_, fun id' k hk hcap => ?_, fun k hk => ?_⟩
  · rw [mem_cons, not_or] at hk
    rw [hrow id' k hk.1, h.rows id' k hk.2]
  · by_cases heq : (id', k) = (id, key)
    · cases heq
      refine ⟨wallUs, ?_⟩
      have hop' : op = if (s'.row id key).isSome then .upsert else .delete := by
        rw [hself]
        split_ifs with hs
        · exact hop.1 hs
        · cases op with
          | upsert => exact absurd (hop.2 rfl) hs
          | delete => rfl
      rw [sysGet, hcat hcap, lookup_insert_self, ← hop']
    · have hmem := (mem_cons.1 hk).resolve_left heq
      obtain ⟨wall, hw⟩ := h.records id' k hmem hcap
      refine ⟨wall, ?_⟩
      rw [hrow id' k heq, ← hw]
      by_cases hcap' : config.captured.contains id.toNat = true
      · -- the record stands elsewhere: another table, or another hash
        rw [sysGet, hcat hcap', lookup_insert, if_neg, sysGet]
        intro hkey
        obtain ⟨rfl, hx⟩ := dirtyKey_inj (List.cons.inj hkey).2
        exact heq (by rw [hhash k hmem hx])
      · simp only [s', captureDirty, hon, hcap', Bool.not_true, Bool.false_eq_true, if_false,
          Bool.not_false, if_true]
  · by_cases hcap : config.captured.contains id.toNat = true
    · rw [hcat hcap, lookup_insert, if_neg (hk (id, key) (mem_cons_self ..) hcap)]
      exact h.kept k fun e he => hk e (mem_cons_of_mem _ he)
    · have : s'.catalog = s.catalog := by
        simp only [s', captureDirty, hon, hcap, Bool.not_true, Bool.false_eq_true, if_false,
          Bool.not_false, if_true]
      rw [this]
      exact h.kept k fun e he => hk e (mem_cons_of_mem _ he)

/-- A mutation records the row it touches, or touches none. -/
theorem Covers.step (hon : env.captureEnabled = true)
    (hconfig : captureConfig s₀.catalog = .ok config)
    (hcap : m.call.Captured (env.handle config m.id.toNat) (s.tables m.id.toNat))
    (hhash : ∀ k, (m.id, k) ∈ done → env.xxh3 k = env.xxh3 (env.touched config m).2 →
      k = (env.touched config m).2)
    (hs : env.mutationStep s m = some s') :
    Covers env config s₀ s' done ∨ Covers env config s₀ s' (env.touched config m :: done) := by
  have hrec := RowCall.run_records (env.isFts m.id.toNat) hcap
  unfold mutationStep mutate at hs
  rw [h.captureConfig_eq.trans hconfig] at hs
  simp only [] at hs
  rcases hr : m.call.run (env.handle config m.id.toNat) (env.isFts m.id.toNat) (s.tables m.id.toNat)
    with ⟨t, e | (_ | op)⟩ <;> rw [hr] at hs hrec <;> simp only [] at hs
  · split_ifs at hs with hc
    cases hs
    exact .inl (h.same (hrec hc))
  · cases hs
    exact .inl (h.same hrec)
  · cases hs
    exact .inr (h.record hon hrec.1 hrec.2 hhash)

end

/-- By recursion on the mutations. -/
theorem Covers.run (hon : env.captureEnabled = true)
    (hconfig : captureConfig s₀.catalog = .ok config)
    {all : List Mutation} (hhash : env.HashesApart config all) :
    ∀ {ms : List Mutation} {s : CaptureTxn} {done : List (UInt32 × Key)}, (∀ m ∈ ms, m ∈ all) →
    (∀ e ∈ done, ∃ m ∈ all, e = env.touched config m) → Covers env config s₀ s done →
    env.AllCaptured config s ms → env.runMutations s ms = some s' →
    ∃ done', (∀ e ∈ done', ∃ m ∈ all, e = env.touched config m) ∧ Covers env config s₀ s' done'
  | [], s, done, _, hdone, h, _, hrun => by
    cases hrun
    exact ⟨done, hdone, h⟩
  | m :: ms, s, done, hms, hdone, h, hcap, hrun => by
    obtain ⟨s₁, hs₁, hrun⟩ := Option.bind_eq_some_iff.1 hrun
    have hm := hms m (mem_cons_self ..)
    have hms' : ∀ m ∈ ms, m ∈ all := fun m' hm' => hms m' (mem_cons_of_mem _ hm')
    have hapart : ∀ k, (m.id, k) ∈ done → env.xxh3 k = env.xxh3 (env.touched config m).2 →
        k = (env.touched config m).2 := by
      intro k hk hx
      obtain ⟨m', hm', heq⟩ := hdone _ hk
      have hid : m'.id = m.id := (congrArg Prod.fst heq).symm
      have hkey : (env.touched config m').2 = k := (congrArg Prod.snd heq).symm
      rw [← hkey] at hx ⊢
      exact hhash m' hm' m hm hid hx
    rcases h.step hon hconfig hcap.1 hapart hs₁ with h₁ | h₁
    · exact Covers.run hon hconfig hhash hms' hdone h₁ (hcap.2 s₁ hs₁) hrun
    · refine Covers.run hon hconfig hhash hms' (fun e he => ?_) h₁ (hcap.2 s₁ hs₁) hrun
      rcases mem_cons.1 he with rfl | he
      · exact ⟨m, hm, rfl⟩
      · exact hdone e he

/-- After a transaction that streams no insert and evaluates its index expressions, every row of a
captured table that differs from before has its record: the row's key, the transaction that commits,
and whether the row is there. No other record of the catalog has changed. -/
theorem capture_complete {ms : List Mutation} (hrun : env.runMutations s₀ ms = some s)
    (hconfig : captureConfig s₀.catalog = .ok config) (hon : env.captureEnabled = true)
    (hcap : env.AllCaptured config s₀ ms) (hhash : env.HashesApart config ms) :
    (∀ (id : UInt32) (k : Key), config.captured.contains id.toNat = true →
      s.row id k ≠ s₀.row id k →
      ∃ bytes entry, sysGet s.catalog (env.dirtyKey id.toNat k) = some bytes ∧
        DirtyEntry.decode bytes = .ok entry ∧ entry.pkKeycode = k ∧ entry.lastTxn = env.txnId + 1 ∧
        entry.op = if (s.row id k).isSome then .upsert else .delete) ∧
    ∀ key, s.catalog.lookup key ≠ s₀.catalog.lookup key → ∃ m ∈ ms,
      config.captured.contains m.id.toNat = true ∧
        key = sysKey (env.dirtyKey m.id.toNat (env.touched config m).2) := by
  obtain ⟨done, hdone, h⟩ := Covers.run hon hconfig hhash (fun _ hm => hm)
    (by simp) Covers.refl hcap hrun
  refine ⟨fun id k hc hne => ?_, fun key hne => ?_⟩
  · have hmem : (id, k) ∈ done := by
      by_contra hk
      exact hne (h.rows id k hk)
    obtain ⟨wallUs, hw⟩ := h.records id k hmem hc
    exact ⟨_, _, hw, DirtyEntry.decode_encode _, rfl, rfl, rfl⟩
  · by_contra hno
    refine hne (h.kept key fun e he hc heq => hno ?_)
    obtain ⟨m, hm, rfl⟩ := hdone e he
    exact ⟨m, hm, hc, heq⟩

end CaptureEnv

/-! ### A captured table -/

/-- One table of an integer key and a blob, with the indexes given, and capture on. -/
def capturedEnv : CaptureEnv where
  table _ := { table := ⟨"t", [nullableColumn "id" .int64, nullableColumn "a" .int64,
    nullableColumn "b" .blob], [0], id, .ok⟩ }
  isFts _ := false
  captureEnabled := true
  txnId := 6
  xxh3 k := BitVec.ofNat 128 (ofBe k)

/-- Table 1 is captured. -/
def capturedTxn (ixs : List IndexDef) : CaptureTxn where
  tables _ := .fresh ixs
  catalog := empty.insert (sysKey cdcTabsKey) (le 8 1 ++ (le 2 1 ++ le 4 1) ++ le 2 0)

/-- A row inserted and then replaced blindly. -/
def twoWrites : List CaptureEnv.Mutation :=
  [⟨1, .insertRow [.int 1, .int 5, .blob []], 100⟩,
    ⟨1, .optimisticUpsert (intTable.table.pkKey [.int 1]) [.int 1, .int 6, .blob []] 30, 200⟩]

theorem capture_complete_two : ∃ s bytes entry,
    capturedEnv.runMutations (capturedTxn []) twoWrites = some s ∧
    sysGet s.catalog (capturedEnv.dirtyKey 1 (intTable.table.pkKey [.int 1])) = some bytes ∧
    DirtyEntry.decode bytes = .ok entry ∧ entry.lastTxn = 7 ∧ entry.op = .upsert := by
  obtain ⟨s, hrun, hrow⟩ : ∃ s, capturedEnv.runMutations (capturedTxn []) twoWrites = some s ∧
      s.row 1 (intTable.table.pkKey [.int 1]) = some [.int 1, .int 6, .blob []] :=
        ⟨_, rfl, by decide⟩
  have hconfig : captureConfig (capturedTxn []).catalog = .ok ⟨[1], [], 1⟩ := by decide
  have hcap : capturedEnv.AllCaptured ⟨[1], [], 1⟩ (capturedTxn []) twoWrites := by
    refine ⟨fun _ _ ix hix => ?_, fun _ _ => ⟨trivial, fun _ _ => trivial⟩⟩
    simp [capturedTxn, TableTxn.fresh] at hix
  obtain ⟨hall, -⟩ := CaptureEnv.capture_complete hrun hconfig rfl hcap (by decide)
  have hne : s.row 1 (intTable.table.pkKey [.int 1]) ≠ (capturedTxn []).row 1
      (intTable.table.pkKey [.int 1]) := by
    rw [hrow]
    exact nofun
  obtain ⟨bytes, entry, hbytes, hdecode, -, htxn, hop⟩ := hall 1 _ (by decide) hne
  rw [hrow] at hop
  exact ⟨s, bytes, entry, hrun, hbytes, hdecode, htxn, hop⟩

/-- A streamed insert after an ordinary one makes no record. Nor does an insert whose row stays
behind when an index expression fails on it. -/
theorem capture_incomplete :
    (∃ s, capturedEnv.runMutations (capturedTxn [])
        [⟨1, .insertRow [.int 2, .int 4, .blob []], 90⟩,
          ⟨1, .insertRowStreaming [.int 1, .int 5, .blob []] 2 ⟨3, .ok (.blob [1, 2, 3])⟩, 100⟩] =
            some s ∧
      s.row 1 (intTable.table.pkKey [.int 1]) = some [.int 1, .int 5, .blob [1, 2, 3]] ∧
      (capturedTxn []).row 1 (intTable.table.pkKey [.int 1]) = none ∧
      sysGet s.catalog (capturedEnv.dirtyKey 1 (intTable.table.pkKey [.int 1])) = none) ∧
    ∃ s, capturedEnv.runMutations (capturedTxn [absIndex])
        [⟨1, .insertRow [.int 1, .int Int64.minValue, .blob []], 100⟩] = some s ∧
      (s.row 1 (intTable.table.pkKey [.int 1])).isSome = true ∧
      (capturedTxn [absIndex]).row 1 (intTable.table.pkKey [.int 1]) = none ∧
      sysGet s.catalog (capturedEnv.dirtyKey 1 (intTable.table.pkKey [.int 1])) = none :=
  ⟨⟨_, rfl, by decide, rfl, by decide⟩, ⟨_, rfl, by decide, rfl, by decide⟩⟩

end Mpedb
