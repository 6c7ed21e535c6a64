import Mpedb.Lib.Outcome
import Mpedb.Notify
import Mpedb.Proofs.Effects

/-!
# No change goes unnoticed

A fingerprint accepts every prefix of a key in its region, and the region of a transaction is a
prefix of the region of each of its hints. What is left is that a statement changes rows of its
table under the region it hints only, which holds where the plan's key is the stored one and neither
triggers nor the actions of foreign keys come back to the table.
-/

namespace Mpedb

open KeyedPlan

open List hiding set

open Fallible Function Outcome SortedMap

/-! ## Fingerprints -/

theorem keyFingerprint_length {region : Key} (h : region ≠ []) :
    (keyFingerprint region >>> 56).toNat = min region.length 255 := by
  have hmod : min region.length 255 % 2 ^ 64 = min region.length 255 := Nat.mod_eq_of_lt (by omega)
  have hlow : ∀ x : UInt64, (x &&& 0xffffffffffffff).toNat < 2 ^ 56 := by
    intro x
    exact Nat.and_lt_two_pow _ (by decide)
  simp only [keyFingerprint, List.isEmpty_iff, h, if_false, UInt64.toNat_shiftRight,
    UInt64.toNat_or, UInt64.toNat_shiftLeft, UInt64.toNat_ofNat']
  rw [show (56 : UInt64).toNat % 64 = 56 from rfl, Nat.shiftRight_or_distrib,
    Nat.shiftRight_eq_div_pow _ 56, Nat.shiftRight_eq_div_pow _ 56, Nat.div_eq_of_lt (hlow _),
    Nat.or_zero]
  omega

/-- Two prefixes of one key compare equal as far as the shorter one goes. -/
theorem fingerprintMatches_of_isPrefix {region listener key : Key} (hr : region <+: key)
    (hl : listener <+: key) : fingerprintMatches (keyFingerprint region) listener = true := by
  by_cases hnil : region = []
  · subst hnil
    rfl
  simp only [fingerprintMatches, keyFingerprint_length hnil]
  split_ifs with h0 hlen
  · rfl
  · rfl
  -- the bytes that are hashed are those of the key on both sides
  have htake : listener.take (min region.length 255) = region.take (min region.length 255) := by
    rw [List.prefix_iff_eq_take.1 hl, List.prefix_iff_eq_take.1 hr, List.take_take, List.take_take]
    congr 1
    simp only [List.length_take]
    omega
  rw [htake, beq_iff_eq]
  have hpos : 0 < region.length := List.length_pos_iff.2 hnil
  have hne : region.take (min region.length 255) ≠ [] := by
    rw [Ne, ← List.length_eq_zero_iff, List.length_take]
    omega
  have hlen : min (min (min region.length 255) region.length) 255 = min region.length 255 := by
    omega
  simp only [keyFingerprint, List.isEmpty_iff, hnil, hne, List.length_take, List.take_take,
    hlen, min_self]

/-! ## Hints -/

/-- A listener on the key learns of a change from this hint: it names no region, or one that the key
is in. -/
def Hinted (hint : Option (Option Key)) (key : Key) : Prop :=
  ∃ region, hint = some region ∧ ∀ r, region = some r → r <+: key

theorem joinRegions_some {a b : Option Key} {r : Key} (h : joinRegions a b = some r) :
    ∃ x y, a = some x ∧ b = some y ∧ r <+: x ∧ r <+: y := by
  rcases a with _ | x
  · cases h
  rcases b with _ | y
  · cases h
  simp only [joinRegions] at h
  split_ifs at h
  cases h
  exact ⟨x, y, rfl, rfl, Stem.common_isPrefix_left x y, Stem.common_isPrefix_right x y⟩

theorem KeyedPlan.written_cases (p : KeyedPlan) : p.written = [] ∨ ∃ id, p.written = [id] := by
  unfold written
  split
  · exact .inl rfl
  all_goals exact .inr ⟨_, rfl⟩

section Keys

variable {env : NotifyEnv} {keys : NotifyKeys} {p : KeyedPlan} {params : List Value} {id : ℕ}

theorem hintNotifyKeys_of_mem (hid : id ∈ p.written) : hintNotifyKeys env keys p params id =
    some (joinRegions ((keys id).getD (p.region env params)) (p.region env params)) := by
  unfold hintNotifyKeys
  rcases p.written_cases with hw | ⟨id', hw⟩ <;> rw [hw] at hid ⊢
  · cases hid
  · cases mem_singleton.1 hid
    exact update_self ..

theorem hintNotifyKeys_of_not_mem (hid : id ∉ p.written) :
    hintNotifyKeys env keys p params id = keys id := by
  unfold hintNotifyKeys
  rcases p.written_cases with hw | ⟨id', hw⟩ <;> rw [hw] at hid ⊢
  · rfl
  · exact update_of_ne (by simpa using hid) ..

theorem hinted_plan {key : Key} (hid : id ∈ p.written)
    (h : ∀ r, p.region env params = some r → r <+: key) :
    Hinted (hintNotifyKeys env keys p params id) key := by
  refine ⟨_, hintNotifyKeys_of_mem hid, fun r hr => ?_⟩
  obtain ⟨-, y, -, hy, -, hry⟩ := joinRegions_some hr
  exact hry.trans (h y hy)

theorem Hinted.plan {key : Key} (h : Hinted (keys id) key) :
    Hinted (hintNotifyKeys env keys p params id) key := by
  by_cases hid : id ∈ p.written
  · obtain ⟨old, hold, hcover⟩ := h
    refine ⟨_, hintNotifyKeys_of_mem hid, fun r hr => ?_⟩
    rw [hold] at hr
    obtain ⟨x, -, hx, -, hrx, -⟩ := joinRegions_some hr
    exact hrx.trans (hcover x hx)
  · rwa [hintNotifyKeys_of_not_mem hid]

theorem hintNotifyKeys_vague (h : keys id = some none) :
    hintNotifyKeys env keys p params id = some none := by
  by_cases hid : id ∈ p.written
  · rw [hintNotifyKeys_of_mem hid, h]
    rfl
  · rw [hintNotifyKeys_of_not_mem hid, h]

theorem hintNotifyKeys_of_none (hid : id ∈ p.written) (h : p.region env params = none) :
    hintNotifyKeys env keys p params id = some none := by
  rw [hintNotifyKeys_of_mem hid, h]
  rcases (keys id).getD none with _ | _ <;> rfl

end Keys

/-! ## The keys of rows -/

/-- The key columns are stored as `encode_key` has them. -/
def PlainKeys (st : SchemaTable) : Prop := ∀ spec ∈ st.table.pkSpecs, spec = {}

/-- The primary key of the row has values of its columns' types. -/
def KeyFits (st : SchemaTable) (row : Row) : Prop :=
  ∀ i ∈ st.table.primaryKey, ∀ cd, st.table.columns[i]? = some cd → (row.col i).fits cd.ty = true

/-- Storing a row leaves the values of its key alone if they have the types of their columns. -/
def KeepsKey (st : SchemaTable) : Prop :=
  ∀ row row', KeyFits st row → st.table.generated (st.table.storeAffinity row) = .ok row' →
    ∀ i ∈ st.table.primaryKey, row'.col i = row.col i

theorem encodeKeySpec_plain : ∀ (vs : List Value) {specs : List KeySpec},
    (∀ spec ∈ specs, spec = {}) → encodeKeySpec vs specs = encodeKey vs
  | [], _, _ => rfl
  | v :: vs, specs, h => by
    have hhead : specs.headD {} = {} := by
      cases specs with
      | nil => rfl
      | cons spec specs => exact h spec (mem_cons_self ..)
    have htail : ∀ spec ∈ specs.tail, spec = {} := fun spec hs => h spec (mem_of_mem_tail hs)
    rw [encodeKeySpec, hhead, encodeKeySpec_plain vs htail]
    cases v <;> rfl

section Rows

variable {st : SchemaTable} {row row' : Row}

theorem RowOK.keyFits (h : RowOK st.table row) : KeyFits st row := fun i _ cd hcd => h.2 i cd hcd

theorem KeyFits.congr (h : KeyFits st row)
    (hcol : ∀ i ∈ st.table.primaryKey, row'.col i = row.col i) :
    KeyFits st row' := fun i hi cd hcd => by
  rw [hcol i hi]
  exact h i hi cd hcd

theorem pkKey_congr (hcol : ∀ i ∈ st.table.primaryKey, row'.col i = row.col i) :
    st.table.pkKey row' = st.table.pkKey row := by
  unfold TableDef.pkKey
  rw [map_congr_left hcol]

theorem assign_col {seen : Row} {params : List Value} {i : ℕ} :
    ∀ {set : List (ℕ × Expr)} {row row' : Row},
    assign seen params set row = .ok row' → (∀ e ∈ set, e.1 ≠ i) → row'.col i = row.col i
  | [], row, row', h, _ => by
    cases h
    rfl
  | (j, program) :: set, row, row', h, hne => by
    unfold assign at h
    split_ifs at h
    split at h
    · cases h
    rw [assign_col h fun e he => hne e (mem_cons_of_mem _ he)]
    have hj : j ≠ i := hne (j, program) (mem_cons_self ..)
    simp [Row.col, List.getElem?_set_ne hj]

theorem pkKey_rewritten (hkeep : KeepsKey st) (hfits : KeyFits st row) {image image' : Row}
    (himage : st.table.generated (st.table.storeAffinity row) = .ok image)
    (himage' : st.table.generated (st.table.storeAffinity image) = .ok image') :
    st.table.pkKey image' = st.table.pkKey row := by
  have hcol := hkeep row image hfits himage
  have hcol' := hkeep image image' (hfits.congr hcol) himage'
  rw [pkKey_congr hcol', pkKey_congr hcol]

end Rows

/-! ## Row calls -/

/-- The rows of a table stand under their own keys and fit its columns, and differ from those of
`t₀` under keys in `K` only. -/
structure ChangedUnder (st : SchemaTable) (K : Key → Prop) (t₀ t : TableTxn) : Prop where
  bundle : t.bundle = t₀.bundle
  rows : ∀ k row, t.pk.map.lookup k = some row → st.table.pkKey row = k ∧ RowOK st.table row
  others : ∀ k, ¬ K k → t.pk.map.lookup k = t₀.pk.map.lookup k

section Calls

variable {st : SchemaTable} {K : Key → Prop} {t₀ : TableTxn} {key : Key}

/-- Every step of a row call under `key` changes the row under `key` only. -/
theorem changedUnder_callRel (hK : K key) : CallRel st.table key
    fun t t' => ChangedUnder st K t₀ t → ChangedUnder st K t₀ t' where
  refl _ h := h
  trans h h' ht := h' (h ht)
  setTree _ _ _ h := ⟨h.bundle, h.rows, h.others⟩
  erase t n h := by
    refine ⟨h.bundle, fun k row hl => h.rows k row ?_, fun k hk => ?_⟩
    · simp only [lookup_erase] at hl
      split_ifs at hl
      exact hl
    · have hne : k ≠ key := fun hkey => hk (hkey ▸ hK)
      simp only [lookup_erase, hne]
      exact h.others k hk
  insert t row n hval hkey h := by
    refine ⟨h.bundle, fun k row' hl => ?_, fun k hk => ?_⟩
    · simp only [lookup_insert] at hl
      split_ifs at hl with hk
      · cases hl
        exact ⟨hkey.trans hk.symm, validateRow_ok hval⟩
      · exact h.rows k row' hl
    · have hne : k ≠ key := fun hkey => hk (hkey ▸ hK)
      simp only [lookup_insert, hne]
      exact h.others k hk

variable {c : Context} {id : ℕ}

theorem allowed_other {J : TableTxn → Prop} {id' : ℕ} (hne : id' ≠ id) (call : Call) :
    Allowed c (fun T => J (T id)) id' call := fun st T _ hJ => by
  simpa only [update_of_ne hne.symm] using hJ

section

variable (hst : c.schema[id]? = some st)

include hst

theorem allowed_own {call : Call}
    (h : ∀ t, ChangedUnder st K t₀ t → ChangedUnder st K t₀ (perform st.handle t call).1) :
    Allowed c (fun T => ChangedUnder st K t₀ (T id)) id call := by
  intro st' T hst' hT
  cases hst.symm.trans hst'
  simpa only [update_self] using h (T id) hT

theorem allowed_insertRow {values : Row}
    (hK : ∀ row, st.table.generated (st.table.storeAffinity values) = .ok row →
      K (st.table.pkKey row)) :
    Allowed c (fun T => ChangedUnder st K t₀ (T id)) id (.insertRow values) :=
  allowed_own hst (CallRel.insertRow (h := st.handle) (fun _ h => h)
    fun row hrow => changedUnder_callRel (hK row hrow))

theorem allowed_updateByPk {values : Row}
    (hK : ∀ row, st.table.generated (st.table.storeAffinity values) = .ok row →
      K (st.table.pkKey row)) :
    Allowed c (fun T => ChangedUnder st K t₀ (T id)) id (.updateByPk values) :=
  allowed_own hst (CallRel.updateByPk (h := st.handle) (fun _ h => h)
    fun row hrow => changedUnder_callRel (hK row hrow))

theorem allowed_deleteByPk {pk : List Value}
    (hK : K (encodeKeySpec pk st.table.pkSpecs)) :
    Allowed c (fun T => ChangedUnder st K t₀ (T id)) id (.deleteByPk pk) :=
  allowed_own hst ((changedUnder_callRel hK).deleteByPk (h := st.handle))

end

end Calls

/-! ## Access paths -/

/-- The executor reads the parts of a key as the hint did. -/
def KeyedPlan.ReadsAlike (p : KeyedPlan) (params : List Value) (parts : List KeyPart) : Prop :=
  ∀ s params', (p.params s params).2 = .ok params' →
    ∀ part ∈ parts, resolvePart params' part = resolvePart params part

/-- The values of a bound are in the domains of their columns. -/
def KeyBound.Fits (st : SchemaTable) (params : List Value) (b : KeyBound) : Prop :=
  ∀ e ∈ b.parts.zip st.pkTypes, ∀ v, resolvePart params e.1 = .ok v → v.fits e.2 = true

/-- The region of an access path is where its rows are. -/
def AccessPath.Named (st : SchemaTable) (p : KeyedPlan) (params : List Value) : AccessPath → Prop
  | .pkPoint parts => PlainKeys st ∧ p.ReadsAlike params parts
  | .pkRange lo hi => ∀ b, lo = some b ∨ hi = some b → p.ReadsAlike params b.parts ∧
      b.Fits st params
  | .scan _ => True

section Access

variable {bridge : Value → ColumnType →
  Option Value} {st : SchemaTable} {params params' : List Value}

theorem mapM_resolvePart_congr {parts : List KeyPart}
    (h : ∀ part ∈ parts, resolvePart params' part = resolvePart params part) :
    parts.mapM (resolvePart params') = parts.mapM (resolvePart params) :=
  mapM_congr (forall₂_same.2 h)

/-- Values that fit their columns pass the bridge as they are. -/
theorem boundValues_eq : ∀ {parts : List KeyPart} {tys : List ColumnType} {vs : List Value},
    (∀ e ∈ parts.zip tys, ∀ v, resolvePart params e.1 = .ok v → v.fits e.2 = true) →
    boundValues bridge params parts tys = .ok (some vs) → parts.mapM (resolvePart params) = .ok vs
  | [], _, vs, _, h => by
    cases h
    rfl
  | part :: parts, tys, vs, hfit, h => by
    unfold boundValues at h
    split at h
    · cases h
    rename_i v hv
    split_ifs at h with hnull
    · cases h
    have hdomain : tys.head?.elim (some v) (toKeyDomain bridge v) = some v := by
      cases tys with
      | nil => rfl
      | cons ty tys =>
        simp [toKeyDomain, hfit (part, ty) (by simp) v hv]
    rw [hdomain] at h
    simp only at h
    split at h
    · cases h
    rename_i ovs hvs
    rcases ovs with _ | vs'
    · cases h
    cases h
    have hrest : parts.mapM (resolvePart params) = .ok vs' := by
      refine boundValues_eq (fun e he => hfit e ?_) hvs
      cases tys with
      | nil => simp at he
      | cons ty tys => exact mem_cons_of_mem _ he
    rw [mapM_cons, hv, hrest]
    rfl

theorem rawSide_some {raw : Bool → List Value → RawBound} {b : KeyBound} {x : Option RawBound}
    (halike : ∀ part ∈ b.parts, resolvePart params' part = resolvePart params part)
    (hfit : b.Fits st params) (h : rawSide bridge params' st.pkTypes raw (some b) = .ok (some x)) :
    ∃ vs, b.parts.mapM (resolvePart params) = .ok vs ∧ x = some (raw b.inclusive vs) := by
  simp only [rawSide, resolveBound] at h
  split at h
  · cases h
  rename_i ovs hvs
  split_ifs at hvs
  rcases ovs with _ | vs
  · cases h
  cases h
  refine ⟨vs, ?_, rfl⟩
  rw [← mapM_resolvePart_congr halike]
  refine boundValues_eq (fun e he v hv => hfit e he v ?_) hvs
  rwa [← halike e.1 (of_mem_zip he).1]

theorem resolveKeyBytes_some {parts : List KeyPart} {key : Key}
    (h : resolveKeyBytes params parts = some key) :
    ∃ vs, parts.mapM (resolvePart params) = .ok vs ∧ key = encodeKey vs := by
  unfold resolveKeyBytes at h
  split at h
  · cases h
    exact ⟨_, ‹_›, rfl⟩
  · cases h

/-- The rows that a named path finds lie under the region it hints. -/
theorem AccessPath.Named.region {access : AccessPath} {p : KeyedPlan} (h : access.Named st p params)
    {s₀ : DbTxn} (hparams : (p.params s₀ params).2 = .ok params') {r : Key}
    (hr : access.keyAccess.region params = some r) {s : DbTxn} {id n : ℕ} {keys : List Key}
    (hkeys : access.candidates bridge st id s params' = (n, .ok keys)) {k : Key} (hk : k ∈ keys) :
    r <+: k := by
  cases access with
  | scan read => cases hr
  | pkPoint parts =>
    obtain ⟨hplain, halike⟩ := h
    obtain ⟨vs, hvs, rfl⟩ := resolveKeyBytes_some hr
    simp only [candidates, mapM_resolvePart_congr (halike s₀ params' hparams), hvs] at hkeys
    obtain ⟨-, hkeys⟩ := Prod.mk.inj hkeys
    cases hkeys
    split_ifs at hk
    · have hkey : k = encodeKey vs := (mem_singleton.1 hk).trans (encodeKeySpec_plain vs hplain)
      exact hkey ▸ prefix_refl _
    · cases hk
  | pkRange lo hi =>
    rcases lo with _ | lo
    · cases hr
    rcases hi with _ | hi
    · cases hr
    obtain ⟨hlo, hlofit⟩ := h lo (.inl rfl)
    obtain ⟨hhi, hhifit⟩ := h hi (.inr rfl)
    simp only [keyAccess, KeyAccess.region] at hr
    split at hr
    on_goal 2 => cases hr
    rename_i l u hl hu
    split_ifs at hr
    cases hr
    obtain ⟨ls, hls, rfl⟩ := resolveKeyBytes_some hl
    obtain ⟨us, hus, rfl⟩ := resolveKeyBytes_some hu
    simp only [candidates, rangeBounds] at hkeys
    rcases hx : rawSide bridge params' st.pkTypes rawLo (some lo) with e | _ | x <;>
      rw [hx] at hkeys <;> simp only at hkeys
    · cases hkeys
    · cases hkeys
      cases hk
    rcases hy : rawSide bridge params' st.pkTypes rawHi (some hi) with e | _ | y <;>
      rw [hy] at hkeys <;> simp only at hkeys
    · cases hkeys
    · cases hkeys
      cases hk
    cases hkeys
    obtain ⟨ls', hls', rfl⟩ := rawSide_some (hlo s₀ params' hparams) hlofit hx
    obtain ⟨us', hus', rfl⟩ := rawSide_some (hhi s₀ params' hparams) hhifit hy
    cases hls.symm.trans hls'
    cases hus.symm.trans hus'
    obtain ⟨-, hin⟩ := mem_filter.1 hk
    obtain ⟨habove, hbelow⟩ := Bool.and_eq_true_iff.1 hin
    have hlow : encodeKey ls <+: (rawLo lo.inclusive ls).1 := by
      unfold rawLo
      split_ifs
      · exact prefix_refl _
      · exact prefix_append ..
    have hhigh : encodeKey us <+: (rawHi hi.inclusive us).1 := by
      unfold rawHi
      split_ifs
      · exact prefix_append ..
      · exact prefix_refl _
    exact Stem.isPrefix_of_between ((Stem.common_isPrefix_left ..).trans hlow)
      ((Stem.common_isPrefix_right ..).trans hhigh) (of_decide_eq_true habove)
      (of_decide_eq_true hbelow)

end Access

/-! ## Statements -/

/-- A conflict clause that changes rows under the key of the proposed row only; `ixs` are the
indexes of the table. -/
def OnConflict.Named (st : SchemaTable) (ixs : List IndexDef) : OnConflict → Prop
  | .error | .doNothing => True
  | .replace => ∀ ix ∈ ixs, ix.unique = false
  | .doUpdate target probe set _ =>
    probe = .pk ∧ target = st.table.primaryKey ∧ ∀ e ∈ set, e.1 ∉ st.table.primaryKey

/-- The region that a plan names is where it changes rows of its own table. -/
def KeyedPlan.Named (st : SchemaTable) (ixs : List IndexDef) (params : List Value) (p : KeyedPlan) :
    Prop :=
  match p.stmt with
  | .select _ => True
  | .insert _ rows _ onConflict _ => PlainKeys st ∧ KeepsKey st ∧ onConflict.Named st ixs ∧
      ∀ parts, insertParts st rows = some parts → p.ReadsAlike params parts ∧
        ∀ vs, parts.mapM (resolvePart params) = .ok vs →
          List.Forall₂ (fun v ty => v.isNull = false ∧ v.fits ty = true) vs st.pkTypes
  | .update _ access _ set _ _ => KeepsKey st ∧ (∀ e ∈ set, e.1 ∉ st.table.primaryKey) ∧
      access.Named st p params
  | .delete _ access _ _ => access.Named st p params

section Own

variable {c : Context} {st : SchemaTable} {id : ℕ} {t₀ : TableTxn} {r : Key} {params : List Value}

variable {s : DbTxn}

theorem gatherRows_mem {access : Read (List Key)} {rows : List Row}
    (h : (gatherRows c id access params s).2 = .ok rows) :
    ∃ keys, (access s params).2 = .ok keys ∧
      ∀ old ∈ rows, ∃ k ∈ keys, (s.tables id).pk.map.lookup k = some old := by
  unfold gatherRows at h
  rcases hrun : access.run c params s with ⟨s₁, e | keys⟩
  · rw [bind_of_error hrun] at h
    cases h
  · rw [bind_of_ok hrun] at h
    have hsame : s₁.tables = s.tables := by
      have := keeps_read c access params s
      rwa [hrun] at this
    refine ⟨keys, Read.run_ok hrun, fun old hold => ?_⟩
    cases h
    obtain ⟨k, hk, hl⟩ := mem_filterMap.1 hold
    exact ⟨k, hk, hsame ▸ hl⟩

theorem mem_of_keptKeys {keep : Key → Except Error Bool} : ∀ {keys kept : List Key},
    keptKeys keep keys = .ok kept → ∀ k ∈ kept, k ∈ keys
  | [], kept, h, k, hk => by
    cases h
    exact hk
  | k' :: keys, kept, h, k, hk => by
    unfold keptKeys at h
    split at h
    · cases h
    split at h
    · cases h
    rename_i rest hrest
    cases h
    split_ifs at hk
    · rcases mem_cons.1 hk with rfl | hk
      · exact mem_cons_self ..
      · exact mem_cons_of_mem _ (mem_of_keptKeys hrest k hk)
    · exact mem_cons_of_mem _ (mem_of_keptKeys hrest k hk)

theorem gathered_key {env : NotifyEnv} {p : KeyedPlan} {access : AccessPath} {residual : Residual}
    {given : List Value} (hst : env.schema[id]? = some st) (hnamed : access.Named st p given)
    {s₀ : DbTxn} (hparams : (p.params s₀ given).2 = .ok params)
    (hr : access.keyAccess.region given = some r)
    (hI : ChangedUnder st (r <+: ·) t₀ (s.tables id)) {rows : List Row}
    (hrows : (gatherRows env.toContext id (compiled.gather env id access residual)
      params s).2 = .ok rows) {old : Row} (hold : old ∈ rows) :
    r <+: st.table.pkKey old ∧ RowOK st.table old := by
  obtain ⟨keys, hkeys, hmem⟩ := gatherRows_mem hrows
  obtain ⟨k, hk, hl⟩ := hmem old hold
  obtain ⟨hkey, hok⟩ := hI.rows k old hl
  refine ⟨?_, hok⟩
  rw [hkey]
  simp only [compiled.gather, hst, AccessPath.gather] at hkeys
  rcases hcand : access.candidates env.bridge st id s params with ⟨n, e | cands⟩ <;>
    rw [hcand] at hkeys
  · cases hkeys
  · exact hnamed.region hparams hr hcand (mem_of_keptKeys hkeys k hk)

/-- The key of the old row is the one that the delete looks up. -/
theorem encodeKeySpec_keyOfRaw {old : Row} {pk : List Value}
    (h : keyOfRaw old st.table.primaryKey = some pk) :
    encodeKeySpec pk st.table.pkSpecs = st.table.pkKey old := by
  have hpk : ∀ {cols : List ℕ} {pk : List Value}, keyOfRaw old cols = some pk →
      cols.map old.col = pk := by
    intro cols
    induction cols with
    | nil =>
      intro pk h
      cases h
      rfl
    | cons i cols ih =>
      intro pk h
      simp only [keyOfRaw, mapM_cons, Option.bind_eq_bind, Option.bind_eq_some_iff] at h
      obtain ⟨v, hv, vs, hvs, h⟩ := h
      cases h
      rw [map_cons, ih hvs, Row.col, getD_eq_getElem?_getD, hv]
      rfl
  rw [TableDef.pkKey, hpk h]

variable {proposed row : Row}

/-- Affinity and rowids leave a key that fits and is not NULL as it is. -/
theorem prepareRow_ok (hkeep : KeepsKey st) (hfits : KeyFits st proposed)
    (hnull : ∀ i ∈ st.table.primaryKey, (proposed.col i).isNull = false) {flag : Bool} {s' : DbTxn}
    (h : prepareRow st id flag proposed s = (s', .ok row)) :
    st.table.generated (st.table.storeAffinity proposed) = .ok row := by
  unfold prepareRow at h
  rcases hgen : flagged flag (lift (st.table.generated (st.table.storeAffinity proposed))) s with
    ⟨s₁, e | image⟩
  · rw [bind_of_error hgen] at h
    cases h
  rw [bind_of_ok hgen] at h
  have hgen := flagged_lift_ok hgen
  rw [hgen]
  unfold assignRowid at h
  rcases hrc : st.rowidAliasCol with _ | rc <;> simp only [hrc] at h
  · cases h
    rfl
  have hmem : rc ∈ st.table.primaryKey := by
    unfold SchemaTable.rowidAliasCol at hrc
    split at hrc
    · rename_i i hpk
      split_ifs at hrc
      cases hrc
      rw [hpk]
      exact mem_singleton_self _
    · cases hrc
  -- the alias of the rowid is a key column, and no key column is NULL
  have hnot := hnull rc hmem
  rw [← hkeep proposed image hfits hgen rc hmem, Row.col, getD_eq_getElem?_getD] at hnot
  rcases hcell : image[rc]? with _ | v <;> simp only [hcell] at h hnot
  · cases h
    rfl
  cases v with
  | null => cases hnot
  | int rowid =>
    replace h : (bare (noteRowid st id rowid) >>= fun _ => pure image) s₁ = (s', .ok row) := h
    rcases hnote : bare (noteRowid st id rowid) s₁ with ⟨s₂, e | ⟨⟩⟩
    · rw [bind_of_error hnote] at h
      cases h
    · rw [bind_of_ok hnote] at h
      cases h
      rfl
  | _ =>
    cases h
    rfl

theorem buildInsertRow_col {spec : List InsertSource}
    (h : buildInsertRow c st params spec = .ok row) {i : ℕ} {src : InsertSource}
    (hsrc : spec[i]? = some src) {v : Value} (hv : insertCell c st params i src = .ok v) :
    row.col i = v := by
  obtain ⟨hi, rfl⟩ := List.getElem?_eq_some_iff.1 hsrc
  have hall := mapM_eq_ok.1 h
  have hlen : i < row.length := by
    rw [← hall.length_eq, length_zipIdx]
    exact hi
  have hcell := hall.get (i := i) (by simpa using hi) hlen
  simp only [get_eq_getElem, getElem_zipIdx, Nat.zero_add] at hcell
  rw [hv] at hcell
  rw [Row.col, getD_eq_getElem?_getD, List.getElem?_eq_getElem hlen]
  exact (Except.ok.inj hcell).symm

/-- The built rows have the key that the parts of the plan name. -/
theorem insertParts_key {rows : RowSource} {parts : List KeyPart} {vs : List Value}
    {built : List Row} (hparts : insertParts st rows = some parts)
    (hvs : parts.mapM (resolvePart params) = .ok vs)
    (hbuilt : (builtRows c st params rows s).2 = .ok built) (hmem : proposed ∈ built) :
    st.table.primaryKey.map proposed.col = vs := by
  unfold insertParts at hparts
  split at hparts
  on_goal 2 => cases hparts
  obtain ⟨spec', hspec, hrow⟩ := exists_left (mapM_eq_ok.1 hbuilt) hmem
  cases mem_singleton.1 hspec
  generalize st.table.primaryKey = cols at hparts
  induction cols generalizing parts vs with
  | nil =>
    cases hparts
    cases hvs
    rfl
  | cons i cols ih =>
    simp only [mapM_cons, Option.bind_eq_bind, Option.bind_eq_some_iff] at hparts
    obtain ⟨part, hpart, parts', hparts', h⟩ := hparts
    cases h
    rw [mapM_cons] at hvs
    obtain ⟨v, hv, hvs⟩ := bind_eq_ok.1 hvs
    obtain ⟨vs', hvs', h⟩ := bind_eq_ok.1 hvs
    cases h
    rw [map_cons, ih hvs' hparts']
    congr 1
    split at hpart
    · rename_i j hsrc
      cases hpart
      refine buildInsertRow_col hrow hsrc ?_
      simp only [resolvePart] at hv
      split at hv
      · cases hv
        simp only [insertCell, *]
      · cases hv
    · rename_i hsrc
      cases hpart
      cases hv
      exact buildInsertRow_col hrow hsrc rfl
    · cases hpart

theorem uniqueVictims_nil {t : TableTxn} : ∀ {ixs : List IndexDef} {i : ℕ},
    (∀ ix ∈ ixs, ix.unique = false) → uniqueVictims st t row i ixs = .ok []
  | [], _, _ => rfl
  | ix :: ixs, i, h => by
    unfold uniqueVictims
    simp only [h ix (mem_cons_self ..)]
    exact uniqueVictims_nil fun ix' hix => h ix' (mem_cons_of_mem _ hix)

/-- An insert with a named key calls under that key only, also for what it replaces or updates. -/
theorem insertAllowed_named (hst : c.schema[id]? = some st) (hkeep : KeepsKey st)
    {onConflict : OnConflict} (hconflict : onConflict.Named st t₀.bundle)
    (hfits : KeyFits st proposed) (hkey : st.table.pkKey proposed = r)
    (hrow : st.table.generated (st.table.storeAffinity proposed) = .ok row) :
    InsertAllowed c (fun T => ChangedUnder st (r <+: ·) t₀ (T id)) st id params onConflict row := by
  have hcols := hkeep proposed row hfits hrow
  have hrowKey : st.table.pkKey row = r := (pkKey_congr hcols).trans hkey
  refine ⟨allowed_insertRow hst fun row' hrow' => ?_, ?_, ?_⟩
  · have hkey' : st.table.pkKey row' = r := (pkKey_rewritten hkeep hfits hrow hrow').trans hkey
    exact hkey' ▸ prefix_refl _
  · rintro rfl T pks hT hpks pk hpk
    unfold replaceVictims at hpks
    rw [hT.bundle, uniqueVictims_nil hconflict] at hpks
    cases hpks
    -- the one victim is the row under the same key
    simp only [append_nil, Option.mem_toList, Option.map_eq_some_iff] at hpk
    obtain ⟨old, hold, rfl⟩ := hpk
    split_ifs at hold
    have hl : (T id).pk.map.lookup (encodeKeySpec (st.pkOf row) st.table.pkSpecs) = some old := hold
    refine allowed_deleteByPk hst ?_
    have hold' : st.table.pkKey old = r := (hT.rows _ old hl).1.trans hrowKey
    exact hold' ▸ prefix_refl _
  · rintro target probe set filter rfl s existing image new hT hfound himage hnew
    obtain ⟨rfl, rfl, hset⟩ := hconflict
    have hl : (s.tables id).pk.map.lookup (st.table.pkKey row) = some existing :=
      Except.ok.inj hfound
    obtain ⟨hexisting, hok⟩ := hT.rows _ existing hl
    have himageCols : ∀ i ∈ st.table.primaryKey, image.col i = existing.col i := fun i hi =>
      assign_col himage fun e he hei => hset e he (hei ▸ hi)
    refine allowed_updateByPk hst fun row' hrow' => ?_
    have hkey' : st.table.pkKey row' = r := by
      rw [pkKey_rewritten hkeep (hok.keyFits.congr himageCols) hnew hrow', pkKey_congr himageCols,
        hexisting, hrowKey]
    exact hkey' ▸ prefix_refl _

variable {env : NotifyEnv} {p : KeyedPlan} {given : List Value}

/-- Without a region nothing is asked of the calls. -/
theorem ownAllowed_vague (hst : env.schema[id]? = some st) (hid : id ∈ p.written) :
    (p.compiled env).stmt.OwnAllowed env.toContext
      (fun T => ChangedUnder st (fun _ => True) t₀ (T id)) params := by
  rcases p with ⟨stmt, subplans, read⟩
  cases stmt with
  | select => cases hid
  | insert =>
    cases mem_singleton.1 hid
    intro st' s built hst' hs hbuilt proposed _ flag s s' row hs hrow
    cases hst.symm.trans hst'
    exact ⟨allowed_insertRow hst fun _ _ => trivial, fun _ _ _ _ _ _ _ =>
      allowed_deleteByPk hst trivial,
      fun _ _ _ _ _ _ _ _ _ _ _ _ _ => allowed_updateByPk hst fun _ _ => trivial⟩
  | update =>
    cases mem_singleton.1 hid
    intro st' s rows hst' hs hrows old _ new hnew
    cases hst.symm.trans hst'
    exact allowed_updateByPk hst fun _ _ => trivial
  | delete =>
    cases mem_singleton.1 hid
    intro st' s rows hst' hs hrows old _ pk hpk
    cases hst.symm.trans hst'
    exact allowed_deleteByPk hst trivial

/-- With a region the calls of each kind of statement stay under it. -/
theorem ownAllowed_named (hst : env.schema[id]? = some st) (hid : id ∈ p.written)
    (hnamed : p.Named st t₀.bundle given) (hr : p.region env given = some r) {s₀ : DbTxn}
    (hparams : (p.params s₀ given).2 = .ok params) :
    (p.compiled env).stmt.OwnAllowed env.toContext
      (fun T => ChangedUnder st (r <+: ·) t₀ (T id)) params := by
  have hregion : (p.keyAccess env).region given = some r := by
    unfold region at hr
    split_ifs at hr
    exact hr
  rcases p with ⟨stmt, _ | _, read⟩
  on_goal 2 => cases hregion
  cases stmt with
  | select => cases hid
  | insert id' rows withCheck onConflict returning =>
    cases mem_singleton.1 hid
    intro st' s built hst' hs hbuilt proposed hmem flag s' s'' row hs' hrow
    cases hst.symm.trans hst'
    obtain ⟨hplain, hkeep, hconflict, hparts⟩ := hnamed
    simp only [keyAccess, hst, Option.bind_some] at hregion
    rcases hp : insertParts st rows with _ | parts <;> rw [hp] at hregion
    · cases hregion
    obtain ⟨halike, htyped⟩ := hparts parts hp
    obtain ⟨vs, hvs, rfl⟩ := resolveKeyBytes_some hregion
    have hvs' : parts.mapM (resolvePart params) = .ok vs := by
      rw [mapM_resolvePart_congr (halike s₀ params hparams), hvs]
    have hkey := insertParts_key hp hvs' hbuilt hmem
    have htyped := htyped vs hvs
    rw [← hkey, SchemaTable.pkTypes, forall₂_map_left_iff, forall₂_map_right_iff,
      forall₂_same] at htyped
    have hfits : KeyFits st proposed := fun i hi cd hcd => by
      have := (htyped i hi).2
      rwa [hcd] at this
    refine insertAllowed_named hst hkeep hconflict hfits ?_
      (prepareRow_ok hkeep hfits (fun i hi => (htyped i hi).1) hrow)
    rw [TableDef.pkKey, hkey, encodeKeySpec_plain vs hplain]
  | update id' access residual set withCheck returning =>
    cases mem_singleton.1 hid
    intro st' s rows hst' hs hrows old hold new hnew
    cases hst.symm.trans hst'
    obtain ⟨hkeep, hset, hnamed⟩ := hnamed
    obtain ⟨hkey, hok⟩ := gathered_key hst hnamed hparams hregion hs hrows hold
    unfold postImage at hnew
    split at hnew
    · cases hnew
    rename_i image himage
    have hcols : ∀ i ∈ st.table.primaryKey, image.col i = old.col i := fun i hi =>
      assign_col himage fun e he hei => hset e he (hei ▸ hi)
    refine allowed_updateByPk hst fun row' hrow' => ?_
    rwa [pkKey_rewritten hkeep (hok.keyFits.congr hcols) hnew hrow', pkKey_congr hcols]
  | delete id' access residual returning =>
    cases mem_singleton.1 hid
    intro st' s rows hst' hs hrows old hold pk hpk
    cases hst.symm.trans hst'
    obtain ⟨hkey, -⟩ := gathered_key hst hnamed hparams hregion hs hrows hold
    refine allowed_deleteByPk hst ?_
    rwa [encodeKeySpec_keyOfRaw hpk]

end Own

namespace NotifyStep

/-- A statement on the table, taken back or not. -/
def Hints (id : ℕ) : NotifyStep → Prop
  | .stmt p _ _ | .undone p _ _ => id ∈ p.written
  | _ => False

/-- A statement on the table that names no region. -/
def Vague (env : NotifyEnv) (id : ℕ) : NotifyStep → Prop
  | .stmt p params _ | .undone p params _ => id ∈ p.written ∧ p.region env params = none
  | _ => False

/-- A step that changes rows of the table under the region it hints only; `ixs` are the indexes of
the table. -/
def Local (env : NotifyEnv) (id : ℕ) (st : SchemaTable) (ixs : List IndexDef) : NotifyStep → Prop
  | .stmt p params _ =>
    (∀ id' ∈ p.written, Aside env.toContext env.rules id' id) ∧
      (id ∈ p.written → p.Named st ixs params)
  | .rowCall id' _ _ => id' ≠ id
  | _ => True

end NotifyStep

variable {st : SchemaTable}

theorem ChangedUnder.mono {K K' : Key → Prop} {t₀ t : TableTxn}
    (h : ChangedUnder st K t₀ t) (hK : ∀ k, K k → K' k) : ChangedUnder st K' t₀ t :=
  ⟨h.bundle, h.rows, fun k hk => h.others k fun hk' => hk (hK k hk')⟩

theorem ChangedUnder.trans {K : Key → Prop} {t₀ t t' : TableTxn}
    (h : ChangedUnder st K t₀ t) (h' : ChangedUnder st K t t') : ChangedUnder st K t₀ t' :=
  ⟨h'.bundle.trans h.bundle, h'.rows, fun k hk => (h'.others k hk).trans (h.others k hk)⟩

variable {p : KeyedPlan}

theorem KeyedPlan.table?_compiled {env : NotifyEnv} {id : ℕ}
    (h : (p.compiled env).stmt.table? = some id) : id ∈ p.written := by
  rcases p with ⟨stmt, _, _⟩
  cases stmt <;> cases h <;> exact mem_singleton_self _

/-- A local statement changes rows of the table under the region it hints, with all its triggers and
foreign keys. -/
theorem stmt_changedUnder {env : NotifyEnv} {id : ℕ}
    {params : List Value} {marked : List ℕ} {s : DbTxn} (hst : env.schema[id]? = some st)
    (hlocal : (NotifyStep.stmt p params marked).Local env id st (s.tables id).bundle)
    (hrows : ChangedUnder st (fun _ => False) (s.tables id) (s.tables id)) :
    ChangedUnder st (fun k => id ∈ p.written ∧ ∀ r, p.region env params = some r → r <+: k)
      (s.tables id)
      ((execStmtTriggered env.toContext env.rules maxTriggerDepth [] (p.compiled env)
        params s).1.tables
        id) := by
  obtain ⟨hwritten, hnamed⟩ := hlocal
  have key : ∀ K : Key → Prop, (∀ s' params', ChangedUnder st K (s.tables id) (s'.tables id) →
      (p.params s' params).2 = .ok params' → (p.compiled env).stmt.OwnAllowed env.toContext
        (fun T => ChangedUnder st K (s.tables id) (T id)) params') →
      ChangedUnder st K (s.tables id) ((execStmtTriggered env.toContext env.rules maxTriggerDepth []
        (p.compiled env) params s).1.tables id) := by
    intro K hown
    refine stays_execStmtTriggered (I := fun T => ChangedUnder st K (s.tables id) (T id))
      (fun id' hid' t' ht' t ht call => ?_) (fun id' hid' t ht call => ?_) hown
      maxTriggerDepth s (hrows.mono fun _ => False.elim)
    · have hne : t ≠ id := fun h => (hwritten id' (p.table?_compiled hid')).fired t' ht' (h ▸ ht)
      exact allowed_other hne call
    · have hne : t ≠ id := fun h => (hwritten id' (p.table?_compiled hid')).reached (h ▸ ht)
      exact allowed_other hne call
  by_cases hid : id ∈ p.written
  · rcases hr : p.region env params with _ | r
    · exact (key (fun _ => True) fun _ _ _ _ => ownAllowed_vague hst hid).mono
        fun k _ => ⟨hid, nofun⟩
    · exact (key (r <+: ·) fun s' params' _ hp => ownAllowed_named hst hid (hnamed hid) hr hp).mono
        fun k hk => ⟨hid, fun r' hr' => Option.some.inj hr' ▸ hk⟩
  · refine (key (fun _ => False) fun s' params' _ _ => ?_).mono fun _ => False.elim
    -- no call of the statement itself is on this table
    refine PlanStmt.ownAllowed_of_forall fun id' hid' call => ?_
    have hne : id' ≠ id := fun h => hid (h ▸ p.table?_compiled hid')
    exact allowed_other hne call

namespace NotifyTxn

variable {env : NotifyEnv} {x y : NotifyTxn} {id : ℕ} {st : SchemaTable}

/-- The states that the transaction can still commit or return to. -/
def states (x : NotifyTxn) : List DbTxn := x.base :: x.txn :: x.savepoints

/-- The state that a step makes, if it makes one. -/
def made (env : NotifyEnv) (x : NotifyTxn) : NotifyStep → Option DbTxn
  | .stmt p params _ => some
    (execStmtTriggered env.toContext env.rules maxTriggerDepth [] (p.compiled env) params x.txn).1
  | .rowCall id call _ => some (x.callRow env id call)
  | .dropTable id => some (x.txn.setTable id { x.txn.tables id with pk := {} })
  | _ => none

theorem step_stmt {p : KeyedPlan} {params : List Value} {marked : List ℕ}
    (h : x.step env (.stmt p params marked) = some y) :
    y = { x with keys := hintNotifyKeys env x.keys p params }.moveTo env
      (execStmtTriggered env.toContext env.rules maxTriggerDepth [] (p.compiled env) params x.txn).1
      marked := by
  simp only [step] at h
  rcases hrun : execStmtTriggered env.toContext env.rules maxTriggerDepth [] (p.compiled env) params
    x.txn with ⟨s, f | out⟩ <;> rw [hrun] at h <;> simp only at h
  · split_ifs at h
    exact (Option.some.inj h).symm
  · exact (Option.some.inj h).symm

theorem mem_states_moveTo {s s' : DbTxn} {marked : List ℕ}
    (h : s' ∈ (x.moveTo env s marked).states) : s' ∈ x.states ∨ s' = s := by
  simp only [states, mem_cons] at h ⊢
  tauto

variable {a : NotifyStep}

/-- What a step can leave to be committed or returned to. -/
theorem states_step (h : x.step env a = some y) :
    y.base = x.base ∧ ∀ s ∈ y.states, s ∈ x.states ∨ made env x a = some s := by
  cases a with
  | stmt p params marked =>
    cases step_stmt h
    exact ⟨rfl, fun s hs => (mem_states_moveTo hs).imp_right fun he => congrArg some he.symm⟩
  | undone p params marked =>
    cases h
    exact ⟨rfl, fun s hs => .inl hs⟩
  | rowCall id' call marked =>
    cases h
    exact ⟨rfl, fun s hs => (mem_states_moveTo hs).imp_right fun he => congrArg some he.symm⟩
  | dropTable id' =>
    cases h
    refine ⟨rfl, fun s hs => ?_⟩
    simp only [states, mem_cons] at hs
    rcases hs with rfl | rfl | hs
    · exact .inl (mem_cons_self ..)
    · exact .inr rfl
    · exact .inl (mem_cons_of_mem _ (mem_cons_of_mem _ hs))
  | savepoint =>
    cases h
    refine ⟨rfl, fun s hs => .inl ?_⟩
    simp only [states, mem_cons, mem_append] at hs ⊢
    tauto
  | release n =>
    cases h
    refine ⟨rfl, fun s hs => .inl ?_⟩
    simp only [states, mem_cons] at hs ⊢
    exact hs.imp_right (Or.imp_right mem_of_mem_take)
  | rollbackTo n =>
    simp only [step] at h
    split at h
    · rename_i s hs
      cases h
      refine ⟨rfl, fun s' hs' => .inl ?_⟩
      simp only [states, mem_cons] at hs' ⊢
      rcases hs' with hs' | rfl | hs'
      · exact .inl hs'
      · exact .inr (.inr (mem_of_getElem? hs))
      · exact .inr (.inr (mem_of_mem_take hs'))
    · cases h
      exact ⟨rfl, fun s hs => .inl hs⟩
  | restart =>
    cases h
    refine ⟨rfl, fun s hs => .inl ?_⟩
    simp only [states, mem_cons] at hs ⊢
    tauto

/-- A table whose rows differ from those the transaction began on has been marked. -/
def Marks (id : ℕ) (x : NotifyTxn) : Prop :=
  ∀ s ∈ x.states, (s.tables id).pk.map ≠ (x.base.tables id).pk.map → id ∈ x.mutated

/-- A table that differs in some state was marked. -/
theorem Marks.step (hst : env.schema[id]? = some st) (ha : a ≠ .dropTable id)
    (hm : x.Marks id) (h : x.step env a = some y) : y.Marks id := by
  have hmove : ∀ (x' : NotifyTxn) (s : DbTxn) (marked : List ℕ), x'.Marks id →
      (x'.moveTo env s marked).Marks id := by
    intro x' s marked hm s' hs' hne
    simp only [moveTo, mem_append]
    by_cases hbefore : id ∈ x'.mutated
    · exact .inl (.inl hbefore)
    refine .inl (.inr (mem_filter.2 ⟨mem_range.2 (List.getElem?_eq_some_iff.1 hst).1, ?_⟩))
    have hbase : ∀ s ∈ x'.states, (s.tables id).pk.map = (x'.base.tables id).pk.map :=
      fun s hs => by
      by_contra hne
      exact hbefore (hm s hs hne)
    have hs : s' = s := by
      simp only [states, moveTo, mem_cons] at hs'
      rcases hs' with rfl | rfl | hs'
      · exact absurd rfl hne
      · rfl
      · exact absurd (hbase s' (by simp [states, hs'])) hne
    subst hs
    rw [hbase x'.txn (by simp [states])]
    exact decide_eq_true (Ne.symm hne)
  obtain ⟨hbase, hstates⟩ := states_step h
  -- a step that makes no state and takes no mark away
  have hreturn : made env x a = none → x.mutated ⊆ y.mutated → y.Marks id := by
    intro hmade hsub s hs hne
    rw [hbase] at hne
    exact hsub (hm s ((hstates s hs).resolve_right (by simp [hmade])) hne)
  cases a with
  | stmt p params marked =>
    cases step_stmt h
    exact hmove _ _ marked hm
  | undone p params marked =>
    cases h
    exact hreturn rfl (subset_append_left ..)
  | rowCall id' call marked =>
    cases h
    exact hmove x _ marked hm
  | dropTable id' =>
    cases h
    intro s hs hne
    have hid : id ≠ id' := fun hid => ha (by rw [hid])
    refine mem_filter.2 ⟨?_, by simpa using hid⟩
    rcases hstates s hs with hs | hs
    · exact hm s hs hne
    · cases hs
      simp only [DbTxn.setTable, update_of_ne hid] at hne
      exact hm x.txn (by simp [states]) hne
  | savepoint | release =>
    cases h
    exact hreturn rfl fun _ h => h
  | rollbackTo n =>
    simp only [NotifyTxn.step] at h
    split at h <;> cases h <;> exact hreturn rfl fun _ h => h
  | restart =>
    cases h
    intro s hs hne
    simp only [states, mem_cons, not_mem_nil, or_false, or_self] at hs
    exact absurd (by rw [hs]) hne

/-- In every state the rows stand under their own keys, and those that differ from the state the
transaction began on are under the hints so far. -/
def Tracks (id : ℕ) (st : SchemaTable) (x : NotifyTxn) : Prop :=
  ∀ s ∈ x.states, ChangedUnder st (Hinted (x.keys id)) (x.base.tables id) (s.tables id)

/-- A local step changes rows under its own hint only. -/
theorem Tracks.step (hst : env.schema[id]? = some st) (ha : a ≠ .dropTable id)
    (hlocal : a.Local env id st (x.base.tables id).bundle) (ht : x.Tracks id st)
    (h : x.step env a = some y) : y.Tracks id st := by
  obtain ⟨hbase, hstates⟩ := states_step h
  have hkeys : ∀ k, Hinted (x.keys id) k → Hinted (y.keys id) k := by
    intro k hk
    cases a with
    | stmt p params marked =>
      cases step_stmt h
      exact hk.plan
    | undone p params marked =>
      cases h
      exact hk.plan
    | rollbackTo n =>
      simp only [NotifyTxn.step] at h
      split at h <;> cases h <;> exact hk
    | _ =>
      cases h
      exact hk
  intro s hs
  rw [hbase]
  rcases hstates s hs with hs | hs
  · exact (ht s hs).mono hkeys
  have hnow := ht x.txn (by simp [states])
  cases a with
  | stmt p params marked =>
    cases hs
    rw [← hnow.bundle] at hlocal
    have hstmt := stmt_changedUnder hst hlocal ⟨rfl, hnow.rows, fun _ _ => rfl⟩
    refine (hnow.mono hkeys).trans (hstmt.mono fun k hk => ?_)
    cases step_stmt h
    exact hinted_plan hk.1 hk.2
  | rowCall id' call marked =>
    cases hs
    have hsame : (x.callRow env id' call).tables id = x.txn.tables id := by
      unfold callRow
      split
      · exact update_of_ne (Ne.symm hlocal) ..
      · rfl
    rw [hsame]
    exact hnow.mono hkeys
  | dropTable id' =>
    cases hs
    have hid : id ≠ id' := fun hid => ha (by rw [hid])
    simp only [DbTxn.setTable, update_of_ne hid]
    exact hnow.mono hkeys
  | _ => cases hs

/-- The steps say enough about the rows of the table: one of its statements names no region, or none
of them hints anything, or all of them change rows under their hints only. The table is not
dropped. -/
structure Hintful (env : NotifyEnv) (id : ℕ) (st : SchemaTable) (ixs : List IndexDef)
    (steps : List NotifyStep) : Prop where
  kept : ∀ a ∈ steps, a ≠ .dropTable id
  telling : (∃ a ∈ steps, a.Vague env id) ∨ (∀ a ∈ steps, ¬ a.Hints id) ∨
    ∀ a ∈ steps, a.Local env id st ixs

theorem keys_step (h : x.step env a = some y) :
    y.keys id = match a with
      | .stmt p params _ | .undone p params _ => hintNotifyKeys env x.keys p params id
      | _ => x.keys id := by
  cases a with
  | stmt p params marked =>
    cases step_stmt h
    rfl
  | rollbackTo n =>
    simp only [NotifyTxn.step] at h
    split at h <;> cases h <;> rfl
  | _ =>
    cases h
    rfl

theorem keys_run_vague {steps : List NotifyStep} (hrun : x.run env steps = some y)
    (h : x.keys id = some none ∨ ∃ a ∈ steps, a.Vague env id) : y.keys id = some none := by
  induction steps generalizing x with
  | nil =>
    cases hrun
    simpa using h
  | cons a steps ih =>
    obtain ⟨z, hz, hrun⟩ := Option.bind_eq_some_iff.1 hrun
    refine ih hrun ?_
    rw [keys_step hz]
    rcases h with h | ⟨a', ha', hv⟩
    · left
      cases a <;> first | exact hintNotifyKeys_vague h | exact h
    · rcases mem_cons.1 ha' with rfl | ha'
      · left
        cases a' <;> first | exact hintNotifyKeys_of_none hv.1 hv.2 | exact hv.elim
      · exact .inr ⟨a', ha', hv⟩

theorem keys_run_silent {steps : List NotifyStep} (hrun : x.run env steps = some y)
    (h : ∀ a ∈ steps, ¬ a.Hints id) : y.keys id = x.keys id := by
  have hguarded : Transition.Reaches (step env) (fun _ a => ¬ a.Hints id) x y :=
    .of_foldlM hrun fun a ha _ => h a ha
  refine hguarded.invariant (P := fun z => z.keys id = x.keys id) rfl fun z a z' hz ha hstep => ?_
  rw [keys_step hstep, ← hz]
  cases a <;> first | exact hintNotifyKeys_of_not_mem ha | rfl

end NotifyTxn

open NotifyTxn Transition in
/-- A listener whose prefix is that of a changed row's key accepts what the commit publishes for the
table. -/
theorem notify_never_misses {env : NotifyEnv} {base : DbTxn}
    {steps : List NotifyStep} {x : NotifyTxn}
    {id : ℕ} {st : SchemaTable} (hst : env.schema[id]? = some st)
    (hrows : ∀ k row, (base.tables id).pk.map.lookup k = some row →
      st.table.pkKey row = k ∧ RowOK st.table row)
    (hrun : (NotifyTxn.start base).run env steps = some x)
    (hsteps : Hintful env id st (base.tables id).bundle steps) {key listener : Key}
    (hchanged : (x.txn.tables id).pk.map.lookup key ≠ (base.tables id).pk.map.lookup key)
    (hlistener : listener <+: key) :
    ∃ published, x.published id = some published ∧
    fingerprintMatches published listener = true := by
  have hguarded : Reaches (step env) (fun _ a => a ≠ .dropTable id) (start base) x :=
    .of_foldlM hrun fun a ha _ => hsteps.kept a ha
  have hbase : x.base = base := hguarded.invariant (P := fun z => z.base = base) rfl
    fun z a z' hz _ h => (states_step h).1.trans hz
  have hmarked : id ∈ x.mutated := by
    have hmarks : x.Marks id := hguarded.invariant (P := fun z => z.Marks id)
      (fun s hs hne => absurd (by simp_all [start, states]) hne) fun z a z' hz ha h =>
        hz.step hst ha h
    refine hmarks x.txn (by simp [states]) fun heq => hchanged ?_
    rw [heq, hbase]
  refine ⟨_, if_pos hmarked, ?_⟩
  rcases hsteps.telling with hvague | hsilent | hlocal
  · rw [keys_run_vague hrun (.inr hvague)]
    rfl
  · rw [keys_run_silent hrun hsilent]
    rfl
  · have hlocals : Reaches (step env)
        (fun _ a => a ≠ .dropTable id ∧ a.Local env id st (base.tables id).bundle) (start base) x :=
      .of_foldlM hrun fun a ha _ => ⟨hsteps.kept a ha, hlocal a ha⟩
    have htracks : x.base = base ∧ x.Tracks id st := by
      refine hlocals.invariant (P := fun z => z.base = base ∧ z.Tracks id st) ?_ ?_
      · refine ⟨rfl, fun s hs => ?_⟩
        have hs : s = base := by simpa [start, states] using hs
        subst hs
        exact ⟨rfl, hrows, fun _ _ => rfl⟩
      · rintro z a z' ⟨rfl, hz⟩ ⟨ha, hl⟩ h
        exact ⟨(states_step h).1, hz.step hst ha hl h⟩
    have hhinted : Hinted (x.keys id) key := by
      by_contra hnot
      refine hchanged ?_
      rw [(htracks.2 x.txn (by simp [states])).others key hnot, hbase]
    obtain ⟨region, hregion, hcover⟩ := hhinted
    rw [hregion]
    rcases region with _ | r
    · rfl
    · exact fingerprintMatches_of_isPrefix (hcover r rfl) hlistener

/-! ## Small transactions -/

/-- One table without triggers. -/
def tableEnv (st : SchemaTable) (fks : Bool) : NotifyEnv where
  schema := [st]
  rules := { fks := fks }
  bridge _ _ := none

/-- `INSERT INTO t VALUES ($1, $2)`. -/
def insertParams : KeyedPlan where
  stmt := .insert 0 (.values [[.param 0, .param 1]]) none .error none

/-- `DELETE FROM t WHERE id = $1`. -/
def deletePoint : KeyedPlan where
  stmt := .delete 0 (.pkPoint [.param 0]) (fun _ _ _ => .ok true) none

/-- `DELETE FROM t WHERE id BETWEEN $1 AND $2`. -/
def deleteRange : KeyedPlan where
  stmt := .delete 0 (.pkRange (some ⟨[.param 0], true⟩) (some ⟨[.param 1], true⟩))
    (fun _ _ _ => .ok true) none

/-- The key of an integer. -/
def intKey (x : Int64) : Key := encodeKey [.int x]

/-- `t`, whose new rows a trigger logs. -/
def auditedEnv : NotifyEnv where
  schema := smallSchema.schema
  rules := { fks := true, afterInsert := fun id => if id = 0 then [logging] else [] }
  bridge _ _ := none

theorem not_acts_audited (id t : ℕ) : ¬ Acts auditedEnv.toContext id t := by
  rintro ⟨_, child, i, fk, -, -, hchild, hfk, -⟩
  rcases t with _ | _ | t <;> cases hchild <;> cases hfk

theorem fires_audited {id t : ℕ} (h : Fires auditedEnv.rules id t) : id = 0 ∧ t = 1 := by
  obtain ⟨trig, htrig, plan, hplan, ht⟩ := h
  by_cases hid : id = 0
  · obtain rfl : trig = logging := by simpa [auditedEnv, WriteRules.on, hid] using htrig
    obtain ⟨map, hmem⟩ := hplan
    cases mem_singleton.1 hmem
    exact ⟨hid, (Option.some.inj ht).symm⟩
  · simp [auditedEnv, WriteRules.on, hid] at htrig

/-- The trigger of `t` writes the log only, which has no trigger. -/
theorem aside_audited : Aside auditedEnv.toContext auditedEnv.rules 0 0 where
  reached h := by
    obtain ⟨_, hact, -⟩ := Relation.TransGen.head'_iff.1 h
    exact not_acts_audited _ _ hact
  fired := by
    rintro t ht ⟨t', hfires, hacts⟩
    cases (fires_audited ht).2
    rcases hfires.cases_head with rfl | ⟨_, hfire, -⟩
    · rcases hacts.cases_head with h | ⟨_, hact, -⟩
      · cases h
      · exact not_acts_audited _ _ hact
    · cases (fires_audited hfire).1

/-- A row is inserted, deleted in a range and brought back. -/
def backAndForth : List NotifyStep :=
  [.stmt insertParams [.int 2, .int 7] [], .savepoint, .stmt deleteRange [.int 1, .int 2] [0],
    .rollbackTo 0]

theorem readsAlike_as_given (h : p.params = fun _ params => (0, .ok params))
    (params : List Value) (parts : List KeyPart) : p.ReadsAlike params parts := by
  intro s params' hparams part _
  rw [h] at hparams
  cases hparams
  rfl

/-- The steps name their keys, and the trigger writes the log only. -/
theorem backAndForth_local : ∀ a ∈ backAndForth,
    a.Local auditedEnv 0 (smallTable "t") [] := by
  have hplain : PlainKeys (smallTable "t") := by
    intro spec hspec
    exact mem_singleton.1 hspec
  have hkeep : KeepsKey (smallTable "t") := by
    rintro row row' - h i -
    cases h
    rfl
  have hwritten : ∀ id' ∈ [0], Aside auditedEnv.toContext auditedEnv.rules id' 0 := by
    intro id' hid
    cases mem_singleton.1 hid
    exact aside_audited
  have hinsert : insertParams.Named (smallTable "t") [] [.int 2, .int 7] := by
    refine ⟨hplain, hkeep, trivial, fun parts hparts =>
      ⟨readsAlike_as_given rfl _ _, fun vs hvs => ?_⟩⟩
    cases hparts
    cases hvs
    exact .cons ⟨rfl, rfl⟩ .nil
  have hdelete : deleteRange.Named (smallTable "t") [] [.int 1, .int 2] := by
    refine fun b hb => ⟨readsAlike_as_given rfl _ _, fun e he v hv => ?_⟩
    rcases hb with hb | hb <;> cases hb <;> cases mem_singleton.1 he <;> cases hv <;> rfl
  intro a ha
  simp only [backAndForth, mem_cons, not_mem_nil, or_false] at ha
  rcases ha with rfl | rfl | rfl | rfl
  · exact ⟨hwritten, fun _ => hinsert⟩
  · trivial
  · exact ⟨hwritten, fun _ => hdelete⟩
  · trivial

theorem oneRow_rows {k : Key} {row : Row} (h : ((oneRow []).tables 0).pk.map.lookup k = some row) :
    (smallTable "t").table.pkKey row = k ∧ RowOK (smallTable "t").table row := by
  have hentries : ((oneRow []).tables 0).pk.map.entries = [(intKey 1, [.int 1, .int 5])] := by
    decide
  rw [← mem_entries, hentries, mem_singleton] at h
  cases h
  refine ⟨by decide, rfl, fun i cd hcd => ?_⟩
  rcases i with _ | _ | i
  · cases hcd
    rfl
  · cases hcd
    rfl
  · cases hcd

theorem notify_wakes_listener : ∃ x published,
    (NotifyTxn.start (oneRow [])).run auditedEnv backAndForth = some x ∧
      x.published 0 = some published ∧ fingerprintMatches published (intKey 2) = true := by
  have hrun : ((NotifyTxn.start (oneRow [])).run auditedEnv backAndForth).any
      (fun x => (x.txn.tables 0).pk.map.lookup (intKey 2) ≠
        ((oneRow []).tables 0).pk.map.lookup (intKey 2)) = true := by decide +kernel
  rcases hx : (NotifyTxn.start (oneRow [])).run auditedEnv backAndForth with _ | x <;>
    rw [hx] at hrun
  · cases hrun
  have hst : auditedEnv.schema[0]? = some (smallTable "t") := rfl
  obtain ⟨published, hp, hm⟩ := notify_never_misses hst (fun k row => oneRow_rows) hx
    ⟨by simp [backAndForth], .inr (.inr backAndForth_local)⟩
    (of_decide_eq_true hrun) (prefix_refl _)
  exact ⟨x, published, rfl, hp, hm⟩

/-- After the steps the row under `key` has changed, and the listener on it is not woken. -/
def Missed (env : NotifyEnv) (base : DbTxn) (steps : List NotifyStep) (key : Key) : Prop :=
  ((NotifyTxn.start base).run env steps).any (fun x =>
    (x.txn.tables 0).pk.map.lookup key ≠ (base.tables 0).pk.map.lookup key &&
      (x.published 0).any fun published => !fingerprintMatches published key) = true

/-- `t(id TEXT COLLATE NOCASE PRIMARY KEY, a INTEGER NOT NULL)`. -/
def noCaseTable : SchemaTable where
  handle :=
    { table := ⟨"t", [⟨"id", .text, false, .noCase, .text, false, none, none⟩, column "a"], [0], id,
    .ok⟩ }
  affinity_length _ := rfl
  generated_length _ _ h := by cases h; rfl
  pk_notNull i hi cd hcd := by
    cases List.mem_singleton.1 hi
    cases hcd
    rfl

/-- `t(id INTEGER PRIMARY KEY, a INTEGER NOT NULL REFERENCES t ON DELETE CASCADE)`. -/
def treeTable : SchemaTable :=
  { smallTable "t" with foreignKeys := [{ columns := [1], parent := "t", onDelete := .cascade }] }

/-- A table that refers to itself, with two rows. -/
def twoNodes : DbTxn where
  tables _ := (insertRow treeTable.handle
    (insertRow treeTable.handle (.fresh []) [.int 1, .int 1]).1 [.int 2, .int 1]).1

/-- A text that is bound where the plan wants an integer becomes one. -/
def deleteText : KeyedPlan :=
  { deletePoint with params := fun _ params => (0, .ok (params.map fun v =>
      if v = .text "1" then .int 1 else v)) }

/-- A collated key is hinted as it was given and stored folded; a cascade comes back to the table at
another key; a NULL rowid is hinted as NULL; a text that the executor converts is hinted as text. -/
theorem notify_misses :
    Missed (tableEnv noCaseTable false) { tables := fun _ => .fresh [] }
        [.stmt insertParams [.text "Ann", .int 7] []] (encodeKey [.text "ann"]) ∧
      Missed (tableEnv treeTable true) twoNodes [.stmt deletePoint [.int 1] []] (intKey 2) ∧
      Missed (tableEnv (smallTable "t") false) (oneRow [])
        [.stmt insertParams [.null, .int 7] []] (intKey 2) ∧
      Missed (tableEnv (smallTable "t") false) (oneRow []) [.stmt deleteText [.text "1"] []]
        (intKey 1) := by
  refine ⟨?_, ?_, ?_, ?_⟩ <;> unfold Missed <;> decide +kernel

end Mpedb
