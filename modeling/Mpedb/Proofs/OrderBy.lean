import Mpedb.OrderBy
import Mpedb.Proofs.ValueOrder

/-!
# What ORDER BY sorts

Values of one kind are totally preordered, and NULLs stand at one end of them. Values of different
kinds count as equal, which no order extends: a column that holds two kinds is ordered only if its
values of one kind are equal (`Rankable`). A later key only has to order the rows that tie on the
keys before it (`RankableBy`).
-/

namespace Mpedb.OrderBy

open StableSort List

variable {colls : Option HostColls} {coll : OrderColl} {key : OrderKey} {rows : List Tuple}

/-- The values that can be ordered among themselves. -/
inductive Kind
  | null | ranked | bool | timestamp | date | time | numeric | list
  deriving DecidableEq

/-- The kind of a value; values of one kind have an order. -/
def kind : Datum → Kind
  | .list _ => .list
  | .scalar v => match v with
    | .null => .null
    | .int _ | .float _ | .text _ | .blob _ => .ranked
    | .bool _ => .bool
    | .timestamp _ => .timestamp
    | .date _ => .date
    | .time _ => .time
    | .numeric _ => .numeric

/-- The text of a value. -/
def text? : Datum → Option String
  | .scalar (.text s) => some s
  | _ => none

variable {a b : Datum}

theorem sortCmp_of_kind_ne (c : Collation) (h : kind a ≠ kind b) : sortCmp c a b = none := by
  cases a with
  | list _ => rfl
  | scalar a =>
    cases b with
    | list _ => rfl
    | scalar b => cases a <;> cases b <;> first | rfl | exact absurd rfl h

theorem cmpOrder_of_kind_ne (h : kind a ≠ kind b) : cmpOrder a b coll colls = .eq := by
  unfold cmpOrder
  split
  · rw [sortCmp_of_kind_ne _ h]; rfl
  · split
    · exact absurd rfl h
    · rw [sortCmp_of_kind_ne _ h]; rfl

/-- A list counts as NULL. -/
def valueOf : Datum → Value
  | .scalar v => v
  | .list _ => .null

variable {l : List Datum}

theorem totalOn_ranked (c : Collation) (h : ∀ x ∈ l, kind x = .ranked) :
    TotalOn (fun a b => (sortCmp c a b).getD .eq) l := by
  have htotal : TotalOn (Value.rankedCmp c) (l.map valueOf) := .of_transCmp
  refine htotal.ofMap.congr fun a ha b hb => ?_
  have hrank : ∀ x ∈ l, ∃ v, x = .scalar v ∧ v.classRank.isSome = true := by
    intro x hx
    have := h x hx
    cases x with
    | list _ => cases this
    | scalar v => exact ⟨v, rfl, by cases v <;> first | rfl | cases this⟩
  obtain ⟨v, rfl, hv⟩ := hrank a ha
  obtain ⟨w, rfl, hw⟩ := hrank b hb
  rw [sortCmp, Value.sortCmp_eq_rankedCmp c hv hw]
  rfl

theorem totalOn_typed (c : Collation) {ty : ColumnType}
    (h : ∀ x ∈ l, ∃ v, x = .scalar v ∧ v.columnType = some ty) :
    TotalOn (fun a b => (sortCmp c a b).getD .eq) l := by
  have htotal : TotalOn (Value.typedCmp c) (l.map valueOf) := .of_transCmp
  refine htotal.ofMap.congr fun a ha b hb => ?_
  obtain ⟨v, rfl, hv⟩ := h a ha
  obtain ⟨w, rfl, hw⟩ := h b hb
  rw [sortCmp, Value.sortCmp_eq_typedCmp c hv hw]
  rfl

/-- The kinds that are a column type of their own. -/
def Kind.type : Kind → Option ColumnType
  | .null | .ranked | .list => none
  | .bool => some .bool
  | .timestamp => some .timestamp
  | .date => some .date
  | .time => some .time
  | .numeric => some .numeric

theorem columnType_of_kind {x : Datum} {ty : ColumnType} (h : (kind x).type = some ty) :
    ∃ v, x = .scalar v ∧ v.columnType = some ty := by
  cases x with
  | list _ => cases h
  | scalar v => exact ⟨v, rfl, by cases v <;> cases h <;> rfl⟩

theorem totalOn_of_kind (c : Collation) {k : Kind} (hk : k ≠ .null)
    (h : ∀ x ∈ l, kind x = k) : TotalOn (fun a b => (sortCmp c a b).getD .eq) l := by
  rcases hty : k.type with _ | ty
  · cases k with
    | null => exact absurd rfl hk
    | ranked => exact totalOn_ranked c h
    | list =>
      refine .of_eq fun a ha b _ => ?_
      have := h a ha
      cases a with
      | list _ => rfl
      | scalar v => cases v <;> cases this
    | bool | timestamp | date | time | numeric => cases hty
  · exact totalOn_typed c fun x hx => columnType_of_kind (by rw [h x hx, hty])

/-- The order of a host collation, on texts only. -/
def hostCmp (t : HostColls) (name : String) (a b : Datum) : Ordering :=
  match text? a, text? b with
  | some x, some y => t.compare name x y
  | _, _ => .eq

/-- One text in the place of all. -/
def blank (x : Datum) : Datum := if (text? x).isSome then .scalar (.text "") else x

/-- The order without the texts. -/
def blankCmp (a b : Datum) : Ordering := (sortCmp .binary (blank a) (blank b)).getD .eq

theorem cmpOrder_host (t : HostColls) (name : String) (a b : Datum) :
    cmpOrder a b (.host name) (some t) = (blankCmp a b).then (hostCmp t name a b) := by
  cases a with
  | list _ => cases b <;> rfl
  | scalar a =>
    cases b with
    | list _ => cases a <;> rfl
    | scalar b =>
      cases a with
      | text x => cases b <;> rfl
      | _ =>
        have hnone : ∀ o : Ordering, o.then .eq = o := fun o => by cases o <;> rfl
        cases b <;> exact (hnone _).symm

theorem text_of_blankCmp (hk : kind a = kind b) (h : blankCmp a b = .eq) :
    (text? a).isSome = (text? b).isSome := by
  cases a with
  | list _ =>
    cases b with
    | list _ => rfl
    | scalar b => cases b <;> cases hk
  | scalar a =>
    cases b with
    | list _ => cases a <;> cases hk
    | scalar b => cases a <;> cases b <;> first | rfl | (cases hk; done) | cases h

theorem totalOn_hostCmp {t : HostColls} {name : String}
    (h : TotalOn (t.compare name) (l.filterMap text?))
    (htext : ∀ x ∈ l, (text? x).isSome = true) : TotalOn (hostCmp t name) l := by
  have hmem : ∀ x ∈ l, ∃ s ∈ l.filterMap text?, text? x = some s := by
    intro x hx
    obtain ⟨s, hs⟩ := Option.isSome_iff_exists.1 (htext x hx)
    exact ⟨s, mem_filterMap.2 ⟨x, hx, hs⟩, hs⟩
  refine ⟨fun a ha b hb => ?_, fun a ha b hb c hc => ?_⟩
  · obtain ⟨x, hx, ha⟩ := hmem a ha
    obtain ⟨y, hy, hb⟩ := hmem b hb
    simp only [hostCmp, ha, hb]
    exact h.swap x hx y hy
  · obtain ⟨x, hx, ha⟩ := hmem a ha
    obtain ⟨y, hy, hb⟩ := hmem b hb
    obtain ⟨z, hz, hc⟩ := hmem c hc
    simp only [hostCmp, ha, hb, hc]
    exact h.trans x hx y hy z hz

theorem kind_blank (x : Datum) : kind (blank x) = kind x := by
  cases x with
  | list _ => rfl
  | scalar v => cases v <;> rfl

/-- A host decides between texts only; the classes decide everything else. -/
theorem totalOn_cmpOrder {k : Kind} (hk : k ≠ .null) (h : ∀ x ∈ l, kind x = k)
    (hhost : ∀ name t, coll = .host name → colls = some t →
      TotalOn (t.compare name) (l.filterMap text?)) :
    TotalOn (fun a b => cmpOrder a b coll colls) l := by
  cases coll with
  | native c => exact totalOn_of_kind c hk h
  | host name =>
    cases colls with
    | none =>
      refine (totalOn_of_kind .binary hk h).congr fun a _ b _ => ?_
      unfold cmpOrder
      split
      · contradiction
      · split <;> first | contradiction | rfl
    | some t =>
      have hclass : TotalOn blankCmp l := by
        refine TotalOn.ofMap (f := blank) (totalOn_of_kind .binary hk ?_)
        intro y hy
        obtain ⟨x, hx, rfl⟩ := mem_map.1 hy
        rw [kind_blank, h x hx]
      refine (hclass.lex fun a ha => ?_).congr fun a _ b _ => (cmpOrder_host t name a b).symm
      have hsame : ∀ b ∈ l.filter (blankCmp a · == .eq), (text? a).isSome = (text? b).isSome := by
        intro b hb
        obtain ⟨hb, heq⟩ := mem_filter.1 hb
        exact text_of_blankCmp (by rw [h a ha, h b hb]) (by simpa using heq)
      cases htext : (text? a).isSome with
      | false =>
        refine .of_eq fun b hb c _ => ?_
        have hnone : text? b = none := by simpa [htext] using (hsame b hb).symm
        simp only [hostCmp, hnone]
      | true =>
        have hsub : ∀ s ∈ (l.filter (blankCmp a · == .eq)).filterMap text?,
            s ∈ l.filterMap text? := by
          intro s hs
          obtain ⟨x, hx, hxs⟩ := mem_filterMap.1 hs
          exact mem_filterMap.2 ⟨x, (mem_filter.1 hx).1, hxs⟩
        exact totalOn_hostCmp ((hhost name t rfl rfl).mono hsub) fun b hb => by
          rw [← hsame b hb, htext]

/-- The value that a key sorts by. -/
def field (key : OrderKey) (row : Tuple) : Datum := (row[key.col]?).getD .null

/-- The rows with a value on the key that is not NULL. -/
def valued (key : OrderKey) (rows : List Tuple) : List Tuple :=
  rows.filter fun row => !(field key row).isNull

/-- The key does not tell the rows apart. -/
def Peers (colls : Option HostColls) (key : OrderKey) (rows : List Tuple) : Prop :=
  ∀ a ∈ rows, ∀ b ∈ rows, cmpKey colls key a b = .eq

/-- The values of the key are of one kind, and a collating sequence of the host orders its texts. -/
structure OneKind (colls : Option HostColls) (key : OrderKey) (rows : List Tuple) : Prop where
  kind : ∃ k, ∀ row ∈ valued key rows, kind (field key row) = k
  host : ∀ name t, key.coll = .host name → colls = some t →
    TotalOn (t.compare name) (((valued key rows).map (field key)).filterMap text?)

/-- Values of one kind on the key are equal, so that the key tells no two values apart. -/
def Flat (colls : Option HostColls) (key : OrderKey) (rows : List Tuple) : Prop :=
  ∀ a ∈ valued key rows, ∀ b ∈ valued key rows, kind (field key a) = kind (field key b) →
    cmpOrder (field key a) (field key b) key.coll colls = .eq

/-- The rows that have the column are NULL there, or none of them is. -/
def NullsAlike (key : OrderKey) (rows : List Tuple) : Prop :=
  ∀ a ∈ rows, ∀ b ∈ rows, key.col < a.length → key.col < b.length →
    (field key a).isNull = (field key b).isNull

/-- The rows can be put in order by the key. If all of them have the column, its values that are not
NULL are of one kind, or equal wherever they are of one kind. A row without the column is equal to
every other one: then no two values may be told apart, nor NULL from a value. -/
def Rankable (colls : Option HostColls) (key : OrderKey) (rows : List Tuple) : Prop :=
  (∀ row ∈ rows, key.col < row.length) ∧ (Flat colls key rows ∨ OneKind colls key rows) ∨
    NullsAlike key rows ∧ Flat colls key rows

variable {row : Tuple}

theorem field_of_lt (h : key.col < row.length) : row[key.col]? = some (field key row) := by
  simp [field, List.getElem?_eq_getElem h]

theorem col_lt_of_valued (h : row ∈ valued key rows) : key.col < row.length := by
  by_contra hge
  have hnull : field key row = .null := by
    rw [field, List.getElem?_eq_none (by omega)]
    rfl
  have := (mem_filter.1 h).2
  rw [hnull] at this
  cases this

theorem isNull_of_valued (h : row ∈ valued key rows) : (field key row).isNull = false := by
  simpa using (mem_filter.1 h).2

theorem cmpKey_valued {a b : Tuple} (ha : a ∈ valued key rows) (hb : b ∈ valued key rows) :
    cmpKey colls key a b =
      if key.dir.desc then (cmpOrder (field key a) (field key b) key.coll colls).swap
      else cmpOrder (field key a) (field key b) key.coll colls := by
  simp only [cmpKey, field_of_lt (col_lt_of_valued ha), field_of_lt (col_lt_of_valued hb),
    isNull_of_valued ha, isNull_of_valued hb]

theorem kind_ne_null {x : Datum} (h : x.isNull = false) : kind x ≠ .null := by
  cases x with
  | list _ => exact nofun
  | scalar v => cases v <;> first | (cases h; done) | exact nofun

theorem OneKind.totalOn (h : OneKind colls key rows) :
    TotalOn (cmpKey colls key) (valued key rows) := by
  obtain ⟨k, hk⟩ := h.kind
  rcases hnil : valued key rows with _ | ⟨row, more⟩
  · exact .of_eq (by simp)
  have hrow : row ∈ valued key rows := by simp [hnil]
  rw [← hnil]
  have hne : k ≠ .null := by
    rw [← hk row hrow]
    exact kind_ne_null (isNull_of_valued hrow)
  have hall : ∀ x ∈ (valued key rows).map (field key), OrderBy.kind x = k := by
    intro x hx
    obtain ⟨r, hr, rfl⟩ := mem_map.1 hx
    exact hk r hr
  have hvals : TotalOn (fun a b => cmpOrder (field key a) (field key b) key.coll colls)
      (valued key rows) := (totalOn_cmpOrder hne hall h.host).ofMap
  by_cases hdesc : key.dir.desc = true
  · exact hvals.reverse.congr fun a ha b hb => by rw [cmpKey_valued ha hb, if_pos hdesc]
  · exact hvals.congr fun a ha b hb => by rw [cmpKey_valued ha hb, if_neg hdesc]

/-- NULLs are placed apart, so only the other values matter. -/
theorem totalOn_of_valued (hcol : ∀ row ∈ rows, key.col < row.length)
    (h : TotalOn (cmpKey colls key) (valued key rows)) : TotalOn (cmpKey colls key) rows := by
  have hmem : ∀ row ∈ rows, (field key row).isNull = true ∨ row ∈ valued key rows := by
    intro row hrow
    cases hnull : (field key row).isNull with
    | true => exact .inl rfl
    | false => exact .inr (mem_filter.2 ⟨hrow, by simp [hnull]⟩)
  have hboth {a b : Tuple} (ha : a ∈ rows) (hb : b ∈ rows) (hna : (field key a).isNull = true)
      (hnb : (field key b).isNull = true) : cmpKey colls key a b = .eq := by
    simp only [cmpKey, field_of_lt (hcol a ha), field_of_lt (hcol b hb), hna, hnb]
  have hleft {a b : Tuple} (ha : a ∈ rows) (hb : b ∈ valued key rows)
      (hna : (field key a).isNull = true) :
      cmpKey colls key a b = if key.dir.nullsFirst then .lt else .gt := by
    simp only [cmpKey, field_of_lt (hcol a ha), field_of_lt (col_lt_of_valued hb), hna,
      isNull_of_valued hb]
  have hright {a b : Tuple} (ha : a ∈ valued key rows) (hb : b ∈ rows)
      (hnb : (field key b).isNull = true) :
      cmpKey colls key a b = if key.dir.nullsFirst then .gt else .lt := by
    simp only [cmpKey, field_of_lt (hcol b hb), field_of_lt (col_lt_of_valued ha), hnb,
      isNull_of_valued ha]
  refine ⟨fun a ha b hb => ?_, fun a ha b hb c hc hab hbc => ?_⟩
  · rcases hmem a ha with hna | hva <;> rcases hmem b hb with hnb | hvb
    · rw [hboth ha hb hna hnb, hboth hb ha hnb hna]; rfl
    · rw [hleft ha hvb hna, hright hvb ha hna]; split <;> rfl
    · rw [hright hva hb hnb, hleft hb hva hnb]; split <;> rfl
    · exact h.swap a hva b hvb
  · rcases hmem a ha with hna | hva <;> rcases hmem b hb with hnb | hvb <;>
      rcases hmem c hc with hnc | hvc
    · rw [hboth ha hc hna hnc]; decide
    · rw [hleft ha hvc hna]
      rw [hleft hb hvc hnb] at hbc
      exact hbc
    · rw [hboth ha hc hna hnc]; decide
    · rw [hleft ha hvc hna]
      rw [hleft ha hvb hna] at hab
      exact hab
    · rw [hright hva hc hnc]
      rw [hright hva hb hnb] at hab
      exact hab
    · -- a NULL between two values is not possible
      rw [hright hva hb hnb] at hab
      rw [hleft hb hvc hnb] at hbc
      cases hfirst : key.dir.nullsFirst <;> simp [hfirst] at hab hbc
    · rw [hright hva hc hnc]
      rw [hright hvb hc hnc] at hbc
      exact hbc
    · exact h.trans a hva b hvb c hvc hab hbc

theorem cmpKey_of_kind_ne {a b : Tuple} (ha : a ∈ valued key rows) (hb : b ∈ valued key rows)
    (h : kind (field key a) ≠ kind (field key b)) : cmpKey colls key a b = .eq := by
  rw [cmpKey_valued ha hb, cmpOrder_of_kind_ne h]
  split <;> rfl

theorem flat_iff : Flat colls key rows ↔ Peers colls key (valued key rows) := by
  refine forall_congr' fun a => forall_congr' fun ha => forall_congr' fun b =>
    forall_congr' fun hb => ?_
  rw [cmpKey_valued ha hb]
  by_cases hkind : kind (field key a) = kind (field key b)
  · cases cmpOrder (field key a) (field key b) key.coll colls <;> cases key.dir.desc <;>
      simp [hkind]
  · rw [cmpOrder_of_kind_ne hkind]
    cases key.dir.desc <;> simp

/-- The key tells no two rows apart exactly when no two values are, nor NULL from a value. -/
theorem peers_iff : Peers colls key rows ↔ NullsAlike key rows ∧ Flat colls key rows := by
  rw [flat_iff]
  refine ⟨fun h => ⟨fun a ha b hb hla hlb => ?_, fun a ha b hb =>
    h a (mem_filter.1 ha).1 b (mem_filter.1 hb).1⟩, fun ⟨hnull, hflat⟩ a ha b hb => ?_⟩
  · have hab := h a ha b hb
    simp only [cmpKey, field_of_lt hla, field_of_lt hlb] at hab
    cases hna : (field key a).isNull <;> cases hnb : (field key b).isNull <;> try rfl
    all_goals
      rw [hna, hnb] at hab
      cases hfirst : key.dir.nullsFirst <;> simp [hfirst] at hab
  · by_cases hla : key.col < a.length
    swap
    · simp only [cmpKey, List.getElem?_eq_none (not_lt.1 hla)]
    by_cases hlb : key.col < b.length
    swap
    · simp only [cmpKey, field_of_lt hla, List.getElem?_eq_none (not_lt.1 hlb)]
    have hsame := hnull a ha b hb hla hlb
    cases hna : (field key a).isNull with
    | true => simp only [cmpKey, field_of_lt hla, field_of_lt hlb, ← hsame, hna]
    | false =>
      exact hflat a (mem_filter.2 ⟨ha, by simp [hna]⟩) b
        (mem_filter.2 ⟨hb, by simp [← hsame, hna]⟩)

theorem Rankable.totalOn (h : Rankable colls key rows) : TotalOn (cmpKey colls key) rows := by
  rcases h with ⟨hcol, hflat | hkind⟩ | hpeers
  · exact totalOn_of_valued hcol (.of_eq (flat_iff.1 hflat))
  · exact totalOn_of_valued hcol hkind.totalOn
  · exact .of_eq (peers_iff.2 hpeers)

theorem peers_of_missing (h : TotalOn (cmpKey colls key) rows) (hrow : row ∈ rows)
    (hmiss : row.length ≤ key.col) : Peers colls key rows := by
  have hnone : row[key.col]? = none := List.getElem?_eq_none hmiss
  have hleft (b : Tuple) : cmpKey colls key row b = .eq := by simp only [cmpKey, hnone]
  have hright (a : Tuple) : cmpKey colls key a row = .eq := by
    unfold cmpKey
    rw [hnone]
    split
    · contradiction
    · rfl
  exact fun a ha b hb => h.eq_trans ha hrow hb (hright a) (hleft b)

theorem valued_subset (h : row ∈ valued key rows) : row ∈ rows :=
  (mem_filter.1 h).1

theorem peers_of_two_kinds (h : TotalOn (cmpKey colls key) rows) {x y : Tuple}
    (hx : x ∈ valued key rows) (hy : y ∈ valued key rows)
    (hne : kind (field key x) ≠ kind (field key y)) : Peers colls key (valued key rows) := by
  have hval : TotalOn (cmpKey colls key) (valued key rows) := h.mono fun _ => valued_subset
  intro a ha b hb
  by_cases hab : kind (field key a) = kind (field key b)
  · obtain ⟨w, hw, haw⟩ : ∃ w ∈ valued key rows, kind (field key a) ≠ kind (field key w) := by
      by_cases hax : kind (field key a) = kind (field key x)
      · exact ⟨y, hy, hax ▸ hne⟩
      · exact ⟨x, hx, hax⟩
    exact hval.eq_trans ha hw hb (cmpKey_of_kind_ne ha hw haw)
      (cmpKey_of_kind_ne hw hb (hab ▸ haw.symm))
  · exact cmpKey_of_kind_ne ha hb hab

theorem totalOn_host (h : TotalOn (cmpKey colls key) (valued key rows))
    {name : String} {t : HostColls}
    (hcoll : key.coll = .host name) (hcolls : colls = some t) :
    TotalOn (t.compare name) (((valued key rows).map (field key)).filterMap text?) := by
  have hrow : ∀ s ∈ ((valued key rows).map (field key)).filterMap text?,
      ∃ row ∈ valued key rows, field key row = .scalar (.text s) := by
    intro s hs
    obtain ⟨x, hx, hxs⟩ := mem_filterMap.1 hs
    obtain ⟨row, hrow, rfl⟩ := mem_map.1 hx
    refine ⟨row, hrow, ?_⟩
    generalize field key row = d at hxs
    unfold text? at hxs
    split at hxs
    · cases hxs; rfl
    · cases hxs
  have hcmp {a b : Tuple} {s u : String} (ha : a ∈ valued key rows) (hb : b ∈ valued key rows)
      (hs : field key a = .scalar (.text s)) (hu : field key b = .scalar (.text u)) :
      cmpKey colls key a b = if key.dir.desc then
      (t.compare name s u).swap else t.compare name s u := by
    rw [cmpKey_valued ha hb, hs, hu, hcoll, hcolls]
    rfl
  have hdir :
      TotalOn (fun s u => if key.dir.desc then (t.compare name s u).swap else t.compare name s u)
      (((valued key rows).map (field key)).filterMap text?) := by
    refine ⟨fun s hs u hu => ?_, fun s hs u hu v hv => ?_⟩
    · obtain ⟨a, ha, has⟩ := hrow s hs
      obtain ⟨b, hb, hbu⟩ := hrow u hu
      have := h.swap a ha b hb
      rwa [hcmp ha hb has hbu, hcmp hb ha hbu has] at this
    · obtain ⟨a, ha, has⟩ := hrow s hs
      obtain ⟨b, hb, hbu⟩ := hrow u hu
      obtain ⟨c, hc, hcv⟩ := hrow v hv
      have := h.trans a ha b hb c hc
      rwa [hcmp ha hb has hbu, hcmp hb hc hbu hcv, hcmp ha hc has hcv] at this
  by_cases hdesc : key.dir.desc = true
  · simp only [hdesc] at hdir
    exact hdir.reverse.congr fun s _ u _ => by simp
  · simpa [hdesc] using hdir

theorem rankable_of_totalOn (h : TotalOn (cmpKey colls key) rows) : Rankable colls key rows := by
  by_cases hcol : ∀ row ∈ rows, key.col < row.length
  · refine .inl ⟨hcol, ?_⟩
    by_cases hkinds : ∃ x ∈ valued key rows, ∃ y ∈ valued key rows,
        kind (field key x) ≠ kind (field key y)
    · obtain ⟨x, hx, y, hy, hne⟩ := hkinds
      exact .inl (flat_iff.2 (peers_of_two_kinds h hx hy hne))
    · push Not at hkinds
      refine .inr ⟨?_, fun name t => totalOn_host (h.mono fun _ => valued_subset)⟩
      rcases hnil : valued key rows with _ | ⟨row, more⟩
      · exact ⟨.null, by simp⟩
      · rw [← hnil]
        exact ⟨kind (field key row), fun r hr => hkinds r hr row (by simp [hnil])⟩
  · push Not at hcol
    obtain ⟨row, hrow, hmiss⟩ := hcol
    exact .inr (peers_iff.1 (peers_of_missing h hrow hmiss))

/-- The rows can be put in order by a list of keys: by the first, and those that tie on it by the
others. -/
def RankableBy (colls : Option HostColls) : List OrderKey → List Tuple → Prop
  | [], _ => True
  | key :: orderBy, rows => Rankable colls key rows ∧
      ∀ a ∈ rows, RankableBy colls orderBy (rows.filter (cmpKey colls key a · == .eq))

theorem RankableBy.totalOn {orderBy : List OrderKey} {rows : List Tuple}
    (h : RankableBy colls orderBy rows) : TotalOn (cmpRows colls orderBy) rows := by
  induction orderBy generalizing rows with
  | nil => exact .of_eq fun _ _ _ _ => rfl
  | cons key orderBy ih => exact h.1.totalOn.lex fun a ha => ih (h.2 a ha)

theorem Rankable.mono {rows' : List Tuple} (h : Rankable colls key rows)
    (hsub : ∀ row ∈ rows', row ∈ rows) : Rankable colls key rows' :=
  rankable_of_totalOn (h.totalOn.mono hsub)

theorem rankableBy_of_forall {orderBy : List OrderKey} {rows : List Tuple}
    (h : ∀ key ∈ orderBy, Rankable colls key rows) : RankableBy colls orderBy rows := by
  induction orderBy generalizing rows with
  | nil => trivial
  | cons key orderBy ih =>
    exact ⟨h key mem_cons_self, fun a _ => ih fun k hk =>
      (h k (mem_cons_of_mem _ hk)).mono fun _ hr => (mem_filter.1 hr).1⟩

theorem cmpRows_singleton (a b : Tuple) : cmpRows colls [key] a b = cmpKey colls key a b := by
  simp only [cmpRows]
  cases cmpKey colls key a b <;> rfl

variable {ctx : TxnCtx} {lo hi : Option RawBound} {filter : Filter} {orderBy : List
  OrderKey} {keep : ℕ}

/-- The heap is offered the kept rows, in their order. -/
theorem offerRows_eq {all : List Tuple} (h : keepRows filter all = .ok rows)
    (heap : List (Tuple × ℕ))
    (seq : ℕ) : offerRows colls orderBy filter keep all heap seq =
      .ok ((rows.zipIdx seq).foldl (offer (ranked (cmpRows colls orderBy)) keep) heap) := by
  induction all generalizing rows heap seq with
  | nil =>
    cases h
    rfl
  | cons row all ih =>
    rw [keepRows] at h
    rw [offerRows]
    rcases hf : filter row with e | b
    · rw [hf] at h
      cases h
    · rw [hf] at h
      cases b with
      | false => exact ih h heap seq
      | true =>
        rcases hk : keepRows filter all with e | kept
        · rw [hk] at h
          cases h
        · rw [hk] at h
          cases h
          rw [zipIdx_cons]
          exact ih hk _ _

theorem scanRows_eq_ok (h : scanRows ctx lo hi filter = .ok rows) :
    ∃ all, ctx.scanRowsRaw lo hi = .ok all ∧ keepRows filter all = .ok rows := by
  rw [scanRows] at h
  rcases hraw : ctx.scanRowsRaw lo hi with e | all
  · rw [hraw] at h
    cases h
  · rw [hraw] at h
    exact ⟨all, rfl, h⟩

theorem scanRowsTopk_eq (hcheck : checkOrderColls ctx.hostColls orderBy = .ok ())
    (htotal : TotalOn (cmpRows ctx.hostColls orderBy) rows)
    (h : scanRows ctx lo hi filter = .ok rows) :
    scanRowsTopk ctx lo hi filter orderBy keep =
      .ok ((sortRows ctx.hostColls orderBy rows).take keep) := by
  obtain ⟨all, hraw, hkept⟩ := scanRows_eq_ok h
  unfold scanRowsTopk
  split_ifs
  · rw [streamRowsTopk, hcheck]
    rcases Nat.eq_zero_or_pos keep with rfl | hpos
    · simp
    · simp only [if_neg hpos.ne', hraw, offerRows_eq hkept]
      rw [sortBy_bounded htotal hpos]
      rfl
  · simp only [sortRowsTopk, hcheck, hraw, hkept]

theorem gatherTopk_eq {access : Access} (hcheck : checkOrderColls ctx.hostColls orderBy = .ok ())
    (htotal : TotalOn (cmpRows ctx.hostColls orderBy) rows)
    (h : gatherRows ctx access filter = .ok rows) :
    gatherTopk ctx access filter orderBy keep =
      .ok ((sortRows ctx.hostColls orderBy rows).take keep) := by
  unfold gatherTopk
  rw [hcheck]
  cases access with
  | pkRange bounds =>
    rcases bounds with e | _ | ⟨lo, hi⟩
    · cases h
    · cases h
      simp [sortRows, sortBy]
    · exact scanRowsTopk_eq hcheck htotal h
  | fullScan => exact scanRowsTopk_eq hcheck htotal h
  | gathered r => simp only [h]

/-- ORDER BY orders the rows: it compares them by a total preorder, returns their stable sort, and
its first rows where a limit is set, on every way to the rows. -/
structure Sorts (colls : Option HostColls) (orderBy : List OrderKey) (rows : List Tuple) :
    Prop where
  total : TotalOn (cmpRows colls orderBy) rows
  stable : IsStableSort (cmpRows colls orderBy) rows (sortRows colls orderBy rows)
  scan : ∀ ctx lo hi filter keep, ctx.hostColls = colls → checkOrderColls colls orderBy = .ok () →
    scanRows ctx lo hi filter = .ok rows →
    scanRowsTopk ctx lo hi filter orderBy keep = .ok ((sortRows colls orderBy rows).take keep)
  gather : ∀ ctx access filter keep, ctx.hostColls = colls →
    checkOrderColls colls orderBy = .ok () →
    gatherRows ctx access filter = .ok rows →
    gatherTopk ctx access filter orderBy keep = .ok ((sortRows colls orderBy rows).take keep)

theorem sorts_of_totalOn (h : TotalOn (cmpRows colls orderBy) rows) : Sorts colls orderBy rows where
  total := h
  stable := isStableSort_sortBy h
  scan := by
    rintro ctx lo hi filter keep rfl hcheck hrows
    exact scanRowsTopk_eq hcheck h hrows
  gather := by
    rintro ctx access filter keep rfl hcheck hrows
    exact gatherTopk_eq hcheck h hrows

/-- Every ORDER BY over some keys sorts the rows if and only if the rows can be ranked by each of
the keys; and one ORDER BY sorts them already if each key ranks the rows that tie on the keys
before. -/
theorem sorts_iff_rankable (colls : Option HostColls) (keys : List OrderKey) (rows : List Tuple) :
    ((∀ orderBy, (∀ key ∈ orderBy, key ∈ keys) → Sorts colls orderBy rows) ↔
      ∀ key ∈ keys, Rankable colls key rows) ∧
    ∀ orderBy, RankableBy colls orderBy rows → Sorts colls orderBy rows := by
  refine ⟨⟨fun h key hkey => ?_, fun h orderBy hsub => ?_⟩, fun orderBy h =>
    sorts_of_totalOn h.totalOn⟩
  · have hsingle := (h [key] (by simpa using hkey)).total
    exact rankable_of_totalOn (hsingle.congr fun a _ b _ => cmpRows_singleton a b)
  · exact sorts_of_totalOn (rankableBy_of_forall fun key hkey => h key (hsub key hkey)).totalOn

/-- `ORDER BY id, c` where no two rows have the same `id`, whatever `c` holds. -/
theorem sorts_iff_rankable_distinct :
    Sorts none [⟨0, .asc, .native .binary⟩, ⟨1, .asc, .native .binary⟩]
      [[.scalar (.int 1), .scalar (.int 2)], [.scalar (.int 2), .scalar (.bool true)],
        [.scalar (.int 3), .scalar (.int 1)]] := by
  have hone : ∀ (key : OrderKey) (row : Tuple), cmpKey none key row row = .eq →
      Rankable none key [row] := fun key row h =>
    rankable_of_totalOn (.of_eq (by simpa using h))
  refine (sorts_iff_rankable none [] _).2 _ ⟨.inl ⟨?_, .inr ⟨⟨.ranked, ?_⟩, nofun⟩⟩, ?_⟩
  · intro row hrow
    simp only [mem_cons, not_mem_nil, or_false] at hrow
    rcases hrow with rfl | rfl | rfl <;> exact Nat.zero_lt_two
  · intro row hrow
    have hmem := (mem_filter.1 hrow).1
    simp only [mem_cons, not_mem_nil, or_false] at hmem
    rcases hmem with rfl | rfl | rfl <;> rfl
  · -- the rows that tie with a row on `id` are that row
    intro a ha
    simp only [mem_cons, not_mem_nil, or_false] at ha
    rcases ha with rfl | rfl | rfl <;> exact ⟨hone _ _ rfl, fun _ _ => trivial⟩

/-- An `any` column that holds 2, TRUE and 1: both numbers are equal to TRUE, so the stable order of
the three would have to be the one they came in. -/
theorem orderBy_mixed_unsorted :
    let key : OrderKey := ⟨0, .asc, .native .binary⟩
    let rows : List Tuple := [[.scalar (.int 2)], [.scalar (.bool true)], [.scalar (.int 1)]]
    cmpRows none [key] [.scalar (.int 2)] [.scalar (.bool true)] = .eq ∧
      cmpRows none [key] [.scalar (.bool true)] [.scalar (.int 1)] = .eq ∧
      cmpRows none [key] [.scalar (.int 2)] [.scalar (.int 1)] = .gt ∧
      ¬ TotalOn (cmpRows none [key]) rows ∧ ∀ out, ¬ IsStableSort
      (cmpRows none [key]) rows out := by
  intro key rows
  have h₁ : cmpRows none [key] [.scalar (.int 2)] [.scalar (.bool true)] = .eq := rfl
  have h₂ : cmpRows none [key] [.scalar (.bool true)] [.scalar (.int 1)] = .eq := rfl
  have h₃ : cmpRows none [key] [.scalar (.int 2)] [.scalar (.int 1)] = .gt := rfl
  refine ⟨h₁, h₂, h₃, fun h => ?_, fun out h => ?_⟩
  · exact h.trans [.scalar (.int 2)] (by simp [rows]) [.scalar (.bool true)] (by simp [rows])
      [.scalar (.int 1)] (by simp [rows]) (by rw [h₁]; decide) (by rw [h₂]; decide) h₃
  · have hclass : ∀ r ∈ rows, (cmpRows none [key] [.scalar (.bool true)] r == .eq) = true := by
      intro r hr
      simp only [rows, mem_cons, not_mem_nil, or_false] at hr
      rcases hr with rfl | rfl | rfl <;> rfl
    have hstable := h.stable [.scalar (.bool true)] (by simp [rows])
    rw [filter_eq_self.2 hclass, filter_eq_self.2 fun r hr =>
      hclass r (h.perm.mem_iff.1 hr)] at hstable
    have hsorted := h.sorted
    rw [hstable] at hsorted
    simp only [rows, pairwise_cons] at hsorted
    exact hsorted.1 [.scalar (.int 1)] (by simp) h₃

end Mpedb.OrderBy
