import Mpedb.Columnar
import Mpedb.Proofs.SegmentScan

/-!
# Segments never show through

A generation stands for one state of the table, so a block that decodes at a generation holds the
rows of that state. The rows up to the watermark are those of the state it was set at, because every
change at or below it deletes it.
-/

namespace Mpedb

open Outcome List Option SortedMap TableVersion ColumnarTable

section Groups

variable {α β : Type} {size : ℕ}

theorem groupsOf_map (f : α → β) : ∀ l buf : List α,
    groupsOf size (l.map f) (buf.map f) = (groupsOf size l buf).map (List.map f)
  | [], buf => by
    simp only [map_nil, groupsOf, isEmpty_map]
    split_ifs <;> rfl
  | a :: l, buf => by
    have hbuf : buf.map f ++ [f a] = (buf ++ [a]).map f := by simp
    simp only [map_cons, groupsOf, hbuf, length_map]
    split_ifs
    · rw [map_cons]
      congr 1
      exact groupsOf_map f l []
    · exact groupsOf_map f l (buf ++ [a])

theorem flatten_groupsOf : ∀ l buf : List α, (groupsOf size l buf).flatten = buf ++ l
  | [], buf => by
    rw [groupsOf]
    split_ifs with h
    · simp [isEmpty_iff.1 h]
    · simp
  | a :: l, buf => by
    rw [groupsOf]
    split_ifs
    · rw [flatten_cons, flatten_groupsOf l [], append_assoc]
      rfl
    · rw [flatten_groupsOf l (buf ++ [a]), append_assoc]
      rfl

theorem length_le_of_mem_groupsOf : ∀ {l buf : List α}, buf.length < size →
    ∀ g ∈ groupsOf size l buf, g.length ≤ size
  | [], buf, hbuf, g, hg => by
    rw [groupsOf] at hg
    split_ifs at hg
    · cases hg
    · rw [mem_singleton.1 hg]
      exact hbuf.le
  | a :: l, buf, hbuf, g, hg => by
    rw [groupsOf] at hg
    split_ifs at hg with hfull
    · rcases mem_cons.1 hg with rfl | hg
      · exact hfull.le
      · exact length_le_of_mem_groupsOf (by simpa using Nat.zero_lt_of_lt hbuf) g hg
    · refine length_le_of_mem_groupsOf ?_ g hg
      rw [length_append] at hfull ⊢
      simp only [length_cons, length_nil] at hfull ⊢
      omega

end Groups

section Build

variable {v : TableVersion} {ci col : ℕ} {ty : ColumnType} {blocks : List (List UInt8)}

/-- The rows of a version, as they are cut into blocks. -/
def TableVersion.chunks (v : TableVersion) : List (List (Key × Row)) :=
  groupsOf blockRows v.content.rows.entries []

theorem TableVersion.flatten_chunks (v : TableVersion) :
    v.chunks.flatten = v.content.rows.entries := by
  rw [chunks, flatten_groupsOf, nil_append]

theorem TableVersion.mem_chunks (v : TableVersion) : ∀ rows ∈ v.chunks,
    rows.length ≤ blockRows ∧ ∀ e ∈ rows, e ∈ v.content.rows.entries := by
  intro rows hr
  refine ⟨length_le_of_mem_groupsOf (by decide) rows hr, fun e he => ?_⟩
  rw [← v.flatten_chunks]
  exact mem_flatten.2 ⟨rows, hr, he⟩

/-- Blocks of one column of a version, under the type of the schema they were built with. -/
def BuiltFrom (v : TableVersion) (col : ℕ) (blocks : List (List UInt8)) : Prop :=
  ∃ ty, List.Forall₂ (fun bytes rows =>
    (∀ g' ty', g' ≠ v.gen ∨ ty' ≠ ty → decodeBlock bytes g' ty' = .ok none) ∧
    (v.content.types[col]? = some ty → BlockOf v.gen ty col bytes rows)) blocks v.chunks

/-- No block of the pass loses bits of a packed distance. -/
def LosslessBuild (orders : ℕ → ℕ → HashOrder) (v : TableVersion) (columns : List ColumnType) :
    Prop :=
  ∀ c ∈ columns.zipIdx, segmentable c.1 = true →
    ∀ b ∈ (groupsOf blockRows (v.content.rows.entries.map fun e => e.2.col c.2) []).zipIdx,
      Lossless (orders c.2 b.2) c.1 b.1

instance (orders : ℕ → ℕ → HashOrder) (v : TableVersion) (columns : List ColumnType) :
    Decidable (LosslessBuild orders v columns) := inferInstanceAs (Decidable (∀ c ∈ _, _))

theorem TableContent.fits_col (c : TableContent) {e : Key × Row} (he : e ∈ c.rows.entries)
    (hty : c.types[col]? = some ty) : (e.2.col col).fits ty = true ∧ (e.2.col col).small := by
  have h := c.fits e he
  rw [rowFits, Bool.and_eq_true, decide_eq_true_eq] at h
  obtain ⟨hlt, hget⟩ := List.getElem?_eq_some_iff.1 hty
  have hrow : col < e.2.length := h.1 ▸ hlt
  have hmem : (e.2[col], c.types[col]) ∈ e.2.zip c.types :=
    mem_iff_getElem.2 ⟨col, by simp [hrow, hlt], by simp⟩
  have := all_eq_true.1 h.2 _ hmem
  rw [Bool.and_eq_true, decide_eq_true_eq] at this
  rw [Row.col, getD_eq_getElem _ _ hrow, ← hget]
  exact this

theorem mapM_column {rows : List (Key × Row)} {n : ℕ} {vals : List Value}
    (h : (rows.mapM fun e => if n ≤
      ci then (.error (.internal s!"column {ci} out of range") : Except Error Value)
      else .ok (e.2.col ci)) = .ok vals) : vals = rows.map fun e => e.2.col ci := by
  have := mapM_eq_ok.1 h
  induction this with
  | nil => rfl
  | cons hv _ ih =>
    rw [mapM_eq_ok, forall₂_cons] at h
    rw [map_cons, ← ih (mapM_eq_ok.2 h.2)]
    split_ifs at hv
    cases hv
    rfl

/-- The blocks of a column are those of its rows at the version. -/
theorem buildColumn_built {orders : ℕ → HashOrder}
    (hbuild : buildColumn orders v ci ty = .ok blocks)
    (hgen : v.gen < 2 ^ 64) (hseg : segmentable ty = true)
    (hloss : ∀ b ∈ (groupsOf blockRows (v.content.rows.entries.map fun e => e.2.col ci) []).zipIdx,
      Lossless (orders b.2) ty b.1) : BuiltFrom v ci blocks := by
  obtain ⟨vals, hvals, hbuild⟩ := bind_eq_ok.1 hbuild
  rw [mapM_column hvals] at hbuild
  have hgroups : groupsOf blockRows (v.content.rows.entries.map fun e => e.2.col ci) [] =
      v.chunks.map (List.map fun e => e.2.col ci) := groupsOf_map _ _ []
  have hall := (forall₂_and_left _ _).2 ⟨hloss, mapM_eq_ok.1 hbuild⟩
  -- beside the rows of each block
  have hrows : List.Forall₂ (fun (b : List Value × ℕ) rows => b.1 =
      rows.map fun e : Key × Row => e.2.col ci)
      ((groupsOf blockRows (v.content.rows.entries.map fun e => e.2.col ci) []).zipIdx)
      v.chunks := by
    refine (forall₂_map_left_iff (f := Prod.fst) (R := fun vals (rows : List (Key × Row)) =>
      vals = rows.map fun e => e.2.col ci)).1 ?_
    rw [zipIdx_map_fst, hgroups, forall₂_map_left_iff]
    exact forall₂_same.2 fun _ _ => rfl
  have hjoin := forall₂_join (T := fun bytes rows => ∃ order vals, Lossless order ty vals ∧
      encodeBlock order v.gen ty vals = .ok bytes ∧ vals = rows.map fun e : Key × Row => e.2.col ci)
    (fun b bytes rows h₁ h₂ => ⟨orders b.2, b.1, h₁.1, h₁.2, h₂⟩) hall hrows
  refine ⟨ty,
    List.Forall₂.flip (List.Forall₂.imp ?_ ((forall₂_and_left _ _).2 ⟨v.mem_chunks, hjoin.flip⟩))⟩
  rintro rows bytes ⟨⟨hlen, hmem⟩, order, vals, hl, henc, rfl⟩
  have hlen' : (rows.map fun e => e.2.col ci).length ≤ blockRows := by rwa [length_map]
  refine ⟨fun g' ty' hne => encodeBlock_other henc hgen hlen' hne, fun hty => ?_⟩
  refine encodeBlock_blockOf henc hgen hlen' hseg (fun x hx => ?_) hl
  obtain ⟨e, he, rfl⟩ := mem_map.1 hx
  exact v.content.fits_col (hmem e he) hty

theorem buildColumns_built {orders : ℕ → ℕ → HashOrder} (hgen : v.gen < 2 ^ 64) :
    ∀ {cols : List (ColumnType × ℕ)} {built : List (ℕ × List (List UInt8))},
    (∀ c ∈ cols, segmentable c.1 = true →
      ∀ b ∈ (groupsOf blockRows (v.content.rows.entries.map fun e => e.2.col c.2) []).zipIdx,
        Lossless (orders c.2 b.2) c.1 b.1) →
    buildColumns orders v cols = .ok built → ∀ e ∈ built, BuiltFrom v e.1 e.2
  | [], built, _, h => by
    cases h
    simp
  | (ty, ci) :: cols, built, hloss, h => by
    have ih {built} : buildColumns orders v cols = .ok built → _ :=
      buildColumns_built hgen fun c hc => hloss c (mem_cons_of_mem _ hc)
    rw [buildColumns] at h
    split_ifs at h with hseg
    · exact ih h
    have hseg : segmentable ty = true := by simpa using hseg
    split at h
    · rename_i blocks hb
      obtain ⟨rest, hrest, rfl⟩ : ∃ rest, buildColumns orders v cols = .ok rest ∧
          (ci, blocks) :: rest = built := by
        cases hc : buildColumns orders v cols with
        | error e => rw [hc] at h; cases h
        | ok rest => rw [hc] at h; cases h; exact ⟨rest, rfl, rfl⟩
      rintro e he
      rcases mem_cons.1 he with rfl | he
      · exact buildColumn_built hb hgen hseg (hloss (ty, ci) (mem_cons_self ..) hseg)
      · exact ih hrest e he
    · exact ih h
    · cases h

end Build

/-- `hist` gives the table's contents at each of its generations. -/
structure ColumnarInv (hist : ℕ → TableContent) (s : ColumnarTable) : Prop where
  current : hist s.gen = s.content
  small : s.gen < 2 ^ 64
  past : ∀ v ∈ s.past, v.gen ≤ s.gen ∧ hist v.gen = v.content
  segments : ∀ col, s.segments col = [] ∨ ∃ g ≤ s.gen, BuiltFrom ⟨g, hist g⟩ col (s.segments col)
  watermark : ∀ g0 covered pk, s.watermark = some (g0, covered, pk) → g0 ≤ s.gen ∧
    covered = (hist g0).rows.size ∧ (hist g0).types = s.content.types ∧
    (hist g0).rows.entries = s.content.rows.entries.filter fun e => e.1 ≤ pk

/-- The row that an operation changes without noting it. -/
def TxnOp.unnoted : TxnOp → Option Key
  | .put key _ false | .del key false => some key
  | _ => none

/-- The changes that are not noted lie behind the watermark. -/
def UnnotedBehind (watermark : Option (ℕ × ℕ × Key)) (ops : List TxnOp) : Prop :=
  ∀ op ∈ ops, ∀ key ∈ op.unnoted, noteColumnarMutation watermark key = watermark

instance (watermark : Option (ℕ × ℕ × Key)) (ops : List TxnOp) :
    Decidable (UnnotedBehind watermark ops) :=
  inferInstanceAs (Decidable (∀ op ∈ ops, ∀ key ∈ op.unnoted, _))

/-- What a step asks of the state before: no change of a row up to the watermark goes unnoted, a
pass packs no distance whose bits get lost, and a compaction of the table ids finds no segments
under the table's new id. -/
def ColumnarGuard (s : ColumnarTable) : ColumnarStep → Prop
  | .commit ops => s.gen + 1 < 2 ^ 64 ∧ UnnotedBehind s.watermark ops
  | .compact orders version columns => ∀ v ∈ s.past[version]?, LosslessBuild orders v columns
  | .dropSegments => True
  | .renumber segments watermark => (∀ col, segments col = []) ∧ watermark = none

namespace ColumnarInv

variable {hist : ℕ → TableContent} {s s' : ColumnarTable}

theorem init (types : List ColumnType) :
    ColumnarInv (fun _ => (init types).content) (init types) where
  current := rfl
  small := Nat.two_pow_pos 64
  past := by simp [ColumnarTable.init]
  segments := fun _ => .inl rfl
  watermark := by simp [ColumnarTable.init]

theorem noteColumnarMutation_keep {w : Option (ℕ × ℕ × Key)} {g0 covered : ℕ} {pk key : Key}
    (h : noteColumnarMutation w key = some (g0, covered, pk)) :
    w = some (g0, covered, pk) ∧ ¬ key ≤ pk := by
  unfold noteColumnarMutation at h
  split at h
  · split_ifs at h with hle
    cases h
    exact ⟨rfl, fun h => hle (.inr h)⟩
  · cases h

/-- After a change the watermark is gone, or it was there before, and the rows up to it are the same
unless one was changed and not noted. -/
theorem applyOp_watermark {c c' : TableContent × Option (ℕ × ℕ × Key)} {op : TxnOp}
    (h : applyOp c op = some c') {g0 covered : ℕ} {pk : Key} (hw : c'.2 = some (g0, covered, pk)) :
    c.2 = some (g0, covered, pk) ∧ c'.1.types = c.1.types ∧
      ((∀ key ∈ op.unnoted, ¬ key ≤ pk) →
        (c'.1.rows.entries.filter fun e => e.1 ≤ pk) =
          c.1.rows.entries.filter fun e => e.1 ≤ pk) := by
  cases op with
  | put key row noted =>
    have hfit : rowFits c.1.types row = true := by
      by_contra hno
      rw [applyOp, dif_neg hno] at h
      cases h
    rw [applyOp, dif_pos hfit] at h
    cases h
    have hrows (hlt : ¬ key ≤ pk) : ((c.1.rows.insert key row).entries.filter fun e => e.1 ≤ pk) =
        c.1.rows.entries.filter fun e => e.1 ≤ pk := by
      refine filter_entries_congr (p := fun k => decide (k ≤ pk)) fun k hk => ?_
      rw [lookup_insert, if_neg fun h : k = key => hlt (h ▸ of_decide_eq_true hk)]
    cases noted with
    | true =>
      obtain ⟨hc, hlt⟩ := noteColumnarMutation_keep hw
      exact ⟨hc, rfl, fun _ => hrows hlt⟩
    | false => exact ⟨hw, rfl, fun hlt => hrows (hlt key rfl)⟩
  | del key noted =>
    cases h
    have hrows (hlt : ¬ key ≤ pk) : ((c.1.rows.erase key).entries.filter fun e => e.1 ≤ pk) =
        c.1.rows.entries.filter fun e => e.1 ≤ pk := by
      refine filter_entries_congr (p := fun k => decide (k ≤ pk)) fun k hk => ?_
      rw [lookup_erase, if_neg fun h : k = key => hlt (h ▸ of_decide_eq_true hk)]
    cases noted with
    | true =>
      obtain ⟨hc, hlt⟩ := noteColumnarMutation_keep hw
      exact ⟨hc, rfl, fun _ => hrows hlt⟩
    | false => exact ⟨hw, rfl, fun hlt => hrows (hlt key rfl)⟩
  | addColumn | dropColumn =>
    obtain ⟨_, _, rfl⟩ := map_eq_some_iff.1 h
    cases hw

theorem applyOps_watermark {c' : TableContent × Option (ℕ × ℕ × Key)} {g0 covered : ℕ} {pk : Key}
    (hw : c'.2 = some (g0, covered, pk)) :
    ∀ {ops : List TxnOp} {c : TableContent × Option (ℕ × ℕ × Key)},
    ops.foldlM applyOp c = some c' → c.2 = some (g0, covered, pk) ∧ c'.1.types = c.1.types ∧
      ((∀ op ∈ ops, ∀ key ∈ op.unnoted, ¬ key ≤ pk) →
        (c'.1.rows.entries.filter fun e => e.1 ≤ pk) =
          c.1.rows.entries.filter fun e => e.1 ≤ pk)
  | [], c, h => by
    cases h
    exact ⟨hw, rfl, fun _ => rfl⟩
  | op :: ops, c, h => by
    obtain ⟨c₁, h₁, h₂⟩ := bind_eq_some_iff.1 h
    obtain ⟨hw₁, hty₁, hrows₁⟩ := applyOps_watermark hw h₂
    obtain ⟨hw₀, hty₀, hrows₀⟩ := applyOp_watermark h₁ hw₁
    refine ⟨hw₀, hty₁.trans hty₀, fun hbehind => ?_⟩
    obtain ⟨hop, hops⟩ := forall_mem_cons.1 hbehind
    exact (hrows₁ hops).trans (hrows₀ hop)

section

variable (h : ColumnarInv hist s)

include h

/-- A commit notes what it changes behind the watermark, or drops the segments. -/
theorem commit {ops : List TxnOp} (hg : s.gen + 1 < 2 ^ 64) (hops : UnnotedBehind s.watermark ops)
    (hs : s.step (.commit ops) = some s') : ∃ hist', ColumnarInv hist' s' := by
  obtain ⟨⟨content, watermark⟩, hrun, hs⟩ := bind_eq_some_iff.1 hs
  cases hs
  have hgen : (s.gen + 1) % 2 ^ 64 = s.gen + 1 := Nat.mod_eq_of_lt hg
  -- the new generation is above all that were
  have hold : ∀ g ≤ s.gen, Function.update hist (s.gen + 1) content g = hist g := fun g hle =>
    Function.update_of_ne (by omega) ..
  refine ⟨Function.update hist (s.gen + 1) content, ?_, ?_, ?_, ?_, ?_⟩
  · simp only [hgen, Function.update_self]
  · simpa only [hgen] using hg
  · intro v hv
    simp only [hgen] at hv ⊢
    rcases mem_append.1 hv with hv | hv
    · obtain ⟨hle, hv⟩ := h.past v hv
      exact ⟨by omega, (hold _ hle).trans hv⟩
    · rw [mem_singleton.1 hv]
      exact ⟨le_refl _, Function.update_self ..⟩
  · intro col
    simp only [hgen]
    refine (h.segments col).imp_right ?_
    rintro ⟨g, hle, hb⟩
    exact ⟨g, by omega, by rwa [hold g hle]⟩
  · intro g0 covered pk hw
    simp only [hgen]
    obtain ⟨hw₀, hty, hrows⟩ := applyOps_watermark hw hrun
    have hbehind : ∀ op ∈ ops, ∀ key ∈ op.unnoted, ¬ key ≤ pk := fun op hop key hkey =>
      (noteColumnarMutation_keep ((hops op hop key hkey).trans hw₀)).2
    obtain ⟨hle, hcov, hty₀, hrows₀⟩ := h.watermark g0 covered pk hw₀
    rw [hold g0 hle]
    exact ⟨by omega, hcov, hty₀.trans hty.symm, hrows₀.trans (hrows hbehind).symm⟩

/-- A compaction builds from a version that is still there. -/
theorem compact {orders : ℕ → ℕ → HashOrder} {v : TableVersion}
    {columns : List ColumnType} (hv : v ∈ s.past) (hloss : LosslessBuild orders v columns)
    (hs : compactTable s orders v columns = .ok s') : ColumnarInv hist s' := by
  obtain ⟨hle, hcontent⟩ := h.past v hv
  obtain ⟨built, hbuilt, hs⟩ := bind_eq_ok.1 hs
  split_ifs at hs with hempty
  · cases hs
    exact h
  cases hs
  refine ⟨h.current, h.small, h.past, fun col => ?_, fun g0 covered pk hw => ?_⟩
  · cases hl : built.lookup col with
    | none => simpa only [hl, getD_none] using h.segments col
    | some blocks =>
      obtain ⟨l₁, l₂, hmem, -⟩ := lookup_eq_some_iff.1 hl
      have hb := buildColumns_built (lt_of_le_of_lt hle h.small) hloss hbuilt (col, blocks)
        (by simp [hmem])
      refine .inr ⟨v.gen, hle, ?_⟩
      rw [hcontent]
      simpa only [hl, getD_some] using hb
  · -- the new watermark, at the table's own generation, lies behind all rows
    simp only [setWatermark] at hw
    split at hw
    · cases hw
    rename_i pk' row hlast
    split_ifs at hw with hnone hother
    · exact h.watermark g0 covered pk hw
    · exact h.watermark g0 covered pk hw
    cases hw
    have hsame : s.gen = v.gen := not_not.1 hother
    have hcur : s.content = v.content := by rw [← h.current, hsame, hcontent]
    refine ⟨hle, by rw [hcontent], by rw [hcontent, hcur], ?_⟩
    rw [hcontent, hcur]
    refine (filter_eq_self.2 fun e he => ?_).symm
    simpa using le_of_getLast? hlast he

theorem step {a : ColumnarStep} (hguard : ColumnarGuard s a)
    (hs : s.step a = some s') : ∃ hist', ColumnarInv hist' s' := by
  cases a with
  | commit ops => exact h.commit hguard.1 hguard.2 hs
  | compact orders version columns =>
    obtain ⟨v, hv, hs⟩ := bind_eq_some_iff.1 hs
    cases hc : compactTable s orders v columns with
    | error e =>
      rw [hc] at hs
      cases hs
      exact ⟨hist, h⟩
    | ok s₁ =>
      rw [hc] at hs
      cases hs
      exact ⟨hist, h.compact (mem_of_getElem? hv) (hguard v hv) hc⟩
  | dropSegments =>
    cases hs
    exact ⟨hist, h.current, h.small, h.past, fun _ => .inl rfl, by simp⟩
  | renumber segments watermark =>
    cases hs
    exact ⟨hist, h.current, h.small, h.past, fun col => .inl (hguard.1 col), by simp [hguard.2]⟩

theorem serves {g : ℕ} (hty : (hist g).types = s.content.types) :
    Serves s.snapshot g (chunks ⟨g, hist g⟩) where
  column col ty htycol hseg := by
    change (∃ bytes blocks, s.segments col = bytes :: blocks ∧ _) ∨ s.segments col = [] ∨
      List.Forall₂ _ (s.segments col) _
    rcases h.segments col with hnil | ⟨g', -, ty', hblocks⟩
    · exact .inr (.inl hnil)
    by_cases hsame : g = g' ∧ ty = ty'
    · obtain ⟨rfl, rfl⟩ := hsame
      exact .inr (.inr (hblocks.imp fun bytes rows hb => hb.2 (hty ▸ htycol)))
    · -- blocks of another state or type are not decoded
      cases hseg : s.segments col with
      | nil => exact .inr (.inl rfl)
      | cons bytes blocks =>
        rw [hseg] at hblocks
        obtain ⟨hfirst, -⟩ := forall₂_cons_left_iff.1 hblocks |>.choose_spec.choose_spec
        refine .inl ⟨bytes, blocks, rfl, hfirst.1 g ty ?_⟩
        by_contra hboth
        exact hsame ⟨by_contra fun h => hboth (.inl h), by_contra fun h => hboth (.inr h)⟩

theorem sound : SoundSnapshot s.snapshot where
  whole := by
    refine ⟨s.gen, chunks ⟨s.gen, hist s.gen⟩, rfl, rfl, ?_, h.serves (by rw [h.current])⟩
    rw [flatten_chunks, h.current]
    rfl
  split := by
    intro g0 covered pk hw
    obtain ⟨-, hcov, hty, hrows⟩ := h.watermark g0 covered pk hw
    refine ⟨chunks ⟨g0, hist g0⟩, ?_, ?_, h.serves hty⟩
    · rw [flatten_chunks, hcov]
      rfl
    · rw [flatten_chunks, hrows]
      refine (s.content.rows.filter_le_append pk).symm.trans (congrArg _ ?_)
      exact filter_congr fun e _ => decide_eq_decide.2 Iff.rfl

end

end ColumnarInv

open Transition

/-- One commit of rows with a single column, and a pass over them. -/
def packedHistory (ty : ColumnType) (vals : List Value) : List ColumnarStep :=
  [.commit (vals.zipIdx.map fun e => .put [UInt8.ofNat e.2] [e.1] true),
    .compact (fun _ _ => ⟨List.dedup, fun _ => .refl _⟩) 1 [ty]]

/-- A consumer that keeps everything. -/
def pushed (acc : List Value) (v : Value) : Except Error (List Value) := .ok (acc ++ [v])

/-- The guard under which a run keeps its segments readable. -/
def packedGuard (s : ColumnarTable) (a : ColumnarStep) : Prop :=
  match a with
  | .commit ops => s.gen + 1 < 2 ^ 64 ∧ UnnotedBehind s.watermark ops
  | .compact orders version columns => ∀ v ∈ s.past[version]?, LosslessBuild orders v columns
  | _ => False

instance (s : ColumnarTable) (a : ColumnarStep) : Decidable (packedGuard s a) :=
  match a with
  | .commit ops => inferInstanceAs (Decidable (s.gen + 1 < 2 ^ 64 ∧ UnnotedBehind s.watermark ops))
  | .compact .. => inferInstanceAs (Decidable (∀ v ∈ _, _))
  | .dropSegments => inferInstanceAs (Decidable False)
  | .renumber .. => inferInstanceAs (Decidable False)

theorem columnarGuard_of_packedGuard (s : ColumnarTable) (a : ColumnarStep) (h : packedGuard s a) :
    ColumnarGuard s a := by
  cases a with
  | commit ops => exact h
  | compact orders version columns => exact h
  | dropSegments => trivial
  | renumber segments watermark => exact h.elim

end Mpedb
