import Mpedb.Proofs.ColumnSegment
import Mpedb.SegmentScan

/-!
# What a feed from segments pushes

A column's segments serve a list of rows at a generation if they were built from these rows at that
generation, or do not decode at it. A feed then pushes what the row scan pushes, block by block: a
block the zone map lets through whole has no NULL and no value that fails the comparison, and one it
skips has none that passes.
-/

namespace Mpedb

open SegSnapshot List Outcome SegSnapshot BitMask FilterProgram

section Column

variable {gen want : ℕ} {ty : ColumnType} {col : ℕ} {blocks : List (List UInt8)}
  {chunks : List (List (Key × Row))} {σ : Type} {push : σ → Value → Except Error σ}

/-- The record holds one column of these rows. -/
def BlockOf (gen : ℕ) (ty : ColumnType) (col : ℕ) (bytes : List UInt8) (rows : List (Key × Row)) :
    Prop :=
  ∃ b, decodeBlock bytes gen ty = .ok (some b) ∧ b.Of ty (rows.map fun e => e.2.col col)

theorem BlockOf.decodeFresh {bytes : List UInt8} {rows : List (Key × Row)}
    (h : BlockOf gen ty col bytes rows) :
    ∃ b, decodeFresh bytes gen ty = .ok b ∧ b.Of ty (rows.map fun e => e.2.col col) := by
  obtain ⟨b, hb, hof⟩ := h
  refine ⟨b, ?_, hof⟩
  simp only [SegSnapshot.decodeFresh, hb]
  rfl

theorem coverage_of (h : List.Forall₂ (BlockOf gen ty col) blocks chunks) :
    ∀ covered, covered + chunks.flatten.length ≤ want →
      coverage gen want ty blocks covered = .ok (.rows (covered + chunks.flatten.length)) := by
  induction h with
  | nil =>
    intro covered _
    rfl
  | cons hb _ ih =>
    intro covered hle
    obtain ⟨b, hdec, hof⟩ := hb
    rw [flatten_cons, length_append, ← add_assoc] at hle ⊢
    have hrows := hof.rows
    rw [length_map] at hrows
    have hnext : ¬want < covered + b.nRows := by omega
    rw [← hrows] at hle ⊢
    rw [coverage, hdec]
    show (if want < covered + b.nRows then _ else _) = _
    rw [if_neg hnext]
    exact ih (covered + b.nRows) hle

theorem stream_of (h : List.Forall₂ (BlockOf gen ty col) blocks chunks) : ∀ s : σ,
    stream gen ty push blocks s = (chunks.flatten.map fun e => e.2.col col).foldlM push s := by
  induction h with
  | nil =>
    intro s
    rfl
  | cons hb _ ih =>
    intro s
    obtain ⟨b, hdec, hof⟩ := hb.decodeFresh
    rw [flatten_cons, map_append, foldlM_append, stream, foldlM_cons, hdec]
    show b.forEach push s >>= _ = _
    rw [hof.each]
    exact bind_congr fun s' => ih s'

end Column

section Serves

variable {snap : SegSnapshot} {gen : ℕ} {rows : List (Key × Row)} {chunks : List (List (Key × Row))}
  {col : ℕ} {ty : ColumnType} {σ : Type}

/-- The columns' segments at `gen` are those of the rows, cut alike, or cannot be used. -/
structure Serves (snap : SegSnapshot) (gen : ℕ) (chunks : List (List (Key × Row))) : Prop where
  column : ∀ col ty, snap.types[col]? = some ty → segmentable ty = true →
    (∃ bytes blocks, snap.blocks col = bytes :: blocks ∧ decodeBlock bytes gen ty = .ok none) ∨
    snap.blocks col = [] ∨ List.Forall₂ (BlockOf gen ty col) (snap.blocks col) chunks

theorem Serves.coverage (h : Serves snap gen chunks) (hty : snap.types[col]? = some ty)
    (hseg : segmentable ty = true) :
    coverage gen chunks.flatten.length ty (snap.blocks col) 0 = .ok .stale ∨
    (snap.blocks col = [] ∧
      coverage gen chunks.flatten.length ty (snap.blocks col) 0 = .ok (.rows 0)) ∨
    (List.Forall₂ (BlockOf gen ty col) (snap.blocks col) chunks ∧
      coverage gen chunks.flatten.length ty (snap.blocks col) 0 =
        .ok (.rows chunks.flatten.length)) := by
  rcases h.column col ty hty hseg with ⟨bytes, blocks, heq, hdec⟩ | hnil | hall
  · left
    rw [heq, SegSnapshot.coverage, hdec]
    rfl
  · exact .inr (.inl ⟨hnil, by rw [hnil]; rfl⟩)
  · refine .inr (.inr ⟨hall, ?_⟩)
    have := coverage_of hall 0 (zero_add chunks.flatten.length).le
    rwa [zero_add] at this

/-- A column is not served, or served by blocks of its chunks. -/
theorem Serves.loadColumn (h : Serves snap gen chunks) (hty : snap.types[col]? = some ty)
    (hseg : segmentable ty = true) :
    snap.loadColumn col ty gen chunks.flatten.length = .ok none ∨
    (snap.loadColumn col ty gen chunks.flatten.length = .ok (some (snap.blocks col)) ∧
      List.Forall₂ (BlockOf gen ty col) (snap.blocks col) chunks) := by
  unfold SegSnapshot.loadColumn
  rw [if_neg (by simp [hseg])]
  rcases h.coverage hty hseg with hc | ⟨hnil, hc⟩ | ⟨hall, hc⟩
  · left
    rw [hc]
    rfl
  · left
    rw [hnil]
    rfl
  · rw [hc]
    by_cases hempty : (snap.blocks col).isEmpty = true
    · left
      simp [bind, Except.bind, pure, Except.pure, hempty]
    · right
      exact ⟨by simp [bind, Except.bind, pure, Except.pure, hempty], hall⟩

/-- A feed's answer beside a row scan: it took the scan's place, or pushed nothing. -/
def Feeds (s : σ) (scan : Except Error σ) (r : σ × Bool) : Prop :=
  if r.2 then scan = .ok r.1 else r.1 = s

theorem foldColumn_eq (hcol : col < snap.types.length) (push : σ → Value → Except Error σ) (s : σ) :
    snap.foldColumn rows col push s = (rows.map fun e => e.2.col col).foldlM push s := by
  have hdec (row : Row) : snap.decodeColumn row col = .ok (row.col col) := by
    rw [decodeColumn, if_neg (by omega)]
  simp only [foldColumn, hdec, foldlM_map]
  rfl

theorem foldColumns_eq {cols : List ℕ} (hcols : ∀ c ∈ cols, c < snap.types.length)
    (push : σ → Row → Except Error σ) (s : σ) :
    snap.foldColumns rows cols push s = rows.foldlM (fun s e => push s (snap.fill cols e.2)) s := by
  unfold foldColumns
  rw [if_neg]
  simpa using hcols

theorem col_fill {cols : List ℕ} {row : Row} {c : ℕ} (hc : c ∈ cols) (hlt : c < snap.types.length) :
    (snap.fill cols row).col c = row.col c := by
  have hlen : c < (snap.fill cols row).length := by simpa [fill] using hlt
  rw [Row.col, getD_eq_getElem _ _ hlen]
  simp [fill, hc]

/-- What the three feeds ask of a snapshot: its segments serve all of its rows at its generation,
and below the watermark at that of the watermark. -/
structure SoundSnapshot (snap : SegSnapshot) : Prop where
  whole : ∃ gen chunks, snap.modGen = .ok gen ∧ snap.rowCount = .ok (List.length snap.rows) ∧
    snap.rows = chunks.flatten ∧ Serves snap gen chunks
  split : ∀ g0 covered pk, snap.watermark = some (g0, covered, pk) → ∃ chunks,
    covered = chunks.flatten.length ∧ snap.rows = chunks.flatten ++ snap.tail pk ∧
    Serves snap g0 chunks

/-! ### One column -/

/-- The segments give the rows before the tail, the row scan gives the rest. -/
theorem feedFromSegmentsTail_feeds (h : SoundSnapshot snap) (hty : snap.types[col]? = some ty)
    (hseg : segmentable ty = true) {push : σ → Value → Except Error σ} {s : σ} {r : σ × Bool}
    (hr : snap.feedFromSegmentsTail col ty push s = .ok r) :
    Feeds s (snap.rowScan col push s) r := by
  have hcol : col < snap.types.length := (List.getElem?_eq_some_iff.1 hty).1
  unfold feedFromSegmentsTail at hr
  rcases hwm : snap.watermark with _ | ⟨g0, covered, pk⟩
  · rw [hwm] at hr
    cases hr
    rfl
  · obtain ⟨chunks, rfl, hrows, hserves⟩ := h.split g0 covered pk hwm
    simp only [hwm] at hr
    rcases hserves.loadColumn hty hseg with hload | ⟨hload, hall⟩ <;> rw [hload] at hr
    · cases hr
      rfl
    · obtain ⟨recs, hrecs, hr⟩ := bind_eq_ok.1 hr
      cases hrecs
      obtain ⟨s₁, h₁, hr⟩ := bind_eq_ok.1 hr
      obtain ⟨s₂, h₂, hr⟩ := bind_eq_ok.1 hr
      cases hr
      rw [stream_of hall] at h₁
      rw [foldColumn_eq hcol] at h₂
      rw [rowScan, foldColumn_eq hcol, hrows, map_append, foldlM_append, h₁]
      exact h₂

/-- The feed falls back to the row scan before it has pushed anything. -/
theorem feedFromSegments_feeds (h : SoundSnapshot snap) (hty : snap.types[col]? = some ty)
    {push : σ → Value → Except Error σ} {s : σ} {r : σ × Bool}
    (hr : snap.feedFromSegments col ty push s = .ok r) : Feeds s (snap.rowScan col push s) r := by
  have hcol : col < snap.types.length := (List.getElem?_eq_some_iff.1 hty).1
  obtain ⟨gen, chunks, hgen, hcount, hrows, hserves⟩ := h.whole
  unfold feedFromSegments at hr
  split_ifs at hr with hseg
  · cases hr
    rfl
  · have hseg' : segmentable ty = true := by simpa using hseg
    rw [hrows] at hcount
    simp only [hgen, hcount] at hr
    rcases hserves.coverage hty hseg' with hc | ⟨hnil, hc⟩ | ⟨hall, hc⟩ <;> rw [hc] at hr
    · exact feedFromSegmentsTail_feeds h hty hseg' hr
    · rw [hnil] at hr
      exact feedFromSegmentsTail_feeds h hty hseg' hr
    · by_cases hempty : (snap.blocks col).isEmpty = true
      · have hr' : snap.feedFromSegmentsTail col ty push s = .ok r := by
          rw [← hr]
          simp [hempty, bind, Except.bind]
        exact feedFromSegmentsTail_feeds h hty hseg' hr'
      · have hr' : (stream gen ty push (snap.blocks col) s).map (·, true) = .ok r := by
          rw [← hr]
          simp [hempty, bind, Except.bind, Except.map]
          rfl
        obtain ⟨s₁, h₁, rfl⟩ := map_eq_ok.1 hr'
        rw [stream_of hall] at h₁
        show snap.rowScan col push s = .ok s₁
        rw [rowScan, foldColumn_eq hcol, hrows, h₁]

section Group

variable {needed : List (ℕ × ColumnType)} {push : σ → Row → Except Error σ}

/-- The columns have the types that are asked for. -/
def Typed (snap : SegSnapshot) (needed : List (ℕ × ColumnType)) : Prop :=
  ∀ c ∈ needed, snap.types[c.1]? = some c.2 ∧ segmentable c.2 = true

/-- Either all columns of a group are served or none. -/
theorem Serves.loadAll (h : Serves snap gen chunks) :
    ∀ {needed : List (ℕ × ColumnType)}, Typed snap needed →
    emitGroupSegments.loadAll snap gen chunks.flatten.length needed = .ok none ∨
    ∃ recs, emitGroupSegments.loadAll snap gen chunks.flatten.length needed = .ok (some recs) ∧
      List.Forall₂ (fun c rec => List.Forall₂ (BlockOf gen c.2 c.1) rec chunks) needed recs
  | [], _ => .inr ⟨[], rfl, .nil⟩
  | (col, ty) :: needed, ht => by
    obtain ⟨hty, hseg⟩ := ht (col, ty) (by simp)
    rcases h.loadColumn hty hseg with hload | ⟨hload, hall⟩
    · left
      rw [emitGroupSegments.loadAll, hload]
      rfl
    · have ht' : Typed snap needed := fun c hc => ht c (by simp [hc])
      rcases h.loadAll ht' with hrest | ⟨recs, hrest, hrecs⟩
      · left
        rw [emitGroupSegments.loadAll, hload]
        rw [hrest]
        rfl
      · right
        refine ⟨snap.blocks col :: recs, ?_, .cons hall hrecs⟩
        rw [emitGroupSegments.loadAll, hload]
        rw [hrest]
        rfl

theorem foldlM_collect (vals : List Value) (acc : List Value) :
    vals.foldlM (fun acc v => (.ok (acc ++ [v]) : Except Error (List Value))) acc = .ok
    (acc ++ vals) := by
  induction vals generalizing acc with
  | nil => simp [pure, Except.pure]
  | cons v vals ih =>
    show List.foldlM _ (acc ++ [v]) vals = _
    rw [ih, append_assoc]
    rfl

/-- The blocks of a chunk hold the needed columns of its rows. -/
theorem groupBlock_eq {bi : ℕ} {chunk : List (Key × Row)} (hchunk : chunks[bi]? = some chunk) :
    ∀ {needed : List (ℕ × ColumnType)} {recs : List (List (List UInt8))} {n : Option ℕ},
    List.Forall₂ (fun c rec => List.Forall₂ (BlockOf gen c.2 c.1) rec chunks) needed recs →
    (∀ m ∈ n, m = chunk.length) →
    groupBlock gen bi (needed.zip recs) n = .ok (if needed.isEmpty then n else some chunk.length,
      needed.map fun c => chunk.map fun e => e.2.col c.1)
  | [], _, n, hrecs, _ => by
    cases hrecs
    rfl
  | (col, ty) :: needed, recs :: rest, n, .cons hrec hrest, hn => by
    obtain ⟨hbi, rfl⟩ := List.getElem?_eq_some_iff.1 hchunk
    have hlen : bi < recs.length := hrec.length_eq ▸ hbi
    obtain ⟨b, hdec, hof⟩ := (hrec.get hlen hbi).decodeFresh
    have hrows : b.nRows = chunks[bi].length := hof.rows.trans (length_map _)
    have hany : n.any (· ≠ b.nRows) = false := by
      rcases n with _ | m
      · rfl
      · simp [hn m rfl, hrows]
    have hnext : n.getD b.nRows = chunks[bi].length := by
      rcases n with _ | m
      · exact hrows
      · exact hn m rfl
    have ih := groupBlock_eq hchunk (n := some chunks[bi].length) hrest (by simp)
    rw [zip_cons_cons, groupBlock, getD_eq_getElem _ _ hlen,
      show decodeFresh recs[bi] gen ty = .ok b from hdec]
    show (if n.any (· ≠ b.nRows) = true then _ else _) = _
    rw [hany, hnext, hof.each, foldlM_collect]
    rw [ih]
    cases needed <;> rfl

/-- The synthetic row has the needed columns and NULLs elsewhere, as the row scan's has. -/
theorem synthRow_eq {chunk : List (Key × Row)} {r : ℕ} (hr : r < chunk.length)
    (hcols : ∀ c ∈ needed, c.1 < snap.types.length) :
    synthRow snap.types.length needed (needed.map fun c => chunk.map fun e => e.2.col c.1) r =
      snap.fill (needed.map Prod.fst) chunk[r].2 := by
  -- over the columns, from any buffer of the table's width
  have key : ∀ (needed : List (ℕ × ColumnType)) (buf : Row), (∀ c ∈ needed, c.1 < buf.length) →
      (needed.zip (needed.map fun c => chunk.map fun e => e.2.col c.1)).foldl
        (fun synth e => synth.set e.1.1 (e.2.getD r .null)) buf =
      (List.range buf.length).map fun c => if c ∈ needed.map Prod.fst then chunk[r].2.col
      c else buf.col c := by
    intro needed
    induction needed with
    | nil =>
      intro buf _
      refine ext_getElem (by simp) fun i h1 h2 => ?_
      have hi : i < buf.length := h1
      simp [Row.col, hi]
    | cons c needed ih =>
      intro buf hbuf
      have hval : (chunk.map fun e => e.2.col c.1).getD r .null = chunk[r].2.col c.1 := by
        rw [getD_eq_getElem _ _ (by simpa using hr), getElem_map]
      rw [map_cons, zip_cons_cons, foldl_cons, hval,
        ih _ fun c' hc' => by rw [length_set]; exact hbuf c' (by simp [hc']), length_set]
      refine map_congr_left fun i hi => ?_
      have hi : i < buf.length := by simpa using hi
      by_cases hmem : i ∈ needed.map Prod.fst
      · simp [hmem]
      · by_cases heq : i = c.1
        · subst heq
          simp [hmem, Row.col, hi]
        · simp only [map_cons, mem_cons, hmem, heq]
          simp [Row.col, List.getElem?_set_ne (Ne.symm heq)]
  have := key needed (List.replicate snap.types.length .null) (by simpa using hcols)
  rw [synthRow, this]
  refine (map_congr_left fun c hc => ?_).trans (by rw [length_replicate]; rfl)
  have hnull : Row.col (List.replicate snap.types.length .null) c = .null := by
    rw [Row.col, getD_eq_getElem?_getD, List.getElem?_replicate]
    split_ifs <;> rfl
  rw [hnull]

theorem foldlM_range {α : Type} {f : σ → ℕ → Except Error σ} {g : σ → α → Except Error σ} :
    ∀ {l : List α} {j : ℕ} {s : σ}, (∀ i (h : i < l.length) s, f s (j + i) = g s l[i]) →
      (List.range' j l.length).foldlM f s = l.foldlM g s
  | [], _, _, _ => rfl
  | a :: l, j, s, h => by
    rw [length_cons, List.range'_succ, foldlM_cons]
    have hhead : f s j = g s a := h 0 (by simp) s
    rw [hhead]
    refine bind_congr fun s' => foldlM_range fun i hi s => ?_
    have := h (i + 1) (by simpa using hi) s
    rw [show j + 1 + i = j + (i + 1) by omega]
    exact this

theorem foldlM_flatten {α : Type} {g : σ → α → Except Error σ} : ∀ (l : List (List α)) (s : σ),
    l.foldlM (fun s chunk => chunk.foldlM g s) s = l.flatten.foldlM g s
  | [], _ => rfl
  | chunk :: l, s => by
    rw [flatten_cons, foldlM_append]
    exact bind_congr fun s' => foldlM_flatten l s'

/-- Chunk by chunk, the group feed pushes the rows of the scan. -/
theorem emitGroupSegments_feeds (h : Serves snap gen chunks) (ht : Typed snap needed)
    (hne : needed ≠ [])
    {s : σ} {r : σ × Bool}
    (hr : snap.emitGroupSegments snap.types.length needed gen chunks.flatten.length push s =
      .ok r) :
    Feeds s (chunks.flatten.foldlM (fun s e => push s (snap.fill (needed.map Prod.fst) e.2)) s)
    r := by
  have hcols : ∀ c ∈ needed, c.1 < snap.types.length := fun c hc =>
    (List.getElem?_eq_some_iff.1 (ht c hc).1).1
  unfold emitGroupSegments at hr
  rcases h.loadAll ht with hload | ⟨recs, hload, hrecs⟩ <;> rw [hload] at hr
  · cases hr
    rfl
  · obtain ⟨recs', hrecs', hr⟩ := bind_eq_ok.1 hr
    cases hrecs'
    have hlens : ∀ rec ∈ recs, rec.length = chunks.length := by
      intro rec hrec
      obtain ⟨c, -, hc⟩ := exists_left hrecs hrec
      exact hc.length_eq
    have hblocks : (recs.headD []).length = chunks.length := by
      cases hrecs with
      | nil => exact absurd rfl hne
      | cons hrec _ => exact hrec.length_eq
    have hsame : ¬(recs.any fun x => decide (x.length ≠ chunks.length)) = true := by
      simpa using hlens
    simp only [hblocks, hsame] at hr
    obtain ⟨s₁, h₁, hr⟩ := bind_eq_ok.1 hr
    cases hr
    show _ = Except.ok s₁
    rw [← h₁, range_eq_range', ← foldlM_flatten]
    refine (foldlM_range fun bi hbi s => ?_).symm
    have hblock := groupBlock_eq (n := none) (List.getElem?_eq_getElem hbi) hrecs (by simp)
    have hempty : needed.isEmpty = false := by simpa using hne
    rw [zero_add, hblock, hempty]
    show (List.range chunks[bi].length).foldlM _ s = _
    rw [range_eq_range']
    refine foldlM_range fun i hi s => ?_
    rw [zero_add, synthRow_eq hi hcols]

/-- The group feed is the row scan, or has pushed nothing. -/
theorem feedGroupFromSegments_feeds (h : SoundSnapshot snap)
    (htypes : ∀ c ∈ needed, snap.types[c.1]? = some c.2) {s : σ} {r : σ × Bool}
    (hr : snap.feedGroupFromSegments snap.types.length needed push s = .ok r) :
    Feeds s (snap.rowScanGroup (needed.map Prod.fst) push s) r := by
  have hcols : ∀ c ∈ needed.map Prod.fst, c < snap.types.length := by
    intro c hc
    obtain ⟨c', hc', rfl⟩ := mem_map.1 hc
    exact (List.getElem?_eq_some_iff.1 (htypes c' hc')).1
  obtain ⟨gen, chunks, hgen, hcount, hrows, hserves⟩ := h.whole
  have hscan : snap.rowScanGroup (needed.map Prod.fst) push s =
      snap.rows.foldlM (fun s e => push s (snap.fill (needed.map Prod.fst) e.2)) s :=
    foldColumns_eq hcols push s
  unfold feedGroupFromSegments at hr
  split_ifs at hr with hskip
  · cases hr
    rfl
  have hne : needed ≠ [] := by
    rintro rfl
    simp at hskip
  have ht : Typed snap needed := fun c hc => by
    refine ⟨htypes c hc, ?_⟩
    simp only [Bool.or_eq_true, any_eq_true, not_or, not_exists, not_and] at hskip
    simpa using hskip.2 c hc
  rw [hrows] at hcount
  simp only [hgen, hcount] at hr
  obtain ⟨⟨s₁, fed⟩, h₁, hr'⟩ := bind_eq_ok.1 hr
  have hwhole := emitGroupSegments_feeds hserves ht hne h₁
  cases fed with
  | true =>
    cases hr'
    rw [hscan, hrows]
    exact hwhole
  | false =>
    obtain rfl : s₁ = s := hwhole
    rcases hwm : snap.watermark with _ | ⟨g0, covered, pk⟩ <;> simp only [hwm] at hr'
    · cases hr'
      rfl
    · obtain ⟨chunks', rfl, hrows', hserves'⟩ := h.split g0 covered pk hwm
      obtain ⟨⟨s₂, fed⟩, h₂, hr₂⟩ := bind_eq_ok.1 hr'
      have hsplit := emitGroupSegments_feeds hserves' ht hne h₂
      cases fed with
      | false =>
        cases hr₂
        exact hsplit
      | true =>
        obtain ⟨s₃, h₃, hr₃⟩ := bind_eq_ok.1 hr₂
        cases hr₃
        have hsplit' : chunks'.flatten.foldlM
            (fun s e => push s (snap.fill (needed.map Prod.fst) e.2)) s₁ =
            .ok s₂ := hsplit
        rw [foldColumns_eq hcols] at h₃
        rw [hscan, hrows', foldlM_append, hsplit']
        exact h₃

end Group

section Filtered

variable {aggCol : ℕ} {aggTy predTy : ColumnType} {pred : ZonePred} {push : σ →
  Value → Except Error σ}

/-- What a scan of the rows does with the filter. -/
def filterRow (pred : ZonePred) (aggCol : ℕ) (push : σ → Value → Except Error σ) (s : σ)
    (e : Key × Row) :
    Except Error σ :=
  if zonePredPass (e.2.col pred.col) pred then push s (e.2.col aggCol) else .ok s

variable {v : Value}

theorem Value.int_cases {ty : ColumnType} (hty : ty = .int64 ∨ ty = .timestamp)
    (hfit : v.fits ty = true) : v = .null ∨ ∃ x, v = .int x ∨ v = .timestamp x := by
  cases v <;> rcases hty with rfl | rfl <;> simp_all [Value.fits, Value.columnType]

/-- How the comparison of an integer turns out, and what the bounds of a block say about it. -/
def ZoneCmp.test (op : ZoneCmp) (x k : Int64) : Bool :=
  match op with
  | .lt => x < k
  | .le => x ≤ k
  | .gt => k < x
  | .ge => k ≤ x
  | .eq => x = k

/-- Whether a zone passes as a whole, and whether it fails as a whole. -/
def ZoneCmp.verdicts (op : ZoneCmp) (lo hi k : Int64) : Bool × Bool :=
  match op with
  | .ge => (decide (k ≤ lo), decide (hi < k))
  | .gt => (decide (k < lo), decide (hi ≤ k))
  | .le => (decide (hi ≤ k), decide (k < lo))
  | .lt => (decide (hi < k), decide (k ≤ lo))
  | .eq => (decide (lo = k ∧ hi = k), decide (k < lo ∨ hi < k))

theorem ZoneCmp.verdicts_sound {op : ZoneCmp} {lo hi k x : Int64} (hlo : lo ≤ x) (hhi : x ≤ hi) :
    ((op.verdicts lo hi k).1 = true → op.test x k = true) ∧
    ((op.verdicts lo hi k).2 = true → op.test x k = false) := by
  have h1 := Int64.le_iff_toInt_le.1 hlo
  have h2 := Int64.le_iff_toInt_le.1 hhi
  cases op <;> simp only [verdicts, test, decide_eq_true_eq, decide_eq_false_iff_not,
    Int64.le_iff_toInt_le, Int64.lt_iff_toInt_lt, ← Int64.toInt_inj] <;> omega

theorem zonePredPass_int {x : Int64} (h : v = .int x ∨ v = .timestamp x) :
    zonePredPass v pred = pred.op.test x pred.k := by
  unfold zonePredPass ZoneCmp.test
  rcases h with rfl | rfl <;> cases pred.op <;> rfl

/-- A zone that rules a predicate out, or in, speaks for every value of the block. -/
theorem zoneVerdict_sound {b : Block} {vals : List Value} (hof : b.Of predTy vals)
    (hty : predTy = .int64 ∨ predTy = .timestamp) (hfit : ∀ v ∈ vals, v.fits predTy = true) :
    (zoneVerdict b pred = .none → ∀ v ∈ vals, zonePredPass v pred = false) ∧
    (zoneVerdict b pred = .all → ∀ v ∈ vals, zonePredPass v pred = true) := by
  have hcases : ∀ v ∈ vals, v = .null ∨ ∃ x, (v = .int x ∨ v = .timestamp x) ∧
      b.zmin.toInt64 ≤ x ∧ x ≤ b.zmax.toInt64 := by
    intro v hv
    rcases Value.int_cases hty (hfit v hv) with rfl | ⟨x, hx⟩
    · exact .inl rfl
    · exact .inr ⟨x, hx, hof.bounds hty v hv x hx⟩
  have hfloat : b.ty ≠ .float64 := by
    rw [hof.type]
    rcases hty with rfl | rfl <;> decide
  have hint : b.isIntColumn = true := by
    unfold Block.isIntColumn
    rw [hof.type]
    rcases hty with rfl | rfl <;> rfl
  by_cases hrows : b.nRows = 0
  · have : vals = [] := length_eq_zero_iff.1 (hof.rows ▸ hrows)
    simp [this]
  by_cases hnn : b.nNonnull = 0
  · -- nothing but NULLs
    have hnull : ∀ v ∈ vals, v = .null := by
      intro v hv
      have hnil := length_eq_zero_iff.1 (hof.nonnull ▸ hnn)
      have := filter_eq_nil_iff.1 hnil v hv
      cases v <;> first | rfl | exact absurd rfl this
    have hverdict : zoneVerdict b pred = .none := by
      simp only [zoneVerdict, hrows, if_false, Block.intBounds, hnn, true_or, if_true, hint]
    rw [hverdict]
    exact ⟨fun _ v hv => by rw [hnull v hv]; rfl, fun h => by cases h⟩
  · have hverdict : zoneVerdict b pred =
        if (pred.op.verdicts b.zmin.toInt64 b.zmax.toInt64 pred.k).2 then .none
        else if (pred.op.verdicts b.zmin.toInt64 b.zmax.toInt64 pred.k).1 && b.nullFree then .all
        else .some := by
      simp only [zoneVerdict, hrows, Block.intBounds, hnn, hfloat]
      cases pred.op <;> rfl
    rw [hverdict]
    constructor
    · intro h v hv
      split_ifs at h with hno
      rcases hcases v hv with rfl | ⟨x, hx, hlo, hhi⟩
      · rfl
      · rw [zonePredPass_int hx]
        exact (ZoneCmp.verdicts_sound hlo hhi).2 hno
    · intro h v hv
      split_ifs at h with hno hall
      rw [Bool.and_eq_true] at hall
      rcases hcases v hv with rfl | ⟨x, hx, hlo, hhi⟩
      · -- the block has no NULL
        have hfull : (vals.filter fun v => !v.isNull).length = vals.length := by
          rw [← hof.nonnull, ← hof.rows]
          simpa [Block.nullFree] using hall.2
        exact absurd (length_filter_eq_length_iff.1 hfull _ hv) (by decide)
      · rw [zonePredPass_int hx]
        exact (ZoneCmp.verdicts_sound hlo hhi).1 hall.1

/-- The mask of a block selects the rows that pass. -/
theorem foldlM_mask (pred : ZonePred) (mask : List ℕ) : ∀ (rows : List (Key × Row)) (s : σ) (j : ℕ),
    (∀ i (h : i < rows.length), get 64 mask (j + i) = zonePredPass (rows[i].2.col pred.col) pred) →
    (rows.map fun e => e.2.col aggCol).foldlM (fun (sj : σ × ℕ) v => do
      if get 64 mask sj.2 then return (← push sj.1 v, sj.2 + 1) else return (sj.1, sj.2 + 1))
      (s, j) =
    (rows.foldlM (filterRow pred aggCol push) s).map fun s => (s, j + rows.length)
  | [], _, _, _ => rfl
  | e :: rows, s, j, h => by
    have hhead : get 64 mask j = zonePredPass (e.2.col pred.col) pred := h 0 (by simp)
    have htail : ∀ i (h : i < rows.length),
        get 64 mask (j + 1 + i) = zonePredPass (rows[i].2.col pred.col) pred := by
      intro i hi
      have := h (i + 1) (by simpa using hi)
      rw [show j + 1 + i = j + (i + 1) by omega]
      exact this
    rw [map_cons, foldlM_cons, foldlM_cons]
    simp only [hhead, filterRow]
    have hlen : j + (e :: rows).length = j + 1 + rows.length := by rw [length_cons]; omega
    rw [hlen]
    split_ifs with hpass
    · rcases push s (e.2.col aggCol) with err | s'
      · rfl
      · exact foldlM_mask pred mask rows s' (j + 1) htail
    · exact foldlM_mask pred mask rows s (j + 1) htail

variable {s : σ}

theorem foldlM_skip {f : σ → Key × Row → Except Error σ} {rows : List (Key × Row)}
    (h : ∀ e ∈ rows, ∀ s, f s e = .ok s) : rows.foldlM f s = .ok s := by
  induction rows with
  | nil => rfl
  | cons e rows ih =>
    rw [foldlM_cons, h e (by simp)]
    exact ih fun e he => h e (by simp [he])

theorem foldlM_congr_mem {α : Type} {f g : σ → α → Except Error σ} : ∀ {l : List α} {s : σ},
    (∀ a ∈ l, ∀ s, f s a = g s a) → l.foldlM f s = l.foldlM g s
  | [], _, _ => rfl
  | a :: l, s, h => by
    rw [foldlM_cons, h a (by simp)]
    exact bind_congr fun s' => foldlM_congr_mem fun a ha => h a (by simp [ha])

/-- By the verdict of the zone: no row, every row, or those of the mask. -/
theorem emitFilteredBlock_eq {recs : List UInt8 × List UInt8} {chunk : List (Key × Row)}
    (hagg : BlockOf gen aggTy aggCol recs.1 chunk)
    (hpred : BlockOf gen predTy pred.col recs.2 chunk)
    (hty : predTy = .int64 ∨ predTy = .timestamp)
    (hfit : ∀ e ∈ chunk, (e.2.col pred.col).fits predTy = true) (s : σ) :
    emitFilteredBlock gen aggTy predTy pred push s recs = chunk.foldlM
    (filterRow pred aggCol push) s := by
  obtain ⟨ab, ha, hao⟩ := hagg.decodeFresh
  obtain ⟨pb, hp, hpo⟩ := hpred.decodeFresh
  have hrows : ab.nRows = pb.nRows := by rw [hao.rows, hpo.rows, length_map, length_map]
  have hvals : ∀ v ∈ chunk.map fun e => e.2.col pred.col, v.fits predTy = true := by
    intro v hv
    obtain ⟨e, he, rfl⟩ := mem_map.1 hv
    exact hfit e he
  have hsound : (zoneVerdict pb pred = .none → _) ∧ (zoneVerdict pb pred = .all → _) :=
    zoneVerdict_sound hpo hty hvals
  unfold emitFilteredBlock
  rw [ha, hp]
  show (if ab.nRows ≠ pb.nRows then _ else _) = _
  rw [if_neg (not_not.2 hrows)]
  rcases hv : zoneVerdict pb pred
  · -- skipped: no row passes
    refine (foldlM_skip fun e he s => ?_).symm
    have := hsound.1 hv (e.2.col pred.col) (mem_map_of_mem he)
    simp only [filterRow, this, Bool.false_eq_true, if_false]
  · -- taken whole: every row passes
    rw [hao.each, foldlM_map]
    have hpass : ∀ e ∈ chunk, ∀ s, push s (e.2.col aggCol) = filterRow pred aggCol push s e := by
      intro e he s
      have := hsound.2 hv (e.2.col pred.col) (mem_map_of_mem he)
      simp only [filterRow, this, if_true]
    exact foldlM_congr_mem hpass
  · -- read row by row
    have hmask : pb.forEach (fun m v => .ok (mark 64 m (zonePredPass v pred)))
        (empty 64 ab.nRows, 0) = .ok
          (((chunk.map fun e => zonePredPass (e.2.col pred.col) pred).foldl (mark 64)
            (empty 64 chunk.length, 0))) := by
      have hfold : ∀ (l : List (Key × Row)) (m : List ℕ × ℕ),
          (l.map fun e => e.2.col pred.col).foldlM
            (fun m v => (.ok (mark 64 m (zonePredPass v pred)) : Except Error (List ℕ × ℕ))) m =
          .ok ((l.map fun e => zonePredPass (e.2.col pred.col) pred).foldl (mark 64) m) := by
        intro l
        induction l with
        | nil => exact fun _ => rfl
        | cons e l ih => exact fun m => ih _
      rw [hpo.each, hfold, hao.rows, length_map]
    rw [hmask]
    show (ab.forEach _ (s, 0) >>= _) = _
    rw [hao.each, foldlM_mask pred _ chunk s 0 fun i hi => ?_]
    · rcases chunk.foldlM (filterRow pred aggCol push) s with e | s' <;> rfl
    · have hget := get_ofList (w := 64) (by decide)
        (chunk.map fun e => zonePredPass (e.2.col pred.col) pred) i
      rw [ofList, length_map] at hget
      rw [zero_add, hget, getD_eq_getElem _ _ (by simpa using hi), getElem_map]

theorem foldlM_emitFiltered (hty : predTy = .int64 ∨ predTy = .timestamp) :
    ∀ {chunks : List (List (Key × Row))} {aggRecs predRecs : List (List UInt8)},
    List.Forall₂ (BlockOf gen aggTy aggCol) aggRecs chunks →
    List.Forall₂ (BlockOf gen predTy pred.col) predRecs chunks →
    (∀ e ∈ chunks.flatten, (e.2.col pred.col).fits predTy = true) → ∀ s : σ,
    (aggRecs.zip predRecs).foldlM (emitFilteredBlock gen aggTy predTy pred push) s =
      chunks.flatten.foldlM (filterRow pred aggCol push) s
  | [], [], [], .nil, .nil, _, _ => rfl
  | chunk :: chunks, a :: aggRecs, p :: predRecs, .cons ha has, .cons hp hps, hfit, s => by
    have hhead : ∀ e ∈ chunk, (e.2.col pred.col).fits predTy = true :=
      fun e he => hfit e (by simp [he])
    have htail : ∀ e ∈ chunks.flatten, (e.2.col pred.col).fits predTy = true := fun e he =>
      hfit e (by rw [flatten_cons]; exact mem_append_right _ he)
    rw [zip_cons_cons, foldlM_cons, flatten_cons, foldlM_append,
      emitFilteredBlock_eq ha hp hty hhead]
    exact bind_congr fun s' => foldlM_emitFiltered hty has hps htail s'

/-- Chunk by chunk, the filtered feed pushes the rows that pass. -/
theorem emitFilteredSegments_feeds (h : Serves snap gen chunks)
    (hagg : snap.types[aggCol]? = some aggTy)
    (hpred : snap.types[pred.col]? = some predTy) (hseg : segmentable aggTy = true)
    (hty : predTy = .int64 ∨ predTy = .timestamp)
    (hfit : ∀ e ∈ chunks.flatten, (e.2.col pred.col).fits predTy = true) {r : σ × Bool}
    (hr : snap.emitFilteredSegments aggCol aggTy pred predTy gen chunks.flatten.length push s =
      .ok r) :
    Feeds s (chunks.flatten.foldlM (filterRow pred aggCol push) s) r := by
  have hpseg : segmentable predTy = true := by rcases hty with rfl | rfl <;> rfl
  unfold emitFilteredSegments at hr
  rcases h.loadColumn hagg hseg with hload | ⟨hload, ha⟩ <;> rw [hload] at hr
  · cases hr
    rfl
  obtain ⟨_, hrec, hr₁⟩ := bind_eq_ok.1 hr
  cases hrec
  -- the predicate's column, which may be the aggregate's
  obtain hnone | ⟨hsome, hp⟩ :
      (if pred.col = aggCol ∧ predTy = aggTy then .ok (some (snap.blocks aggCol))
        else snap.loadColumn pred.col predTy gen chunks.flatten.length) = .ok none ∨
      ((if pred.col = aggCol ∧ predTy = aggTy then .ok (some (snap.blocks aggCol))
        else snap.loadColumn pred.col predTy gen chunks.flatten.length) =
          .ok (some (snap.blocks pred.col)) ∧
      List.Forall₂ (BlockOf gen predTy pred.col) (snap.blocks pred.col) chunks) := by
    split_ifs with hsame
    · obtain ⟨hc, rfl⟩ := hsame
      right
      rw [hc]
      exact ⟨rfl, ha⟩
    · exact h.loadColumn hpred hpseg
  · simp only [hnone] at hr₁
    cases hr₁
    rfl
  · simp only [hsome] at hr₁
    obtain ⟨_, hrec, hr₂⟩ := bind_eq_ok.1 hr₁
    cases hrec
    have hlen : (snap.blocks pred.col).length = (snap.blocks aggCol).length := by
      rw [hp.length_eq, ha.length_eq]
    simp only [hlen, ne_eq] at hr₂
    obtain ⟨s₁, h₁, hr₃⟩ := bind_eq_ok.1 hr₂
    cases hr₃
    rw [foldlM_emitFiltered hty ha hp hfit] at h₁
    exact h₁

/-! ### The filter -/

theorem compare_int64 (x k : Int64) : (compare x k = .lt ↔ x < k) ∧ (compare x k = .eq ↔ x = k) ∧
    (compare x k = .gt ↔ k < x) := by
  have hdef : compare x k = compareOfLessAndEq x k := rfl
  rw [hdef, compareOfLessAndEq]
  simp only [Int64.lt_iff_toInt_lt, ← Int64.toInt_inj]
  split_ifs <;> simp <;> omega

theorem holds_test {c : FilterInstr} {op : ZoneCmp} (h : ZoneCmp.ofInstr c = some op) :
    ∃ holds, c.holds = some holds ∧ ∀ x k, holds (compare x k) = op.test x k ∧
      holds (compare k x) = op.mirror.test x k := by
  cases c <;> cases h <;> refine ⟨_, rfl, fun x k => ?_⟩ <;>
    simp only [ZoneCmp.test, ZoneCmp.mirror, ne_eq, compare_int64, Int64.not_lt, and_self,
      eq_comm (a := k) (b := x)]

variable {host : ExprHost} {fastOff : Bool} {prog : FilterProgram} {params : List Value} {buf : Row}

variable {i : FilterInstr} {w : Value}

theorem push_operand (host : ExprHost) (buf : Row)
    (h : prog.operand params i = some w) :
    (∀ stack, filterStep host prog.consts params buf stack i = .ok (w :: stack)) ∧
    ∀ stack, numericStep prog.consts params buf stack i = pushNum stack (some w) := by
  cases i with
  | pushConst k =>
    have hk : prog.consts[k]? = some w := h
    exact ⟨fun stack => by simp only [filterStep, hk], fun stack => by simp only [numericStep, hk]⟩
  | pushParam p =>
    have hp : params[p]? = some w := h
    exact ⟨fun stack => by simp only [filterStep, hp], fun stack => by simp only [numericStep, hp]⟩
  | _ => cases h

theorem push_col (host : ExprHost) (prog : FilterProgram) (params : List Value) {c : ℕ}
    (h : buf[c]? = some v) :
    (∀ stack, filterStep host prog.consts params buf stack (.pushCol c) = .ok (v :: stack)) ∧
    ∀ stack, numericStep prog.consts params buf stack (.pushCol c) = pushNum stack (some v) :=
  ⟨fun stack => by simp only [filterStep, h], fun stack => by simp only [numericStep, h]⟩

/-- Two values that compare as integers do, or one of them is NULL. -/
def ComparesAs (a b : Value) (o : Option Ordering) : Prop :=
  a.sqlCmp b = .ok o ∧ ∀ x y, Num.of a = some x → Num.of b = some y → x.cmp3 y = some o

/-- The fast path and the general one agree on a comparison of two operands. -/
theorem evalFilter_cmp {j c : FilterInstr} {a b : Value} {o : Option Ordering}
    {holds : Ordering → Bool}
    (hinstrs : prog.instrs = [i, j, c])
    (hi : (∀ stack, filterStep host prog.consts params buf stack i = .ok (a :: stack)) ∧
      ∀ stack, numericStep prog.consts params buf stack i = pushNum stack (some a))
    (hj : (∀ stack, filterStep host prog.consts params buf stack j = .ok (b :: stack)) ∧
      ∀ stack, numericStep prog.consts params buf stack j = pushNum stack (some b))
    (hc : c.holds = some holds) (hcmp : ComparesAs a b o) :
    prog.evalFilter host fastOff buf params = .ok (o.any holds) := by
  have hstep : filterStep host prog.consts params buf [b, a] c = .ok [.ofTruth (o.map holds)] := by
    cases c <;> cases hc <;> simp only [filterStep, hcmp.1] <;> rfl
  have heval : prog.eval host buf params = .ok (.ofTruth (o.map holds)) := by
    rw [eval, hinstrs, foldlM_cons, hi.1]
    show (List.foldlM _ [a] [j, c] >>= _) = _
    rw [foldlM_cons, hj.1]
    show (List.foldlM _ [b, a] [c] >>= _) = _
    rw [foldlM_cons, hstep]
    rfl
  have hgeneral : ((prog.eval host buf params).map fun v => decide (truthy3 host v = some true)) =
      .ok (o.any holds) := by
    rw [heval]
    rcases o with _ | o
    · rfl
    · show Except.ok (decide (some (holds o) = some true)) = .ok (holds o)
      cases holds o <;> rfl
  have hfast : ∀ hit, numericFilter prog buf params = some hit → hit = o.any holds := by
    intro hit h
    rw [numericFilter, hinstrs, foldlM_cons, hi.2] at h
    rcases hx : Num.of a with _ | x
    · simp [pushNum, hx] at h
    rw [show pushNum [] (some a) = some [x] by simp [pushNum, hx, numDepth]] at h
    simp only [Option.bind_eq_bind, Option.bind_some, foldlM_cons, hj.2] at h
    rcases hy : Num.of b with _ | y
    · simp [pushNum, hy] at h
    rw [show pushNum [x] (some b) = some [y, x] by simp [pushNum, hy, numDepth]] at h
    have hstep' : numericStep prog.consts params buf [y, x] c = some [.ofTruth (o.map holds)] := by
      cases c <;> cases hc <;> simp [numericStep, FilterInstr.holds, hcmp.2 x y hx hy]
    simp only [Option.bind_some, hstep'] at h
    cases h
    rcases o with _ | o
    · rfl
    · show decide (some (holds o) = some true) = holds o
      cases holds o <;> rfl
  unfold evalFilter
  simp only [hgeneral]
  split_ifs
  · rcases hn : numericFilter prog buf params with _ | hit
    · rfl
    · rw [hfast hit hn]
  · rfl

/-- A value of the column compares with the constant as its integer does. -/
theorem comparesAs_const {k : Int64} (hty : predTy = .int64 ∨ predTy = .timestamp)
    (hv : v.fits predTy = true) (hw : w.columnType = some predTy) (hk : w.zoneConst = some k) :
    (v = .null ∧ ComparesAs v w none ∧ ComparesAs w v none) ∨
    ∃ x, (v = .int x ∨ v = .timestamp x) ∧ ComparesAs v w (some (compare x k)) ∧
      ComparesAs w v (some (compare k x)) := by
  have hboth : (∃ k', w = .int k' ∧ predTy = .int64 ∧ k' = k) ∨
      (∃ k', w = .timestamp k' ∧ predTy = .timestamp ∧ k' = k) := by
    cases w <;> cases hk <;> cases hw
    · exact .inl ⟨_, rfl, rfl, rfl⟩
    · exact .inr ⟨_, rfl, rfl, rfl⟩
  rcases Value.int_cases hty hv with rfl | ⟨x, hx⟩
  · left
    refine ⟨rfl, ⟨rfl, ?_⟩, ?_, ?_⟩
    · intro x y hx hy
      cases hx
      rfl
    · rcases hboth with ⟨k', rfl, -, -⟩ | ⟨k', rfl, -, -⟩ <;> rfl
    · intro x y hx hy
      cases hy
      cases x <;> rfl
  · right
    refine ⟨x, hx, ?_⟩
    rcases hboth with ⟨k', rfl, rfl, rfl⟩ | ⟨k', rfl, rfl, rfl⟩
    · obtain rfl : v = .int x :=
        hx.resolve_right (by rintro rfl; simp [Value.fits, Value.columnType] at hv)
      refine ⟨⟨rfl, ?_⟩, rfl, ?_⟩ <;> rintro a b ⟨⟩ ⟨⟩ <;> rfl
    · obtain rfl : v = .timestamp x :=
        hx.resolve_left (by rintro rfl; simp [Value.fits, Value.columnType] at hv)
      refine ⟨⟨rfl, ?_⟩, rfl, ?_⟩ <;> rintro a b ⟨⟩

theorem operand_cases (h : prog.operand params i = some w) :
    (∃ k, i = .pushConst k) ∨ ∃ p, i = .pushParam p := by
  cases i with
  | pushConst k => exact .inl ⟨k, rfl⟩
  | pushParam p => exact .inr ⟨p, rfl⟩
  | _ => cases h

/-- The programs that have a zone predicate compare a column with a constant. -/
theorem zonePredicate_eq (h : zonePredicate prog params = some pred) : ∃ i j c op w,
    prog.instrs = [i, j, c] ∧ ZoneCmp.ofInstr c = some op ∧ w.zoneConst = some pred.k ∧
    prog.zoneOperand params = some w ∧
    ((i = .pushCol pred.col ∧ prog.operand params j = some w ∧ pred.op = op) ∨
      (j = .pushCol pred.col ∧ prog.operand params i = some w ∧ pred.op = op.mirror)) := by
  unfold zonePredicate at h
  split at h
  · rename_i a b c hinstrs
    obtain ⟨op, hop, h⟩ := Option.bind_eq_some_iff.1 h
    split at h
    · rename_i col rhs
      obtain ⟨w, hw, h⟩ := Option.bind_eq_some_iff.1 h
      obtain ⟨k, hk, h⟩ := Option.bind_eq_some_iff.1 h
      cases h
      refine ⟨_, _, c, op, w, hinstrs, hop, hk, ?_, .inl ⟨rfl, hw, rfl⟩⟩
      rw [zoneOperand, hinstrs]
      exact hw
    · rename_i lhs col hne
      obtain ⟨w, hw, h⟩ := Option.bind_eq_some_iff.1 h
      obtain ⟨k, hk, h⟩ := Option.bind_eq_some_iff.1 h
      cases h
      refine ⟨_, _, c, op, w, hinstrs, hop, hk, ?_, .inr ⟨rfl, hw, rfl⟩⟩
      rw [zoneOperand, hinstrs]
      rcases operand_cases hw with ⟨k, rfl⟩ | ⟨p, rfl⟩ <;> exact hw
    · cases h
  · cases h

section

variable (hpred : zonePredicate prog params = some pred)

include hpred

/-- The filter of the program passes the rows that the predicate passes. -/
theorem evalFilter_zone
    (hconst : (prog.zoneOperand params).bind Value.columnType = some predTy)
    (hty : predTy = .int64 ∨ predTy = .timestamp) {v : Value} (hbuf : buf[pred.col]? = some v)
    (hv : v.fits predTy = true) :
    prog.evalFilter host fastOff buf params = .ok (zonePredPass v pred) := by
  obtain ⟨i, j, c, op, w, hinstrs, hop, hk, hoperand, hshape⟩ := zonePredicate_eq hpred
  rw [hoperand] at hconst
  obtain ⟨holds, hholds, htest⟩ := holds_test hop
  have hcol := push_col host prog params hbuf
  rcases hshape with ⟨rfl, hw, hopeq⟩ | ⟨rfl, hw, hopeq⟩
  · have hwpush := push_operand host buf hw
    rcases comparesAs_const hty hv hconst hk with ⟨rfl, hcmp, -⟩ | ⟨x, hx, hcmp, -⟩
    · exact evalFilter_cmp hinstrs hcol hwpush hholds hcmp
    · rw [evalFilter_cmp hinstrs hcol hwpush hholds hcmp, zonePredPass_int hx, hopeq]
      exact congrArg _ (htest x pred.k).1
  · have hwpush := push_operand host buf hw
    rcases comparesAs_const hty hv hconst hk with ⟨rfl, -, hcmp⟩ | ⟨x, hx, -, hcmp⟩
    · exact evalFilter_cmp hinstrs hwpush hcol hholds hcmp
    · rw [evalFilter_cmp hinstrs hwpush hcol hholds hcmp, zonePredPass_int hx, hopeq]
      exact congrArg _ (htest x pred.k).2

theorem intClass_of_const
    (hconst : (prog.zoneOperand params).bind Value.columnType = some predTy) :
    predTy = .int64 ∨ predTy = .timestamp := by
  obtain ⟨i, j, c, op, w, -, -, hk, hoperand, -⟩ := zonePredicate_eq hpred
  rw [hoperand] at hconst
  cases w <;> cases hk <;> cases hconst
  · exact .inl rfl
  · exact .inr rfl

theorem mem_readColumns :
    ∀ c, c ∈ prog.readColumns ↔ c = pred.col := by
  intro c
  obtain ⟨i, j, c', op, w, hinstrs, hop, -, -, hshape⟩ := zonePredicate_eq hpred
  rw [readColumns, hinstrs]
  rcases hshape with ⟨rfl, hw, -⟩ | ⟨rfl, hw, -⟩
  · rcases operand_cases hw with ⟨k, rfl⟩ | ⟨p, rfl⟩ <;> cases c' <;> cases hop <;> simp [eq_comm]
  · rcases operand_cases hw with ⟨k, rfl⟩ | ⟨p, rfl⟩ <;> cases c' <;> cases hop <;> simp [eq_comm]

theorem mem_filterColumns (c : ℕ) :
    c ∈ filterColumns prog aggCol ↔ c = pred.col ∨ c = aggCol := by
  unfold filterColumns
  split_ifs with h
  · rw [mem_readColumns hpred] at h ⊢
    simp [h]
  · simp [mem_readColumns hpred]

/-- The row scan filters by the predicate. -/
theorem rowScanFiltered_eq
    (hconst : (prog.zoneOperand params).bind Value.columnType = some predTy)
    (hcol : snap.types[pred.col]? = some predTy) (hagg : aggCol < snap.types.length)
    (hfit : ∀ e ∈ snap.rows, (e.2.col pred.col).fits predTy = true) (s : σ) :
    snap.rowScanFiltered host fastOff prog params aggCol push s =
      snap.rows.foldlM (filterRow pred aggCol push) s := by
  have hlt : pred.col < snap.types.length := (List.getElem?_eq_some_iff.1 hcol).1
  have hcols : ∀ c ∈ filterColumns prog aggCol, c < snap.types.length := by
    intro c hc
    rcases (mem_filterColumns hpred c).1 hc with rfl | rfl
    · exact hlt
    · exact hagg
  have hpc : pred.col ∈ filterColumns prog aggCol := (mem_filterColumns hpred _).2 (.inl rfl)
  have hac : aggCol ∈ filterColumns prog aggCol := (mem_filterColumns hpred _).2 (.inr rfl)
  rw [rowScanFiltered, foldColumns_eq hcols]
  refine foldlM_congr_mem fun e he s => ?_
  have hval : (snap.fill (filterColumns prog aggCol) e.2).col pred.col = e.2.col pred.col :=
    col_fill hpc hlt
  have hbuf : (snap.fill (filterColumns prog aggCol) e.2)[pred.col]? = some (e.2.col pred.col) := by
    rw [← hval, Row.col, getD_eq_getElem?_getD]
    have hlen : pred.col < (snap.fill (filterColumns prog aggCol) e.2).length := by
      simpa [fill] using hlt
    rw [List.getElem?_eq_getElem hlen]
    rfl
  rw [evalFilter_zone hpred hconst (intClass_of_const hpred hconst) hbuf (hfit e he),
    col_fill hac hagg]
  rfl

end

/-- The filtered feed is the row scan, or has pushed nothing. -/
theorem feedFilteredFromSegments_feeds (h : SoundSnapshot snap)
    (hpred : zonePredicate prog params = some pred)
    (hconst : (prog.zoneOperand params).bind Value.columnType = some predTy)
    (hcol : snap.types[pred.col]? = some predTy) (hagg : snap.types[aggCol]? = some aggTy)
    (hfit : ∀ e ∈ snap.rows, (e.2.col pred.col).fits predTy = true) {r : σ × Bool}
    (hr : snap.feedFilteredFromSegments aggCol aggTy pred predTy push s = .ok r) :
    Feeds s (snap.rowScanFiltered host fastOff prog params aggCol push s) r := by
  have hty := intClass_of_const hpred hconst
  have haggLt : aggCol < snap.types.length := (List.getElem?_eq_some_iff.1 hagg).1
  have hpredLt : pred.col < snap.types.length := (List.getElem?_eq_some_iff.1 hcol).1
  have hscan : snap.rowScanFiltered host fastOff prog params aggCol push s =
      snap.rows.foldlM (filterRow pred aggCol push) s :=
    rowScanFiltered_eq hpred hconst hcol haggLt hfit s
  obtain ⟨gen, chunks, hgen, hcount, hrows, hserves⟩ := h.whole
  unfold feedFilteredFromSegments at hr
  split_ifs at hr with hskip
  · cases hr
    rfl
  have hseg : segmentable aggTy = true := by
    simp only [Bool.or_eq_true, not_or] at hskip
    simpa using hskip.1
  rw [hrows] at hcount hfit
  simp only [hgen, hcount] at hr
  obtain ⟨⟨s₁, fed⟩, h₁, hr'⟩ := bind_eq_ok.1 hr
  have hwhole := emitFilteredSegments_feeds hserves hagg hcol hseg hty hfit h₁
  cases fed with
  | true =>
    cases hr'
    rw [hscan, hrows]
    exact hwhole
  | false =>
    obtain rfl : s₁ = s := hwhole
    rcases hwm : snap.watermark with _ | ⟨g0, covered, pk⟩ <;> simp only [hwm] at hr'
    · cases hr'
      rfl
    · obtain ⟨chunks', rfl, hrows', hserves'⟩ := h.split g0 covered pk hwm
      have hfit' : ∀ e ∈ chunks'.flatten, (e.2.col pred.col).fits predTy = true := fun e he =>
        hfit e (by rw [← hrows, hrows']; exact mem_append_left _ he)
      obtain ⟨⟨s₂, fed⟩, h₂, hr₂⟩ := bind_eq_ok.1 hr'
      have hsplit := emitFilteredSegments_feeds hserves' hagg hcol hseg hty hfit' h₂
      cases fed with
      | false =>
        cases hr₂
        exact hsplit
      | true =>
        obtain ⟨s₃, h₃, hr₃⟩ := bind_eq_ok.1 hr₂
        cases hr₃
        have hsplit' : chunks'.flatten.foldlM (filterRow pred aggCol push) s₁ = .ok s₂ := hsplit
        rw [foldColumns_eq (by simp [haggLt, hpredLt])] at h₃
        rw [hscan, hrows', foldlM_append, hsplit']
        refine Eq.trans (foldlM_congr_mem fun e _ s => ?_) h₃
        rw [col_fill (by simp) hpredLt, col_fill (by simp) haggLt]
        rfl

end Filtered

end Serves

end Mpedb
