import Mpedb.Collab
import Mpedb.Proofs.Session
import Mpedb.Proofs.Subedit

/-!
# Batches against the splice algebra

The members of a batch are compared in the coordinates they were submitted in, and moved by the
sum of the changes before them. For members whose spans are disjoint that is the rebase through
the members as they were applied (`rebaseThrough_chain`).
-/

namespace Mpedb

open List Splice

namespace Splice

variable {a b p q : Splice}

@[simp] theorem shift_remove : (q.shift p).remove = q.remove := rfl

@[simp] theorem shift_insert : (q.shift p).insert = q.insert := rfl

@[simp] theorem shift_delta : (q.shift p).delta = q.delta := rfl

theorem shift_offset : (q.shift p).offset = if p.offset + p.remove ≤ q.offset
    then q.offset + p.insert.length - p.remove else q.offset := rfl

theorem shift_offset_cast : ((q.shift p).offset : ℤ) =
    q.offset + if p.stop ≤ q.offset then p.delta else 0 := by
  rw [shift_offset]
  simp only [stop, delta]
  split_ifs <;> omega

/-- A pure insertion at the very start of a deletion that puts nothing in place. Text inserted
behind the deletion ends up at the same offset. -/
def Tangled (p q : Splice) : Prop :=
  q.remove = 0 ∧ q.offset = p.offset ∧ 0 < p.remove ∧ p.insert = []

theorem overlap_shift (ha : ¬ Overlap a p) (hb : ¬ Overlap b p) :
    Overlap (a.shift p) (b.shift p) ↔ Overlap a b := by
  simp only [Overlap, stop, shift_remove, shift_offset] at ha hb ⊢
  split_ifs <;> omega

theorem stop_le_shift (ha : ¬ Overlap a p) (hb : ¬ Overlap b p) (ht : ¬ Tangled p b) :
    (a.shift p).stop ≤ (b.shift p).offset ↔ a.stop ≤ b.offset := by
  have hins : p.insert = [] ↔ p.insert.length = 0 := length_eq_zero_iff.symm
  simp only [Tangled, hins] at ht
  simp only [Overlap, stop, shift_remove, shift_offset] at ha hb ⊢
  split_ifs <;> omega

theorem not_tangled_shift (ha : ¬ Overlap a p) (hb : ¬ Overlap b p) (ht : ¬ Tangled p b)
    (h : ¬ Tangled a b) : ¬ Tangled (a.shift p) (b.shift p) := by
  have hins : ∀ l : List UInt8, l = [] ↔ l.length = 0 := fun l => length_eq_zero_iff.symm
  simp only [Tangled, hins] at ht h
  simp only [Overlap, stop] at ha hb
  simp only [Tangled, hins, shift_remove, shift_insert, shift_offset]
  split_ifs <;> omega

/-- The second list is the first with each splice rebased through those before it. -/
inductive Chain : List Splice → List Splice → Prop
  | nil : Chain [] []
  | cons {p : Splice} {ps l : List Splice} : Chain (ps.map (·.shift p)) l → Chain (p :: ps) (p :: l)

theorem rebaseThrough_append (mine : Splice) (l₁ l₂ : List Splice) :
    mine.rebaseThrough (l₁ ++ l₂) = (mine.rebaseThrough l₁).bind (·.rebaseThrough l₂) := by
  rw [rebaseThrough, foldlM_append]
  rfl

/-- How far the splices that end at or before `pos` move it. -/
def moves (pos : ℕ) (ps : List Splice) : ℤ := ((ps.filter fun p => p.stop ≤ pos).map delta).sum

theorem moves_cons (pos : ℕ) (p : Splice) (ps : List Splice) :
    moves pos (p :: ps) = (if p.stop ≤ pos then p.delta else 0) + moves pos ps := by
  unfold moves
  by_cases h : p.stop ≤ pos <;> simp [h]

variable {ps : List Splice}

theorem moves_map_shift (hps : ∀ a ∈ ps, ¬ Overlap a p) (hq : ¬ Overlap q p) (ht : ¬ Tangled p q) :
    moves (q.shift p).offset (ps.map (·.shift p)) = moves q.offset ps := by
  induction ps with
  | nil => rfl
  | cons a ps ih =>
    rw [map_cons, moves_cons, moves_cons, ih fun x hx => hps x (.tail _ hx)]
    simp [stop_le_shift (hps a (.head _)) hq ht]

/-- Each splice of a batch is disjoint from those before it. -/
def Disjoint (ps : List Splice) : Prop := ps.Pairwise fun a b => ¬ Overlap b a

theorem disjoint_map_shift (hp : ∀ a ∈ ps, ¬ Overlap a p) (h : Disjoint ps) :
    Disjoint (ps.map (·.shift p)) :=
  pairwise_map.2 (h.imp_of_mem fun {a b} ha hb hab => by
    rwa [overlap_shift (hp b hb) (hp a ha)])

theorem not_overlap_map_shift (hp : ∀ a ∈ ps, ¬ Overlap a p)
    (hq : ¬ Overlap q p) (h : ∀ a ∈ ps, ¬ Overlap q a) :
    ∀ a ∈ ps.map (·.shift p), ¬ Overlap (q.shift p) a := by
  rintro _ hmem
  obtain ⟨a, ha, rfl⟩ := mem_map.1 hmem
  rw [overlap_shift hq (hp a ha)]
  exact h a ha

variable {l : List Splice}

theorem rebaseThrough_chain_ok (hchain : Chain ps l) :
    ∀ q : Splice, Disjoint ps → (∀ p ∈ ps, ¬ Overlap q p) → ∃ q', q.rebaseThrough l = .ok q' := by
  induction hchain with
  | nil => exact fun q _ _ => ⟨q, rfl⟩
  | @cons p ps l _ ih =>
    intro q hdisj hover
    obtain ⟨hp, hps⟩ := pairwise_cons.1 hdisj
    have hq := hover p (.head _)
    rw [rebaseThrough_cons_of_not_overlap hq]
    exact ih _ (disjoint_map_shift hp hps)
      (not_overlap_map_shift hp hq fun a ha => hover a (.tail _ ha))

/-- A splice disjoint from those of the batch is moved by the sum of the changes before it. -/
theorem rebaseThrough_chain (hchain : Chain ps l) :
    ∀ q : Splice, Disjoint ps → (∀ p ∈ ps, ¬ Overlap q p) → (∀ p ∈ ps, ¬ Tangled p q) →
      ∃ q', q.rebaseThrough l = .ok q' ∧ (q'.offset : ℤ) = q.offset + moves q.offset ps ∧
        q'.remove = q.remove ∧ q'.insert = q.insert := by
  induction hchain with
  | nil => exact fun q _ _ _ => ⟨q, rfl, by simp [moves], rfl, rfl⟩
  | @cons p ps l _ ih =>
    intro q hdisj hover htangle
    obtain ⟨hp, hps⟩ := pairwise_cons.1 hdisj
    have hq := hover p (.head _)
    have ht := htangle p (.head _)
    have htangle' : ∀ a ∈ ps.map (·.shift p), ¬ Tangled a (q.shift p) := by
      rintro _ hmem
      obtain ⟨a, ha, rfl⟩ := mem_map.1 hmem
      exact not_tangled_shift (hp a ha) hq ht (htangle a (.tail _ ha))
    obtain ⟨q', hq', hoffset, hremove, hinsert⟩ := ih (q.shift p) (disjoint_map_shift hp hps)
      (not_overlap_map_shift hp hq fun a ha => hover a (.tail _ ha)) htangle'
    refine ⟨q', ?_, ?_, hremove, hinsert⟩
    · rw [rebaseThrough_cons_of_not_overlap hq, hq']
    · rw [hoffset, moves_map_shift hp hq ht, moves_cons, shift_offset_cast, add_assoc]

theorem Chain.snoc (hchain : Chain ps l) :
    ∀ {q q' : Splice}, Disjoint ps → (∀ p ∈ ps, ¬ Overlap q p) → q.rebaseThrough l = .ok q' →
      Chain (ps ++ [q]) (l ++ [q']) := by
  induction hchain with
  | nil =>
    intro q q' _ _ h
    cases h
    exact .cons .nil
  | @cons p ps l _ ih =>
    intro q q' hdisj hover h
    obtain ⟨hp, hps⟩ := pairwise_cons.1 hdisj
    have hq := hover p (.head _)
    rw [rebaseThrough_cons_of_not_overlap hq] at h
    have htail := ih (disjoint_map_shift hp hps)
      (not_overlap_map_shift hp hq fun a ha => hover a (.tail _ ha)) h
    exact .cons (by simpa using htail)

end Splice

/-! ## Values that accept a splice -/

theorem fromUTF8_toByteArray (s : String) : String.fromUTF8? s.toByteArray = some s := by
  simp [String.fromUTF8?, String.fromUTF8, s.isValidUTF8]

theorem isValid_iff_cut {s : String} {x : ℕ} :
    (String.Pos.Raw.mk x).IsValid s ↔ ∃ a b : String, s = a ++ b ∧ a.utf8ByteSize = x := by
  constructor
  · intro h
    obtain ⟨a, b, rfl, hx⟩ := String.Pos.Raw.isValid_iff_exists_append.1 h
    exact ⟨a, b, rfl, (congrArg String.Pos.Raw.byteIdx hx).symm⟩
  · rintro ⟨a, b, rfl, rfl⟩
    exact String.Pos.Raw.isValid_iff_exists_append.2 ⟨a, b, rfl, rfl⟩

theorem cut_of_le {a b c d : String} (h : a ++ b = c ++ d)
    (hle : a.utf8ByteSize ≤ c.utf8ByteSize) : ∃ m, c = a ++ m ∧ b = m ++ d := by
  have hl : a.toList ++ b.toList = c.toList ++ d.toList := by
    simpa using congrArg String.toList h
  rcases append_eq_append_iff.1 hl with ⟨m, hc, hb⟩ | ⟨m, ha, hd⟩
  · exact ⟨String.ofList m, by simp [← String.toList_inj, hc], by simp [← String.toList_inj, hb]⟩
  · have hac : a = c ++ String.ofList m := by simp [← String.toList_inj, ha]
    have hm : m = [] := by
      rw [hac, String.utf8ByteSize_append] at hle
      have hzero : (String.ofList m).utf8ByteSize = 0 := by omega
      simpa using String.utf8ByteSize_eq_zero_iff.1 hzero
    subst hm
    exact ⟨"", by simp [hac], by simpa [← String.toList_inj] using hd.symm⟩

/-- A place where the value can be cut: between two characters of a text, anywhere in a blob. -/
def Value.Boundary : Value → ℕ → Prop
  | .text s, x => ∃ a b : String, s = a ++ b ∧ a.utf8ByteSize = x
  | .blob b, x => x ≤ b.length
  | _, _ => False

/-- The value is one that the splice can be applied to. -/
structure Value.Accepts (v : Value) (e : Splice) : Prop where
  start : v.Boundary e.offset
  stop : v.Boundary e.stop

/-- The UTF-8 bytes of a text. -/
abbrev textBytes (s : String) : List UInt8 := s.toByteArray.data.toList

theorem length_toByteArray (s : String) : (textBytes s).length = s.utf8ByteSize :=
  Array.length_toList

theorem textBytes_append (a b : String) : textBytes (a ++ b) = textBytes a ++ textBytes b := by
  simp [textBytes, String.toByteArray_append]

/-- A splice between two places of a text replaces what lies between them. -/
theorem spliceText_cut (a m b ins : String) :
    spliceText (a ++ (m ++ b)) a.utf8ByteSize (a ++ m).utf8ByteSize (textBytes ins) =
      .ok (.text (a ++ (ins ++ b))) := by
  have hstart : (String.Pos.Raw.mk a.utf8ByteSize).isValid (a ++ (m ++ b)) = true :=
    String.Pos.Raw.isValid_eq_true_iff.2 (isValid_iff_cut.2 ⟨a, m ++ b, rfl, rfl⟩)
  have hstop : (String.Pos.Raw.mk (a ++ m).utf8ByteSize).isValid (a ++ (m ++ b)) = true :=
    String.Pos.Raw.isValid_eq_true_iff.2
    (isValid_iff_cut.2 ⟨a ++ m, b, String.append_assoc.symm, rfl⟩)
  have hins : String.fromUTF8? ⟨(textBytes ins).toArray⟩ = some ins := by
    simpa using fromUTF8_toByteArray ins
  have htake : (textBytes (a ++ (m ++ b))).take a.utf8ByteSize = textBytes a := by
    rw [textBytes_append, ← length_toByteArray, take_left]
  have hdrop : (textBytes (a ++ (m ++ b))).drop (a ++ m).utf8ByteSize = textBytes b := by
    rw [← String.append_assoc, textBytes_append, ← length_toByteArray, drop_left]
  have hbytes : (⟨(textBytes a ++ textBytes ins ++ textBytes b).toArray⟩ : ByteArray) =
      (a ++ (ins ++ b)).toByteArray := by
    ext1
    simp [String.toByteArray_append]
  unfold spliceText
  dsimp only
  rw [htake, hdrop, hbytes, hins, fromUTF8_toByteArray, if_neg (not_not.2 hstart),
    if_neg (not_not.2 hstop), if_neg (Option.some_ne_none ins)]

/-- What is left of the value's boundaries when a splice has been applied. -/
structure Value.SplicedBy (e : Splice) (v w : Value) : Prop where
  bytes : w.bytes = v.bytes.map e.apply
  before : ∀ x ≤ e.offset, v.Boundary x → w.Boundary x
  after : ∀ x, e.stop ≤ x → v.Boundary x → w.Boundary (x + e.insert.length - e.remove)

variable {e : Splice}

/-- So does the splice of its bytes. -/
theorem splicedBy_text {a m b ins : String} (ha : a.utf8ByteSize = e.offset)
    (hm : (a ++ m).utf8ByteSize = e.stop) (hins : e.insert = textBytes ins) :
    Value.SplicedBy e (.text (a ++ (m ++ b))) (.text (a ++ (ins ++ b))) := by
  have hlen : e.insert.length = ins.utf8ByteSize := by rw [hins, length_toByteArray]
  have hstop : e.stop = e.offset + e.remove := rfl
  rw [String.utf8ByteSize_append] at hm
  refine ⟨?_, ?_, ?_⟩
  · have ha' : (textBytes a).length = e.offset := by rw [length_toByteArray, ha]
    have hr : (textBytes m).length = e.remove := by rw [length_toByteArray]; omega
    have happly := apply_parts (v := textBytes b) ha' hr
    rw [hins] at happly
    exact congrArg some happly.symm
  · rintro x hx ⟨c, d, hcd, rfl⟩
    obtain ⟨z, hz, -⟩ := cut_of_le hcd.symm (ha ▸ hx)
    exact ⟨c, z ++ ins ++ b, by rw [hz]; simp [String.append_assoc], rfl⟩
  · rintro x hx ⟨c, d, hcd, rfl⟩
    rw [← String.append_assoc] at hcd
    obtain ⟨z, hz, hb⟩ := cut_of_le hcd (by rw [String.utf8ByteSize_append]; omega)
    refine ⟨a ++ ins ++ z, d, by rw [hb]; simp [String.append_assoc], ?_⟩
    simp only [hz, String.utf8ByteSize_append]
    omega

theorem splicedBy_blob {b : List UInt8} (hstop : e.stop ≤ b.length) :
    Value.SplicedBy e (.blob b) (.blob (b.take e.offset ++ e.insert ++ b.drop e.stop)) := by
  have hoff : e.stop = e.offset + e.remove := rfl
  refine ⟨?_, fun x hx _ => ?_, fun x hx hv => ?_⟩
  · simp only [Value.bytes, Option.map_some, apply]
    rw [Nat.min_eq_left (show e.offset ≤ b.length by omega), Nat.min_eq_left (by omega), hoff]
  · simp only [Value.Boundary, length_append, length_take]
    omega
  · simp only [Value.Boundary] at hv
    simp only [Value.Boundary, length_append, length_take, length_drop]
    omega

section Checks

variable {e : Splice} {ins : String} {start len : Int64} (hstart : start.toInt = e.offset)
  (hlen : len.toInt = e.remove)

include hstart hlen

theorem spliceValue_text {s : String} (hfit : e.stop ≤ s.utf8ByteSize) :
    spliceValue (.text s) (.int start) (.int len) (.text ins) =
      spliceText s e.offset e.stop (textBytes ins) := by
  have hpos : ¬ ((e.offset : ℤ) < 0 ∨ (e.remove : ℤ) < 0) := by omega
  have hroom : ¬ (textBytes s).length < e.offset + e.remove := by
    exact not_lt.2 hfit
  simp only [spliceValue, spliceInt, bind, Except.bind, hstart, hlen, Value.bytes,
    Int.toNat_natCast, if_neg hroom]
  rfl

theorem spliceValue_blob {b : List UInt8} (hfit : e.stop ≤ b.length) :
    spliceValue (.blob b) (.int start) (.int len) (.text ins) =
      .ok (.blob (b.take e.offset ++ textBytes ins ++ b.drop e.stop)) := by
  have hpos : ¬ ((e.offset : ℤ) < 0 ∨ (e.remove : ℤ) < 0) := by omega
  have hroom : ¬ b.length < e.offset + e.remove := not_lt.2 hfit
  simp only [spliceValue, spliceInt, bind, Except.bind, hstart, hlen, Value.bytes,
    Int.toNat_natCast, if_neg hroom]
  rfl

end Checks

theorem spliceValue_of_accepts {v : Value} {ins : String} (h : v.Accepts e)
    (hins : e.insert = textBytes ins) {start len : Int64}
    (hstart : start.toInt = e.offset) (hlen : len.toInt = e.remove) :
    ∃ w, spliceValue v (.int start) (.int len) (.text ins) = .ok w ∧ v.SplicedBy e w := by
  obtain ⟨hfrom, hto⟩ := h
  cases v with
  | text s =>
    obtain ⟨a, t, rfl, ha⟩ := hfrom
    obtain ⟨c, b, hcb, hc⟩ := hto
    obtain ⟨m, rfl, rfl⟩ := cut_of_le hcb (by rw [ha, hc]; exact Nat.le_add_right ..)
    refine ⟨.text (a ++ (ins ++ b)), ?_, splicedBy_text ha hc hins⟩
    rw [spliceValue_text hstart hlen (by rw [hcb, String.utf8ByteSize_append]; omega), ← hc, ← ha]
    exact spliceText_cut ..
  | blob b => exact ⟨_, spliceValue_blob hstart hlen hto, hins ▸ splicedBy_blob hto⟩
  | _ => exact absurd hfrom id

/-- Where a splice moves out of the way, the moved one still falls on whole characters. -/
theorem accepts_shift {v w : Value} {q : Splice} (h : v.SplicedBy e w) (hq : v.Accepts q)
    (hover : ¬ q.Overlap e) : w.Accepts (q.shift e) := by
  have he : e.stop = e.offset + e.remove := rfl
  have hstop : q.stop = q.offset + q.remove := rfl
  unfold Splice.Overlap at hover
  by_cases hle : e.stop ≤ q.offset
  · have hoffset : (q.shift e).offset = q.offset + e.insert.length - e.remove := if_pos hle
    have hend : (q.shift e).stop = q.stop + e.insert.length - e.remove := by
      rw [stop, shift_remove]
      omega
    refine ⟨?_, ?_⟩
    · rw [hoffset]
      exact h.after _ hle hq.start
    · rw [hend]
      exact h.after _ (by omega) hq.stop
  · have hoffset : (q.shift e).offset = q.offset := if_neg hle
    refine ⟨?_, ?_⟩
    · rw [hoffset]
      exact h.before _ (by omega) hq.start
    · rw [stop, hoffset]
      exact h.before _ (by rw [shift_remove]; omega) hq.stop

/-! ## The commits since a snapshot -/

/-- The slot of `t` is in place and says of a cell what its commit did: nothing to the cell, or one
splice that it records. -/
def SlotTells (ring : OptRing) (cell : CellEdit) (t : ℕ) (es : List Splice) : Prop :=
  (ring.slot t).txn = t ∧ (es = [] ∧ ring.touchesCell cell t = false ∨
    ∃ e entry fp, es = [e] ∧ ring.slot t = OptRing.recorded entry t fp ∧ RecordsSplice cell fp e)

/-- The splices of some commits, in their order. -/
def splicesOf (es : ℕ → List Splice) (ts : List ℕ) : List Splice := ts.flatMap es

/-- The bytes that splices insert. -/
def inserted (l : List Splice) : ℕ := (l.map fun e => e.insert.length).sum

namespace OptRing

variable {ring : OptRing} {cell : CellEdit}

theorem rebaseWalk_skip {t : ℕ} (hslot : (ring.slot t).txn = t)
    (htouch : ring.touchesCell cell t = false) (ts : List ℕ) (pos : ℕ) :
    ring.rebaseWalk cell (t :: ts) pos = ring.rebaseWalk cell ts pos := by
  simp [rebaseWalk, hslot, htouch]

/-- Over slots that tell, the walk is the rebase through their splices. -/
theorem rebaseWalk_tells {es : ℕ → List Splice} : ∀ (ts : List ℕ) (mine : Splice),
    (∀ t ∈ ts, SlotTells ring cell t (es t)) → mine.remove = cell.len →
    mine.Untied (splicesOf es ts) → mine.stop + inserted (splicesOf es ts) < 2 ^ 64 →
    ring.rebaseWalk cell ts mine.offset = some (outcomeOf (mine.rebaseThrough (splicesOf es ts)))
  | [], _, _, _, _, _ => rfl
  | t :: ts, mine, htells, hlen, huntied, hfit => by
    have htells' : ∀ t ∈ ts, SlotTells ring cell t (es t) := fun t ht => htells t (.tail _ ht)
    have hcons : splicesOf es (t :: ts) = es t ++ splicesOf es ts := flatMap_cons
    rw [hcons] at huntied hfit ⊢
    obtain ⟨hslot, ⟨hnone, htouch⟩ | ⟨e, entry, fp, hone, hrec, hfp⟩⟩ := htells t (.head _)
    · rw [hnone] at huntied hfit ⊢
      rw [rebaseWalk_skip hslot htouch]
      exact rebaseWalk_tells ts mine htells' hlen huntied hfit
    · rw [hone, singleton_append] at huntied hfit ⊢
      obtain ⟨htie, huntied⟩ := huntied
      simp only [inserted, map_cons, sum_cons] at hfit
      rw [rebaseWalk_recorded hfp hrec hlen htie (by omega), rebaseThrough_cons]
      rcases hrebase : mine.rebase e with c | mine'
      · rfl
      · obtain ⟨-, rfl⟩ := rebase_ok_iff.1 hrebase
        have hshift := stop_shift_le mine e
        exact rebaseWalk_tells ts _ htells' hlen (huntied _ hrebase)
          (by simp only [inserted]; omega)

theorem optRebase_tells {es : ℕ → List Splice} {snap current : ℕ} {mine : Splice}
    (hstart : mine.offset = cell.start) (hlen : mine.remove = cell.len)
    (hrecent : current - snap ≤ optRingSlots)
    (htells : ∀ t ∈ window snap current, SlotTells ring cell t (es t))
    (huntied : mine.Untied (splicesOf es (window snap current)))
    (hfit : mine.stop + inserted (splicesOf es (window snap current)) < 2 ^ 64) :
    ring.optRebase cell snap current =
      some (outcomeOf (mine.rebaseThrough (splicesOf es (window snap current)))) := by
  unfold optRebase
  by_cases hle : current ≤ snap
  · have hempty : window snap current = [] := by simp [window, Nat.sub_eq_zero_of_le hle]
    rw [if_pos hle, hempty, ← hstart]
    rfl
  · rw [if_neg hle, if_neg (by omega), ← hstart]
    exact rebaseWalk_tells _ mine htells hlen huntied hfit

/-- A guard whose ranges are settled is refused only where the window cannot be seen. -/
theorem optConflictSet_settled {g : GuardSurface} {snap current : ℕ} (hrange : g.range = .settled)
    (hrecent : current - snap ≤ optRingSlots)
    (hslots : ∀ t ∈ window snap current, (ring.slot t).txn = t) :
    ring.optConflictSet g snap current = .clear := by
  have hclear : ∀ t ∈ window snap current, ring.guardVerdict g t = .clear := by
    intro t ht
    simp [guardVerdict, hslots t ht, hrange]
  have hfind : ((window snap current).map (ring.guardVerdict g)).find? (· ≠ .clear) = none := by
    simpa using hclear
  unfold optConflictSet
  rw [hfind]
  split_ifs
  · rfl
  · omega
  · rfl

end OptRing

theorem SlotTells.congr {ring : OptRing} {cell cell' : CellEdit} {t : ℕ} {es : List Splice}
    (h : SlotTells ring cell t es) (htable : cell'.tableBit = cell.tableBit)
    (hkey : cell'.key = cell.key) (hcol : cell'.colBit = cell.colBit) :
    SlotTells ring cell' t es := by
  obtain ⟨hslot, ⟨hnone, htouch⟩ | ⟨e, entry, fp, hone, hrec, hfp⟩⟩ := h
  · refine ⟨hslot, .inl ⟨hnone, ?_⟩⟩
    simpa only [OptRing.touchesCell, htable, hkey, hcol] using htouch
  · exact ⟨hslot, .inr ⟨e, entry, fp, hone, hrec, hfp.kind, by rw [htable]; exact hfp.table,
      by rw [hkey]; exact hfp.keys, by rw [hcol]; exact hfp.cols, hfp.range, hfp.stop_lt,
      hfp.range_ne, hfp.delta⟩⟩

/-! ## One member -/

theorem toInt_toInt64 {x : UInt64} (h : x.toNat < 2 ^ 63) : x.toInt64.toInt = x.toNat := by
  rw [← Int64.toInt_toBitVec, BitVec.toInt_eq_toNat_of_lt]
  · rfl
  · simpa using by omega

theorem blockKey_injective : Function.Injective blockKey := by
  intro a b h
  have hbe : Bytes.be 8 (a.toUInt64 ^^^ 0x8000000000000000).toNat =
      Bytes.be 8 (b.toUInt64 ^^^ 0x8000000000000000).toNat := by
    simpa [blockKey, encodeKeySpec, encodeValueSpec, KeySpec.forColumn, encodeValueCollated,
      encodeValue, encodeI64] using h
  have hnat := congrArg Bytes.ofBe hbe
  rw [Bytes.ofBe_be, Bytes.ofBe_be, show 256 ^ 8 = 2 ^ 64 from rfl,
    Nat.mod_eq_of_lt (UInt64.toNat_lt _), Nat.mod_eq_of_lt (UInt64.toNat_lt _), UInt64.toNat_inj,
    UInt64.xor_left_inj] at hnat
  cases a
  cases b
  exact congrArg Int64.ofUInt64 hnat

section Member

variable {table col : ℕ} {ring : OptRing} {current : ℕ} {g : GuardedSession} {s : Submission}

variable {start : Int64} {x origin : ℕ}

theorem rebaseSpliceParams_write (hstart : start.toInt = x) (hremove : s.remove.toNat < 2 ^ 63) :
    SessionStmt.rebaseSpliceParams (ring.sessionWalk current g.guard (some origin)) table
        (writePlan table col s.key (s.params start)) =
      match ring.optRebase ⟨foldBit table, keyHash (blockKey s.key), foldBit col, x, s.remove.toNat⟩
        (max origin g.guard.snapTxn) current with
      | some (.at pos) => .ok (some (s.params (.ofNat pos)))
      | _ => .error .writeConflict := by
  have hlen := toInt_toInt64 hremove
  rcases hwalk : ring.optRebase ⟨foldBit table, keyHash (blockKey s.key), foldBit col, x,
      s.remove.toNat⟩ (max origin g.guard.snapTxn) current with _ | ⟨_ | _⟩ <;>
    simp [SessionStmt.rebaseSpliceParams, OptRing.sessionWalk, writePlan, spliceProgram,
      Submission.params, SetClause.nonNegative, SetClause.constOrParam, hstart, hlen, Guard.origin,
      hwalk]

theorem execPrepared_collision (hstart : start.toInt = x)
    (hremove : s.remove.toNat < 2 ^ 63)
    (h : ring.optRebase ⟨foldBit table, keyHash (blockKey s.key), foldBit col, x, s.remove.toNat⟩
      (max origin g.guard.snapTxn) current = some .collision) :
    g.execPrepared ring current table (some origin) (writePlan table col s.key) (s.params start) =
      (g, .error .writeConflict) := by
  simp only [GuardedSession.execPrepared, rebaseSpliceParams_write hstart hremove, h]

theorem run_writePlan {c : Contents} {row : Row} {v w : Value} {pos : Int64}
    (hrow : c table (blockKey s.key) = some row) (hv : row[col]? = some v)
    (hw : spliceValue v (.int pos) (.int s.remove.toInt64) (.text s.insert) = .ok w) :
    (writePlan table col s.key (s.params pos)).run c =
      .ok [⟨table, blockKey s.key, some (row.set col w)⟩] := by
  have heval : (spliceProgram col).eval (fun _ _ => .error (.internal "no function")) row
      (s.params pos) = .ok w := by
    rw [← hw]
    exact eval_splice _ rfl hv rfl rfl rfl
  simp only [writePlan, runUpdate, filterMapM_cons, hrow, heval]
  rfl

theorem guard_touchCols_frame (guard : Guard) (cols : Option (List ℕ)) :
    (guard.touchCols cols).rebased = guard.rebased ∧
      (guard.touchCols cols).snapTxn = guard.snapTxn := by
  rcases cols with _ | cols
  · exact ⟨rfl, rfl⟩
  · simp only [Guard.touchCols]
    induction cols generalizing guard with
    | nil => exact ⟨rfl, rfl⟩
    | cons c cols ih => exact ih (guard.touchCol (some c))

theorem guard_widen_frame (guard : Guard) (stmt : SessionStmt) :
    (guard.widen table stmt).rebased = guard.rebased ∧
      (guard.widen table stmt).snapTxn = guard.snapTxn := by
  have hcols := guard_touchCols_frame ((guard.widenTable table).touchKey stmt.key) stmt.cols
  unfold Guard.widen Guard.touchShard
  split_ifs <;> exact hcols

theorem guard_declare_snapTxn (guard : Guard) (stmt : SessionStmt) :
    (guard.declare table stmt).snapTxn = guard.snapTxn :=
  (guard_touchCols_frame _ stmt.cols).2

/-- A statement whose splice is rebased writes the spliced value and nothing else. -/
theorem execPrepared_ok {pos : ℕ} {row : Row} {v w : Value}
    (hstart : start.toInt = x) (hremove : s.remove.toNat < 2 ^ 63)
    (h : ring.optRebase ⟨foldBit table, keyHash (blockKey s.key), foldBit col, x, s.remove.toNat⟩
      (max origin g.guard.snapTxn) current = some (.at pos))
    (hrow : g.state.contents table (blockKey s.key) = some row) (hv : row[col]? = some v)
    (hw : spliceValue v (.int (.ofNat pos)) (.int s.remove.toInt64) (.text s.insert) = .ok w) :
    ∃ g', g.execPrepared ring current table (some origin) (writePlan table col s.key)
        (s.params start) = (g', .ok ()) ∧
      g'.state.contents =
        g.state.contents.write ⟨table, blockKey s.key, some (row.set col w)⟩ ∧
      g'.guard.rebased = true ∧ g'.guard.snapTxn = g.guard.snapTxn := by
  have hrun := run_writePlan hrow hv hw
  let stmt := writePlan table col s.key (s.params (.ofNat pos))
  have hframe := @guard_widen_frame table g.guard.markRebased stmt
  refine ⟨⟨g.guard.markRebased.widen table stmt, g.state.step (.stmt stmt)⟩, ?_, ?_, hframe⟩
  · simp only [GuardedSession.execPrepared, rebaseSpliceParams_write hstart hremove, h,
      Option.getD_some, hrun]
    rfl
  · simp only [SessionState.step, stmt, hrun]
    rfl

end Member

/-! ## The batch and the merge -/

theorem rebaseThrough_keeps : ∀ {l : List Splice} {mine e : Splice}, mine.rebaseThrough l = .ok e →
    e.remove = mine.remove ∧ e.insert = mine.insert
  | [], mine, e, h => by cases h; exact ⟨rfl, rfl⟩
  | p :: l, mine, e, h => by
    have hkeeps := rebaseThrough_keeps (rebaseThrough_cons_ok h).2
    exact hkeeps

section Conditions

variable (table col : ℕ) (sys : OptSystem) (edits : ℕ → Int64 → List Splice)

/-- The splices that the commits since a member's snapshot made in its cell. -/
def sinceSnapshot (s : Submission) : List Splice :=
  splicesOf (edits · s.key) (OptRing.window s.snap sys.current)

/-- The member in the coordinates of the newest commit. -/
def carried (s : Submission) : Except Clash Splice :=
  s.edit.rebaseThrough (sinceSnapshot sys edits s)

/-- What a member and its cell must be like, in a batch that inserts `total` bytes. -/
structure Carries (total : ℕ) (s : Submission) : Prop where
  recent : sys.current - s.snap ≤ optRingSlots
  tells : ∀ t ∈ OptRing.window s.snap sys.current,
    SlotTells sys.ring (cellEdit table (keyHash (blockKey s.key)) col s.edit) t (edits t s.key)
  untied : s.edit.Untied (sinceSnapshot sys edits s)
  fits : s.edit.stop + inserted (sinceSnapshot sys edits s) < 2 ^ 63
  row : ∃ row v b, sys.contents sys.current table (blockKey s.key) = some row ∧
    row[col]? = some v ∧ v.bytes = some b ∧ b.length + total < 2 ^ 63 ∧
    ∀ e, carried sys edits s = .ok e → v.Accepts e

/-- How a member `j` must lie to one `i` that lands before it; `lands` says whether it lands
itself. -/
structure LiesApart (lands : Prop) (i j : Submission) : Prop where
  /-- Members are compared as submitted, whatever their rows and snapshots. -/
  clear : lands → ¬ i.edit.Overlap j.edit
  meets : i.key = j.key → ∀ e f, carried sys edits i = .ok e → carried sys edits j = .ok f →
    f.Overlap e → i.edit.Overlap j.edit
  /-- Members of other rows would move it. -/
  foreign : lands ∨ (∃ c, carried sys edits j = .error c) → i.key ≠ j.key →
    i.edit.stop ≤ j.edit.offset → i.edit.delta = 0
  alike : lands → i.key = j.key → ∀ e f, carried sys edits i = .ok e →
    carried sys edits j = .ok f →
    (i.edit.stop ≤ j.edit.offset ↔ e.stop ≤ f.offset) ∧ ¬ e.Tangled f
  /-- A member that is moved is walked over the commits from where it has been moved to. -/
  still : lands ∨ (∃ c, carried sys edits j = .error c) → i.key = j.key →
    i.edit.stop ≤ j.edit.offset → sinceSnapshot sys edits j = []

end Conditions

/-- A member that was applied, as it was carried over the commits, and as it was applied. -/
structure AppliedMember where
  sub : Submission
  carried : Splice
  final : Splice

namespace AppliedMember

/-- What the batch keeps of a member it has applied. -/
def toApplied (a : AppliedMember) : Applied := ⟨a.sub.offset.toNat, a.sub.stop, a.sub.delta⟩

/-- The carried splices of the members on a block. -/
def on (l : List AppliedMember) (id : Int64) : List Splice :=
  (l.filter fun a => a.sub.key = id).map (·.carried)

end AppliedMember

variable {s : Submission}

theorem submission_stop_eq (h : s.edit.stop < 2 ^ 63) : s.stop = s.edit.stop :=
  Nat.min_eq_left (by simp only [stop, Submission.edit] at h; omega)

theorem submission_delta_eq (h : s.edit.stop < 2 ^ 63) : s.delta = s.edit.delta := by
  simp only [stop, Submission.edit] at h
  have hlen := @toInt_toInt64 s.remove (by omega)
  simp only [Submission.delta, delta, Submission.edit, hlen, length_toByteArray]

/-- How far the applied members move an offset. -/
def movedBy (l : List AppliedMember) (offset : ℕ) : ℤ :=
  (((l.map (·.toApplied)).filter fun a => a.stop ≤ offset).map (·.delta)).sum

theorem movedBy_cons (a : AppliedMember) (l : List AppliedMember) (offset : ℕ) :
    movedBy (a :: l) offset = (if a.sub.stop ≤ offset then a.sub.delta else 0) +
      movedBy l offset := by
  unfold movedBy
  by_cases h : a.sub.stop ≤ offset <;> simp [AppliedMember.toApplied, h]

theorem movedBy_eq_zero {offset : ℕ} : ∀ {l : List AppliedMember},
    (∀ a ∈ l, a.sub.stop ≤ offset → a.sub.delta = 0) → movedBy l offset = 0
  | [], _ => rfl
  | a :: l, h => by
    rw [movedBy_cons, movedBy_eq_zero fun x hx => h x (.tail _ hx)]
    split_ifs with hle
    · rw [h a (.head _) hle, add_zero]
    · rfl

/-- The members that moved the text before the offset are those applied on this block. -/
theorem movedBy_eq_moves {offset pos : ℕ} {id : Int64} : ∀ {l : List AppliedMember},
    (∀ a ∈ l, a.sub.key ≠ id → a.sub.stop ≤ offset → a.sub.delta = 0) →
    (∀ a ∈ l, a.sub.key = id → a.sub.delta = a.carried.delta ∧
      (a.sub.stop ≤ offset ↔ a.carried.stop ≤ pos)) →
    movedBy l offset = moves pos (AppliedMember.on l id)
  | [], _, _ => rfl
  | a :: l, hforeign, hown => by
    have ih := movedBy_eq_moves (fun x hx => hforeign x (.tail _ hx)) fun x hx =>
      hown x (.tail _ hx)
    rw [movedBy_cons, ih]
    by_cases hid : a.sub.key = id
    · obtain ⟨hdelta, hstop⟩ := hown a (.head _) hid
      have hon : AppliedMember.on (a :: l) id = a.carried :: AppliedMember.on l id := by
        simp [AppliedMember.on, hid]
      rw [hon, moves_cons, hdelta]
      simp only [hstop]
    · have hon : AppliedMember.on (a :: l) id = AppliedMember.on l id := by
        simp [AppliedMember.on, hid]
      rw [hon]
      split_ifs with hle
      · rw [hforeign a (.head _) hid hle, zero_add]
      · rw [zero_add]

section InStep

variable {table col : ℕ} {sys : OptSystem} {edits : ℕ → Int64 → List Splice}

/-- The bytes that submissions insert. -/
def insertedBy (l : List (Submission × ℕ)) : ℕ := (l.map fun x => x.1.edit.insert.length).sum

theorem insertedBy_snoc (l : List (Submission × ℕ)) (x : Submission × ℕ) :
    insertedBy (l ++ [x]) = insertedBy l + x.1.edit.insert.length := by
  simp [insertedBy]

/-- The verdicts while the loop runs: lost where a member is done and has not landed. -/
def verdicts (n current : ℕ) (done landed : List ℕ) : List EditVerdict :=
  (List.range n).map fun i => if i ∈ done ∧ i ∉ landed then .lost current else .committed

/-- The value of a cell after some splices, against the one before. -/
structure Advanced (v₀ v : Value) (l : List Splice) (room : ℕ) : Prop where
  accepts : ∀ q q', v₀.Accepts q → q.rebaseThrough l = .ok q' → v.Accepts q'
  bytes : ∀ b₀, v₀.bytes = some b₀ → ∃ b, v.bytes = some b ∧ b.length ≤ b₀.length + room

variable (table col sys edits) in
/-- The loop and the merge after the members `done`, those of `l` applied. -/
structure InStep (snap n : ℕ) (done : List (Submission × ℕ)) (b : BatchState) (m : Merge)
    (l : List AppliedMember) : Prop where
  applied : b.applied = l.map (·.toApplied)
  merged : m.applied = l.map fun a => (a.sub.key, a.final)
  mem : ∀ a ∈ l, (∃ i, (a.sub, i) ∈ done ∧ i ∈ m.landed) ∧
    carried sys edits a.sub = .ok a.carried
  chain : ∀ id, Splice.Chain (AppliedMember.on l id) (m.on id)
  disjoint : ∀ id, Splice.Disjoint (AppliedMember.on l id)
  texts : ∀ id, b.session.state.contents.cell table (blockKey id) col = m.texts id
  rows : ∀ id row₀ v₀, sys.contents sys.current table (blockKey id) = some row₀ →
    row₀[col]? = some v₀ → ∃ row v, b.session.state.contents table (blockKey id) = some row ∧
      row[col]? = some v ∧ Advanced v₀ v (m.on id) (insertedBy done)
  snapTxn : b.session.guard.snapTxn = snap
  any : b.any = !l.isEmpty
  rebased : b.any = true → b.session.guard.rebased = true
  out : b.out = verdicts n sys.current (done.map Prod.snd) m.landed
  landed : ∀ i ∈ m.landed, i ∈ done.map Prod.snd
  landed_nil : m.landed = [] ↔ l = []
  idle : l = [] → b.session.state.contents = sys.contents sys.current

theorem Advanced.mono {v₀ v : Value} {l : List Splice} {room room' : ℕ}
    (h : Advanced v₀ v l room) (hle : room ≤ room') : Advanced v₀ v l room' := by
  refine ⟨h.accepts, fun b₀ hb₀ => ?_⟩
  obtain ⟨b, hb, hlen⟩ := h.bytes b₀ hb₀
  exact ⟨b, hb, by omega⟩

theorem Advanced.snoc {v₀ v w : Value} {l : List Splice} {e : Splice} {room : ℕ}
    (h : Advanced v₀ v l room) (hw : v.SplicedBy e w) :
    Advanced v₀ w (l ++ [e]) (room + e.insert.length) := by
  refine ⟨fun q q' hq hq' => ?_, fun b₀ hb₀ => ?_⟩
  · rw [rebaseThrough_append] at hq'
    rcases hmid : q.rebaseThrough l with c | r
    · rw [hmid] at hq'
      cases hq'
    · rw [hmid] at hq'
      obtain ⟨hover, hlast⟩ := rebaseThrough_cons_ok (show r.rebaseThrough [e] = .ok q' from hq')
      cases hlast
      exact accepts_shift hw (h.accepts q r hq hmid) hover
  · obtain ⟨b, hb, hlen⟩ := h.bytes b₀ hb₀
    refine ⟨e.apply b, by rw [hw.bytes, hb]; rfl, ?_⟩
    simp only [apply, length_append, length_take, length_drop]
    omega

theorem verdicts_set {n current i : ℕ} {done landed : List ℕ} (hlanded : i ∉ landed) :
    (verdicts n current done landed).set i (.lost current) =
      verdicts n current (done ++ [i]) landed := by
  refine ext_getElem (by simp [verdicts]) fun j hj _ => ?_
  by_cases hij : i = j
  · subst hij
    simp [verdicts, hlanded]
  · simp [verdicts, hij, Ne.symm hij]

theorem verdicts_land {n current i : ℕ} {done landed : List ℕ} (hdone : i ∉ done) :
    verdicts n current done landed = verdicts n current (done ++ [i]) (landed ++ [i]) := by
  refine map_congr_left fun j _ => ?_
  by_cases hij : j = i
  · subst hij
    simp [hdone]
  · simp [hij]

namespace InStep

variable {snap n : ℕ} {done : List (Submission × ℕ)} {b : BatchState} {m : Merge}
  {l : List AppliedMember} {x : Submission × ℕ}

/-- A member that loses leaves the text as it is. -/
theorem lose (h : InStep table col sys edits snap n done b m l) (hnew : x.2 ∉ done.map Prod.snd) :
    InStep table col sys edits snap n (done ++ [x]) (b.lose sys.current x.2) m l where
  applied := h.applied
  merged := h.merged
  mem a ha := by
    obtain ⟨⟨i, hi, hl⟩, hc⟩ := h.mem a ha
    exact ⟨⟨i, mem_append_left _ hi, hl⟩, hc⟩
  chain := h.chain
  disjoint := h.disjoint
  texts := h.texts
  rows id row₀ v₀ hrow₀ hv₀ := by
    obtain ⟨row, v, hrow, hv, hadv⟩ := h.rows id row₀ v₀ hrow₀ hv₀
    exact ⟨row, v, hrow, hv, hadv.mono (by rw [insertedBy_snoc]; omega)⟩
  snapTxn := h.snapTxn
  any := h.any
  rebased := h.rebased
  out := by
    have hlanded : x.2 ∉ m.landed := fun hi => hnew (h.landed _ hi)
    simp only [BatchState.lose, h.out, verdicts_set hlanded, map_append, map_singleton]
  landed i hi := by simp [h.landed i hi]
  landed_nil := h.landed_nil
  idle := h.idle

theorem on_snoc (m : Merge) (key id : Int64) (e : Splice) (t : Int64 → Option (List UInt8))
    (li : List ℕ) : Merge.on ⟨t, m.applied ++ [(key, e)], li⟩ id =
      if key = id then m.on id ++ [e] else m.on id := by
  by_cases hid : key = id <;> simp [Merge.on, filter_append, hid]

theorem applied_on_snoc (l : List AppliedMember) (a : AppliedMember) (id : Int64) :
    AppliedMember.on (l ++ [a]) id =
      if a.sub.key = id then AppliedMember.on l id ++ [a.carried] else AppliedMember.on l id := by
  by_cases hid : a.sub.key = id <;> simp [AppliedMember.on, filter_append, hid]

variable {f e : Splice} {text : List UInt8}

/-- A member that lands edits the text as the merge does. -/
theorem land (h : InStep table col sys edits snap n done b m l) (hnew : x.2 ∉ done.map Prod.snd)
    {session : GuardedSession} {row : Row} {v w : Value}
    (hf : carried sys edits x.1 = .ok f)
    (hover : ∀ p ∈ AppliedMember.on l x.1.key, ¬ f.Overlap p)
    (he : f.rebaseThrough (m.on x.1.key) = .ok e)
    (hrow : b.session.state.contents table (blockKey x.1.key) = some row)
    (hv : row[col]? = some v) (hw : v.SplicedBy e w) (htext : v.bytes = some text)
    (hcontents : session.state.contents =
      b.session.state.contents.write ⟨table, blockKey x.1.key, some (row.set col w)⟩)
    (hrebased : session.guard.rebased = true) (hsnap : session.guard.snapTxn = snap) :
    InStep table col sys edits snap n (done ++ [x])
      { b with session := session
               applied := b.applied ++ [⟨x.1.offset.toNat, x.1.stop, x.1.delta⟩]
               any := true }
      ⟨Function.update m.texts x.1.key (some (e.apply text)), m.applied ++ [(x.1.key, e)],
        m.landed ++ [x.2]⟩ (l ++ [⟨x.1, f, e⟩]) := by
  have hcol : col < row.length := (List.getElem?_eq_some_iff.1 hv).1
  have hset : (row.set col w)[col]? = some w := by simp [hcol]
  have hwrite : ∀ id, session.state.contents table (blockKey id) =
      if x.1.key = id then some (row.set col w)
      else b.session.state.contents table (blockKey id) := by
    intro id
    rw [hcontents]
    simp only [Contents.write, true_and, blockKey_injective.eq_iff, eq_comm]
  have hinsert : e.insert.length = x.1.edit.insert.length := by
    rw [(rebaseThrough_keeps he).2, (rebaseThrough_keeps hf).2]
  refine
    { applied := by simp [h.applied, AppliedMember.toApplied]
      merged := by simp [h.merged]
      mem := fun a ha => ?_
      chain := fun id => ?_
      disjoint := fun id => ?_
      texts := fun id => ?_
      rows := fun id row₀ v₀ hrow₀ hv₀ => ?_
      snapTxn := hsnap
      any := by simp
      rebased := fun _ => hrebased
      out := ?_
      landed := fun i hi => ?_
      landed_nil := by simp
      idle := by simp }
  · rcases mem_append.1 ha with ha | ha
    · obtain ⟨⟨i, hi, hl⟩, hc⟩ := h.mem a ha
      exact ⟨⟨i, mem_append_left _ hi, mem_append_left _ hl⟩, hc⟩
    · cases mem_singleton.1 ha
      exact ⟨⟨x.2, by simp, by simp⟩, hf⟩
  · rw [on_snoc, applied_on_snoc]
    split_ifs with hid
    · subst hid
      exact (h.chain _).snoc (h.disjoint _) hover he
    · exact h.chain id
  · rw [applied_on_snoc]
    split_ifs with hid
    · subst hid
      refine pairwise_append.2 ⟨h.disjoint _, pairwise_singleton .., fun a ha q hq => ?_⟩
      cases mem_singleton.1 hq
      exact hover a ha
    · exact h.disjoint id
  · simp only [Contents.cell, hwrite]
    by_cases hid : x.1.key = id
    · subst hid
      simp only [if_true, Option.bind_some, hset, hw.bytes, htext, Option.map_some,
        Function.update_self]
    · rw [if_neg hid, Function.update_of_ne (Ne.symm hid)]
      exact h.texts id
  · obtain ⟨row', v', hrow', hv', hadv⟩ := h.rows id row₀ v₀ hrow₀ hv₀
    rw [hwrite, on_snoc, insertedBy_snoc]
    split_ifs with hid
    · subst hid
      cases hrow.symm.trans hrow'
      cases hv.symm.trans hv'
      exact ⟨_, w, rfl, hset, hinsert ▸ hadv.snoc hw⟩
    · exact ⟨row', v', hrow', hv', hadv.mono (Nat.le_add_right ..)⟩
  · simp only [h.out, map_append]
    exact verdicts_land hnew
  · rcases mem_append.1 hi with hi | hi
    · simp [h.landed i hi]
    · simp [mem_singleton.1 hi]

variable {total : ℕ}

theorem member_edit_bounds {s : Submission} (hs : Carries table col sys edits total s) :
    s.edit.stop < 2 ^ 63 ∧ s.remove.toNat < 2 ^ 63 ∧ s.offset.toNat < 2 ^ 63 := by
  have hfits := hs.fits
  simp only [stop, Submission.edit] at hfits ⊢
  omega

theorem optRebase_member {s : Submission} (mine : Splice) (pos : ℕ)
    (hs : Carries table col sys edits total s) (hsnap : snap ≤ s.snap) (hpos : mine.offset = pos)
    (hremove : mine.remove = s.remove.toNat) (huntied : mine.Untied (sinceSnapshot sys edits s))
    (hfit : mine.stop + inserted (sinceSnapshot sys edits s) < 2 ^ 64) :
    sys.ring.optRebase ⟨foldBit table, keyHash (blockKey s.key), foldBit col, pos, s.remove.toNat⟩
        (max s.snap snap) sys.current =
      some (OptRing.outcomeOf (mine.rebaseThrough (sinceSnapshot sys edits s))) := by
  rw [Nat.max_eq_left hsnap]
  exact OptRing.optRebase_tells hpos hremove hs.recent
    (fun t ht => (hs.tells t ht).congr rfl rfl rfl) huntied hfit

theorem member_of_error {c : Clash}
    (hc : x.1.edit.rebaseThrough (sinceSnapshot sys edits x.1 ++ m.on x.1.key) = .error c) :
    m.member (sinceSnapshot sys edits) x = m := by
  simp only [Merge.member, hc]

theorem member_of_ok
    (he : x.1.edit.rebaseThrough (sinceSnapshot sys edits x.1 ++ m.on x.1.key) = .ok e)
    (htext : m.texts x.1.key = some text) :
    m.member (sinceSnapshot sys edits) x =
      ⟨Function.update m.texts x.1.key (some (e.apply text)), m.applied ++ [(x.1.key, e)],
        m.landed ++ [x.2]⟩ := by
  simp only [Merge.member, he, htext]

theorem boundary_le {v : Value} {pos : ℕ} (h : v.Boundary pos)
    (htext : v.bytes = some text) : pos ≤ text.length := by
  cases v with
  | text s =>
    obtain ⟨a, c, rfl, rfl⟩ := h
    cases htext
    rw [length_toByteArray, String.utf8ByteSize_append]
    omega
  | blob s =>
    cases htext
    exact h
  | _ => exact absurd h id

theorem final_stop_lt (h : InStep table col sys edits snap n done b m l)
    (hx : Carries table col sys edits total x.1)
    (htotal : insertedBy done + x.1.edit.insert.length ≤ total)
    (hf : carried sys edits x.1 = .ok f) (he : f.rebaseThrough (m.on x.1.key) = .ok e) :
    e.stop < 2 ^ 63 := by
  obtain ⟨row₀, v₀, b₀, hrow₀, hv₀, hb₀, hroom, haccept⟩ := hx.row
  obtain ⟨row, v, hrow, hv, hadv⟩ := h.rows _ row₀ v₀ hrow₀ hv₀
  obtain ⟨text, htext, hlen⟩ := hadv.bytes b₀ hb₀
  have hle := boundary_le (hadv.accepts f e (haccept f hf) he).stop htext
  omega

/-- A member that neither hits an applied one nor overlaps one lands. -/
theorem lands (h : InStep table col sys edits snap n done b m l) {start : ℕ}
    (hx : Carries table col sys edits total x.1) (hnew : x.2 ∉ done.map Prod.snd)
    (htotal : insertedBy done + x.1.edit.insert.length ≤ total)
    (hhit : ¬ (b.applied.any fun a => a.start < x.1.stop && x.1.offset.toNat < a.stop) = true)
    (hf : carried sys edits x.1 = .ok f)
    (hover : ∀ p ∈ AppliedMember.on l x.1.key, ¬ f.Overlap p)
    (he : f.rebaseThrough (m.on x.1.key) = .ok e) (hstart : start < 2 ^ 63)
    (hmoved : b.moved x.1 = some (start : ℤ))
    (hwalk : sys.ring.optRebase ⟨foldBit table, keyHash (blockKey x.1.key), foldBit col, start,
      x.1.remove.toNat⟩ (max x.1.snap snap) sys.current = some (.at e.offset)) :
    ∃ b' l', b.member table col sys.ring sys.current x = .ok b' ∧
      InStep table col sys edits snap n (done ++ [x]) b'
      (m.member (sinceSnapshot sys edits) x) l' := by
  obtain ⟨row₀, v₀, b₀, hrow₀, hv₀, hb₀, hroom, haccept⟩ := hx.row
  obtain ⟨row, v, hrow, hv, hadv⟩ := h.rows _ row₀ v₀ hrow₀ hv₀
  obtain ⟨text, htext, hlen⟩ := hadv.bytes b₀ hb₀
  have hacc := hadv.accepts f e (haccept f hf) he
  have hstop := h.final_stop_lt hx htotal hf he
  have hoff : e.offset ≤ e.stop := Nat.le_add_right ..
  obtain ⟨hrem, hins⟩ := rebaseThrough_keeps he
  obtain ⟨hrem', hins'⟩ := rebaseThrough_keeps hf
  have hremove := (member_edit_bounds hx).2.1
  have hlen' : x.1.remove.toInt64.toInt = e.remove := by
    rw [toInt_toInt64 hremove, hrem, hrem']
    rfl
  obtain ⟨w, hw, hspliced⟩ := spliceValue_of_accepts hacc (hins.trans hins')
    (Int64.toInt_ofNat_of_lt (show e.offset < 2 ^ 63 by omega)) hlen'
  have hint : (Int64.ofInt start).toInt = start := Int64.toInt_ofInt_of_le (by omega) (by omega)
  rw [← h.snapTxn] at hwalk
  obtain ⟨session, hexec, hcontents, hrebased, hsnap⟩ :=
    execPrepared_ok hint hremove hwalk hrow hv hw
  have hmtext : m.texts x.1.key = some text := by
    rw [← h.texts, Contents.cell, hrow, Option.bind_some, hv, Option.bind_some, htext]
  have hmember : x.1.edit.rebaseThrough (sinceSnapshot sys edits x.1 ++ m.on x.1.key) = .ok e := by
    rw [rebaseThrough_append, show x.1.edit.rebaseThrough _ = .ok f from hf]
    exact he
  have hland := h.land hnew hf hover he hrow hv hspliced htext hcontents hrebased
    (hsnap.trans h.snapTxn)
  rw [← member_of_ok hmember hmtext] at hland
  refine ⟨_, _, ?_, hland⟩
  simp only [BatchState.member, if_neg hhit, hmoved, hexec]

variable (sys edits) in
/-- The merge lets `x` land. -/
def Lands (m : Merge) (x : Submission × ℕ) : Prop :=
  x.2 ∈ (m.member (sinceSnapshot sys edits) x).landed

variable (table col sys edits) in
/-- What is known when the turn of `x` comes. -/
structure Turn (snap total : ℕ) (done : List (Submission × ℕ)) (m : Merge) (x : Submission × ℕ) :
    Prop where
  carries : Carries table col sys edits total x.1
  before : ∀ d ∈ done, Carries table col sys edits total d.1 ∧
    (d.2 ∈ m.landed → LiesApart sys edits (Lands sys edits m x) d.1 x.1)
  new : x.2 ∉ done.map Prod.snd
  snap : snap ≤ x.1.snap
  room : insertedBy done + x.1.edit.insert.length ≤ total

section Turns

variable {total : ℕ} (h : InStep table col sys edits snap n done b m l)
  (ht : Turn table col sys edits snap total done m x)

include h ht

variable {a : AppliedMember}

theorem apart (ha : a ∈ l) : Carries table col sys edits total a.sub ∧
    LiesApart sys edits (Lands sys edits m x) a.sub x.1 := by
  obtain ⟨⟨i, hi, hl⟩, -⟩ := h.mem a ha
  obtain ⟨hc, hlies⟩ := ht.before _ hi
  exact ⟨hc, hlies hl⟩

theorem own_eq (ha : a ∈ l) : a.sub.stop = a.sub.edit.stop ∧ a.sub.delta = a.carried.delta := by
  have hbound := (member_edit_bounds (h.apart ht ha).1).1
  obtain ⟨hrem, hins⟩ := rebaseThrough_keeps (h.mem a ha).2
  refine ⟨submission_stop_eq hbound, ?_⟩
  rw [submission_delta_eq hbound, delta, delta, hrem, hins]

theorem lands_of_ok {e : Splice}
    (he : x.1.edit.rebaseThrough (sinceSnapshot sys edits x.1 ++ m.on x.1.key) = .ok e) :
    Lands sys edits m x := by
  obtain ⟨row₀, v₀, b₀, hrow₀, hv₀, hb₀, -⟩ := ht.carries.row
  obtain ⟨row, v, hrow, hv, hadv⟩ := h.rows _ row₀ v₀ hrow₀ hv₀
  obtain ⟨text, htext, -⟩ := hadv.bytes b₀ hb₀
  have hmtext : m.texts x.1.key = some text := by
    rw [← h.texts, Contents.cell, hrow, Option.bind_some, hv, Option.bind_some, htext]
  rw [Lands, member_of_ok he hmtext]
  simp

section

variable (hneed : Lands sys edits m x ∨ ∃ c, carried sys edits x.1 = .error c)

include hneed

theorem foreign_delta (ha : a ∈ l) (hkey : a.sub.key ≠ x.1.key)
    (hle : a.sub.stop ≤ x.1.offset.toNat) : a.sub.delta = 0 := by
  obtain ⟨hc, hlies⟩ := h.apart ht ha
  rw [(h.own_eq ht ha).1] at hle
  rw [submission_delta_eq (member_edit_bounds hc).1]
  exact hlies.foreign hneed hkey hle

theorem movedBy_zero (hnone : ∀ a ∈ l, a.sub.key = x.1.key → ¬ a.sub.edit.stop ≤ x.1.edit.offset) :
    movedBy l x.1.offset.toNat = 0 := by
  refine movedBy_eq_zero fun a ha hle => ?_
  by_cases hkey : a.sub.key = x.1.key
  · rw [(h.own_eq ht ha).1] at hle
    exact absurd hle (hnone a ha hkey)
  · exact h.foreign_delta ht hneed ha hkey hle

theorem since_of_before (ha : a ∈ l) (hkey : a.sub.key = x.1.key)
    (hle : a.sub.edit.stop ≤ x.1.edit.offset) : sinceSnapshot sys edits x.1 = [] :=
  (h.apart ht ha).2.still hneed hkey hle

end

theorem any_iff :
    (b.applied.any fun a => a.start < x.1.stop && x.1.offset.toNat < a.stop) = true ↔
      ∃ a ∈ l, a.sub.edit.Overlap x.1.edit := by
  have hstop := submission_stop_eq (member_edit_bounds ht.carries).1
  rw [h.applied, any_map, any_eq_true]
  refine exists_congr fun a => and_congr_right fun ha => ?_
  have hspan : a.sub.edit.Overlap x.1.edit ↔
      a.sub.offset.toNat < x.1.edit.stop ∧ x.1.offset.toNat < a.sub.edit.stop := Iff.rfl
  simp [AppliedMember.toApplied, hstop, (h.own_eq ht ha).1, hspan]

theorem moved_eq {p : ℕ} (hp : p < 2 ^ 63)
    (heq : (x.1.offset.toNat : ℤ) + movedBy l x.1.offset.toNat = p) :
    b.moved x.1 = some (p : ℤ) := by
  have hshift : b.shift x.1 = movedBy l x.1.offset.toNat := by
    simp only [BatchState.shift, movedBy, h.applied]
  simp only [BatchState.moved, toInt_toInt64 (member_edit_bounds ht.carries).2.2, hshift, heq]
  exact if_pos (by omega)

omit h in
theorem optRebase_unmoved :
    sys.ring.optRebase ⟨foldBit table, keyHash (blockKey x.1.key), foldBit col, x.1.offset.toNat,
        x.1.remove.toNat⟩ (max x.1.snap snap) sys.current =
      some (OptRing.outcomeOf (carried sys edits x.1)) :=
  optRebase_member x.1.edit x.1.offset.toNat ht.carries ht.snap rfl rfl ht.carries.untied
    (lt_trans ht.carries.fits (by decide))

/-- A member applied before meets it. Then it does not land, so the merge refuses it too. -/
theorem member_hit (hhit : ∃ a ∈ l, a.sub.edit.Overlap x.1.edit) :
    ∃ c, x.1.edit.rebaseThrough (sinceSnapshot sys edits x.1 ++ m.on x.1.key) = .error c := by
  obtain ⟨a, ha, hmeets⟩ := hhit
  rcases hr : x.1.edit.rebaseThrough (sinceSnapshot sys edits x.1 ++ m.on x.1.key) with c | e
  · exact ⟨c, rfl⟩
  · exact absurd hmeets ((h.apart ht ha).2.clear (h.lands_of_ok ht hr))

section

variable (hhit : ¬ (b.applied.any fun a => a.start < x.1.stop && x.1.offset.toNat < a.stop) = true)

include hhit

/-- A commit since its snapshot clashes with it. Then no member of the row has moved it. -/
theorem member_clash {c : Clash}
    (hf : carried sys edits x.1 = .error c) :
    b.member table col sys.ring sys.current x = .ok (b.lose sys.current x.2) := by
  obtain ⟨-, hremove, hoffset⟩ := member_edit_bounds ht.carries
  have hnone : ∀ a ∈ l, a.sub.key = x.1.key → ¬ a.sub.edit.stop ≤ x.1.edit.offset := by
    intro a ha hkey hle
    rw [carried, h.since_of_before ht (.inr ⟨c, hf⟩) ha hkey hle] at hf
    cases hf
  have hstart := h.moved_eq ht hoffset
    (by rw [h.movedBy_zero ht (.inr ⟨c, hf⟩) hnone, add_zero])
  have hwalk := optRebase_unmoved ht
  rw [hf, ← h.snapTxn] at hwalk
  have hexec := execPrepared_collision (Int64.toInt_ofInt_of_le (by omega) (by omega)) hremove hwalk
  simp only [BatchState.member, if_neg hhit, hstart, hexec]

/-- A member whose splice was carried to the snapshot lands in both or loses in both. -/
theorem member_clear {f : Splice}
    (hf : carried sys edits x.1 = .ok f) :
    ∃ b' l', b.member table col sys.ring sys.current x = .ok b' ∧
      InStep table col sys edits snap n (done ++ [x]) b'
      (m.member (sinceSnapshot sys edits) x) l' := by
  have hmem : ∀ {p : Splice}, p ∈ AppliedMember.on l x.1.key →
      ∃ a ∈ l, a.sub.key = x.1.key ∧ a.carried = p := by
    intro p hp
    obtain ⟨a, ha, rfl⟩ := mem_map.1 hp
    obtain ⟨ha, hkey⟩ := mem_filter.1 ha
    exact ⟨a, ha, by simpa using hkey, rfl⟩
  have hover : ∀ p ∈ AppliedMember.on l x.1.key, ¬ f.Overlap p := by
    intro p hp hmeets
    obtain ⟨a, ha, hkey, rfl⟩ := hmem hp
    exact hhit ((h.any_iff ht).2
      ⟨a, ha, (h.apart ht ha).2.meets hkey _ f (h.mem a ha).2 hf hmeets⟩)
  -- it overlaps no member of its row, so it lands in the merge
  have hlands : Lands sys edits m x := by
    obtain ⟨e, he⟩ := rebaseThrough_chain_ok (h.chain _) f (h.disjoint _) hover
    refine h.lands_of_ok ht (e := e) ?_
    rw [rebaseThrough_append, show x.1.edit.rebaseThrough _ = .ok f from hf]
    exact he
  have halike := fun a ha hkey =>
    (h.apart ht ha).2.alike hlands hkey a.carried f (h.mem a ha).2 hf
  have htangle : ∀ p ∈ AppliedMember.on l x.1.key, ¬ p.Tangled f := by
    intro p hp
    obtain ⟨a, ha, hkey, rfl⟩ := hmem hp
    exact (halike a ha hkey).2
  have hmoves : movedBy l x.1.offset.toNat =
      moves f.offset (AppliedMember.on l x.1.key) := by
    refine movedBy_eq_moves (fun a ha hkey => h.foreign_delta ht (.inl hlands) ha hkey)
      fun a ha hkey => ⟨(h.own_eq ht ha).2, ?_⟩
    rw [(h.own_eq ht ha).1]
    exact (halike a ha hkey).1
  obtain ⟨e, he, heoff, herem, -⟩ :=
    rebaseThrough_chain (h.chain _) f (h.disjoint _) hover htangle
  have hestop := h.final_stop_lt ht.carries ht.room hf he
  have heq : e.stop = e.offset + e.remove := rfl
  have hoffset := (member_edit_bounds ht.carries).2.2
  by_cases hprev : ∃ a ∈ l, a.sub.key = x.1.key ∧ a.sub.edit.stop ≤ x.1.edit.offset
  · -- it is moved, and there is no commit to walk over
    obtain ⟨a, ha, hkey, hle⟩ := hprev
    have hempty := h.since_of_before ht (.inl hlands) ha hkey hle
    obtain rfl : x.1.edit = f := by
      rw [carried, hempty] at hf
      cases hf
      rfl
    have hwalk := optRebase_member { x.1.edit with offset := e.offset } e.offset ht.carries ht.snap
      rfl rfl (by rw [hempty]; trivial) (by
        rw [hempty]
        simp only [stop, inserted, map_nil, sum_nil]
        omega)
    rw [hempty] at hwalk
    exact h.lands ht.carries ht.new ht.room hhit hf hover he (by omega)
      (h.moved_eq ht (by omega) (by rw [hmoves, heoff]; rfl)) hwalk
  · -- it stays, and the walk carries it over the commits
    have hzero := h.movedBy_zero ht (.inl hlands) fun a ha hkey hle => hprev ⟨a, ha, hkey, hle⟩
    have hsame : e.offset = f.offset := by
      omega
    have hwalk := optRebase_unmoved ht
    rw [hf] at hwalk
    exact h.lands ht.carries ht.new ht.room hhit hf hover he hoffset
      (h.moved_eq ht hoffset (by rw [hzero, add_zero])) (hsame ▸ hwalk)

end

/-- One turn of the loop is one member of the merge. -/
theorem member :
    ∃ b' l', b.member table col sys.ring sys.current x = .ok b' ∧
      InStep table col sys edits snap n (done ++ [x]) b'
      (m.member (sinceSnapshot sys edits) x) l' := by
  by_cases hhit : (b.applied.any fun a => a.start < x.1.stop && x.1.offset.toNat < a.stop) = true
  · obtain ⟨c, hc⟩ := h.member_hit ht ((h.any_iff ht).1 hhit)
    refine ⟨b.lose sys.current x.2, l, by simp only [BatchState.member, if_pos hhit], ?_⟩
    rw [member_of_error hc]
    exact h.lose ht.new
  · rcases hf : carried sys edits x.1 with c | f
    · have hc : x.1.edit.rebaseThrough (sinceSnapshot sys edits x.1 ++ m.on x.1.key) =
          .error c := by
        rw [rebaseThrough_append, show x.1.edit.rebaseThrough _ = .error c from hf]
        rfl
      refine ⟨_, l, h.member_clash ht hhit hf, ?_⟩
      rw [member_of_error hc]
      exact h.lose ht.new
    · exact h.member_clear ht hhit hf

end Turns

theorem landed_member (m : Merge) {i : ℕ} (hi : i ≠ x.2) :
    i ∈ (m.member (sinceSnapshot sys edits) x).landed ↔ i ∈ m.landed := by
  unfold Merge.member
  split
  · simp [hi]
  · rfl

/-- A turn does not change whether the other members have landed. -/
theorem landed_foldl {i : ℕ} : ∀ {rest : List (Submission × ℕ)} {m : Merge},
    i ∉ rest.map Prod.snd →
    (i ∈ (rest.foldl (Merge.member (sinceSnapshot sys edits)) m).landed ↔ i ∈ m.landed)
  | [], _, _ => Iff.rfl
  | x :: rest, m, hi => by
    rw [map_cons, mem_cons, not_or] at hi
    rw [foldl_cons, landed_foldl hi.2, landed_member m hi.1]

/-- By recursion on the members still to come. -/
theorem run : ∀ (rest done : List (Submission × ℕ)) (b : BatchState) (m : Merge)
    (l : List AppliedMember), InStep table col sys edits snap n done b m l →
    (∀ x ∈ done ++ rest, Carries table col sys edits total x.1 ∧ snap ≤ x.1.snap) →
    (done ++ rest).Pairwise (fun a b =>
      a.2 ∈ (rest.foldl (Merge.member (sinceSnapshot sys edits)) m).landed →
      LiesApart sys edits (b.2 ∈ (rest.foldl (Merge.member (sinceSnapshot sys edits)) m).landed)
        a.1 b.1) →
    ((done ++ rest).map Prod.snd).Nodup → insertedBy (done ++ rest) ≤ total →
    ∃ b' l', rest.foldlM (BatchState.member table col sys.ring sys.current) b = .ok b' ∧
      InStep table col sys edits snap n (done ++ rest) b'
        (rest.foldl (Merge.member (sinceSnapshot sys edits)) m) l'
  | [], done, b, m, l, h, _, _, _, _ => ⟨b, l, rfl, by simpa using h⟩
  | x :: rest, done, b, m, l, h, hmem, hpairs, hnodup, htotal => by
    have hassoc : done ++ x :: rest = done ++ [x] ++ rest := by simp
    obtain ⟨hx, hsnap⟩ := hmem x (by simp)
    have hsplit := hnodup
    rw [map_append, map_cons, nodup_append, nodup_cons] at hsplit
    obtain ⟨-, ⟨hlater, -⟩, hearlier⟩ := hsplit
    have hnew : x.2 ∉ done.map Prod.snd := fun hin => hearlier _ hin _ (.head _) rfl
    have hbefore : ∀ d ∈ done, Carries table col sys edits total d.1 ∧
        (d.2 ∈ m.landed → LiesApart sys edits (Lands sys edits m x) d.1 x.1) := by
      intro d hd
      refine ⟨(hmem d (mem_append_left _ hd)).1, fun hl => ?_⟩
      have hlies := (pairwise_append.1 hpairs).2.2 d hd x (.head _)
      rw [landed_foldl fun hin => hearlier _ (mem_map_of_mem hd) _ hin rfl, foldl_cons,
        landed_foldl hlater] at hlies
      exact hlies hl
    have hroom : insertedBy done + x.1.edit.insert.length ≤ total := by
      simp only [insertedBy, map_append, map_cons, sum_append, sum_cons]
        at htotal ⊢
      omega
    obtain ⟨b₁, l₁, hstep, hsync⟩ := h.member ⟨hx, hbefore, hnew, hsnap, hroom⟩
    rw [hassoc] at hmem hpairs hnodup htotal ⊢
    obtain ⟨b', l', hrest, hend⟩ := run rest (done ++ [x]) b₁ _ l₁ hsync hmem hpairs hnodup htotal
    refine ⟨b', l', ?_, hend⟩
    rw [foldlM_cons, hstep]
    exact hrest

end InStep

end InStep

/-! ## The batch as a whole -/

theorem batchOrder_eq {subs : List Submission} {order : List (Submission × ℕ)}
    (hperm : order.Perm subs.zipIdx) (hsorted : order.Pairwise fun a b => a.1.rank < b.1.rank) :
    batchOrder subs = order := by
  have hsort := perm_insertionSort (fun a b : Submission × ℕ => a.1.rank ≤ b.1.rank) subs.zipIdx
  refine List.Perm.eq_of_pairwise (fun a b ha hb hab hba => ?_)
    (pairwise_insertionSort _ _) (hsorted.imp le_of_lt) (hsort.trans hperm.symm)
  have ha : a ∈ order := hperm.symm.mem_iff.1 (hsort.mem_iff.1 ha)
  have hnodup : (order.map fun a => a.1.rank).Nodup :=
    pairwise_map.2 (hsorted.imp ne_of_lt)
  exact inj_on_of_nodup_map hnodup ha hb (le_antisymm hab hba)

theorem min_snap {subs : List Submission} (hne : subs ≠ []) :
    (∃ s ∈ subs, s.snap = (subs.map (·.snap)).min?.getD 0) ∧
      ∀ s ∈ subs, (subs.map (·.snap)).min?.getD 0 ≤ s.snap := by
  obtain ⟨a, ha⟩ : ∃ a, (subs.map (·.snap)).min? = some a := by
    rcases h : (subs.map (·.snap)).min? with _ | a
    · simp [hne] at h
    · exact ⟨a, h⟩
  obtain ⟨hmem, hle⟩ := List.min?_eq_some_iff.1 ha
  rw [ha]
  exact ⟨mem_map.1 hmem, fun s hs => hle _ (mem_map_of_mem hs)⟩

theorem beginBatch_snapTxn (table col : ℕ) (contents : Contents) (snap : ℕ)
    (subs : List Submission) : (beginBatch table col contents snap subs).guard.snapTxn = snap := by
  have hfold : ∀ (subs : List Submission) (g : Guard), (subs.foldl (fun g s =>
      g.declare table (writePlan table col s.key (s.params s.offset.toInt64))) g).snapTxn =
        g.snapTxn := by
    intro subs
    induction subs with
    | nil => exact fun _ => rfl
    | cons s subs ih => exact fun g => (ih _).trans (guard_declare_snapTxn g _)
  exact (hfold subs _).trans (guard_declare_snapTxn _ _)

/-- The verdict of a member that has landed; a replica's commits wait to be confirmed. -/
def landedVerdict (replica : Bool) (sys : OptSystem) : EditVerdict :=
  if replica then .provisional (sys.current + 1) else .committed

/-- Before the first member both have the committed texts. -/
theorem InStep.start {table col snap : ℕ} {sys : OptSystem} {edits : ℕ → Int64 → List Splice}
    (subs : List Submission) :
    InStep table col sys edits snap subs.length []
      ⟨beginBatch table col (sys.contents sys.current) snap subs, [],
        List.replicate subs.length .committed, false⟩
      ⟨sys.texts table col, [], []⟩ [] where
  applied := rfl
  merged := rfl
  mem := nofun
  chain _ := .nil
  disjoint _ := List.Pairwise.nil
  texts _ := rfl
  rows id row₀ v₀ hrow₀ hv₀ := by
    refine ⟨row₀, v₀, hrow₀, hv₀, fun q q' hq hq' => ?_, fun b₀ hb₀ => ⟨b₀, hb₀, by omega⟩⟩
    cases hq'
    exact hq
  snapTxn := beginBatch_snapTxn ..
  any := rfl
  rebased := nofun
  out := by simp [verdicts, map_const']
  landed := nofun
  landed_nil := by simp
  idle _ := rfl

theorem regrade_verdicts {n current : ℕ} {done landed : List ℕ} {v : EditVerdict}
    (hdone : ∀ i < n, i ∈ done) :
    regrade v (verdicts n current done landed) =
      (List.range n).map fun i => if i ∈ landed then v else .lost current := by
  unfold regrade verdicts
  rw [map_map]
  refine map_congr_left fun i hi => ?_
  by_cases hl : i ∈ landed
  · simp [hl]
  · simp [hl, hdone i (mem_range.1 hi)]

theorem regrade_committed (out : List EditVerdict) : regrade .committed out = out := by
  unfold regrade
  rw [map_congr_left (g := id) fun w _ => by split_ifs with h <;> simp [h], map_id]

/-- The batch in the reference semantics. -/
def reference (table col : ℕ) (sys : OptSystem) (edits : ℕ → Int64 → List Splice)
    (order : List (Submission × ℕ)) : Merge :=
  Merge.run (sinceSnapshot sys edits) (sys.texts table col) order

/-- A table 1 with the texts of two blocks in column 1. -/
def blocks : Contents := fun table key =>
  if table = 1 ∧ key = blockKey 1 then some [.int 1, .text "0123456789"]
  else if table = 1 ∧ key = blockKey 2 then some [.int 2, .text "abcdefghij"] else none

/-- The blocks after a session has put three bytes at offset 7 of the first one. -/
def editedBlocks : OptSystem :=
  ((OptSystem.start 5 blocks).step (.commit (.session
    [.stmt (writePlan 1 1 1 [.int 7, .int 0, .text "xyz", .int 1])]))).getD (.start 5 blocks)

/-- Two editors who act on different blocks. -/
def twoBlocks : List Submission := [⟨1, 5, 1, 1, 0, 1, "A"⟩, ⟨2, 5, 2, 2, 0, 1, "B"⟩]

/-- Two editors of one block who have not seen the three bytes. -/
def oneBlock : List Submission := [⟨1, 5, 1, 1, 0, 0, "aaaaaaaaaa"⟩, ⟨2, 5, 2, 1, 5, 0, "b"⟩]

/-- An edit of a block that is not there. -/
def noBlock : List Submission := [⟨1, 5, 1, 3, 0, 0, "A"⟩]

/-- One editor of the first block who has not seen the three bytes, and two of the second. -/
def threeEditors : List Submission :=
  [⟨1, 5, 1, 1, 9, 1, "Z"⟩, ⟨2, 6, 2, 2, 0, 1, "QQ"⟩, ⟨3, 6, 3, 2, 5, 0, "R"⟩]

/-- What the commits did to the first block. -/
def blockEdits (t : ℕ) (id : Int64) : List Splice :=
  if t = 6 ∧ id = 1 then [⟨7, 0, "xyz".toByteArray.data.toList⟩] else []

theorem editedBlocks_tells :
    SlotTells editedBlocks.ring (cellEdit 1 (keyHash (blockKey 1)) 1 ⟨9, 1, [90]⟩) 6
      (blockEdits 6 1) := by
  refine ⟨by decide, .inr ⟨⟨7, 0, "xyz".toByteArray.data.toList⟩, {},
    (((OptSystem.start 5 blocks)).next (.session
      [.stmt (writePlan 1 1 1 [.int 7, .int 0, .text "xyz", .int 1])])), by decide,
    OptRing.slot_optRecord_self .., ?_⟩⟩
  exact ⟨by decide, by decide, by decide, by decide,
    by decide, by decide, by decide, by decide⟩

theorem carries_second (hsnap : s.snap = 6) (hkey : s.key = 2)
    (hstop : s.edit.stop < 2 ^ 63) (haccepts : (Value.text "abcdefghij").Accepts s.edit) :
    Carries 1 1 editedBlocks blockEdits (insertedBy threeEditors.zipIdx) s := by
  have hnone : sinceSnapshot editedBlocks blockEdits s = [] := by
    rw [sinceSnapshot, hsnap]
    rfl
  refine ⟨by rw [hsnap]; decide, fun t ht => ?_, by rw [hnone]; trivial, by rw [hnone]; exact hstop,
    [.int 2, .text "abcdefghij"], _, _, ?_, rfl, rfl, by decide, fun e he => ?_⟩
  · rw [hsnap] at ht
    cases ht
  · rw [hkey]
    decide
  · rw [carried, hnone] at he
    cases he
    exact haccepts

theorem carries_first :
    Carries 1 1 editedBlocks blockEdits
    (insertedBy threeEditors.zipIdx) ⟨1, 5, 1, 1, 9, 1, "Z"⟩ := by
  have hsince : sinceSnapshot editedBlocks blockEdits ⟨1, 5, 1, 1, 9, 1, "Z"⟩ =
      [⟨7, 0, "xyz".toByteArray.data.toList⟩] := by decide
  have hcarried : carried editedBlocks blockEdits ⟨1, 5, 1, 1, 9, 1, "Z"⟩ =
      .ok ⟨12, 1, "Z".toByteArray.data.toList⟩ := by
    decide
  refine ⟨by decide, fun t ht => ?_, ?_, ?_, [.int 1, .text "0123456xyz789"], _, _, by decide,
    rfl, rfl, by decide, fun e he => ?_⟩
  · obtain rfl : t = 6 := mem_singleton.1 ht
    exact editedBlocks_tells.congr rfl rfl rfl
  · rw [hsince]
    exact ⟨by simp [Splice.Tied], fun _ _ => trivial⟩
  · rw [hsince]
    decide
  · cases hcarried.symm.trans he
    exact ⟨⟨"0123456xyz78", "9", by decide, by decide⟩, ⟨"0123456xyz789", "", by decide, by decide⟩⟩

end Mpedb
