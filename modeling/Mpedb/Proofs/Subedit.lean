import Mpedb.Proofs.Optimistic

/-!
# Rebased splices keep their intent

A byte is followed through a history by the place it had in the original string; what the history
inserts has none. The bytes a splice names stay together while it can be rebased, and the rebased
splice lies on them.
-/

namespace Mpedb

open List

namespace Splice

variable {m q e : Splice}

/-- The spans of two splices have a byte in common, or one is inside the other. -/
def Overlap (a b : Splice) : Prop := a.offset < b.stop ∧ b.offset < a.stop

instance {a b : Splice} : Decidable (Overlap a b) := inferInstanceAs (Decidable (_ ∧ _))

theorem rebase_error_iff : (∃ c, q.rebase e = .error c) ↔ Overlap q e := by
  rw [Overlap, ← not_iff_not, ← clash_eq_none, rebase]
  cases clash q e <;> simp

theorem rebase_of_not_overlap (h : ¬Overlap q e) : q.rebase e = .ok (q.shift e) :=
  rebase_of_not_clash (clash_eq_none.2 h)

theorem rebaseThrough_cons_of_not_overlap (h : ¬Overlap q e) (l : List Splice) :
    q.rebaseThrough (e :: l) = (q.shift e).rebaseThrough l := by
  rw [rebaseThrough_cons, rebase_of_not_overlap h]
  rfl

theorem rebaseThrough_cons_of_overlap (h : Overlap q e) (l : List Splice) :
    ∃ c, q.rebaseThrough (e :: l) = .error c := by
  obtain ⟨c, hc⟩ := rebase_error_iff.2 h
  exact ⟨c, by rw [rebaseThrough_cons, hc]; rfl⟩

theorem rebaseThrough_cons_ok {l : List Splice} {q' : Splice}
    (h : q.rebaseThrough (e :: l) = .ok q') :
    ¬Overlap q e ∧ (q.shift e).rebaseThrough l = .ok q' := by
  by_cases hover : Overlap q e
  · obtain ⟨c, hc⟩ := rebaseThrough_cons_of_overlap hover l
    cases hc.symm.trans h
  · exact ⟨hover, (rebaseThrough_cons_of_not_overlap hover l).symm.trans h⟩

theorem exists_parts {α : Type} {l : List α} (h : e.stop ≤ l.length) :
    ∃ u w v, l = u ++ (w ++ v) ∧ u.length = e.offset ∧ w.length = e.remove := by
  unfold stop at h
  refine ⟨l.take e.offset, (l.drop e.offset).take e.remove, (l.drop e.offset).drop e.remove, ?_, ?_,
    ?_⟩
  · rw [take_append_drop, take_append_drop]
  · rw [length_take]
    omega
  · rw [length_take, length_drop]
    omega

/-- A splice that starts where another one has ended cuts what follows it. -/
theorem exists_parts_after {α : Type} {u w v : List α} (hu : u.length = q.offset)
    (hw : w.length = q.remove)
    (hle : q.stop ≤ e.offset) (h : e.stop ≤ (u ++ (w ++ v)).length) :
    ∃ a b c, v = a ++ (b ++ c) ∧ (u ++ (w ++ a)).length = e.offset ∧ b.length = e.remove := by
  have hfit : stop { e with offset := e.offset - q.stop } ≤ v.length := by
    simp only [stop, length_append] at *
    omega
  obtain ⟨a, b, c, rfl, ha, hb⟩ := exists_parts hfit
  refine ⟨a, b, c, rfl, ?_, hb⟩
  simp only [stop, length_append] at *
  omega

theorem apply_parts {u w v : List UInt8} (hu : u.length = e.offset) (hw : w.length = e.remove) :
    e.apply (u ++ (w ++ v)) = u ++ (e.insert ++ v) := by
  have hlo : min e.offset (u ++ (w ++ v)).length = u.length := by simp [← hu]
  have hhi : min (u.length + e.remove) (u ++ (w ++ v)).length = (u ++ w).length := by simp [← hw]
  rw [apply, hlo, hhi, take_left, ← append_assoc, drop_left, append_assoc]

theorem apply_comm_of_le {s : List UInt8} (hle : m.stop ≤ e.offset) (he : e.stop ≤ s.length)
    (hne : ¬e.stop ≤ m.offset) : (e.shift m).apply (m.apply s) = (m.shift e).apply (e.apply s) := by
  obtain ⟨u, w, r, rfl, hu, hw⟩ := exists_parts (l := s) (e := m) (by unfold stop at *; omega)
  obtain ⟨x, y, z, rfl, hx, hy⟩ := exists_parts_after hu hw hle he
  have hlate : (u ++ (m.insert ++ x)).length = (e.shift m).offset := by
    rw [shift, if_pos hle]
    simp only [length_append] at *
    omega
  have hearly : u.length = (m.shift e).offset := by rw [shift, if_neg hne, hu]
  have hm := apply_parts (v := x ++ (y ++ z)) hu hw
  have he := apply_parts (v := z) hx hy
  have he' := apply_parts (v := z) hlate hy
  have hm' := apply_parts (v := x ++ (e.insert ++ z)) hearly hw
  simp only [append_assoc] at he he'
  rw [hm, he, he', hm']
  rfl

/-- Bytes with the places they had in the original string. -/
abbrev Traced := List (UInt8 × Option ℕ)

/-- The bytes of a text with their places. -/
def traced (s : List UInt8) : Traced := s.zipIdx.map fun x => (x.1, some x.2)

/-- A splice of a text whose bytes know where they come from. -/
def applyTraced (t : Traced) (e : Splice) : Traced :=
  t.take e.offset ++ (e.insert.map (·, none) ++ t.drop e.stop)

/-- Each splice of a history lies in the string it is applied to. -/
def InRange : List Splice → List UInt8 → Prop
  | [], _ => True
  | e :: history, s => e.stop ≤ s.length ∧ InRange history (e.apply s)

/-- The byte is an original one that `m` names. -/
def Names (m : Splice) (x : UInt8 × Option ℕ) : Bool := x.2.any fun i => m.offset ≤ i && i < m.stop

/-- What is left of the bytes `m` names stands together, and `q` puts the text of `m` in its
place. -/
def LiesOn (m q : Splice) (t : Traced) : Prop :=
  ∃ u w v, t = u ++ (w ++ v) ∧ u.length = q.offset ∧ w.length = q.remove ∧ q.insert = m.insert ∧
    (∀ x ∈ u, ¬m.Names x) ∧ (∀ x ∈ w, m.Names x) ∧ ∀ x ∈ v, ¬m.Names x

theorem applyTraced_parts {u w v : Traced} (hu : u.length = e.offset) (hw : w.length = e.remove) :
    applyTraced (u ++ (w ++ v)) e = u ++ (e.insert.map (·, none) ++ v) := by
  have hstop : e.stop = (u ++ w).length := by rw [stop, length_append, hu, hw]
  rw [applyTraced, hstop, ← hu, take_left, ← append_assoc u w v, drop_left]

theorem map_fst_applyTraced {t : Traced} (h : e.stop ≤ t.length) :
    (applyTraced t e).map Prod.fst = e.apply (t.map Prod.fst) := by
  obtain ⟨u, w, v, rfl, hu, hw⟩ := exists_parts h
  rw [applyTraced_parts hu hw, map_append, map_append, map_append, map_append,
    apply_parts (by simpa using hu) (by simpa using hw)]
  simp [Function.comp_def]

/-- A splice that does not overlap moves the other one along with its bytes. -/
theorem LiesOn.step {t : Traced} (h : LiesOn m q t) (he : e.stop ≤ t.length)
    (hover : ¬Overlap q e) :
    LiesOn m (q.shift e) (applyTraced t e) := by
  obtain ⟨u, w, v, rfl, hu, hw, hq, hbefore, hin, hafter⟩ := h
  have hins : ∀ x ∈ e.insert.map ((·, none) : UInt8 → UInt8 × Option ℕ), ¬m.Names x := by
    simp [Names]
  by_cases hle : e.stop ≤ q.offset
  · obtain ⟨a, b, c, rfl, ha, hb⟩ := exists_parts (hu ▸ hle)
    rw [append_assoc, append_assoc, applyTraced_parts ha hb]
    refine ⟨a ++ (e.insert.map (·, none) ++ c), w, v, by simp, ?_, hw, hq, ?_, hin, hafter⟩
    · simp only [shift, if_pos hle, length_append, length_map] at hu ⊢
      omega
    · simp only [forall_mem_append] at hbefore ⊢
      exact ⟨hbefore.1, hins, hbefore.2.2⟩
  · obtain ⟨a, b, c, rfl, ha, hb⟩ :=
      exists_parts_after hu hw (by unfold Overlap stop at *; omega) he
    have hstep := applyTraced_parts (v := c) ha hb
    simp only [append_assoc] at hstep
    refine ⟨u, w, a ++ (e.insert.map (·, none) ++ c), hstep, ?_, hw, hq, hbefore, hin, ?_⟩
    · rw [shift, if_neg hle, hu]
    · simp only [forall_mem_append] at hafter ⊢
      exact ⟨hafter.1, hins, hafter.2.2⟩

theorem LiesOn.run : ∀ {history : List Splice} {t : Traced} {q q' : Splice},
    InRange history (t.map Prod.fst) → q.rebaseThrough history = .ok q' → LiesOn m q t →
      LiesOn m q' (history.foldl applyTraced t) ∧
      (history.foldl applyTraced t).map Prod.fst = history.foldl (fun s e => e.apply s)
      (t.map Prod.fst)
  | [], _, _, _, _, hq, h => by
    cases hq
    exact ⟨h, rfl⟩
  | e :: history, t, q, q', ⟨he, hrange⟩, hq, h => by
    rw [length_map] at he
    rw [← map_fst_applyTraced he] at hrange
    obtain ⟨hover, hq⟩ := rebaseThrough_cons_ok hq
    have hrun := LiesOn.run hrange hq (h.step he hover)
    rwa [map_fst_applyTraced he] at hrun

theorem liesOn_traced {s : List UInt8} (h : m.stop ≤ s.length) : LiesOn m m (traced s) := by
  obtain ⟨u, w, v, rfl, hu, hw⟩ := exists_parts h
  rw [traced, zipIdx_append, zipIdx_append, map_append, map_append]
  have hstop : m.stop = m.offset + m.remove := rfl
  refine ⟨_, _, _, rfl, by simpa using hu, by simpa using hw, rfl, ?_, ?_, ?_⟩ <;>
    simp only [forall_mem_map, Names, Option.any_some, Bool.and_eq_true, decide_eq_true_eq] <;>
    intro x hx
  · have hlt := snd_lt_of_mem_zipIdx hx
    omega
  · have hlt := snd_lt_of_mem_zipIdx hx
    have hge := le_snd_of_mem_zipIdx hx
    omega
  · have hge := le_snd_of_mem_zipIdx hx
    omega

theorem LiesOn.filter {t : Traced} (h : LiesOn m q t) :
    ∃ u v, t = u ++ (t.filter m.Names ++ v) ∧
      q.apply (t.map Prod.fst) = u.map Prod.fst ++ (m.insert ++ v.map Prod.fst) := by
  obtain ⟨u, w, v, rfl, hu, hw, hq, hbefore, hin, hafter⟩ := h
  refine ⟨u, v, ?_, ?_⟩
  · rw [filter_append, filter_append, filter_eq_nil_iff.2 hbefore, filter_eq_self.2 hin,
      filter_eq_nil_iff.2 hafter, append_nil, nil_append]
  · rw [map_append, map_append, ← hq]
    exact apply_parts (by simpa using hu) (by simpa using hw)

/-- A rebased splice removes just the bytes that `m` named and the history has left, and puts its
text in their place. Whether two splices clash does not depend on which of them is rebased. Two that
do not clash, and do not insert at one place, can be applied in either order. -/
theorem splice_algebra :
    (∀ (s : List UInt8) (history : List Splice) (m m' : Splice), InRange history s →
      m.stop ≤ s.length →
      m.rebaseThrough history = .ok m' →
        let t := history.foldl applyTraced (traced s)
        t.map Prod.fst = history.foldl (fun s e => e.apply s) s ∧
          ∃ u v, t = u ++ (t.filter m.Names ++ v) ∧
            m'.apply (t.map Prod.fst) = u.map Prod.fst ++ (m.insert ++ v.map Prod.fst)) ∧
    (∀ m e : Splice, (∃ c, m.rebase e = .error c) ↔ ∃ c, e.rebase m = .error c) ∧
    ∀ (s : List UInt8) (m e m' e' : Splice), m.stop ≤ s.length → e.stop ≤ s.length →
      m.rebase e = .ok m' → e.rebase m = .ok e' →
      ¬(m.remove = 0 ∧ e.remove = 0 ∧ m.offset = e.offset) →
        e'.apply (m.apply s) = m'.apply (e.apply s) := by
  refine ⟨fun s history m m' hrange hm hm' => ?_, fun m e => ?_,
    fun s m e m' e' hm he hm' he' htie => ?_⟩
  · have hfst : (traced s).map Prod.fst = s := by
      rw [traced, map_map]
      exact zipIdx_map_fst ..
    obtain ⟨hon, hrun⟩ := LiesOn.run (hfst.symm ▸ hrange) hm' (liesOn_traced hm)
    exact ⟨hrun.trans (by rw [hfst]), hon.filter⟩
  · rw [rebase_error_iff, rebase_error_iff]
    exact and_comm
  · obtain ⟨hclash, rfl⟩ := rebase_ok_iff.1 hm'
    obtain ⟨-, rfl⟩ := rebase_ok_iff.1 he'
    rw [clash_eq_none] at hclash
    by_cases hle : e.stop ≤ m.offset
    · exact (apply_comm_of_le hle hm (by unfold stop at *; omega)).symm
    · exact apply_comm_of_le (by unfold stop at *; omega) he hle

/-- The fourth of five bytes is replaced, after or before the first was replaced by two. -/
theorem splice_algebra_moved :
    let m : Splice := ⟨3, 1, [7]⟩
    let e : Splice := ⟨0, 1, [9, 9]⟩
    let m' : Splice := ⟨4, 1, [7]⟩
    let t := applyTraced (traced [1, 2, 3, 4, 5]) e
    (∃ u v, t = u ++ (t.filter m.Names ++ v) ∧
      m'.apply (t.map Prod.fst) = u.map Prod.fst ++ ([7] ++ v.map Prod.fst)) ∧
    e.apply (m.apply [1, 2, 3, 4, 5]) = m'.apply (e.apply [1, 2, 3, 4, 5]) :=
  ⟨(splice_algebra.1 [1, 2, 3, 4, 5] [⟨0, 1, [9, 9]⟩] ⟨3, 1, [7]⟩ ⟨4, 1, [7]⟩
      ⟨by decide, trivial⟩ (by decide) rfl).2,
    splice_algebra.2.2 [1, 2, 3, 4, 5] ⟨3, 1, [7]⟩ ⟨0, 1, [9, 9]⟩ ⟨4, 1, [7]⟩ ⟨0, 1, [9, 9]⟩
      (by decide) (by decide) rfl rfl (by decide)⟩

end Splice
end Mpedb
