import Mathlib.Data.List.Lex
import Mathlib.Order.Monotone.Defs
import Mpedb.Lib.Delimited

/-!
# Codes that sort as what they encode

`Ahead u v`: the word `u` sorts below `v` whatever follows the two, because they differ at a letter.
`Before esc u v` is the same for what does not start with the reserved symbol; it is what escaped
words give. Both go through concatenation, so a composite key sorts column by column.
-/

namespace Code

open List

variable {α : Type*} [LinearOrder α] {esc : α} {u v u' v' : List α}

/-- `u` is before `v` whatever follows them. -/
def Ahead (u v : List α) : Prop := ∀ r r', u ++ r < v ++ r'

theorem ahead_of_head_lt {s t : α} (h : s < t) (u v : List α) : Ahead (s :: u) (t :: v) :=
  fun _ _ => cons_lt_cons_iff.2 (.inl h)

theorem Ahead.cons (h : Ahead u v) (s : α) : Ahead (s :: u) (s :: v) :=
  fun r r' => cons_lt_cons_iff.2 (.inr ⟨rfl, h r r'⟩)

theorem Ahead.append_left (h : Ahead u v) : ∀ p : List α, Ahead (p ++ u) (p ++ v)
  | [] => h
  | s :: p => (h.append_left p).cons s

theorem Ahead.append (h : Ahead u v) (u' v' : List α) : Ahead (u ++ u') (v ++ v') := by
  intro r r'
  rw [append_assoc, append_assoc]
  exact h _ _

theorem Ahead.not_prefix (h : Ahead u v) : ¬ u <+: v ∧ ¬ v <+: u := by
  refine ⟨?_, ?_⟩
  · rintro ⟨t, rfl⟩
    simpa using h t []
  · rintro ⟨t, rfl⟩
    simpa using h [] t

theorem eq_of_ahead {β γ : Type*} [LinearOrder γ] (f : β → List α) (key : β → γ)
    (hf : ∀ x y, key x < key y → Ahead (f x) (f y)) {x y : β} (h : f x = f y) : key x = key y := by
  have hne {x y : β} (h : f x = f y) : ¬key x < key y := fun hlt => by
    have := hf _ _ hlt [] []
    rw [h] at this
    exact lt_irrefl _ this
  exact le_antisymm (not_lt.1 (hne h.symm)) (not_lt.1 (hne h))

theorem exists_of_lt (h : u < v) :
    (∃ p a b u' v', u = p ++ a :: u' ∧ v = p ++ b :: v' ∧ a < b) ∨ ∃ b v', v = u ++ b :: v' := by
  induction u generalizing v with
  | nil =>
    cases v with
    | nil => exact absurd h (lt_irrefl _)
    | cons b v => exact .inr ⟨b, v, rfl⟩
  | cons a u ih =>
    cases v with
    | nil => exact absurd h (not_lt_nil _)
    | cons b v =>
      rcases cons_lt_cons_iff.1 h with hab | ⟨rfl, huv⟩
      · exact .inl ⟨[], a, b, u, v, rfl, rfl, hab⟩
      · rcases ih huv with ⟨p, a', b', u', v', rfl, rfl, hab⟩ | ⟨b', v', rfl⟩
        · exact .inl ⟨a :: p, a', b', u', v', rfl, rfl, hab⟩
        · exact .inr ⟨b', v', rfl⟩

theorem ahead_of_length (hlen : u.length = v.length) (h : u < v) : Ahead u v := by
  rcases exists_of_lt h with ⟨p, a, b, u', v', rfl, rfl, hab⟩ | ⟨b, v', rfl⟩
  · exact (ahead_of_head_lt hab u' v').append_left p
  · simp at hlen

theorem ahead_map_of_length {c : α → α} (hc : StrictAnti c) (hlen : u.length = v.length)
    (h : u < v) : Ahead (v.map c) (u.map c) := by
  rcases exists_of_lt h with ⟨p, a, b, u', v', rfl, rfl, hab⟩ | ⟨b, v', rfl⟩
  · rw [map_append, map_append]
    exact (ahead_of_head_lt (hc hab) _ _).append_left (p.map c)
  · simp at hlen

/-- The terminator lies below every letter, so a word sorts before those that extend it. -/
theorem ahead_terminated {t : α} (hv : ∀ a ∈ v, t < a) (h : u < v) :
    Ahead (u ++ [t]) (v ++ [t]) := by
  rcases exists_of_lt h with ⟨p, a, b, u', v', rfl, rfl, hab⟩ | ⟨b, v', rfl⟩
  · rw [append_assoc, append_assoc]
    exact (ahead_of_head_lt hab _ _).append_left p
  · rw [append_assoc]
    exact (ahead_of_head_lt (hv b (by simp)) _ _).append_left u

/-- Complemented with its terminator, a word sorts behind those that extend it. -/
theorem ahead_map_terminated {t : α} {c : α → α} (hc : StrictAnti c) (hv : ∀ a ∈ v, t < a)
    (h : u < v) : Ahead (v.map c ++ [c t]) (u.map c ++ [c t]) := by
  rcases exists_of_lt h with ⟨p, a, b, u', v', rfl, rfl, hab⟩ | ⟨b, v', rfl⟩
  · rw [map_append, map_append, append_assoc, append_assoc]
    exact (ahead_of_head_lt (hc hab) _ _).append_left (p.map c)
  · rw [map_append, append_assoc]
    exact (ahead_of_head_lt (hc (hv b (by simp))) _ _).append_left (u.map c)

/-- `u` is before `v` whatever follows them that does not begin with the escape. -/
def Before (esc : α) (u v : List α) : Prop :=
  ∀ r r', Clear esc r → Clear esc r' → u ++ r < v ++ r'

theorem Ahead.before (h : Ahead u v) : Before esc u v := fun r r' _ _ => h r r'

theorem Before.cons (h : Before esc u v) (s : α) : Before esc (s :: u) (s :: v) :=
  fun r r' hr hr' => cons_lt_cons_iff.2 (.inr ⟨rfl, h r r' hr hr'⟩)

theorem lt_of_clear {r : List α} (hmax : ∀ a, a ≤ esc) (hr : Clear esc r) (v : List α) :
    r < esc :: v := by
  cases r with
  | nil => exact nil_lt_cons _ _
  | cons a r => exact cons_lt_cons_iff.2 (.inl (lt_of_le_of_ne (hmax a) (hr a rfl)))

/-- The terminator is the least symbol and the reserved one, which marks a terminator inside a word,
the greatest. -/
theorem before_escaped {zero : α} (hmin : ∀ a, zero ≤ a) (hmax : ∀ a, a ≤ esc) (h : u < v) :
    Before esc (escaped zero esc u) (escaped zero esc v) := by
  induction u generalizing v with
  | nil =>
    cases v with
    | nil => exact absurd h (lt_irrefl _)
    | cons b v =>
      intro r r' hr _
      simp only [escaped]
      split_ifs with hb
      · exact cons_lt_cons_iff.2 (.inr ⟨hb.symm, lt_of_clear hmax hr _⟩)
      · exact cons_lt_cons_iff.2 (.inl (lt_of_le_of_ne (hmin b) (Ne.symm hb)))
  | cons a u ih =>
    cases v with
    | nil => exact absurd h (not_lt_nil _)
    | cons b v =>
      rcases cons_lt_cons_iff.1 h with hab | ⟨rfl, huv⟩
      · simp only [escaped]
        split_ifs <;> exact (ahead_of_head_lt hab _ _).before
      · simp only [escaped]
        split_ifs
        · exact ((ih huv).cons esc).cons a
        · exact (ih huv).cons a

/-- An escaped word starts those of the words that go on with a terminator. -/
theorem escaped_isPrefix_iff {zero : α} :
    escaped zero esc u <+: escaped zero esc v ↔ u = v ∨ u ++ [zero] <+: v := by
  induction u generalizing v with
  | nil =>
    cases v with
    | nil => simp
    | cons b v =>
      simp only [escaped]
      split_ifs with hb
      · simp [hb]
      · simp [Ne.symm hb]
  | cons a u ih =>
    cases v with
    | nil =>
      simp only [escaped]
      split_ifs <;> cases u <;> simp [escaped]
      all_goals split_ifs <;> simp
    | cons b v =>
      simp only [escaped]
      split_ifs with ha hb hb
      · simp [ih, ha, hb]
      · simp [ha, Ne.symm hb]
      · simp [hb, ha]
      · simp only [cons_prefix_cons, ih, cons_append, List.cons.injEq]
        tauto

end Code
