import Mpedb.Lib.Outcome

/-!
# Computations that may read out of range

A computation ends with a value, with an error it reports, or with a panic: an index or a slice out
of range. `get` and `window` report a range that is not there, `index`, `slice`, `update` and `put`
panic on it.
-/

/-- How a computation ends without a value. -/
inductive Stop (ε : Type)
  | err (e : ε)
  | panic
  deriving DecidableEq

/-- A result that may also be an error or a panic. -/
abbrev Checked (ε α : Type) : Type := Except (Stop ε) α

namespace Checked

open List

variable {ε α β : Type}

/-- Stops with an error. -/
def fail (e : ε) : Checked ε α := .error (.err e)

/-- Stops with a panic. -/
def panic : Checked ε α := .error .panic

/-- `xs.get(i).ok_or(e)?` -/
def get (e : ε) (xs : List α) (i : ℕ) : Checked ε α :=
  match xs[i]? with
  | some x => .ok x
  | none => fail e

/-- `xs.get(a..b).ok_or(e)?` -/
def window (e : ε) (xs : List α) (a b : ℕ) : Checked ε (List α) :=
  if a ≤ b ∧ b ≤ xs.length then .ok ((xs.drop a).take (b - a)) else fail e

/-- `xs[i]` -/
def index (xs : List α) (i : ℕ) : Checked ε α :=
  match xs[i]? with
  | some x => .ok x
  | none => panic

/-- `xs[a..b]` -/
def slice (xs : List α) (a b : ℕ) : Checked ε (List α) :=
  if a ≤ b ∧ b ≤ xs.length then .ok ((xs.drop a).take (b - a)) else panic

/-- `xs[i] = f(xs[i])` -/
def update (xs : List α) (i : ℕ) (f : α → α) : Checked ε (List α) :=
  if i < xs.length then .ok (xs.modify i f) else panic

/-- `xs[a..a + ys.len()].copy_from_slice(ys)` -/
def put (xs : List α) (a : ℕ) (ys : List α) : Checked ε (List α) :=
  if a + ys.length ≤ xs.length then .ok (xs.take a ++ (ys ++ xs.drop (a + ys.length))) else panic

variable {e : ε} {xs : List α} {i : ℕ}

theorem get_of_lt (h : i < xs.length) : get e xs i = .ok xs[i] := by
  rw [get, List.getElem?_eq_getElem h]

theorem index_of_lt (h : i < xs.length) : (index xs i : Checked ε α) = .ok xs[i] := by
  rw [index, List.getElem?_eq_getElem h]

variable {ys : List α} {a b : ℕ}

theorem window_append {zs : List α} (ha : a = xs.length)
    (hb : b = a + ys.length) : window e (xs ++ (ys ++ zs)) a b = .ok ys := by
  subst ha hb
  rw [window]
  simp

theorem put_append {old zs : List α} (ha : a = xs.length) (hlen : old.length = ys.length) :
    (put (xs ++ (old ++ zs)) a ys : Checked ε (List α)) = .ok (xs ++ (ys ++ zs)) := by
  subst ha
  rw [put, ← hlen]
  simp

theorem update_append (f : α → α) (h : i < xs.length) :
    (update (xs ++ ys) i f : Checked ε (List α)) = .ok (xs.modify i f ++ ys) := by
  rw [update, if_pos (by simp; omega)]
  congr 1
  refine ext_getElem (by simp) fun j h1 h2 => ?_
  rw [getElem_modify]
  by_cases hj : j < xs.length
  · rw [getElem_append_left hj, getElem_append_left (by simpa using hj),
      getElem_modify]
  · rw [if_neg (by omega), getElem_append_right (by omega),
      getElem_append_right (by simpa using hj)]
    simp

theorem get_of_isPrefix (h : xs <+: ys) (hi : i < xs.length) : get e xs i = get e ys i := by
  obtain ⟨zs, rfl⟩ := h
  rw [get_of_lt hi, get_of_lt (by rw [length_append]; omega), getElem_append_left hi]

theorem window_of_isPrefix (h : xs <+: ys) (hb : b ≤ xs.length) :
    window e xs a b = window e ys a b := by
  obtain ⟨zs, rfl⟩ := h
  by_cases hab : a ≤ b
  · have htake : ((xs ++ zs).drop a).take (b - a) = (xs.drop a).take (b - a) := by
      rw [drop_append_of_le_length (by omega), take_append_of_le_length (by simp; omega)]
    rw [window, window, if_pos ⟨hab, hb⟩, if_pos ⟨hab, by rw [length_append]; omega⟩, htake]
  · rw [window, window, if_neg fun h => hab h.1, if_neg fun h => hab h.1]

/-- The computation does not panic. -/
structure Safe (x : Checked ε α) : Prop where
  ne_panic : x ≠ .error .panic

theorem safe_ok (a : α) : Safe (.ok a : Checked ε α) := ⟨nofun⟩

theorem safe_pure (a : α) : Safe (pure a : Checked ε α) := ⟨nofun⟩

theorem safe_fail (e : ε) : Safe (fail e : Checked ε α) := ⟨nofun⟩

variable {x : Checked ε α} {f : α → Checked ε β}

theorem Safe.bind (hx : Safe x) (hf : ∀ a, x = .ok a → Safe (f a)) : Safe (x >>= f) := by
  rcases x with e | a
  · exact ⟨fun h => hx.ne_panic (congrArg Except.error (Except.error.inj h))⟩
  · exact hf a rfl

theorem safe_get (e : ε) (xs : List α) (i : ℕ) : Safe (get e xs i) := by
  unfold get
  split
  · exact safe_ok _
  · exact safe_fail e

theorem safe_window (e : ε) (xs : List α) (a b : ℕ) : Safe (window e xs a b) := by
  unfold window
  split_ifs
  · exact safe_ok _
  · exact safe_fail e

theorem safe_index (h : i < xs.length) : Safe (index xs i : Checked ε α) := by
  rw [index_of_lt h]
  exact safe_ok _

theorem safe_mapM (h : ∀ x ∈ xs, Safe (f x)) : Safe (xs.mapM f) := by
  induction xs with
  | nil => exact safe_pure _
  | cons x xs ih =>
    obtain ⟨hx, h⟩ := forall_mem_cons.1 h
    rw [mapM_cons]
    exact hx.bind fun _ _ => (ih h).bind fun _ _ => safe_pure _

theorem length_of_window (h : window e xs a b = .ok ys) : ys.length = b - a := by
  unfold window at h
  split_ifs at h with hab
  · cases h
    rw [length_take, length_drop]
    omega
  · cases h

/-- The computation does not panic, and its value satisfies `P`. -/
structure Ends (P : α → Prop) (x : Checked ε α) : Prop extends Safe x where
  post : ∀ a, x = .ok a → P a

variable {P : α → Prop}

theorem ends_ok {a : α} (h : P a) : Ends P (.ok a : Checked ε α) :=
  ⟨safe_ok a, fun _ hb => Except.ok.inj hb ▸ h⟩

theorem ends_fail (e : ε) : Ends P (fail e : Checked ε α) :=
  ⟨safe_fail e, fun _ h => by cases h⟩

theorem Safe.ends (h : Safe x) : Ends (fun _ => True) x := ⟨h, fun _ _ => trivial⟩

theorem Ends.bind {Q : β → Prop} (hx : Ends P x)
    (hf : ∀ a, P a → Ends Q (f a)) : Ends Q (x >>= f) := by
  refine ⟨hx.toSafe.bind fun a ha => (hf a (hx.post a ha)).toSafe, fun b hb => ?_⟩
  obtain ⟨a, ha, hb⟩ := Outcome.bind_eq_ok.1 hb
  exact (hf a (hx.post a ha)).post b hb

end Checked
