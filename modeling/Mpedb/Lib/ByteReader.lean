import Mpedb.Lib.Bytes
import Mpedb.Lib.Outcome

/-!
# Readers of byte strings

A reader takes bytes off the front of what is left. `Reads r x a` says that `r` takes exactly the
bytes `x` and gives `a`, whatever follows, and `Decodes r enc Good` that `r` gives back an encoded
`a` exactly when `a` is good.
-/

/-- Reads from the front of some bytes, or fails. -/
abbrev ByteReader (ε : Type) : Type → Type := StateT (List UInt8) (Except ε)

namespace ByteReader

open Bytes List

variable {ε α β : Type}

/-- The next `n` bytes. -/
def take (e : ε) (n : ℕ) : ByteReader ε (List UInt8) := fun rest =>
  if n ≤ rest.length then .ok (rest.take n, rest.drop n) else .error e

/-- The next byte. -/
def byte (e : ε) : ByteReader ε UInt8 := fun rest =>
  match rest with
  | [] => .error e
  | b :: rest => .ok (b, rest)

/-- The next `w` bytes as a little-endian number. -/
def word (e : ε) (w : ℕ) : ByteReader ε ℕ := do
  return ofLe (← take e w)

/-- The reader that fails. -/
def fail (e : ε) : ByteReader ε α := fun _ => .error e

/-- The same reader `n` times. -/
def times (r : ByteReader ε α) : ℕ → ByteReader ε (List α)
  | 0 => return []
  | n + 1 => do
    let a ← r
    return a :: (← times r n)

/-- `r` takes the bytes `x` and gives `a`. -/
def Reads (r : ByteReader ε α) (x : List UInt8) (a : α) : Prop :=
  ∀ rest, r (x ++ rest) = .ok (a, rest)

section Reads

variable {r : ByteReader ε α} {f : α → ByteReader ε β} {x y : List UInt8} {a : α} {b : β}

theorem Reads.bind_run (h : Reads r x a) (rest : List UInt8) :
    (r >>= f) (x ++ rest) = f a rest := by
  show (r (x ++ rest) >>= fun p => f p.1 p.2) = _
  rw [h rest]
  rfl

theorem Reads.bind (h : Reads r x a) (hf : Reads (f a) y b) : Reads (r >>= f) (x ++ y) b := by
  intro rest
  rw [append_assoc, h.bind_run, hf rest]

theorem Reads.pure (a : α) : Reads (Pure.pure a : ByteReader ε α) [] a := fun _ => rfl

theorem Reads.map (g : α → β) (h : Reads r x a) :
    Reads (r >>= fun a => Pure.pure (g a)) x (g a) := by
  intro rest
  rw [h.bind_run]
  rfl

theorem reads_take (e : ε) (x : List UInt8) : Reads (take e x.length) x x := by
  intro rest
  rw [take, if_pos (by simp), take_left, drop_left]

theorem reads_byte (e : ε) (v : UInt8) : Reads (byte e) [v] v := fun _ => rfl

theorem reads_word (e : ε) (w v : ℕ) : Reads (word e w) (le w v) (v % 256 ^ w) := by
  have h := (reads_take e (le w v)).map ofLe
  rwa [ofLe_le, length_le] at h

theorem bind_eq_ok {rest : List UInt8} {p : β × List UInt8} :
    (r >>= f) rest = .ok p ↔ ∃ a s, r rest = .ok (a, s) ∧ f a s = .ok p := by
  show (r rest >>= fun q => f q.1 q.2) = _ ↔ _
  rw [Outcome.bind_eq_ok, Prod.exists]

theorem map_eq_ok {g : α → β} (hg : Function.Injective g) {rest s : List UInt8} :
    (r >>= fun a => Pure.pure (g a)) rest = .ok (g a, s) ↔ r rest = .ok (a, s) := by
  rw [bind_eq_ok]
  constructor
  · rintro ⟨a', s', hr, h⟩
    obtain ⟨hga, rfl⟩ := Prod.mk.inj (Except.ok.inj h)
    rw [hr, hg hga]
  · exact fun h => ⟨a, s, h, rfl⟩

theorem Reads.eq_ok_iff (h : Reads r x a) {rest s : List UInt8} :
    r (x ++ rest) = .ok (a, s) ↔ s = rest := by
  rw [h rest, Except.ok.injEq, Prod.mk.injEq, eq_self_iff_true, true_and]
  exact eq_comm

end Reads

/-- `r` gives back an encoded `a`, and takes its bytes, exactly when `a` is good. -/
def Decodes (r : ByteReader ε α) (enc : α → List UInt8) (Good : α → Prop) : Prop :=
  ∀ a rest s, r (enc a ++ rest) = .ok (a, s) ↔ Good a ∧ s = rest

section Decodes

variable {r : ByteReader ε α} {enc : α → List UInt8} {Good : α → Prop}

theorem length_of_times : ∀ {n : ℕ} {rest s : List UInt8} {l : List α},
    times r n rest = .ok (l, s) → l.length = n
  | 0, rest, s, l, h => by cases h; rfl
  | n + 1, rest, s, l, h => by
    obtain ⟨a, s', -, h⟩ := bind_eq_ok.1 h
    obtain ⟨l', s'', hl, h⟩ := bind_eq_ok.1 h
    cases h
    rw [length_cons, length_of_times hl]

/-- A list is given back when its elements are good: up to the first that is not, the reader stands
where that one begins. -/
theorem Decodes.times (h : Decodes r enc Good) : ∀ (l : List α) (rest s : List UInt8),
    times r l.length (l.flatMap enc ++ rest) = .ok (l, s) ↔ (∀ a ∈ l, Good a) ∧ s = rest
  | [], rest, s => by
    constructor
    · intro hr
      cases hr
      exact ⟨forall_mem_nil _, rfl⟩
    · rintro ⟨-, rfl⟩
      rfl
  | a :: l, rest, s => by
    rw [flatMap_cons, append_assoc, length_cons, ByteReader.times, bind_eq_ok]
    constructor
    · rintro ⟨a', s', ha, hr⟩
      obtain ⟨l', s'', hl, hr⟩ := bind_eq_ok.1 hr
      cases hr
      obtain ⟨hgood, rfl⟩ := (h a _ _).1 ha
      obtain ⟨hrest, rfl⟩ := (Decodes.times h l rest _).1 hl
      exact ⟨forall_mem_cons.2 ⟨hgood, hrest⟩, rfl⟩
    · rintro ⟨hall, rfl⟩
      obtain ⟨hgood, hl⟩ := forall_mem_cons.1 hall
      exact ⟨a, _, (h a _ _).2 ⟨hgood, rfl⟩,
        bind_eq_ok.2 ⟨l, _, (Decodes.times h l _ _).2 ⟨hl, rfl⟩, rfl⟩⟩

end Decodes

end ByteReader
