import Mpedb.Lib.Transition
import Mpedb.Readers

/-!
# Pins hold their snapshots

A slot has one live owner, and only the owner stores to it, unless the generation number comes round
between a sweep's load and its exchange (`System.timely`). What an owner has pinned is then what
every scan reads there, and a scan that passed the slot before works for a transaction not newer
than the pin (`pins_of_reaches`).
-/

namespace Mpedb.Readers

open Function Option Readers.System Slot

/-! ## Words -/

/-- The pid of a word, whether its slot is live or being claimed. -/
def clear (pid : BitVec 32) : BitVec 32 := pid &&& ~~~claiming

theorem clear_of_and {x : BitVec 32} (h : x &&& claiming = 0#32) : clear x = x := by
  refine BitVec.eq_of_getLsbD_eq fun i hi => ?_
  have hi' := congrArg (fun y => y.getLsbD i) h
  simp only [clear, BitVec.getLsbD_and, BitVec.getLsbD_not, hi] at hi' ⊢
  revert hi'
  cases x.getLsbD i <;> cases claiming.getLsbD i <;> simp

theorem clear_and (x : BitVec 32) : clear x &&& claiming = 0#32 := by
  rw [clear, BitVec.and_assoc, show ~~~claiming &&& claiming = 0#32 by decide, BitVec.and_zero]

theorem or_claiming_and (x : BitVec 32) : (x ||| claiming) &&& claiming = claiming := by
  refine BitVec.eq_of_getLsbD_eq fun i hi => ?_
  simp only [BitVec.getLsbD_and, BitVec.getLsbD_or]
  cases x.getLsbD i <;> cases claiming.getLsbD i <;> rfl

theorem or_claiming_and_ne (x : BitVec 32) : (x ||| claiming) &&& claiming ≠ 0#32 := by
  rw [or_claiming_and]
  decide

theorem Proc.clear_pid (p : Proc) : clear p.pid = p.pid := clear_of_and p.pid_small

theorem Proc.clear_or_claiming (p : Proc) : clear (p.pid ||| claiming) = p.pid := by
  refine Eq.trans (BitVec.eq_of_getLsbD_eq fun i hi => ?_) p.clear_pid
  simp only [clear, BitVec.getLsbD_and, BitVec.getLsbD_or, BitVec.getLsbD_not, hi]
  cases p.pid.getLsbD i <;> cases claiming.getLsbD i <;> rfl

/-! ## Slots over time -/

/-- What a store of another thread may do to a slot: it ends the generation, or it leaves the
identity there alone, or the owner is still claiming. -/
def Moves (a b : Slot) : Prop :=
  b.gen = a.gen + 1 ∨
    b.gen = a.gen ∧ (b.word = a.word ∧ b.pidStart = a.pidStart ∨
      a.word.pid &&& claiming ≠ 0#32 ∧ (b.word = a.word ∨ b.word = ⟨clear a.word.pid, a.word.seq⟩))

/-- What a sweeper that loaded `w` in generation `g` knows: in that generation the slot still has
the word or its owner has gone live. -/
structure Seen (x : Slot) (w : SlotWord) (g : ℕ) : Prop where
  seq : w.seq = BitVec.ofNat 32 g
  pos : w.pid ≠ 0#32
  le : g ≤ x.gen
  word : x.gen = g → x.word = w ∨ x.word = ⟨clear w.pid, w.seq⟩

namespace Seen

variable {x y : Slot} {w : SlotWord} {g : ℕ}

theorem eq_of_and (h : Seen x w g) (hw : w.pid &&& claiming = 0#32) (hg : x.gen = g) :
    x.word = w := by
  rcases h.word hg with he | he
  · exact he
  · rw [he, clear_of_and hw]

theorem moves (h : Seen x w g) (hm : Moves x y) : Seen y w g := by
  refine ⟨h.seq, h.pos, ?_, fun hg => ?_⟩
  · have := h.le
    rcases hm with hgen | ⟨hgen, -⟩ <;> omega
  · have hle := h.le
    rcases hm with hgen | ⟨hgen, ⟨hword, -⟩ | ⟨hclaim, hword | hword⟩⟩
    · omega
    · rw [hword]
      exact h.word (hgen ▸ hg)
    · rw [hword]
      exact h.word (hgen ▸ hg)
    · rcases h.word (hgen ▸ hg) with he | he
      · right
        rw [hword, he]
      · rw [he] at hclaim
        exact absurd (clear_and w.pid) hclaim

theorem pidStart_moves (h : Seen x w g) (hw : w.pid &&& claiming = 0#32) {st : ℕ}
    (hst : x.gen = g → x.pidStart = st) (hm : Moves x y) (hg : y.gen = g) : y.pidStart = st := by
  have hle := h.le
  rcases hm with hgen | ⟨hgen, ⟨-, hstart⟩ | ⟨hclaim, -⟩⟩
  · omega
  · rw [hstart]
    exact hst (hgen ▸ hg)
  · rw [h.eq_of_and hw (hgen ▸ hg)] at hclaim
    exact absurd hw hclaim

end Seen

/-! ## The invariant -/

/-- A live slot of process `p`. -/
structure Live (n : ℕ) (p : Proc) (x : ℕ → Slot) (i : ℕ) (w : SlotWord) : Prop where
  lt : i < n
  word : (x i).word = w
  pid : w.pid = p.pid
  pidStart : (x i).pidStart = p.start

/-- What a thread knows of the table at each of its steps. -/
def Pc.Good (n : ℕ) (p : Proc) (x : ℕ → Slot) : Pc → Prop
  | .cas c w => c.i < n ∧ w.pid = 0#32
  | .initTxn c q => c.i < n ∧ (x (c.idx n)).word = ⟨p.pid ||| claiming, q⟩
  | .initStart c q => c.i < n ∧ (x (c.idx n)).word = ⟨p.pid ||| claiming, q⟩
  | .goLive c q => c.i < n ∧ (x (c.idx n)).word = ⟨p.pid ||| claiming, q⟩ ∧
      (x (c.idx n)).pidStart = p.start
  | .pinMeta i w => Live n p x i w
  | .pinStore i w _ => Live n p x i w
  | .pinCheck i w t => Live n p x i w ∧ (x i).txn = t
  | .pinned i w t => Live n p x i w ∧ (x i).txn = t
  | .drop i w => Live n p x i w
  | .sweepPid _ i w g => Seen (x i) w g
  | .sweepStart _ i w g => Seen (x i) w g ∧ w.pid &&& claiming = 0#32
  | .sweepAlive _ i w g st => Seen (x i) w g ∧ w.pid &&& claiming = 0#32 ∧
      ((x i).gen = g → (x i).pidStart = st)
  | .sweepFree _ i w g => Seen (x i) w g
  | _ => True

section Owner

variable {n : ℕ} {p : Proc} {x : ℕ → Slot} {pc : Pc} {i : ℕ}

theorem Pc.Good.clear_pid (h : pc.Good n p x) (hi : pc.slot n = some i) :
    clear (x i).word.pid = p.pid := by
  cases pc <;> simp only [Pc.slot, reduceCtorEq, Option.some.injEq] at hi <;> subst hi
  case initTxn | initStart => rw [h.2, p.clear_or_claiming]
  case goLive => rw [h.2.1, p.clear_or_claiming]
  case pinMeta | pinStore | drop => rw [h.word, h.pid, p.clear_pid]
  case pinCheck | pinned => rw [h.1.word, h.1.pid, p.clear_pid]

theorem Pc.Good.pid_ne (h : pc.Good n p x) (hi : pc.slot n = some i) : (x i).word.pid ≠ 0#32 := by
  intro h0
  have := h.clear_pid hi
  rw [h0] at this
  exact p.pid_pos this.symm

theorem Pc.Good.pidStart (h : pc.Good n p x) (hi : pc.slot n = some i)
    (hlive : (x i).word.pid &&& claiming = 0#32) : (x i).pidStart = p.start := by
  have hne := or_claiming_and_ne p.pid
  cases pc <;> simp only [Pc.slot, reduceCtorEq, Option.some.injEq] at hi <;> subst hi
  case initTxn | initStart =>
    rw [h.2] at hlive
    exact absurd hlive hne
  case goLive =>
    rw [h.2.1] at hlive
    exact absurd hlive hne
  case pinMeta | pinStore | drop => exact h.pidStart
  case pinCheck | pinned => exact h.1.pidStart

/-- What a thread knows is not spoilt by a change of another thread's slot. -/
theorem Pc.Good.update (h : pc.Good n p x) {j : ℕ} (hj : pc.slot n ≠ some j) {y : Slot}
    (hm : Moves (x j) y) : pc.Good n p (Function.update x j y) := by
  have hseen : ∀ {k w g}, Seen (x k) w g → Seen (Function.update x j y k) w g := by
    intro k w g hs
    rcases eq_or_ne k j with rfl | hk
    · rw [update_self]
      exact hs.moves hm
    · rwa [update_of_ne hk]
  have hlive : ∀ {k w}, k ≠ j → Live n p x k w → Live n p (Function.update x j y) k w := by
    intro k w hk hl
    exact ⟨hl.lt, by rw [update_of_ne hk, hl.word], hl.pid,
      by rw [update_of_ne hk, hl.pidStart]⟩
  cases pc <;> simp only [Pc.slot, ne_eq, Option.some.injEq] at hj
  case claim | load | sweep => trivial
  case cas => exact h
  case initTxn | initStart => exact ⟨h.1, by rw [update_of_ne hj, h.2]⟩
  case goLive =>
    exact ⟨h.1, by rw [update_of_ne hj, h.2.1], by rw [update_of_ne hj, h.2.2]⟩
  case pinMeta | pinStore | drop => exact hlive hj h
  case pinCheck | pinned => exact ⟨hlive hj h.1, by rw [update_of_ne hj, h.2]⟩
  case sweepPid | sweepFree => exact hseen h
  case sweepStart => exact ⟨hseen h.1, h.2⟩
  case sweepAlive b k w g st =>
    refine ⟨hseen h.1, h.2.1, ?_⟩
    rcases eq_or_ne k j with rfl | hk
    · rw [update_self]
      exact h.1.pidStart_moves h.2.1 h.2.2 hm
    · rw [update_of_ne hk]
      exact h.2.2

end Owner

/-- A sweeper frees a slot only before its generation number has come round. -/
def System.timely (s : System) : Label → Bool
  | .run θ _ _ =>
    match s.thread θ with
    | some (_, .sweepFree _ i _ g) => (s.slot i).gen < g + 2 ^ 32
    | _ => true
  | _ => true

theorem System.gen_lt_of_timely {s : System} {θ choice : ℕ} {fail : Bool}
    (h : s.timely (.run θ choice fail) = true) {p : Proc} {b : Bool} {i g : ℕ} {w : SlotWord}
    (ht : s.thread θ = some (p, .sweepFree b i w g)) : (s.slot i).gen < g + 2 ^ 32 := by
  simpa [timely, ht] using h

/-- No thread of the process `n` is about to use the slot. -/
def System.Unowned (s : System) (n i : ℕ) : Prop :=
  ∀ θ p pc, s.thread θ = some (p, pc) → pc.slot n ≠ some i

/-- The owners of the slots. -/
structure Owned (n : ℕ) (s : System) : Prop where
  live : ∀ θ p pc, s.thread θ = some (p, pc) → p ∈ s.live
  seq : ∀ i, (s.slot i).word.seq = BitVec.ofNat 32 (s.slot i).gen
  good : ∀ θ p pc, s.thread θ = some (p, pc) → pc.Good n p s.slot
  apart : ∀ θ p pc θ' p' pc' i, s.thread θ = some (p, pc) → s.thread θ' = some (p', pc') →
    pc.slot n = some i → pc'.slot n = some i → θ' = θ
  swept : ∀ θ p b i w g, s.thread θ = some (p, .sweepFree b i w g) → (s.slot i).gen = g →
    s.Unowned n i

/-! ## One access -/

/-- A thread that knows nothing of any slot. -/
def Pc.Blank : Pc → Prop
  | .claim _ => True
  | .load _ => True
  | .sweep _ _ => True
  | _ => False

/-- The accesses of a thread: `rest` are those that store nothing after which it knows of no
slot. -/
inductive Advance (n : ℕ) (s : System) (p : Proc) : Pc → Turn → Prop
  | rest {pc : Pc} {next : Option Pc} : (∀ pc' ∈ next, pc'.Blank) → Advance n s p pc ⟨none, next⟩
  | found {c : Claim} : c.i < n → (s.slot (c.idx n)).word.pid = 0#32 →
      Advance n s p (.load c) ⟨none, some (.cas c (s.slot (c.idx n)).word)⟩
  | claim {c : Claim} {w : SlotWord} : (s.slot (c.idx n)).word = w →
      Advance n s p (.cas c w) ⟨some (c.idx n, .word ⟨p.pid ||| claiming, w.seq + 1⟩),
        some (.initTxn c (w.seq + 1))⟩
  | initTxn (c : Claim) (q : BitVec 32) :
      Advance n s p (.initTxn c q) ⟨some (c.idx n, .txn u64Max), some (.initStart c q)⟩
  | initStart (c : Claim) (q : BitVec 32) :
      Advance n s p (.initStart c q) ⟨some (c.idx n, .pidStart p.start), some (.goLive c q)⟩
  | goLive {c : Claim} {q : BitVec 32} : (s.slot (c.idx n)).word = ⟨p.pid ||| claiming, q⟩ →
      Advance n s p (.goLive c q)
        ⟨some (c.idx n, .word ⟨p.pid, q⟩), some (.pinMeta (c.idx n) ⟨p.pid, q⟩)⟩
  | pinMeta (i : ℕ) (w : SlotWord) :
      Advance n s p (.pinMeta i w) ⟨none, some (.pinStore i w s.current)⟩
  | pinMetaFails (i : ℕ) (w : SlotWord) : Advance n s p (.pinMeta i w) ⟨none, some (.drop i w)⟩
  | pinStore (i : ℕ) (w : SlotWord) (t : ℕ) :
      Advance n s p (.pinStore i w t) ⟨some (i, .txn t), some (.pinCheck i w t)⟩
  | pinAgain (i : ℕ) (w : SlotWord) (t : ℕ) :
      Advance n s p (.pinCheck i w t) ⟨none, some (.pinMeta i w)⟩
  | pinCheckFails (i : ℕ) (w : SlotWord) (t : ℕ) :
      Advance n s p (.pinCheck i w t) ⟨none, some (.drop i w)⟩
  | pinned (i : ℕ) (w : SlotWord) :
      Advance n s p (.pinCheck i w s.current) ⟨none, some (.pinned i w s.current)⟩
  | release {i : ℕ} {w : SlotWord} {t : ℕ} : (s.slot i).word = w →
      Advance n s p (.pinned i w t) ⟨some (i, .word ⟨0, w.seq + 1⟩), none⟩
  | drop {i : ℕ} {w : SlotWord} : (s.slot i).word = w →
      Advance n s p (.drop i w) ⟨some (i, .word ⟨0, w.seq + 1⟩), none⟩
  | sweepClaiming {b : Bool} {i : ℕ} : (s.slot i).word.pid ≠ 0#32 →
      Advance n s p (.sweep b i) ⟨none, some (.sweepPid b i (s.slot i).word (s.slot i).gen)⟩
  | sweepLive {b : Bool} {i : ℕ} : (s.slot i).word.pid ≠ 0#32 →
      (s.slot i).word.pid &&& claiming = 0#32 →
      Advance n s p (.sweep b i) ⟨none, some (.sweepStart b i (s.slot i).word (s.slot i).gen)⟩
  | sweepPid {b : Bool} {i g : ℕ} {w : SlotWord} : s.pidDefinitelyDead (clear w.pid) = true →
      Advance n s p (.sweepPid b i w g) ⟨none, some (.sweepFree b i w g)⟩
  | sweepStart (b : Bool) (i g : ℕ) (w : SlotWord) :
      Advance n s p (.sweepStart b i w g) ⟨none, some (.sweepAlive b i w g (s.slot i).pidStart)⟩
  | sweepAlive {b : Bool} {i g st : ℕ} {w : SlotWord} : s.pidAliveIdentity w.pid st = false →
      Advance n s p (.sweepAlive b i w g st) ⟨none, some (.sweepFree b i w g)⟩
  | sweepFree {b : Bool} {i g : ℕ} {w : SlotWord} : (s.slot i).word = w →
      Advance n s p (.sweepFree b i w g)
        ⟨some (i, .word ⟨0, w.seq + 1⟩), some (.sweep b (i + 1))⟩

section Turn

variable {n : ℕ} {s : System} {θ : ℕ} {p : Proc} {pc : Pc} {a : Turn}

variable {i : ℕ}

theorem advance_cas {old new : SlotWord} {won lost : Option Pc}
    (hwon : (s.slot i).word = old → Advance n s p pc ⟨some (i, .word new), won⟩)
    (hlost : ∀ pc' ∈ lost, pc'.Blank) : Advance n s p pc (s.cas i old new won lost) := by
  unfold cas
  split
  · exact hwon ‹_›
  · exact .rest hlost

theorem Claim.blank_again (c : Claim) : c.again.Blank := by
  unfold Claim.again Claim.next
  split <;> trivial

/-- Every access is one of these: by the step the thread is at. -/
theorem advance_turn (n : ℕ) (s : System) (p : Proc) (choice : ℕ) (fail : Bool) (pc : Pc) :
    Advance n s p pc (s.turn n p choice fail pc) := by
  cases pc with
  | claim r => exact .rest (by simp [Pc.Blank])
  | load c =>
    simp only [turn]
    split_ifs with hn hr hw
    · exact .rest (by simp)
    · exact .rest (by simp [Pc.Blank])
    · exact .rest (by simp [Claim.next, Pc.Blank])
    · exact .found (by omega) (by simpa using hw)
  | cas c w => exact advance_cas .claim (by simp [c.blank_again])
  | initTxn c q => exact .initTxn c q
  | initStart c q => exact .initStart c q
  | goLive c q => exact advance_cas .goLive (by simp [Claim.next, Pc.Blank])
  | pinMeta i w =>
    simp only [turn]
    split_ifs
    · exact .pinMetaFails i w
    · exact .pinMeta i w
  | pinStore i w t => exact .pinStore i w t
  | pinCheck i w t =>
    simp only [turn]
    split_ifs with hf ht
    · exact .pinCheckFails i w t
    · subst ht
      exact .pinned i w
    · exact .pinAgain i w t
  | pinned i w t => exact advance_cas .release (by simp)
  | drop i w => exact advance_cas .drop (by simp)
  | sweep b i =>
    simp only [turn]
    split_ifs with hn hb h0 hc
    · exact .rest (by simp [Pc.Blank])
    · exact .rest (by simp)
    · exact .rest (by simp [Pc.Blank])
    · exact .sweepClaiming h0
    · exact .sweepLive h0 (by simpa using hc)
  | sweepPid b i w g =>
    simp only [turn]
    split_ifs with hdead
    · exact .sweepPid hdead
    · exact .rest (by simp [Pc.Blank])
  | sweepStart b i w g => exact .sweepStart b i g w
  | sweepAlive b i w g st =>
    simp only [turn]
    split_ifs with halive
    · exact .rest (by simp [Pc.Blank])
    · exact .sweepAlive (by simpa using halive)
  | sweepFree b i w g => exact advance_cas .sweepFree (by simp [Pc.Blank])

variable {w : SlotWord}

theorem gen_write_succ {x : Slot} {q : BitVec 32} (hw : x.word = w) :
    (x.write (.word ⟨q, w.seq + 1⟩)).gen = x.gen + 1 := by
  simp [write, hw]

variable {j : ℕ} {x : SlotWrite}

/-- A thread stores only to the slot it owns, or to one that nobody owns. -/
theorem Owned.advance_write (h : Owned n s) (ht : s.thread θ = some (p, pc))
    (htimely : ∀ b i w g, pc = .sweepFree b i w g → (s.slot i).gen < g + 2 ^ 32)
    (ha : Advance n s p pc a) (hw : a.write = some (j, x)) :
    pc.slot n = some j ∨ s.Unowned n j := by
  have hgood := h.good θ p pc ht
  cases ha <;> simp only [Option.some.injEq, Prod.mk.injEq] at hw <;>
    obtain ⟨rfl, -⟩ := hw
  case claim c w hword =>
    refine .inr fun θ' p' pc' ht' hi => (h.good θ' p' pc' ht').pid_ne hi ?_
    rw [hword, hgood.2]
  case sweepFree b i g w hword =>
    -- the same number within one round of it is the same generation
    have hlt := htimely b i w g rfl
    have hseq : BitVec.ofNat 32 (s.slot i).gen = BitVec.ofNat 32 g := by
      rw [← h.seq i, hword, hgood.seq]
    have hmod := congrArg BitVec.toNat hseq
    have hle := hgood.le
    simp only [BitVec.toNat_ofNat] at hmod
    exact .inr (h.swept θ p b i w g ht (by omega))
  all_goals exact .inl rfl

theorem Pc.Good.advance_moves (h : pc.Good n p s.slot) (ha : Advance n s p pc a)
    (hw : a.write = some (j, x)) : Moves (s.slot j) ((s.slot j).write x) := by
  have hne := or_claiming_and_ne p.pid
  cases ha <;> simp only [reduceCtorEq] at hw <;>
    obtain ⟨rfl, rfl⟩ := hw
  case claim hword | release hword | drop hword | sweepFree hword =>
    exact .inl (gen_write_succ hword)
  case initTxn | pinStore => exact .inr ⟨rfl, .inl ⟨rfl, rfl⟩⟩
  case initStart => exact .inr ⟨rfl, .inr ⟨by rwa [h.2], .inl rfl⟩⟩
  case goLive c q hword =>
    refine .inr ⟨by simp [write, hword], .inr ⟨by rwa [hword], .inr ?_⟩⟩
    rw [hword, p.clear_or_claiming]
    rfl

theorem Owned.advance_seq (h : Owned n s) (ha : Advance n s p pc a)
    (hw : a.write = some (j, x)) :
    ((s.slot j).write x).word.seq = BitVec.ofNat 32 ((s.slot j).write x).gen := by
  have hseq := h.seq j
  have hsucc : ∀ {w q}, (s.slot j).word = w → ((s.slot j).write (.word ⟨q, w.seq + 1⟩)).word.seq =
      BitVec.ofNat 32 ((s.slot j).write (.word ⟨q, w.seq + 1⟩)).gen := by
    rintro w q rfl
    rw [gen_write_succ rfl, BitVec.ofNat_add, ← hseq]
    rfl
  cases ha <;> simp only [reduceCtorEq] at hw <;>
    obtain ⟨rfl, rfl⟩ := hw
  case claim hword | release hword | drop hword | sweepFree hword => exact hsucc hword
  case initTxn | initStart | pinStore => exact hseq
  case goLive hword => simpa [write, hword] using hseq

theorem Pc.Blank.slot_eq (h : pc.Blank) : pc.slot n = none := by
  cases pc <;> first | rfl | exact h.elim

theorem Pc.Blank.good (h : pc.Blank) (x : ℕ → Slot) : pc.Good n p x := by
  cases pc <;> trivial

/-- A thread that owns a slot after its step owned it before, or has just begun a generation
there. -/
theorem Advance.slot_eq (ha : Advance n s p pc a) {pc' : Pc} (hpc : a.pc = some pc')
    (hi : pc'.slot n = some i) :
    pc.slot n = some i ∨
      ∃ x, a.write = some (i, x) ∧ ((s.slot i).write x).gen = (s.slot i).gen + 1 := by
  cases ha <;> simp only [reduceCtorEq, Option.some.injEq] at hpc <;>
    subst hpc
  case rest hblank => simp [(hblank pc' rfl).slot_eq] at hi
  case claim hword =>
    simp only [Pc.slot, Option.some.injEq] at hi
    subst hi
    exact .inr ⟨_, rfl, gen_write_succ hword⟩
  all_goals exact .inl hi

theorem Claim.idx_lt {c : Claim} (h : c.i < n) : c.idx n < n := Nat.mod_lt _ (by omega)

/-- A thread knows after its step what it has to know there. -/
theorem Owned.advance_good (h : Owned n s) (hgood : pc.Good n p s.slot) (ha : Advance n s p pc a)
    {pc' : Pc} (hpc : a.pc = some pc') : pc'.Good n p (s.store a.write) := by
  cases ha <;> simp only [reduceCtorEq, Option.some.injEq] at hpc <;>
    subst hpc
  case rest hblank => exact (hblank pc' rfl).good _
  case found hlt h0 => exact ⟨hlt, h0⟩
  case claim c w hword => exact ⟨hgood.1, by simp [store, write]⟩
  case initTxn c q => exact ⟨hgood.1, by simp [store, write, hgood.2]⟩
  case initStart c q =>
    exact ⟨hgood.1, by simp [store, write, hgood.2], by simp [store, write]⟩
  case goLive c q hword =>
    exact ⟨Claim.idx_lt hgood.1, by simp [store, write], rfl,
      by simp [store, write, hgood.2.2]⟩
  case pinMeta | pinMetaFails | pinned | sweepPid => exact hgood
  case pinStore i w t =>
    refine ⟨⟨hgood.lt, ?_, hgood.pid, ?_⟩, by simp [store, write]⟩
    · simpa [store, write] using hgood.word
    · simpa [store, write] using Live.pidStart hgood
  case pinAgain | pinCheckFails | sweepAlive => exact hgood.1
  case sweepClaiming b i h0 => exact ⟨h.seq i, h0, le_rfl, fun _ => .inl rfl⟩
  case sweepLive b i h0 hc => exact ⟨⟨h.seq i, h0, le_rfl, fun _ => .inl rfl⟩, hc⟩
  case sweepStart => exact ⟨hgood.1, hgood.2, fun _ => rfl⟩
  case sweepFree => trivial

theorem Advance.write_sweepFree (ha : Advance n s p pc a) {b : Bool} {g : ℕ}
    (hpc : a.pc = some (.sweepFree b i w g)) : a.write = none := by
  cases ha <;> simp_all

/-- A sweeper that has found the owner dead has found that nobody owns the slot. -/
theorem Owned.advance_swept (h : Owned n s) (hgood : pc.Good n p s.slot) (ha : Advance n s p pc a)
    {b : Bool} {g : ℕ} (hpc : a.pc = some (.sweepFree b i w g))
    (hg : (s.slot i).gen = g) : s.Unowned n i := by
  intro θ' p' pc' ht hi
  have hlive := h.live θ' p' pc' ht
  have hgood' := h.good θ' p' pc' ht
  have hclear := hgood'.clear_pid hi
  cases ha <;> simp only [reduceCtorEq, Option.some.injEq] at hpc
  case rest hblank => exact hblank (.sweepFree b i w g) (by simp [hpc])
  case sweepPid b i g w hdead =>
    obtain ⟨rfl, rfl, rfl, rfl⟩ := hpc
    have hpid : p'.pid = clear w.pid := by
      rcases hgood.word hg with he | he
      · rw [← hclear, he]
      · rw [← hclear, he, clear_of_and (clear_and _)]
    simpa [hpid] using List.all_eq_true.1 hdead p' hlive
  case sweepAlive b i g st w hdead =>
    obtain ⟨rfl, rfl, rfl, rfl⟩ := hpc
    have hword := hgood.1.eq_of_and hgood.2.1 hg
    have hpid : p'.pid = w.pid := by rw [← hclear, hword, clear_of_and hgood.2.1]
    have hstart : p'.start = st := by
      rw [← hgood.2.2 hg, hgood'.pidStart hi (by rw [hword, hgood.2.1])]
    simpa [hpid, hstart] using List.any_eq_false.1 hdead p' hlive

end Turn

section Step

variable {n : ℕ} {s s' : System}

theorem Moves.gen_le {x y : Slot} (h : Moves x y) : x.gen ≤ y.gen := by
  rcases h with hg | ⟨hg, -⟩ <;> omega

theorem Owned.start (current : ℕ) (entries : List FreeEntry) (highWater : ℕ) :
    Owned n (.start current entries highWater) :=
  ⟨by simp [System.start], by simp [System.start], by simp [System.start], by simp [System.start],
    by simp [System.start]⟩

theorem Owned.congr (h : Owned n s) (hslot : s'.slot = s.slot) (hlive : s'.live = s.live)
    (hthread : s'.thread = s.thread) : Owned n s' := by
  refine ⟨?_, ?_, ?_, ?_, ?_⟩
  · rw [hthread, hlive]
    exact h.live
  · rw [hslot]
    exact h.seq
  · rw [hthread, hslot]
    exact h.good
  · rw [hthread]
    exact h.apart
  · unfold System.Unowned
    rw [hthread, hslot]
    exact h.swept

variable {θ : ℕ}

theorem thread_run {θ' : ℕ} {p' : Proc} {pc' : Pc} (p : Proc) (next : Option Pc)
    (h : Function.update s.thread θ (next.map (p, ·)) θ' = some (p', pc')) :
    θ' = θ ∧ p' = p ∧ next = some pc' ∨ θ' ≠ θ ∧ s.thread θ' = some (p', pc') := by
  rcases eq_or_ne θ' θ with rfl | hne
  · rw [update_self] at h
    obtain ⟨x, hx, hp⟩ := map_eq_some_iff.1 h
    simp only [Prod.mk.injEq] at hp
    exact .inl ⟨rfl, hp.1.symm, hp.2 ▸ hx⟩
  · rw [update_of_ne hne] at h
    exact .inr ⟨hne, h⟩

/-- An access keeps the owners apart; a sweeper that frees in time frees a slot without an owner. -/
theorem Owned.advance (h : Owned n s) {p : Proc} {pc : Pc} {a : Turn}
    (ht : s.thread θ = some (p, pc))
    (htimely : ∀ b i w g, pc = .sweepFree b i w g → (s.slot i).gen < g + 2 ^ 32)
    (ha : Advance n s p pc a) :
    Owned n { s with
      slot := s.store a.write, thread := Function.update s.thread θ (a.pc.map (p, ·)) } := by
  have hgood := h.good θ p pc ht
  have hwrite : ∀ j x, a.write = some (j, x) → ∀ θ' p' pc', θ' ≠ θ → s.thread θ' = some (p', pc') →
      pc'.slot n ≠ some j := by
    intro j x hw θ' p' pc' hne ht' hj
    rcases h.advance_write ht htimely ha hw with hself | hfree
    · exact hne (h.apart θ p pc θ' p' pc' j ht ht' hself hj)
    · exact hfree θ' p' pc' ht' hj
  have hnew : ∀ pc', a.pc = some pc' → ∀ i, pc'.slot n = some i → ∀ θ' p' pc'', θ' ≠ θ →
      s.thread θ' = some (p', pc'') → pc''.slot n ≠ some i := by
    intro pc' hpc i hi θ' p' pc'' hne ht' hi'
    rcases ha.slot_eq hpc hi with hold | ⟨x, hw, -⟩
    · exact hne (h.apart θ p pc θ' p' pc'' i ht ht' hold hi')
    · exact hwrite i x hw θ' p' pc'' hne ht' hi'
  refine ⟨fun θ' p' pc' ht' => ?_, fun i => ?_, fun θ' p' pc' ht' => ?_, ?_, ?_⟩
  · rcases thread_run _ _ ht' with ⟨-, rfl, -⟩ | ⟨-, ht'⟩
    · exact h.live θ p' pc ht
    · exact h.live θ' p' pc' ht'
  · rcases hw : a.write with _ | ⟨j, x⟩
    · exact h.seq i
    · simp only [store]
      rcases eq_or_ne i j with rfl | hij
      · rw [update_self]
        exact h.advance_seq ha hw
      · rw [update_of_ne hij]
        exact h.seq i
  · rcases thread_run _ _ ht' with ⟨-, rfl, hpc⟩ | ⟨hne, ht'⟩
    · exact h.advance_good hgood ha hpc
    · rcases hw : a.write with _ | ⟨j, x⟩
      · exact h.good θ' p' pc' ht'
      · exact (h.good θ' p' pc' ht').update (hwrite j x hw θ' p' pc' hne ht')
          (hgood.advance_moves ha hw)
  · intro θ₁ p₁ pc₁ θ₂ p₂ pc₂ i ht₁ ht₂ hi₁ hi₂
    rcases thread_run _ _ ht₁ with ⟨rfl, rfl, hpc₁⟩ | ⟨hne₁, ht₁'⟩ <;>
      rcases thread_run _ _ ht₂ with ⟨rfl, rfl, hpc₂⟩ | ⟨hne₂, ht₂'⟩
    · rfl
    · exact absurd hi₂ (hnew pc₁ hpc₁ i hi₁ θ₂ p₂ pc₂ hne₂ ht₂')
    · exact absurd hi₁ (hnew pc₂ hpc₂ i hi₂ θ₁ p₁ pc₁ hne₁ ht₁')
    · exact h.apart θ₁ p₁ pc₁ θ₂ p₂ pc₂ i ht₁' ht₂' hi₁ hi₂
  · intro θ₁ p₁ b i w g ht₁ hg θ₂ p₂ pc₂ ht₂ hi
    rcases thread_run _ _ ht₁ with ⟨rfl, rfl, hpc₁⟩ | ⟨hne₁, ht₁'⟩
    · rw [show s.store a.write = s.slot by rw [ha.write_sweepFree hpc₁]; rfl] at hg
      rcases thread_run _ _ ht₂ with ⟨-, -, hpc₂⟩ | ⟨hne₂, ht₂'⟩
      · rw [hpc₁, Option.some.injEq] at hpc₂
        simp [← hpc₂, Pc.slot] at hi
      · exact h.advance_swept hgood ha hpc₁ hg θ₂ p₂ pc₂ ht₂' hi
    · have hle : g ≤ (s.slot i).gen := (h.good θ₁ p₁ _ ht₁').le
      have hold : (s.slot i).gen = g := by
        rcases hw : a.write with _ | ⟨j, x⟩ <;> simp only [hw, store] at hg
        · exact hg
        · rcases eq_or_ne i j with rfl | hij
          · have := (hgood.advance_moves ha hw).gen_le
            rw [update_self] at hg
            omega
          · rwa [update_of_ne hij] at hg
      have hfree := h.swept θ₁ p₁ b i w g ht₁' hold
      rcases thread_run _ _ ht₂ with ⟨rfl, -, hpc₂⟩ | ⟨hne₂, ht₂'⟩
      · rcases ha.slot_eq hpc₂ hi with hown | ⟨x, hw, hgen⟩
        · exact hfree θ₂ p pc ht hown
        · simp only [hw, store, update_self] at hg
          omega
      · exact hfree θ₂ p₂ pc₂ ht₂' hi

/-- A thread that knows nothing owns nothing. -/
theorem Owned.enter (h : Owned n s) {p : Proc} {pc : Pc} (hp : p ∈ s.live)
    (hpc : pc.Blank) :
    Owned n { s with thread := Function.update s.thread θ (some (p, pc)) } := by
  have hthread : ∀ {θ' p' pc'}, Function.update s.thread θ (some (p, pc)) θ' = some (p', pc') →
      p' = p ∧ pc' = pc ∨ s.thread θ' = some (p', pc') := by
    intro θ' p' pc' ht
    rcases thread_run p (some pc) ht with ⟨-, rfl, hpc'⟩ | ⟨-, ht'⟩
    · exact .inl ⟨rfl, (Option.some.inj hpc').symm⟩
    · exact .inr ht'
  have hslot : pc.slot n = none := hpc.slot_eq
  refine ⟨fun θ' p' pc' ht => ?_, h.seq, fun θ' p' pc' ht => ?_, ?_, ?_⟩
  · rcases hthread ht with ⟨rfl, -⟩ | ht'
    · exact hp
    · exact h.live θ' p' pc' ht'
  · rcases hthread ht with ⟨-, rfl⟩ | ht'
    · exact hpc.good _
    · exact h.good θ' p' pc' ht'
  · intro θ₁ p₁ pc₁ θ₂ p₂ pc₂ i ht₁ ht₂ hi₁ hi₂
    rcases hthread ht₁ with ⟨-, rfl⟩ | ht₁'
    · simp [hslot] at hi₁
    rcases hthread ht₂ with ⟨-, rfl⟩ | ht₂'
    · simp [hslot] at hi₂
    exact h.apart θ₁ p₁ pc₁ θ₂ p₂ pc₂ i ht₁' ht₂' hi₁ hi₂
  · intro θ₁ p₁ b i w g ht₁ hg θ₂ p₂ pc₂ ht₂ hi
    rcases hthread ht₁ with ⟨-, rfl⟩ | ht₁'
    · exact hpc.elim
    rcases hthread ht₂ with ⟨-, rfl⟩ | ht₂'
    · simp [hslot] at hi
    exact h.swept θ₁ p₁ b i w g ht₁' hg θ₂ p₂ pc₂ ht₂' hi

theorem Owned.die (h : Owned n s) (p : Proc) :
    Owned n { s with
      live := s.live.filter (· ≠ p)
      thread := fun θ => (s.thread θ).filter (·.1 ≠ p)
      writer := s.writer.filter (·.proc ≠ p) } := by
  have hthread : ∀ {θ p' pc'}, (s.thread θ).filter (·.1 ≠ p) = some (p', pc') →
      s.thread θ = some (p', pc') ∧ p' ≠ p := by
    intro θ p' pc' ht
    simpa [filter_eq_some_iff] using ht
  refine ⟨fun θ p' pc' ht => ?_, h.seq, fun θ p' pc' ht => h.good θ p' pc' (hthread ht).1, ?_, ?_⟩
  · have := h.live θ p' pc' (hthread ht).1
    simp [this, (hthread ht).2]
  · intro θ₁ p₁ pc₁ θ₂ p₂ pc₂ i ht₁ ht₂
    exact h.apart θ₁ p₁ pc₁ θ₂ p₂ pc₂ i (hthread ht₁).1 (hthread ht₂).1
  · intro θ₁ p₁ b i w g ht₁ hg θ₂ p₂ pc₂ ht₂
    exact h.swept θ₁ p₁ b i w g (hthread ht₁).1 hg θ₂ p₂ pc₂ (hthread ht₂).1

theorem stepWriter_frame {w : Writer} {l : Label} (h : s.stepWriter n w l = some s') :
    s'.slot = s.slot ∧ s'.live = s.live ∧ s'.thread = s.thread := by
  cases l <;> simp only [stepWriter, scanStep] at h
  case call c =>
    split at h
    · obtain ⟨t, -, rfl⟩ := map_eq_some_iff.1 h
      exact ⟨rfl, rfl, rfl⟩
    · simp at h
  case commit pc rc =>
    split at h
    · split_ifs at h
      obtain ⟨t, -, rfl⟩ := map_eq_some_iff.1 h
      exact ⟨rfl, rfl, rfl⟩
    · simp at h
  all_goals
    (repeat' split at h) <;> simp only [Option.some.injEq, reduceCtorEq] at h <;> subst h <;>
      exact ⟨rfl, rfl, rfl⟩

/-- By who acts: a thread, a process that dies, or the writer. -/
theorem Owned.step (h : Owned n s) {l : Label} (htimely : s.timely l = true)
    (hs : s.step n l = some s') : Owned n s' := by
  have hwriter : s.writer.bind (fun w => s.stepWriter n w l) = some s' → Owned n s' := by
    intro hb
    obtain ⟨w, -, hw⟩ := bind_eq_some_iff.1 hb
    obtain ⟨hslot, hlive, hthread⟩ := stepWriter_frame hw
    exact h.congr hslot hlive hthread
  cases l <;> simp only [System.step] at hs
  case spawn p =>
    split_ifs at hs
    cases hs
    exact { h with live := fun θ p' pc' ht => List.mem_cons_of_mem _ (h.live θ p' pc' ht) }
  case die p =>
    cases hs
    exact h.die p
  case pin | sweep =>
    split_ifs at hs with hp
    cases hs
    exact h.enter hp.2 trivial
  case run θ choice fail =>
    obtain ⟨⟨p, pc⟩, ht, rfl⟩ := map_eq_some_iff.1 hs
    refine h.advance ht ?_ (advance_turn n s p choice fail pc)
    rintro b i w g rfl
    exact gen_lt_of_timely htimely ht
  case begin p =>
    split_ifs at hs
    cases hs
    exact h.congr rfl rfl rfl
  all_goals exact hwriter hs

end Step

/-! ## Pins -/

/-- The bound the writer has so far, or works with, is not above `t`. -/
def Bound.Below (t : ℕ) : Bound → Prop
  | .none => True
  | .scan _ oldest => oldest ≤ t
  | .scanTxn _ oldest => oldest ≤ t
  | .publish oldest => oldest ≤ t
  | .known bound => bound ≤ t

/-- A pin of `t` in slot `i` is accounted for, or the scan has not passed the slot. -/
def Bound.Clears (i t : ℕ) : Bound → Prop
  | .none => True
  | .scan j oldest => oldest ≤ t ∨ j ≤ i
  | .scanTxn j oldest => oldest ≤ t ∨ j ≤ i
  | .publish oldest => oldest ≤ t
  | .known bound => bound ≤ t

theorem Bound.Below.clears {b : Bound} {t : ℕ} (h : b.Below t) (i : ℕ) : b.Clears i t := by
  cases b with
  | none => trivial
  | scan | scanTxn => exact .inl h
  | publish | known => exact h

/-- What keeps a pinned snapshot from being used again. -/
structure Pins (s : System) : Prop where
  id : s.current ≤ u64Max
  cache : s.cache ≤ s.current
  writer : ∀ w, s.writer = some w → w.base = s.current ∧ w.bound.Below s.current
  pins : ∀ θ p i w t, s.thread θ = some (p, .pinned i w t) →
    s.cache ≤ t ∧ ∀ wr, s.writer = some wr → wr.bound.Clears i t

section Step

variable {n : ℕ} {s s' : System}

theorem Pins.start {current : ℕ} (hid : current ≤ u64Max) (entries : List FreeEntry)
    (highWater : ℕ) : Pins (.start current entries highWater) :=
  ⟨hid, Nat.zero_le _, by simp [System.start], by simp [System.start]⟩

theorem Pins.frame (h : Pins s) (hcurrent : s'.current = s.current) (hcache : s'.cache = s.cache)
    (hwriter : ∀ w, s'.writer = some w → s.writer = some w)
    (hthread : ∀ θ p i w t, s'.thread θ = some (p, .pinned i w t) →
      ∃ θ p, s.thread θ = some (p, .pinned i w t)) : Pins s' := by
  refine ⟨hcurrent ▸ h.id, hcache ▸ hcurrent ▸ h.cache, fun w hw => ?_, fun θ p i w t ht => ?_⟩
  · rw [hcurrent]
    exact h.writer w (hwriter w hw)
  · obtain ⟨θ', p', ht'⟩ := hthread θ p i w t ht
    rw [hcache]
    exact ⟨(h.pins θ' p' i w t ht').1, fun wr hwr =>
      (h.pins θ' p' i w t ht').2 wr (hwriter wr hwr)⟩

theorem Advance.pinned_eq {p : Proc} {pc : Pc} {a : Turn} (ha : Advance n s p pc a) {i t : ℕ}
    {w : SlotWord} (hpc : a.pc = some (.pinned i w t)) : t = s.current := by
  cases ha <;> simp only [reduceCtorEq, Option.some.injEq, Pc.pinned.injEq] at hpc
  case rest hblank => exact (hblank (.pinned i w t) (by simp [hpc])).elim
  case pinned => exact hpc.2.2.symm

theorem Pins.advance (h : Pins s) {θ : ℕ} {p : Proc} {pc : Pc} {a : Turn}
    (ha : Advance n s p pc a) (slot : ℕ → Slot) :
    Pins { s with slot := slot, thread := Function.update s.thread θ (a.pc.map (p, ·)) } := by
  refine ⟨h.id, h.cache, h.writer, fun θ' p' i w t ht => ?_⟩
  rcases thread_run _ _ ht with ⟨-, -, hpc⟩ | ⟨-, ht'⟩
  · obtain rfl := ha.pinned_eq hpc
    exact ⟨h.cache, fun wr hwr => (h.writer wr hwr).2.clears i⟩
  · exact h.pins θ' p' i w t ht'

theorem Pins.setBound (h : Pins s) {cache : ℕ} (wr : Writer) (hcache : cache ≤ s.current)
    (hbase : wr.base = s.current) (hbelow : wr.bound.Below s.current)
    (hpins : ∀ θ p i w t, s.thread θ = some (p, .pinned i w t) →
      cache ≤ t ∧ wr.bound.Clears i t) :
    Pins { s with cache := cache, writer := some wr } := by
  refine ⟨h.id, hcache, ?_, fun θ p i w t ht => ⟨(hpins θ p i w t ht).1, ?_⟩⟩
  · rintro w ⟨⟩
    exact ⟨hbase, hbelow⟩
  · rintro w' ⟨⟩
    exact (hpins θ p i w t ht).2

/-- The scan has met a pinned slot, or the slot is still to come. -/
theorem Pins.scanStep (h : Pins s) (ho : Owned n s) {wr : Writer} (hwr : s.writer = some wr)
    (hs : s.scanStep n wr = some s') : Pins s' := by
  obtain ⟨hbase, hbelow⟩ := h.writer wr hwr
  have hcur := h.id
  simp only [System.scanStep] at hs
  split at hs
  next j o hb =>
    cases hs
    rw [hb] at hbelow
    refine h.setBound { wr with bound := _ } h.cache hbase ?_ fun θ p i w t ht => ?_
    · dsimp only
      split_ifs <;> exact hbelow
    · obtain ⟨hcache, hpins⟩ := h.pins θ p i w t ht
      have hclear := hpins wr hwr
      have hlive := (ho.good θ p _ ht).1
      rw [hb] at hclear
      refine ⟨hcache, ?_⟩
      split_ifs with hn h0
      · have := hlive.lt
        rcases hclear with hle | hji
        · exact hle
        · omega
      · refine hclear.imp_right fun hji => Nat.lt_of_le_of_ne hji ?_
        rintro rfl
        rw [hlive.word, hlive.pid] at h0
        exact p.pid_pos h0
      · exact hclear
  next j o hb =>
    cases hs
    rw [hb] at hbelow
    refine h.setBound { wr with bound := _ } h.cache hbase
      ((min_le_left _ _).trans hbelow) fun θ p i w t ht => ?_
    obtain ⟨hcache, hpins⟩ := h.pins θ p i w t ht
    have hclear := hpins wr hwr
    have htxn := (ho.good θ p _ ht).2
    rw [hb] at hclear
    refine ⟨hcache, ?_⟩
    rcases hclear with hle | hji
    · exact .inl ((min_le_left _ _).trans hle)
    · rcases Nat.lt_or_eq_of_le hji with hlt | rfl
      · exact .inr hlt
      · refine .inl ((min_le_right _ _).trans ?_)
        split_ifs with hmax
        · omega
        · omega
  next o hb =>
    cases hs
    rw [hb] at hbelow
    refine h.setBound { wr with bound := _ } (max_le h.cache hbelow) hbase hbelow
      fun θ p i w t ht => ?_
    obtain ⟨hcache, hpins⟩ := h.pins θ p i w t ht
    have hclear := hpins wr hwr
    rw [hb] at hclear
    exact ⟨max_le hcache hclear, hclear⟩
  next => simp at hs

/-- The writer's steps never pass a pin. -/
theorem Pins.stepWriter (h : Pins s) (ho : Owned n s) {wr : Writer} (hwr : s.writer = some wr)
    {l : Label} (hs : s.stepWriter n wr l = some s') : Pins s' := by
  obtain ⟨hbase, hbelow⟩ := h.writer wr hwr
  cases l <;> simp only [System.stepWriter, reduceCtorEq] at hs
  case call c =>
    split at hs
    next hb =>
      obtain ⟨t, -, rfl⟩ := map_eq_some_iff.1 hs
      refine h.setBound { wr with txn := t } h.cache hbase hbelow fun θ p i w t ht => ?_
      exact ⟨(h.pins θ p i w t ht).1, (h.pins θ p i w t ht).2 wr hwr⟩
    next => simp at hs
  case refill =>
    split at hs
    next e hb he =>
      split_ifs at hs
      · cases hs
        exact h.setBound { wr with recomputed := true, bound := _ } h.cache hbase hbase.le
          fun θ p i w t ht => ⟨(h.pins θ p i w t ht).1, .inr (Nat.zero_le i)⟩
      · cases hs
        exact h.setBound { wr with bound := _ } h.cache hbase h.cache
          fun θ p i w t ht => ⟨(h.pins θ p i w t ht).1, (h.pins θ p i w t ht).1⟩
    next => simp at hs
  case scan => exact h.scanStep ho hwr hs
  case draw frontier =>
    split at hs
    next b hb =>
      cases hs
      exact h.setBound { wr with txn := _, bound := .none } h.cache hbase trivial
        fun θ p i w t ht => ⟨(h.pins θ p i w t ht).1, trivial⟩
    next => simp at hs
  case commit pc rc =>
    split at hs
    next hb =>
      split_ifs at hs with hid
      obtain ⟨es, -, rfl⟩ := map_eq_some_iff.1 hs
      have hcache := h.cache
      refine ⟨hid, ?_, by simp, fun θ p i w t ht => ⟨(h.pins θ p i w t ht).1, by simp⟩⟩
      dsimp only
      omega
    next => simp at hs
  case abort =>
    cases hs
    exact ⟨h.id, h.cache, by simp, fun θ p i w t ht => ⟨(h.pins θ p i w t ht).1, by simp⟩⟩

/-- The steps of the readers and of the writer together. -/
theorem Pins.step (h : Pins s) (ho : Owned n s) {l : Label} (hs : s.step n l = some s') :
    Pins s' := by
  have hwriter : s.writer.bind (fun w => s.stepWriter n w l) = some s' → Pins s' := by
    intro hb
    obtain ⟨wr, hwr, hw⟩ := bind_eq_some_iff.1 hb
    exact h.stepWriter ho hwr hw
  have henter : ∀ {θ p pc}, pc.Blank →
      Pins { s with thread := Function.update s.thread θ (some (p, pc)) } := by
    intro θ p pc hpc
    refine h.frame rfl rfl (fun _ hw => hw) fun θ' p' i w t ht => ?_
    rcases thread_run p (some pc) ht with ⟨-, -, hpc'⟩ | ⟨-, ht'⟩
    · rw [Option.some.inj hpc'] at hpc
      exact hpc.elim
    · exact ⟨θ', p', ht'⟩
  cases l <;> simp only [System.step] at hs
  case spawn p =>
    split_ifs at hs
    cases hs
    exact h.frame rfl rfl (fun _ hw => hw) fun θ p i w t ht => ⟨θ, p, ht⟩
  case die p =>
    cases hs
    refine h.frame rfl rfl (fun w hw => ?_) fun θ p' i w t ht => ⟨θ, p', ?_⟩
    · exact (filter_eq_some_iff.1 hw).1
    · exact (filter_eq_some_iff.1 ht).1
  case pin | sweep =>
    split_ifs at hs
    cases hs
    exact henter trivial
  case run θ choice fail =>
    obtain ⟨⟨p, pc⟩, ht, rfl⟩ := map_eq_some_iff.1 hs
    exact h.advance (advance_turn n s p choice fail pc) _
  case begin p =>
    split_ifs at hs
    cases hs
    refine ⟨h.id, h.cache, ?_, fun θ p' i w t ht => ⟨(h.pins θ p' i w t ht).1, ?_⟩⟩
    · rintro w ⟨⟩
      exact ⟨rfl, trivial⟩
    · rintro wr ⟨⟩
      trivial
  all_goals exact hwriter hs

end Step

theorem pins_of_reaches {n current : ℕ} {entries : List FreeEntry} {highWater : ℕ} {s : System}
    (hid : current ≤ u64Max)
    (h : Transition.Reaches (step n) (fun s l => s.timely l = true)
      (start current entries highWater) s) :
    Owned n s ∧ Pins s := by
  refine h.invariant (P := fun s => Owned n s ∧ Pins s)
    ⟨Owned.start _ _ _, Pins.start hid _ _⟩ fun s l s' hinv hl hs => ?_
  exact ⟨hinv.1.step hl hs, hinv.2.step hinv.1 hs⟩

theorem entry_of_refillReusable {t t' : Txn} {bound : ℕ} {frontier : Option ℕ}
    (h : t.refillReusable bound frontier = some t') :
    ∃ e, t.entries[t.cursor]? = some e ∧ t'.cursor = t.cursor + 1 ∧ e.txn ≤ bound := by
  simp only [Txn.refillReusable] at h
  split_ifs at h
  split at h
  · simp at h
  · rename_i e he
    split at h
    · simp at h
    · refine ⟨e, he, ?_, by omega⟩
      split at h
      · cases h
        rfl
      · split at h
        · simp at h
        · cases h
          rfl

/-- While a read transaction holds its pin of `t`, the cached bound and every bound the writer works
with are at most `t`, so an entry that it draws was freed by a commit not later than `t`; and a
thread stores only to slots that no other thread of a live process owns. -/
theorem reader_pin_safe (n current : ℕ) (hid : current ≤ u64Max) (entries : List FreeEntry)
    (highWater : ℕ) (s : System)
    (hs : Transition.Reaches (System.step n) (fun s l => s.timely l = true)
      (System.start current entries highWater) s) :
    (∀ θ p i w t, s.thread θ = some (p, .pinned i w t) → s.cache ≤ t ∧
      ∀ wr b, s.writer = some wr → wr.bound = .known b → b ≤ t ∧
        ∀ frontier txn, wr.txn.refillReusable b frontier = some txn →
          ∃ e, wr.txn.entries[wr.txn.cursor]? = some e ∧ txn.cursor = wr.txn.cursor + 1 ∧ e.txn ≤ t)
          ∧
    ∀ θ choice fail, s.timely (.run θ choice fail) = true → ∀ p pc i x, s.thread θ = some (p, pc) →
      (s.turn n p choice fail pc).write = some (i, x) →
      ∀ θ' p' pc', s.thread θ' = some (p', pc') → pc'.slot n = some i → θ' = θ := by
  obtain ⟨hown, hpins⟩ := pins_of_reaches hid hs
  refine ⟨fun θ p i w t ht => ?_, fun θ choice fail htimely p pc i x ht hw θ' p' pc' ht' hi => ?_⟩
  · obtain ⟨hcache, hbound⟩ := hpins.pins θ p i w t ht
    refine ⟨hcache, fun wr b hwr hb => ?_⟩
    have hle : b ≤ t := by simpa [hb, Bound.Clears] using hbound wr hwr
    refine ⟨hle, fun frontier txn hrefill => ?_⟩
    obtain ⟨e, he, hcursor, hbe⟩ := entry_of_refillReusable hrefill
    exact ⟨e, he, hcursor, hbe.trans hle⟩
  · have hsweep : ∀ b i w g, pc = .sweepFree b i w g → (s.slot i).gen < g + 2 ^ 32 := by
      rintro b i w g rfl
      exact gen_lt_of_timely htimely ht
    rcases hown.advance_write ht hsweep (advance_turn n s p choice fail pc) hw with hself | hfree
    · exact hown.apart θ p pc θ' p' pc' i ht ht' hself hi
    · exact absurd hi (hfree θ' p' pc' ht')

/-! ## A pin, and a generation number that comes round -/

/-- A process. -/
def firstProc : Proc := ⟨1, 1, by decide, by decide⟩

/-- A process that sweeps. -/
def sweeperProc : Proc := ⟨2, 2, by decide, by decide⟩

/-- A process with the number of the first one. -/
def secondProc : Proc := ⟨1, 3, by decide, by decide⟩

/-- `claim_and_pin` in a table of one free slot. -/
def pinSteps (θ : ℕ) (p : Proc) : List Label := .pin θ p :: List.replicate 9 (.run θ 0 false)

/-- A reader pins transaction 5, a commit follows, and the next writer scans the table. -/
def pinnedRun : List Label :=
  .spawn firstProc :: pinSteps 0 firstProc ++
    [.begin firstProc, .commit [] [], .begin firstProc, .refill, .scan, .scan, .scan, .scan]

/-- The pin holds the bound of that scan down to 5. -/
theorem reader_pin_safe_scan :
    ∃ s, Transition.Reaches (System.step 1) (fun s l => s.timely l = true)
        (.start 5 [⟨5, .pages, 0, [40]⟩] 50) s ∧
      (s.current = 6 ∧ (s.writer.map Writer.bound) = some (.known 5)) ∧
      (∀ θ p i w t, s.thread θ = some (p, .pinned i w t) → s.cache ≤ t) ∧
      s.thread 0 = some (firstProc, .pinned 0 ⟨1, 1⟩ 5) := by
  obtain ⟨s, hs, hcur, hbound, hpin⟩ := Transition.exists_reaches (step 1)
    (fun s l => s.timely l = true) (.start 5 [⟨5, .pages, 0, [40]⟩] 50) pinnedRun
    (fun s => s.current = 6 ∧ (s.writer.map Writer.bound) = some (.known 5) ∧
      s.thread 0 = some (firstProc, .pinned 0 ⟨1, 1⟩ 5)) (by decide)
  have hsafe := (reader_pin_safe 1 5 (by decide) _ 50 s hs).1
  exact ⟨s, hs, ⟨hcur, hbound⟩, fun θ p i w t ht => (hsafe θ p i w t ht).1, hpin⟩

/-- Thread 3 is at `next` in the table's only slot, while a sweeper is about to free the slot that
the first process has left. -/
structure Stalled (s : System) (next : Option Pc) (w : SlotWord) : Prop where
  thread : s.thread 3 = next.map (secondProc, ·)
  word : (s.slot 0).word = w
  live : secondProc ∈ s.live
  current : s.current = 5
  sweeper : s.thread 1 = some (sweeperProc, .sweepFree false 0 ⟨1, 1⟩ 1)

namespace Stalled

variable {s : System} {pc : Pc} {w : SlotWord}

/-- The states of the runs from `s`, in a table of one slot. -/
abbrev Later (s s' : System) : Prop := Transition.Reaches (System.step 1) (fun _ _ => True) s s'

theorem step (h : Stalled s (some pc) w) (next : Option Pc) (w' : SlotWord)
    (x : Option (ℕ × SlotWrite)) (hturn : s.turn 1 secondProc 0 false pc = ⟨x, next⟩)
    (hw : (s.store x 0).word = w') : ∃ s', Later s s' ∧ Stalled s' next w' := by
  have hs : s.step 1 (.run 3 0 false) = some { s with
      slot := s.store x
      thread := Function.update s.thread 3 (next.map (secondProc, ·)) } := by
    rw [System.step, h.thread]
    simp [hturn]
  refine ⟨_, .tail .refl trivial hs, ⟨?_, hw, h.live, h.current, ?_⟩⟩
  · simp
  · simpa using h.sweeper

variable {q : BitVec 32}

/-- Alone, the second process claims the slot and pins. -/
theorem pin (h : Stalled s none ⟨0, q⟩) :
    ∃ s', Later s s' ∧ Stalled s' (some (.pinned 0 ⟨1, q + 1⟩ 5)) ⟨1, q + 1⟩ := by
  have hpin : s.step 1 (.pin 3 secondProc) = some { s with
      thread := Function.update s.thread 3 (some (secondProc, .claim false)) } :=
    if_pos ⟨h.thread, h.live⟩
  have h₀ : Stalled { s with
      thread := Function.update s.thread 3 (some (secondProc, .claim false)) }
      (some (.claim false)) ⟨0, q⟩ :=
    ⟨by simp, h.word, h.live, h.current, by simpa using h.sweeper⟩
  obtain ⟨s₁, r₁, h₁⟩ := h₀.step (some (.load ⟨0, 0, 0, false⟩)) ⟨0, q⟩ none rfl h₀.word
  obtain ⟨s₂, r₂, h₂⟩ := h₁.step (some (.cas ⟨0, 0, 0, false⟩ ⟨0, q⟩)) ⟨0, q⟩ none
    (by simp [turn, Claim.idx, h₁.word]) h₁.word
  obtain ⟨s₃, r₃, h₃⟩ := h₂.step (some (.initTxn ⟨0, 0, 0, false⟩ (q + 1)))
    ⟨secondProc.pid ||| claiming, q + 1⟩ (some (0, .word ⟨secondProc.pid ||| claiming, q + 1⟩))
    (by simp [turn, cas, Claim.idx, h₂.word]) (by simp [store, write])
  obtain ⟨s₄, r₄, h₄⟩ := h₃.step (some (.initStart ⟨0, 0, 0, false⟩ (q + 1)))
    ⟨secondProc.pid ||| claiming, q + 1⟩ (some (0, .txn u64Max)) rfl
    (by simp [store, write, h₃.word])
  obtain ⟨s₅, r₅, h₅⟩ := h₄.step (some (.goLive ⟨0, 0, 0, false⟩ (q + 1)))
    ⟨secondProc.pid ||| claiming, q + 1⟩ (some (0, .pidStart secondProc.start)) rfl
    (by simp [store, write, h₄.word])
  obtain ⟨s₆, r₆, h₆⟩ := h₅.step (some (.pinMeta 0 ⟨secondProc.pid, q + 1⟩))
    ⟨secondProc.pid, q + 1⟩ (some (0, .word ⟨secondProc.pid, q + 1⟩))
    (by simp [turn, cas, Claim.idx, h₅.word]) (by simp [store, write])
  obtain ⟨s₇, r₇, h₇⟩ := h₆.step (some (.pinStore 0 ⟨secondProc.pid, q + 1⟩ 5))
    ⟨secondProc.pid, q + 1⟩ none (by simp [turn, h₆.current]) h₆.word
  obtain ⟨s₈, r₈, h₈⟩ := h₇.step (some (.pinCheck 0 ⟨secondProc.pid, q + 1⟩ 5))
    ⟨secondProc.pid, q + 1⟩ (some (0, .txn 5)) rfl (by simp [store, write, h₇.word])
  obtain ⟨s₉, r₉, h₉⟩ := h₈.step (some (.pinned 0 ⟨secondProc.pid, q + 1⟩ 5))
    ⟨secondProc.pid, q + 1⟩ none (by simp [turn, h₈.current]) h₈.word
  refine ⟨s₉, .head trivial hpin ?_, h₉⟩
  exact r₁.trans (r₂.trans (r₃.trans (r₄.trans (r₅.trans (r₆.trans (r₇.trans (r₈.trans r₉)))))))

/-- A claim and its release raise the generation number by two. -/
theorem pinAndRelease (h : Stalled s none ⟨0, q⟩) :
    ∃ s', Later s s' ∧ Stalled s' none ⟨0, q + 2⟩ := by
  obtain ⟨s₁, r₁, h₁⟩ := h.pin
  obtain ⟨s₂, r₂, h₂⟩ := h₁.step none ⟨0, q + 2⟩ (some (0, .word ⟨0, q + 2⟩))
    (by simp [turn, cas, h₁.word, BitVec.add_assoc])
    (by simp [store, write])
  exact ⟨s₂, r₁.trans r₂, h₂⟩

theorem cycles (h : Stalled s none ⟨0, q⟩) (k : ℕ) :
    ∃ s', Later s s' ∧ Stalled s' none ⟨0, q + BitVec.ofNat 32 (2 * k)⟩ := by
  induction k with
  | zero => exact ⟨s, .refl, by simpa using h⟩
  | succ k ih =>
    obtain ⟨s₁, r₁, h₁⟩ := ih
    obtain ⟨s₂, r₂, h₂⟩ := h₁.pinAndRelease
    refine ⟨s₂, r₁.trans r₂, ?_⟩
    rw [Nat.mul_succ, BitVec.ofNat_add, ← BitVec.add_assoc]
    exact h₂

end Stalled

/-- The first process dies with its slot pinned; two sweepers find it dead, and one of them frees
the slot. -/
def stalledRun : List Label :=
  [.spawn firstProc] ++ pinSteps 0 firstProc ++ [.die firstProc, .spawn sweeperProc] ++
    (.sweep 1 sweeperProc :: List.replicate 3 (.run 1 0 false)) ++
    (.sweep 2 sweeperProc :: List.replicate 5 (.run 2 0 false)) ++ [.spawn secondProc]

/-- After 2^31 claims of the slot by a process with the pid of the dead one, the sweeper that was
left behind frees the slot from its live owner. -/
theorem sweep_frees_live_slot :
    ∃ s, Transition.Reaches (System.step 1) (fun _ _ => True) (.start 5 [] 50) s ∧
      secondProc ∈ s.live ∧ s.thread 3 = some (secondProc, .pinned 0 ⟨1, 1⟩ 5) ∧
      s.thread 1 = some (sweeperProc, .sweepFree false 0 ⟨1, 1⟩ 1) ∧
      (s.turn 1 sweeperProc 0 false (.sweepFree false 0 ⟨1, 1⟩ 1)).write =
        some (0, .word ⟨0, 2⟩) := by
  obtain ⟨s, hs, hlive, hcur, hthread, hsweeper, hword⟩ := Transition.exists_reaches (step 1)
    (fun _ _ => True) (.start 5 [] 50) stalledRun
    (fun s => secondProc ∈ s.live ∧ s.current = 5 ∧ s.thread 3 = none ∧
      s.thread 1 = some (sweeperProc, .sweepFree false 0 ⟨1, 1⟩ 1) ∧ (s.slot 0).word = ⟨0, 2⟩)
    (by decide)
  have h : Stalled s none ⟨0, 2⟩ := ⟨hthread, hword, hlive, hcur, hsweeper⟩
  obtain ⟨s₁, r₁, h₁⟩ := h.cycles (2 ^ 31 - 1)
  obtain ⟨s₂, r₂, h₂⟩ := h₁.pin
  refine ⟨s₂, (hs.trans r₁).trans r₂, h₂.live, h₂.thread, h₂.sweeper, ?_⟩
  simp [turn, cas, h₂.word]

end Mpedb.Readers
