import Mathlib.Tactic.SplitIfs
import Mpedb.Ring

/-!
# The ring executes an intent exactly once

A ready slot is fresh, staged for the transaction about to be published, or staged for one that was
published and not posted yet. `SlotOK` says what each of these means for the number of committed
transactions that hold the intent. A writer that commits outside a round turns the stamp of a batch
that was never published into one that looks published, which `Admissible` excludes.
-/

namespace Mpedb.Ring

open Transition List World

/-! ## The invariant -/

/-- The slot holds an intent. -/
def Slot.occupied (s : Slot) : Prop := s.header.state = .ready ∨ s.header.state = .done

/-- The number of transactions an intent with this result is in. -/
def Slot.expected (s : Slot) : ℕ := if s.errCode = 0 then 1 else 0

/-- What a slot's stamp says about its intent when `n` is the newest committed transaction and
`land` counts the committed transactions that hold an intent. -/
structure SlotOK (n : ℕ) (land : ℕ → ℕ) (s : Slot) : Prop where
  unposted : s.header.state = .ready → s.resultState = false
  fresh : s.header.state = .ready → s.committedIn = 0 → land s.intent = 0
  landed : s.header.state = .ready → s.committedIn ≠ 0 → s.committedIn ≤ n →
    land s.intent = s.expected
  staged : s.header.state = .ready → n < s.committedIn → s.committedIn = n + 1 ∧ land s.intent = 0
  done : s.header.state = .done → s.resultState = true ∧ land s.intent = s.expected

/-- The slot is the one the ticket's owner filled. -/
structure Holds (t : Ticket) (s : Slot) : Prop where
  pid : s.header.pid = t.owned.pid
  gen : s.header.gen = t.owned.gen
  occupied : s.occupied
  intent : s.intent = t.intent

/-- What holds of the slots and the tickets whoever has the lock. -/
structure Core (w : World) : Prop where
  slots : ∀ i, SlotOK w.txnId w.landings (w.slots i)
  bound : ∀ i, (w.slots i).occupied → (w.slots i).intent < w.enqueued
  inj : ∀ i j, (w.slots i).occupied → (w.slots j).occupied →
    (w.slots i).intent = (w.slots j).intent → i = j
  unknown : ∀ t, w.enqueued ≤ t → w.landings t = 0
  holds : ∀ t ∈ w.tickets, Holds t (w.slots t.idx)
  owner : ∀ t ∈ w.tickets, t.owned.pid = t.pid ∧ t.pid ∉ w.dead
  tickets : (w.tickets.map Ticket.idx).Nodup
  reads : ∀ p ∈ w.reads, p.1 < w.enqueued ∧
    w.landings p.1 = (if p.2.errCode = 0 then 1 else 0) ∧
    ∀ i, (w.slots i).header.state = .ready → (w.slots i).intent ≠ p.1

/-- The slot is still as the leader collected it. -/
def Member.Here (slots : Slots) (m : Member) : Prop :=
  (slots m.intent.idx).header = m.intent.word ∧ m.intent.word.state = .ready ∧
    (slots m.intent.idx).intent = m.intent.intent

/-- What holds of a round on its way. -/
structure RoundOK (slots : Slots) (n : ℕ) (r : Round) : Prop where
  here : ∀ m ∈ r.done ++ r.todo, m.Here slots
  nodup : ((r.done ++ r.todo).map (·.intent.idx)).Nodup
  stamped : ∀ i, (slots i).header.state = .ready → (slots i).committedIn ≠ 0 →
    (slots i).committedIn = n + 1 ∧ ∃ m ∈ r.done ++ r.todo, m.intent.idx = i
  done : ∀ m ∈ r.done, (slots m.intent.idx).committedIn = n + 1 ∧
    (m.intent.intent ∈ r.effects ↔ (slots m.intent.idx).errCode = 0)
  effects : ∀ t ∈ r.effects, ∃ m ∈ r.done, m.intent.intent = t

/-- What holds of the slots still to be posted. -/
def PostOK (slots : Slots) (n : ℕ) (l : List (Fin ringSlots × Header)) : Prop :=
  (l.map Prod.fst).Nodup ∧ ∀ p ∈ l, (slots p.1).header = p.2 ∧ p.2.state = .ready ∧
    (slots p.1).committedIn ≠ 0 ∧ (slots p.1).committedIn ≤ n

/-- No ready slot carries a stamp. -/
def Unstamped (slots : Slots) : Prop :=
  ∀ i, (slots i).header.state = .ready → (slots i).committedIn = 0

/-- What holds of the writer, stage by stage. -/
def WriterOK (slots : Slots) (n base : ℕ) : Writer → Prop
  | .direct => base = n
  | .begun _ => base = n
  | .recovered _ => base = n ∧ Unstamped slots
  | .reclaimed _ => base = n ∧ Unstamped slots
  | .round r => base = n ∧ RoundOK slots n r
  | .posting l => PostOK slots n l

/-- What holds of the lock. -/
def LockOK (slots : Slots) (n : ℕ) : Lock → Prop
  | .free => True
  | .orphaned => True
  | .held _ base wr => WriterOK slots n base wr

/-- The invariant. -/
structure Inv (w : World) : Prop where
  core : Core w
  lock : LockOK w.slots w.txnId w.lock

theorem inv_init (d : Durability) (n : ℕ) : Inv (init d n) where
  core :=
    { slots := fun _ => by constructor <;> simp [init, emptySlot, pack]
      bound := fun _ h => by simp [init, emptySlot, pack, Slot.occupied] at h
      inj := fun _ _ h => by simp [init, emptySlot, pack, Slot.occupied] at h
      unknown := fun _ _ => by simp [init, landings]
      holds := fun _ h => by simp [init] at h
      owner := fun _ h => by simp [init] at h
      tickets := by simp [init]
      reads := fun _ h => by simp [init] at h }
  lock := trivial

section Evolve

variable {w : World} {s s' : Slot} {slots' : Slots} {n : ℕ} {land : ℕ → ℕ} {t : Ticket}

/-- The slot keeps its intent and becomes neither occupied nor ready. -/
structure Evolves (s s' : Slot) : Prop where
  occupied : s'.occupied → s.occupied
  intent : s'.occupied → s'.intent = s.intent
  ready : s'.header.state = .ready → s.header.state = .ready

theorem Evolves.rfl' (s : Slot) : Evolves s s := ⟨id, fun _ => rfl, id⟩

theorem Core.setLock (h : Core w) (l : Lock) (u : Option (List ℕ)) :
    Core { w with lock := l, unacked := u } :=
  { h with }

theorem Core.evolve (h : Core w) (l : Lock) (hev : ∀ i, Evolves (w.slots i) (slots' i))
    (hok : ∀ i, SlotOK w.txnId w.landings (slots' i))
    (hhold : ∀ t ∈ w.tickets, Holds t (slots' t.idx)) :
    Core { w with slots := slots', lock := l } :=
  { h with
    slots := hok
    holds := hhold
    bound i hi := by
      rw [(hev i).intent hi]
      exact h.bound i ((hev i).occupied hi)
    inj i j hi hj he := by
      rw [(hev i).intent hi, (hev j).intent hj] at he
      exact h.inj i j ((hev i).occupied hi) ((hev j).occupied hj) he
    reads p hp := by
      obtain ⟨h1, h2, h3⟩ := h.reads p hp
      refine ⟨h1, h2, fun i hi => ?_⟩
      rw [(hev i).intent (Or.inl hi)]
      exact h3 i ((hev i).ready hi) }

theorem postDone_ok (h : SlotOK n land s) (hr : s.header.state = .ready)
    (h0 : s.committedIn ≠ 0) (hn : s.committedIn ≤ n) : SlotOK n land (postDone s.header s) where
  unposted h1 := by simp [postDone] at h1
  fresh h1 := by simp [postDone] at h1
  landed h1 := by simp [postDone] at h1
  staged h1 := by simp [postDone] at h1
  done _ := ⟨rfl, h.landed hr h0 hn⟩

theorem postDone_holds (h : Holds t s) : Holds t (postDone s.header s) :=
  ⟨by simp [postDone, h.pid], by simp [postDone, h.gen], Or.inr (by simp [postDone]), h.intent⟩

theorem recoverSlot_evolves (n : ℕ) (s : Slot) : Evolves s (recoverSlot n s) := by
  unfold recoverSlot
  split_ifs with h0 hr hn
  · exact Evolves.rfl' s
  · exact Evolves.rfl' s
  · have hready : s.header.state = .ready := by simpa using hr
    exact ⟨fun _ => Or.inl hready, fun _ => rfl, fun _ => hready⟩
  · exact ⟨id, fun _ => rfl, id⟩

theorem recoverSlot_ok (h : SlotOK n land s) : SlotOK n land (recoverSlot n s) := by
  unfold recoverSlot
  split_ifs with h0 hr hn
  · exact h
  · exact h
  · exact postDone_ok h (by simpa using hr) h0 hn
  · have hready : s.header.state = .ready := by simpa using hr
    have hland := (h.staged hready (by omega)).2
    exact ⟨h.unposted, fun _ _ => hland, fun _ h1 => absurd rfl h1, fun _ h1 => absurd h1 (by simp),
      h.done⟩

theorem recoverSlot_holds (h : Holds t s) : Holds t (recoverSlot n s) := by
  unfold recoverSlot
  split_ifs with h0 hr hn
  · exact h
  · exact h
  · exact postDone_holds h
  · exact { h with }

theorem recoverSlot_unstamped (h : (recoverSlot n s).header.state = .ready) :
    (recoverSlot n s).committedIn = 0 := by
  unfold recoverSlot at h ⊢
  split_ifs at h ⊢ with h0 hr hn
  · exact h0
  · exact absurd h hr
  · simp [postDone] at h
  · rfl

theorem reclaimSlot_evolves (dead : List ℕ) (s : Slot) : Evolves s (reclaimSlot dead s) := by
  unfold reclaimSlot
  split_ifs
  · exact Evolves.rfl' s
  · refine ⟨fun h => ?_, fun _ => rfl, fun h => ?_⟩
    · simp [Slot.occupied, pack] at h
    · simp [pack] at h
  · exact Evolves.rfl' s

theorem reclaimSlot_ok (dead : List ℕ) (h : SlotOK n land s) :
    SlotOK n land (reclaimSlot dead s) := by
  unfold reclaimSlot
  split_ifs
  · exact h
  · constructor <;> simp [pack]
  · exact h

theorem reclaimSlot_of_alive {dead : List ℕ} (h : s.header.pid ∉ dead) :
    reclaimSlot dead s = s := by
  unfold reclaimSlot
  split_ifs <;> rfl

theorem reclaimSlot_unstamped {dead : List ℕ} (h : s.header.state = .ready → s.committedIn = 0)
    (hr : (reclaimSlot dead s).header.state = .ready) : (reclaimSlot dead s).committedIn = 0 := by
  unfold reclaimSlot at hr ⊢
  split_ifs at hr ⊢
  · exact h hr
  · simp [pack] at hr
  · exact h hr

theorem stageSlot_ok (h : SlotOK n land s) (hland : land s.intent = 0)
    (hr : s.header.state = .ready) (a c : ℕ) (msg : List UInt8) :
    SlotOK n land (stageSlot a c msg (n + 1) s) where
  unposted := h.unposted
  fresh _ h0 := by simp [stageSlot] at h0
  landed _ _ h1 := absurd h1 (by simp [stageSlot])
  staged _ _ := ⟨rfl, hland⟩
  done hd := by
    rw [show (stageSlot a c msg (n + 1) s).header = s.header from rfl, hr] at hd
    simp at hd

end Evolve

section Commit

variable {w : World}

theorem landings_flip (w : World) (e : List ℕ) (l : Lock) (n t : ℕ) :
    (w.flip n e l).landings t = w.landings t + if t ∈ e then 1 else 0 := by
  simp [World.landings, World.flip, countP_append, countP_cons]

variable {n : ℕ}

/-- The slot after a commit that holds the intents `e`: those stamped for it are in `e` when they
succeeded, and no other occupied slot's intent is. -/
theorem SlotOK.flip {s : Slot} {land land' : ℕ → ℕ} {e : List ℕ} (h : SlotOK n land s)
    (hland : ∀ t, land' t = land t + if t ∈ e then 1 else 0)
    (hnew : s.header.state = .ready → n < s.committedIn → (s.intent ∈ e ↔ s.errCode = 0))
    (hold : s.header.state = .ready → s.committedIn ≤ n → s.intent ∉ e)
    (hdone : s.header.state = .done → s.intent ∉ e) : SlotOK (n + 1) land' s where
  unposted := h.unposted
  fresh hr h0 := by rw [hland, h.fresh hr h0, if_neg (hold hr (by omega))]
  landed hr h0 hle := by
    by_cases hn : s.committedIn ≤ n
    · rw [hland, h.landed hr h0 hn, if_neg (hold hr hn), Nat.add_zero]
    · rw [hland, (h.staged hr (by omega)).2, Nat.zero_add]
      exact if_congr (hnew hr (by omega)) rfl rfl
  staged hr hlt := by
    have := (h.staged hr (by omega)).1
    omega
  done hd := by
    rw [hland, if_neg (hdone hd)]
    exact h.done hd

theorem Core.commitDirect (h : Core w) (hs : NoneStaged w) (l : Lock) :
    Core (w.flip w.txnId [] l) :=
  { h with
    slots i := (h.slots i).flip (landings_flip w [] l w.txnId)
      (fun hr hlt => absurd (hs i hr) (by omega)) (fun _ _ => not_mem_nil)
      (fun _ => not_mem_nil)
    unknown t ht := by
      rw [landings_flip]
      exact h.unknown t ht
    reads p hp := by
      rw [landings_flip]
      exact h.reads p hp }

variable {r : Round}

theorem RoundOK.slot_of_effect {slots : Slots} (h : RoundOK slots n r)
    {t : ℕ} (ht : t ∈ r.effects) : ∃ i, (slots i).header.state = .ready ∧
      (slots i).intent = t ∧ (slots i).committedIn = n + 1 := by
  obtain ⟨m, hm, rfl⟩ := h.effects t ht
  obtain ⟨h1, h2, h3⟩ := h.here m (mem_append_left _ hm)
  exact ⟨m.intent.idx, by rw [h1, h2], h3, (h.done m hm).1⟩

/-- The commit makes the effects of the staged members durable, and of no others. -/
theorem Core.commitRound (h : Core w) (hr : RoundOK w.slots w.txnId r)
    (htodo : r.todo = []) (l : Lock) : Core (w.flip w.txnId r.effects l) where
  slots i := by
    -- an effect of the round that is this slot's intent makes this slot staged and ready
    have heff : (w.slots i).occupied → (w.slots i).intent ∈ r.effects →
        (w.slots i).header.state = .ready ∧ (w.slots i).committedIn = w.txnId + 1 := by
      intro ho he
      obtain ⟨j, hj, hji, hjs⟩ := hr.slot_of_effect he
      have hij := h.inj j i (Or.inl hj) ho hji
      exact hij ▸ ⟨hj, hjs⟩
    refine (h.slots i).flip (landings_flip w _ l w.txnId) (fun hrd hlt => ?_) (fun hrd hle he => ?_)
      (fun hd he => ?_)
    · obtain ⟨-, m, hm, rfl⟩ := hr.stamped i hrd (by omega)
      rw [htodo, append_nil] at hm
      rw [(hr.here m (mem_append_left _ hm)).2.2]
      exact (hr.done m hm).2
    · have := (heff (Or.inl hrd) he).2
      omega
    · have := (heff (Or.inr hd) he).1
      rw [hd] at this
      simp at this
  __ := h
  unknown t ht := by
    rw [landings_flip, if_neg]
    · exact h.unknown t ht
    · intro he
      obtain ⟨j, hj, hji, _⟩ := hr.slot_of_effect he
      exact absurd (h.bound j (Or.inl hj)) (by rw [hji]; exact Nat.not_lt.2 ht)
  reads p hp := by
    obtain ⟨h1, h2, h3⟩ := h.reads p hp
    have hne : p.1 ∉ r.effects := fun he => by
      obtain ⟨j, hj, hji, _⟩ := hr.slot_of_effect he
      exact h3 j hj hji
    refine ⟨h1, ?_, h3⟩
    rw [landings_flip, if_neg hne, Nat.add_zero, h2]

theorem RoundOK.postOK {slots : Slots} (h : RoundOK slots n r)
    (htodo : r.todo = []) : PostOK slots (n + 1) r.staged := by
  have hnd := h.nodup
  rw [htodo] at hnd
  refine ⟨by simpa [Round.staged, Function.comp_def] using hnd, fun p hp => ?_⟩
  obtain ⟨m, hm, rfl⟩ := mem_map.1 hp
  obtain ⟨h1, h2, _⟩ := h.here m (mem_append_left _ hm)
  have hst := (h.done m hm).1
  exact ⟨h1, h2, by rw [hst]; omega, by rw [hst]⟩

end Commit

section Round

variable {w : World} {slots : Slots} {n : ℕ} {r : Round}

@[simp]
theorem modifySlot_self (slots : Slots) (i : Fin ringSlots) (f : Slot → Slot) :
    modifySlot slots i f i = f (slots i) := by
  simp [modifySlot]

variable {i : Fin ringSlots}

theorem modifySlot_of_ne {j : Fin ringSlots} (h : j ≠ i) (slots : Slots) (f : Slot → Slot) :
    modifySlot slots i f j = slots j := by
  simp [modifySlot, h]

theorem forall_modifySlot {P : Fin ringSlots → Slot → Prop} {f : Slot → Slot}
    (hi : P i (f (slots i))) (h : ∀ j, j ≠ i → P j (slots j)) :
    ∀ j, P j (modifySlot slots i f j) := by
  intro j
  rcases eq_or_ne j i with rfl | hj
  · rw [modifySlot_self]
    exact hi
  · rw [modifySlot_of_ne hj]
    exact h j hj

/-- A step that changes one slot in place. -/
theorem Core.modify (h : Core w) (l : Lock) {f : Slot → Slot}
    (hev : Evolves (w.slots i) (f (w.slots i))) (hok : SlotOK w.txnId w.landings (f (w.slots i)))
    (hhold : ∀ t ∈ w.tickets, t.idx = i → Holds t (f (w.slots i))) :
    Core { w with slots := modifySlot w.slots i f, lock := l } :=
  h.evolve l
    (forall_modifySlot (P := fun j s => Evolves (w.slots j) s) hev fun _ _ => Evolves.rfl' _)
    (forall_modifySlot (P := fun _ s => SlotOK w.txnId w.landings s) hok fun j _ => h.slots j)
    fun t ht => forall_modifySlot (P := fun j s => t.idx = j → Holds t s) (hhold t ht)
      (fun _ _ hj => hj ▸ h.holds t ht) t.idx rfl

theorem Core.landings_of_unstamped (h : Core w) (hr : (w.slots i).header.state = .ready)
    (hs : (w.slots i).committedIn = 0 ∨ (w.slots i).committedIn = w.txnId + 1) :
    w.landings (w.slots i).intent = 0 := by
  rcases hs with hs | hs
  · exact (h.slots i).fresh hr hs
  · exact ((h.slots i).staged hr (by omega)).2

theorem Core.stage (h : Core w) (hr : (w.slots i).header.state = .ready)
    (hs : (w.slots i).committedIn = 0 ∨ (w.slots i).committedIn = w.txnId + 1) (a c : ℕ)
    (msg : List UInt8) (l : Lock) :
    Core { w with slots := modifySlot w.slots i (stageSlot a c msg (w.txnId + 1)), lock := l } := by
  refine h.modify l ⟨id, fun _ => rfl, id⟩
    (stageSlot_ok (h.slots i) (h.landings_of_unstamped hr hs) hr a c msg) ?_
  rintro t ht rfl
  exact { h.holds t ht with }

theorem mem_collectReady {p : PendingIntent} (h : p ∈ collectReady slots) :
    (slots p.idx).header = p.word ∧ p.word.state = .ready ∧ (slots p.idx).intent = p.intent := by
  obtain ⟨i, -, hi⟩ := mem_filterMap.1 h
  simp only [collectSlot] at hi
  split_ifs at hi with h1 h2
  push Not at h1
  cases hi
  exact ⟨rfl, h1.1, rfl⟩

theorem collectSlot_idx {p : PendingIntent} (h : collectSlot slots i = some p) : p.idx = i := by
  simp only [collectSlot] at h
  split_ifs at h
  cases h
  rfl

theorem collect_sublist (slots : Slots) : ∀ l : List (Fin ringSlots),
    ((l.filterMap (collectSlot slots)).map (·.idx)).Sublist l
  | [] => List.Sublist.refl _
  | i :: l => by
    have ih := collect_sublist slots l
    rw [filterMap_cons]
    split
    · exact ih.cons i
    · rename_i p hp
      rw [map_cons, collectSlot_idx hp]
      exact ih.cons_cons i

theorem collectReady_nodup (slots : Slots) : ((collectReady slots).map (·.idx)).Nodup :=
  (collect_sublist slots _).nodup (nodup_finRange _)

theorem RoundOK.start (hu : Unstamped slots) {order : List PendingIntent}
    (hp : order.Perm (collectReady slots)) (own : Bool) :
    RoundOK slots n (startRound order own) where
  here m hm := by
    obtain ⟨p, hmem, rfl⟩ := mem_map.1 hm
    exact mem_collectReady (hp.mem_iff.1 hmem)
  nodup := by
    have := (hp.map PendingIntent.idx).nodup_iff.2 (collectReady_nodup slots)
    simpa [startRound, Function.comp_def] using this
  stamped i hr h0 := absurd (hu i hr) h0
  done m hm := by simp [startRound] at hm
  effects t ht := by simp [startRound] at ht

/-- Staging a member writes its result under the id that the round will commit. -/
theorem RoundOK.stage (h : RoundOK slots n r) {m : Member} {rest : List Member}
    (htodo : r.todo = m :: rest)
    (hinj : ∀ m' ∈ r.done, m'.intent.intent ≠ m.intent.intent) (a c : ℕ) (msg : List UInt8)
    (e : List ℕ) (he : ∀ t, t ∈ e ↔ t ∈ r.effects ∨ (t = m.intent.intent ∧ c = 0)) :
    RoundOK (modifySlot slots m.intent.idx (stageSlot a c msg (n + 1))) n
      { r with done := r.done ++ [m], todo := rest, effects := e } := by
  have hall : (r.done ++ [m]) ++ rest = r.done ++ r.todo := by simp [htodo]
  have hm : m ∈ r.done ++ r.todo := by simp [htodo]
  have hne : ∀ m' ∈ r.done, m'.intent.idx ≠ m.intent.idx := by
    have := h.nodup
    rw [htodo, map_append, nodup_append] at this
    exact fun m' hm' => this.2.2 _ (mem_map_of_mem hm') _ mem_cons_self
  have hnew : m.intent.intent ∉ r.effects := fun ht => by
    obtain ⟨m', hm', heq⟩ := h.effects _ ht
    exact hinj m' hm' heq
  refine ⟨fun m' hm' => ?_, by simpa only [hall] using h.nodup, fun i hr h0 => ?_,
    fun m' hm' => ?_, fun t ht => ?_⟩
  · rw [hall] at hm'
    have := h.here m' hm'
    exact forall_modifySlot (P := fun j s => j = m'.intent.idx → s.header = m'.intent.word ∧
      m'.intent.word.state = .ready ∧ s.intent = m'.intent.intent)
      (fun hj => hj ▸ this) (fun j _ hj => hj ▸ this) _ rfl
  · rw [hall]
    rcases eq_or_ne i m.intent.idx with rfl | hi
    · exact ⟨by simp [stageSlot], m, hm, rfl⟩
    · rw [modifySlot_of_ne hi] at hr h0 ⊢
      exact h.stamped i hr h0
  · rcases mem_append.1 hm' with hd | hd
    · rw [modifySlot_of_ne (hne m' hd), he]
      refine ⟨(h.done m' hd).1, ?_⟩
      rw [← (h.done m' hd).2]
      exact or_iff_left fun hc => hinj m' hd hc.1
    · obtain rfl := mem_singleton.1 hd
      rw [modifySlot_self, he]
      refine ⟨rfl, ?_⟩
      simp [hnew, stageSlot]
  · rcases (he t).1 ht with h1 | ⟨rfl, -⟩
    · obtain ⟨m', hm', heq⟩ := h.effects t h1
      exact ⟨m', mem_append_left _ hm', heq⟩
    · exact ⟨m, by simp, rfl⟩

/-- A round that starts over keeps the same members. -/
theorem RoundOK.restart (h : RoundOK slots n r) {cur : List Member} {own : OwnState}
    (hcur : cur.map Member.intent = r.todo.map Member.intent) :
    RoundOK slots n ({ r with own := own }.restart cur) := by
  have hall : (r.done ++ cur).map Member.intent = (r.done ++ r.todo).map Member.intent := by
    rw [map_append, map_append, hcur]
  have hmem : ∀ {p : PendingIntent}, p ∈ (r.done ++ cur).map Member.intent ↔
      p ∈ (r.done ++ r.todo).map Member.intent := by
    intro p
    rw [hall]
  refine ⟨fun m hm => ?_, ?_, fun i hr h0 => ?_, fun m hm => ?_, fun t ht => ?_⟩
  · obtain ⟨m', hm', heq⟩ := mem_map.1 (hmem.1 (mem_map_of_mem (f := Member.intent) hm))
    have := h.here m' hm'
    unfold Member.Here at this ⊢
    rwa [heq] at this
  · have := h.nodup
    rw [show (fun m : Member => m.intent.idx) = PendingIntent.idx ∘ Member.intent from rfl,
      ← map_map] at this ⊢
    rw [← hall] at this
    exact this
  · obtain ⟨hst, m, hm, hi⟩ := h.stamped i hr h0
    obtain ⟨m', hm', heq⟩ := mem_map.1 (hmem.2 (mem_map_of_mem (f := Member.intent) hm))
    exact ⟨hst, m', hm', by rw [heq, hi]⟩
  · simp [Round.restart] at hm
  · simp [Round.restart] at ht

end Round

section Frame

variable {w : World} {slots slots' : Slots} {n : ℕ}

/-- Ready slots stay as they are, and a slot that becomes ready carries no stamp. -/
def ReadyFrame (slots slots' : Slots) : Prop :=
  ∀ i, ((slots i).header.state = .ready → slots' i = slots i) ∧
    ((slots' i).header.state = .ready → slots' i = slots i ∨ (slots' i).committedIn = 0)

section

variable (hf : ReadyFrame slots slots')

include hf

theorem ReadyFrame.unstamped (h : Unstamped slots) :
    Unstamped slots' := by
  intro i hr
  rcases (hf i).2 hr with he | h0
  · rw [he] at hr ⊢
    exact h i hr
  · exact h0

theorem ReadyFrame.roundOK {r : Round} (h : RoundOK slots n r) :
    RoundOK slots' n r := by
  have hsame : ∀ m ∈ r.done ++ r.todo, slots' m.intent.idx = slots m.intent.idx := by
    intro m hm
    obtain ⟨h1, h2, -⟩ := h.here m hm
    exact (hf _).1 (by rw [h1, h2])
  refine ⟨fun m hm => ?_, h.nodup, fun i hr h0 => ?_, fun m hm => ?_, h.effects⟩
  · unfold Member.Here
    rw [hsame m hm]
    exact h.here m hm
  · rcases (hf i).2 hr with he | h1
    · rw [he] at hr h0 ⊢
      exact h.stamped i hr h0
    · exact absurd h1 h0
  · rw [hsame m (mem_append_left _ hm)]
    exact h.done m hm

theorem ReadyFrame.postOK {l : List (Fin ringSlots × Header)}
    (h : PostOK slots n l) : PostOK slots' n l := by
  refine ⟨h.1, fun p hp => ?_⟩
  have hp' := h.2 p hp
  rw [(hf p.1).1 (by rw [hp'.1, hp'.2.1])]
  exact hp'

theorem ReadyFrame.lockOK :
    ∀ {l : Lock}, LockOK slots n l → LockOK slots' n l
  | .free, h | .orphaned, h => h
  | .held _ _ .direct, h | .held _ _ (.begun _), h => h
  | .held _ _ (.recovered _), h | .held _ _ (.reclaimed _), h => ⟨h.1, hf.unstamped h.2⟩
  | .held _ _ (.round _), h => ⟨h.1, hf.roundOK h.2⟩
  | .held _ _ (.posting _), h => hf.postOK h

end

end Frame

section Owner

variable {w : World}

theorem enqueue_eq_some {slots slots' : Slots} {pid k : ℕ} {hash params : List UInt8}
    {idx : Fin ringSlots} {owned : Header}
    (h : enqueue slots pid hash params k = some (slots', idx, owned)) :
    (slots idx).header.state = .empty ∧ owned = (publish (slots idx) pid hash params k).header ∧
      slots' = modifySlot slots idx fun s => publish s pid hash params k := by
  unfold enqueue at h
  split_ifs at h
  split at h
  · simp at h
  · rename_i i hi
    obtain ⟨rfl, rfl, rfl⟩ := h
    exact ⟨by simpa using List.find?_some hi, rfl, rfl⟩

/-- A published intent is new: no ticket, member or effect knows it. -/
theorem inv_enqueue (h : Inv w) {pid : ℕ} {hash params : List UInt8} {idx : Fin ringSlots}
    (hpid : pid ∉ w.dead) (hemp : (w.slots idx).header.state = .empty) :
    Inv { w with
      slots := modifySlot w.slots idx fun s => publish s pid hash params w.enqueued
      tickets := ⟨pid, idx, (publish (w.slots idx) pid hash params w.enqueued).header,
        w.enqueued⟩ :: w.tickets
      enqueued := w.enqueued + 1 } := by
  have hc := h.core
  have hnocc : ¬ (w.slots idx).occupied := by simp [Slot.occupied, hemp]
  have hidx : ∀ t ∈ w.tickets, t.idx ≠ idx := by
    rintro t ht rfl
    exact hnocc (hc.holds t ht).occupied
  have hpub : SlotOK w.txnId w.landings (publish (w.slots idx) pid hash params w.enqueued) :=
    ⟨fun _ => rfl, fun _ _ => hc.unknown _ le_rfl, fun _ h0 => absurd rfl h0,
      fun _ hlt => by simp [publish] at hlt, fun hd => by simp [publish, pack] at hd⟩
  refine ⟨⟨?_, ?_, ?_, fun t ht => hc.unknown t (by simp only at ht; omega), ?_, ?_, ?_, ?_⟩, ?_⟩
  · exact forall_modifySlot (P := fun _ s => SlotOK w.txnId w.landings s)
      (f := fun s => publish s pid hash params w.enqueued) hpub fun j _ => hc.slots j
  · refine forall_modifySlot (P := fun _ s => s.occupied → s.intent < w.enqueued + 1)
      (fun _ => by simp [publish]) fun j _ hj => ?_
    exact Nat.lt_succ_of_lt (hc.bound j hj)
  · intro i j hi hj he
    dsimp only at hi hj he
    rcases eq_or_ne i idx with rfl | hi'
    · rcases eq_or_ne j i with rfl | hj'
      · rfl
      · rw [modifySlot_of_ne hj'] at hj he
        exact absurd (hc.bound j hj) (by rw [← he]; simp [publish])
    · rw [modifySlot_of_ne hi'] at hi he
      rcases eq_or_ne j idx with rfl | hj'
      · rw [modifySlot_self] at he
        exact absurd (hc.bound i hi) (by rw [he]; simp [publish])
      · rw [modifySlot_of_ne hj'] at hj he
        exact hc.inj i j hi hj he
  · intro t ht
    rcases mem_cons.1 ht with rfl | ht
    · simp only [modifySlot_self]
      exact ⟨rfl, rfl, Or.inl rfl, rfl⟩
    · dsimp only
      rw [modifySlot_of_ne (hidx t ht)]
      exact hc.holds t ht
  · intro t ht
    rcases mem_cons.1 ht with rfl | ht
    · exact ⟨rfl, hpid⟩
    · exact hc.owner t ht
  · refine nodup_cons.2 ⟨fun hm => ?_, hc.tickets⟩
    obtain ⟨t, ht, he⟩ := mem_map.1 hm
    exact hidx t ht he
  · intro p hp
    obtain ⟨h1, h2, h3⟩ := hc.reads p hp
    refine ⟨by simp only; omega, h2, ?_⟩
    refine forall_modifySlot (P := fun _ s => s.header.state = .ready → s.intent ≠ p.1)
      (fun _ => by simp only [publish]; omega) fun j _ => h3 j
  · refine ReadyFrame.lockOK (fun i => ?_) h.lock
    dsimp only
    rcases eq_or_ne i idx with rfl | hi
    · refine ⟨fun hr => by rw [hemp] at hr; simp at hr, fun _ => Or.inr ?_⟩
      simp [publish]
    · rw [modifySlot_of_ne hi]
      exact ⟨fun _ => rfl, fun _ => Or.inl rfl⟩

variable {t : Ticket}

theorem Core.done_of_posted (h : Core w) (ht : t ∈ w.tickets)
    (hp : (w.slots t.idx).resultState = true) : (w.slots t.idx).header.state = .done := by
  rcases (h.holds t ht).occupied with hr | hd
  · rw [(h.slots t.idx).unposted hr] at hp
    simp at hp
  · exact hd

/-- A result that can be read was posted by the round that committed it. -/
theorem inv_take (h : Inv w) (ht : t ∈ w.tickets) {r : RingResult}
    (hr : tryTakeResult (w.slots t.idx) = some r) :
    Inv { w with reads := (t.intent, r) :: w.reads } := by
  have hc := h.core
  have hposted : (w.slots t.idx).resultState = true := by
    by_contra hne
    simp [tryTakeResult, hne] at hr
  have hd := hc.done_of_posted ht hposted
  have hint := (hc.holds t ht).intent
  rw [tryTakeResult, if_pos hposted, Option.some.injEq] at hr
  subst hr
  refine ⟨{ hc with reads := ?_ }, h.lock⟩
  intro p hp
  rcases mem_cons.1 hp with rfl | hp
  · simp only [← hint]
    refine ⟨hc.bound _ (Or.inr hd), ((hc.slots _).done hd).2, fun i hi he => ?_⟩
    obtain rfl := hc.inj i t.idx (Or.inl hi) (Or.inr hd) he
    rw [hd] at hi
    simp at hi
  · exact hc.reads p hp

theorem Core.filterTickets (h : Core w) (p : Ticket → Bool) :
    Core { w with tickets := w.tickets.filter p } :=
  { h with
    holds t ht := h.holds t (mem_of_mem_filter ht)
    owner t ht := h.owner t (mem_of_mem_filter ht)
    tickets := h.tickets.sublist (filter_sublist.map _) }

/-- The slot is given up by the owner that has read its result. -/
theorem inv_release (h : Inv w) (ht : t ∈ w.tickets) (hread : t.intent ∈ w.reads.map Prod.fst) :
    Inv { w with
      slots := modifySlot w.slots t.idx (releaseSlot t.owned)
      tickets := w.tickets.filter (· ≠ t) } := by
  have hc := h.core
  have hh := hc.holds t ht
  have hd : (w.slots t.idx).header.state = .done := by
    rcases hh.occupied with hr | hd
    · obtain ⟨p, hp, he⟩ := mem_map.1 hread
      exact absurd (hh.intent.trans he.symm) ((hc.reads p hp).2.2 t.idx hr)
    · exact hd
  have hrel : releaseSlot t.owned (w.slots t.idx) =
      { w.slots t.idx with header := pack 0 (t.owned.gen + 1) .empty } := by
    refine if_pos (Or.inl ?_)
    rw [← hh.pid, ← hh.gen, ← hd]
  have hne : ∀ t' ∈ w.tickets, t' ≠ t → t'.idx ≠ t.idx := fun t' ht' hne he =>
    hne (inj_on_of_nodup_map hc.tickets ht' ht he)
  refine ⟨(hc.filterTickets _).modify w.lock ?_ ?_ fun t' ht' he => ?_,
    ReadyFrame.lockOK (fun i => ?_) h.lock⟩
  · rw [hrel]
    exact ⟨fun ho => by simp [Slot.occupied, pack] at ho, fun _ => rfl,
      fun hr => by simp [pack] at hr⟩
  · rw [hrel]
    constructor <;> simp [pack]
  · obtain ⟨hmem, hne'⟩ := mem_filter.1 ht'
    exact absurd he (hne t' hmem (by simpa using hne'))
  · dsimp only
    rcases eq_or_ne i t.idx with rfl | hi
    · rw [modifySlot_self, hrel]
      exact ⟨fun hr => by rw [hd] at hr; simp at hr, fun hr => by simp [pack] at hr⟩
    · rw [modifySlot_of_ne hi]
      exact ⟨fun _ => rfl, fun _ => Or.inl rfl⟩

theorem inv_spawn (h : Inv w) (pid : ℕ) : Inv { w with dead := w.dead.filter (· ≠ pid) } := by
  refine ⟨{ h.core with owner := fun t ht => ?_ }, h.lock⟩
  have ho := h.core.owner t ht
  exact ⟨ho.1, fun hm => ho.2 (mem_of_mem_filter hm)⟩

/-- Whoever dies, its tickets go with it and a lock it held is left to the next writer. -/
theorem inv_die (h : Inv w) (pid : ℕ) {l : Lock} (hl : l = .orphaned ∨ l = w.lock) :
    Inv { w with
      dead := pid :: w.dead
      tickets := w.tickets.filter (·.pid ≠ pid)
      lock := l } := by
  have hc := h.core.filterTickets (·.pid ≠ pid)
  refine ⟨{ hc with owner := fun t ht => ?_ }, ?_⟩
  · refine ⟨(hc.owner t ht).1, fun hm => ?_⟩
    rcases mem_cons.1 hm with he | hm
    · simpa [he] using (mem_filter.1 ht).2
    · exact (hc.owner t ht).2 hm
  · rcases hl with rfl | rfl
    · trivial
    · exact h.lock

end Owner

section Writer

variable {w : World} {pid base : ℕ}

theorem Inv.writer (h : Inv w) {wr : Writer} (hl : w.lock = .held pid base wr) :
    WriterOK w.slots w.txnId base wr := by
  have hlock := h.lock
  rwa [hl] at hlock

variable {w' : World}

theorem inv_beginWrite (h : Inv w) (wr : Writer) (hwr : ∀ n, WriterOK w.slots n n wr)
    (hu : w.lock = .orphaned → w.unacked = none) (hb : beginWrite w pid wr = some w') : Inv w' := by
  unfold beginWrite at hb
  split_ifs at hb
  split at hb
  · cases hb
    exact ⟨h.core.setLock _ _, hwr _⟩
  · rename_i hl
    simp only [recoverAfterOwnerDeath, hu hl, Option.some.injEq] at hb
    subst hb
    exact ⟨h.core.setLock _ _, hwr _⟩
  · simp at hb

theorem inv_recoverOrphans (h : Inv w) {own : Bool} (hl : w.lock = .held pid base (.begun own)) :
    Inv { w with
      slots := recoverOrphans base w.slots
      lock := .held pid base (.recovered own) } := by
  obtain rfl : base = w.txnId := h.writer hl
  refine ⟨h.core.evolve _ (fun i => recoverSlot_evolves _ _)
    (fun i => recoverSlot_ok (h.core.slots i))
    fun t ht => recoverSlot_holds (h.core.holds t ht), rfl, fun i hr => recoverSlot_unstamped hr⟩

theorem inv_reclaimDead (h : Inv w) {own : Bool} (hl : w.lock = .held pid base (.recovered own)) :
    Inv { w with
      slots := reclaimDead w.dead w.slots
      lock := .held pid base (.reclaimed own) } := by
  have hb := h.writer hl
  refine ⟨h.core.evolve _ (fun i => reclaimSlot_evolves _ _)
    (fun i => reclaimSlot_ok _ (h.core.slots i)) fun t ht => ?_, hb.1,
    fun i hr => reclaimSlot_unstamped (hb.2 i) hr⟩
  have hh := h.core.holds t ht
  have ho := h.core.owner t ht
  rw [reclaimDead, reclaimSlot_of_alive (by rw [hh.pid, ho.1]; exact ho.2)]
  exact hh

variable {r : Round}

/-- One member of a round more is staged. -/
theorem inv_stageMember (h : Inv w) (hl : w.lock = .held pid base (.round r))
    {m : Member} {rest : List Member} (htodo : r.todo = m :: rest) (a c : ℕ) (msg : List UInt8)
    (e : List ℕ) (he : ∀ t, t ∈ e ↔ t ∈ r.effects ∨ (t = m.intent.intent ∧ c = 0)) :
    Inv { w with
      slots := (stageMember w.slots base r m rest a c msg e).1
      lock := .held pid base (.round (stageMember w.slots base r m rest a c msg e).2) } := by
  obtain ⟨rfl, hr⟩ := h.writer hl
  have hm := hr.here m (by simp [htodo])
  have hready : (w.slots m.intent.idx).header.state = .ready := by rw [hm.1, hm.2.1]
  have hstamp : (w.slots m.intent.idx).committedIn = 0 ∨
      (w.slots m.intent.idx).committedIn = w.txnId + 1 := by
    by_cases h0 : (w.slots m.intent.idx).committedIn = 0
    · exact Or.inl h0
    · exact Or.inr (hr.stamped _ hready h0).1
  refine ⟨h.core.stage hready hstamp a c msg _, rfl,
    hr.stage htodo (fun m' hm' heq => ?_) a c msg e he⟩
  -- two members of the batch with one intent would share a slot
  have hm'' := hr.here m' (mem_append_left _ hm')
  have hready' : (w.slots m'.intent.idx).header.state = .ready := by rw [hm''.1, hm''.2.1]
  have hidx := h.core.inj _ _ (Or.inl hready') (Or.inl hready)
    (by rw [hm''.2.2, hm.2.2, heq])
  have hnd := hr.nodup
  rw [htodo, map_append, nodup_append] at hnd
  exact hnd.2.2 _ (mem_map_of_mem hm') _ mem_cons_self hidx

theorem RingError.code_ne_zero : ∀ e : RingError, e.code ≠ 0 := by
  intro e
  cases e <;> decide

theorem inv_exec (h : Inv w) (hl : w.lock = .held pid base (.round r)) {o : Outcome}
    (ho : Admissible w (.exec o)) {p : Slots × Round} (hp : execMember w.slots base r o = some p) :
    Inv { w with slots := p.1, lock := .held pid base (.round p.2) } := by
  have hfail : ∀ (e : Failure) (m : Member) (t : ℕ),
      t ∈ r.effects ↔ t ∈ r.effects ∨ (t = m.intent.intent ∧ e.kind.code = 0) := by
    intro e m t
    simp [RingError.code_ne_zero]
  unfold execMember at hp
  split at hp
  · simp at hp
  · rename_i m rest htodo
    split at hp <;> cases hp
    · exact inv_stageMember h hl htodo _ _ _ _ (hfail _ m)
    · exact inv_stageMember h hl htodo _ _ _ _ (by simp)
    · exact inv_stageMember h hl htodo _ _ _ _ (hfail _ m)
    · obtain rfl : _ = false := ho
      exact inv_stageMember h hl htodo _ _ _ _ (hfail _ m)
    · have hb := h.writer hl
      exact ⟨h.core.setLock _ w.unacked, hb.1, hb.2.restart (by simp [htodo])⟩

theorem inv_execOwn (h : Inv w) {r' : Round} (hl : w.lock = .held pid base (.round r))
    {o : OwnOutcome} (hr : execOwn r o = some r') :
    Inv { w with lock := .held pid base (.round r') } := by
  obtain ⟨hbase, hok⟩ := h.writer hl
  refine ⟨h.core.setLock _ w.unacked, hbase, ?_⟩
  unfold execOwn at hr
  split at hr <;> cases hr
  · exact { hok with }
  · exact { hok with }
  · exact hok.restart (by simp [*])

/-- One result more is posted. -/
theorem inv_post (h : Inv w) {i : Fin ringSlots} {word : Header}
    {rest : List (Fin ringSlots × Header)}
    (hl : w.lock = .held pid base (.posting ((i, word) :: rest))) :
    Inv { w with
      slots := modifySlot w.slots i (postDone word)
      lock := .held pid base (.posting rest) } := by
  obtain ⟨hnd, hp⟩ := h.writer hl
  obtain ⟨hw, hready, h0, hn⟩ := hp (i, word) mem_cons_self
  dsimp only at hw hready h0 hn
  subst hw
  have hc := h.core
  refine ⟨hc.modify _ ⟨fun _ => Or.inl hready, fun _ => rfl, fun _ => hready⟩
    (postDone_ok (hc.slots i) hready h0 hn) ?_, (nodup_cons.1 hnd).2, fun p hmem => ?_⟩
  · rintro t ht rfl
    exact postDone_holds (hc.holds t ht)
  · have hne : p.1 ≠ i := fun he =>
      (nodup_cons.1 hnd).1 (mem_map.2 ⟨p, hmem, he⟩)
    dsimp only
    rw [modifySlot_of_ne hne]
    exact hp p (mem_cons_of_mem _ hmem)

/-- A commit that is acknowledged leads to `w.flip`; a failed one only frees the lock. -/
theorem inv_commitAs (h : Inv w) {e : List ℕ} {l : Lock} (hok : Inv (w.flip base e l))
    {o : CommitOutcome} (hs : commitAs w base e l o = some w') : Inv w' := by
  cases o with
  | ok =>
    cases hs
    exact hok
  | unpublished =>
    cases hs
    exact ⟨h.core.setLock .free w.unacked, trivial⟩
  | published =>
    simp only [commitAs] at hs
    split at hs
    · cases hs
      exact ⟨h.core.setLock .free _, trivial⟩
    · simp at hs

theorem Round.settled_todo (h : r.settled = true) : r.todo = [] := by
  simp only [Round.settled, Bool.and_eq_true, List.isEmpty_iff] at h
  exact h.1

/-- The steps of the process that holds the lock. -/
theorem inv_stepWriter (h : Inv w) {wr : Writer} {a : Label} (hl : w.lock = .held pid base wr)
    (hg : Admissible w a) (hs : stepWriter w pid base wr a = some w') : Inv w' := by
  have hfree : Inv { w with lock := .free } := ⟨h.core.setLock .free w.unacked, trivial⟩
  have hlock := h.writer hl
  unfold stepWriter at hs
  split at hs
  · obtain rfl : base = w.txnId := hlock
    exact inv_commitAs h ⟨h.core.commitDirect (hg (by rw [hl]; rfl)) .free, trivial⟩ hs
  · cases hs
    exact hfree
  · cases hs
    exact inv_recoverOrphans h hl
  · cases hs
    exact inv_reclaimDead h hl
  · split_ifs at hs with hperm
    cases hs
    exact ⟨h.core.setLock _ w.unacked, hlock.1,
      RoundOK.start hlock.2 (isPerm_iff.1 hperm) _⟩
  · obtain ⟨p, hp, rfl⟩ := Option.map_eq_some_iff.1 hs
    exact inv_exec h hl hg hp
  · obtain ⟨r', hr', rfl⟩ := Option.map_eq_some_iff.1 hs
    exact inv_execOwn h hl hr'
  · split_ifs at hs
    cases hs
    exact hfree
  · rename_i r o
    split_ifs at hs with hc
    obtain ⟨rfl, hr⟩ : base = w.txnId ∧ RoundOK w.slots w.txnId r := hlock
    have htodo := Round.settled_todo (Bool.and_eq_true _ _ ▸ hc).1
    exact inv_commitAs h ⟨h.core.commitRound hr htodo (.held pid _ (.posting r.staged)),
      hr.postOK htodo⟩ hs
  · cases hs
    exact inv_post h hl
  · cases hs
    exact hfree
  · simp at hs

end Writer

/-! ## Every step, every run -/

/-- The steps of the owners. -/
theorem inv_stepOwner {w w' : World} (h : Inv w) {a : Label} (hs : stepOwner w a = some w') :
    Inv w' := by
  cases a with
  | spawn pid =>
    cases hs
    exact inv_spawn h pid
  | die pid =>
    cases hs
    refine inv_die h pid ?_
    split
    · split_ifs
      · exact Or.inl rfl
      · rename_i hl _
        exact Or.inr hl.symm
    · exact Or.inr rfl
  | enqueue pid hash params =>
    simp only [stepOwner] at hs
    split_ifs at hs with hpid
    split at hs
    · simp at hs
    · rename_i slots idx owned he
      obtain ⟨hemp, rfl, rfl⟩ := enqueue_eq_some he
      cases hs
      exact inv_enqueue h hpid hemp
  | take t =>
    simp only [stepOwner] at hs
    split_ifs at hs with ht
    obtain ⟨r, hr, rfl⟩ := Option.map_eq_some_iff.1 hs
    exact inv_take h ht hr
  | release t =>
    simp only [stepOwner] at hs
    split_ifs at hs with ht
    cases hs
    exact inv_release h ht.1 ht.2
  | _ => simp [stepOwner] at hs

theorem inv_step {w w' : World} (h : Inv w) {a : Label} (hg : Admissible w a)
    (hs : step w a = some w') : Inv w' := by
  unfold step at hs
  split at hs
  · exact inv_beginWrite h .direct (fun _ => rfl) hg hs
  · exact inv_beginWrite h (.begun _) (fun _ => rfl) hg hs
  iterate 5 exact inv_stepOwner h hs
  split at hs
  · rename_i hl
    exact inv_stepWriter h hl hg hs
  · simp at hs

/-- In every run whose steps are all admissible, every owner that has read a success has its intent
in exactly one committed transaction, and every owner that has read an error has it in none. -/
theorem exactlyOnce_of_admissible (d : Durability) (n : ℕ) (w : World)
    (h : Reaches step Admissible (World.init d n) w) : ExactlyOnce w := by
  have hinv : Inv w := h.invariant (inv_init d n) fun _ _ _ hi hg hs => inv_step hi hg hs
  exact fun p hp => (hinv.core.reads p hp).2.1

/-- The intent of process 0 in slot 0, as a leader collects it. -/
def firstIntent : PendingIntent := ⟨0, pack 0 1 .ready, [], [], 0⟩

/-- The ticket of the first intent. -/
def firstTicket : Ticket := ⟨0, 0, pack 0 1 .ready, 0⟩

theorem exactlyOnce_of_admissible_round : ∃ w, Reaches step Admissible (World.init .wal 0) w ∧
    w.reads = [(0, ⟨1, 0, []⟩)] ∧ w.landings 0 = 1 ∧ ExactlyOnce w := by
  obtain ⟨w, hw, hreads, hland⟩ := exists_reaches step Admissible (init .wal 0)
    [.enqueue 0 [] [], .beginLead 1 false, .recoverOrphans, .reclaimDead,
      .collect [firstIntent], .exec (.ok 1), .commit .ok, .post, .unlock, .take firstTicket]
    (fun w => w.reads = [(0, ⟨1, 0, []⟩)] ∧ w.landings 0 = 1) (by decide)
  exact ⟨w, hw, hreads, hland, exactlyOnce_of_admissible .wal 0 w hw⟩

/-- A leader stages an intent for transaction 1 and is killed before the commit; a writer that does
not lead commits as transaction 1; the next leader takes the stamp for a committed batch and posts
the success. No transaction holds the intent. -/
theorem exactlyOnce_fails_after_direct_commit : ∃ w,
    Reaches step (fun _ _ => True) (World.init .wal 0) w ∧
      w.reads = [(0, ⟨1, 0, []⟩)] ∧ w.committed = [[]] ∧ ¬ ExactlyOnce w := by
  obtain ⟨w, hw, hreads, hcom⟩ := exists_reaches step (fun _ _ => True) (init .wal 0)
    [.enqueue 0 [] [], .beginLead 1 false, .recoverOrphans, .reclaimDead,
      .collect [firstIntent], .exec (.ok 1), .die 1, .beginDirect 2, .commit .ok,
      .beginLead 3 false, .recoverOrphans, .take firstTicket]
    (fun w => w.reads = [(0, ⟨1, 0, []⟩)] ∧ w.committed = [[]]) (by decide)
  refine ⟨w, hw, hreads, hcom, fun h => ?_⟩
  have := h (0, ⟨1, 0, []⟩) (by simp [hreads])
  simp [landings, hcom] at this

end Mpedb.Ring
