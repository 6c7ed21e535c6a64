/-!
# Actions that can fail

An action runs in a state and ends with a value or with a failure, in the state it has reached by
then: a failure takes nothing back. `Triple P m Q R` is what is known of an action: started where
`P` holds, it ends in `Q` with a value or in `R` with a failure.
-/

/-- A computation on a state that keeps its state when it fails. -/
def Fallible (σ ε α : Type) : Type := σ → σ × Except ε α

namespace Fallible

variable {σ ε ε' α β : Type}

instance : Monad (Fallible σ ε) where
  pure a := fun s => (s, .ok a)
  bind m f := fun s => match m s with
    | (s', .ok a) => f a s'
    | (s', .error e) => (s', .error e)

/-- Fails where it is. -/
def fail (e : ε) : Fallible σ ε α := fun s => (s, .error e)

/-- Changes the state. -/
def modify (f : σ → σ) : Fallible σ ε Unit := fun s => (f s, .ok ())

/-- A result that does not depend on the state. -/
def lift (r : Except ε α) : Fallible σ ε α := fun s => (s, r)

/-- A result read from the state. -/
def reading (f : σ → Except ε α) : Fallible σ ε α := fun s => (s, f s)

/-- Changes the error. -/
def mapFailure (f : ε → ε') (m : Fallible σ ε α) : Fallible σ ε' α := fun s =>
  match m s with
  | (s', .ok a) => (s', .ok a)
  | (s', .error e) => (s', .error (f e))

/-- Runs `m` and goes on with its outcome, also after a failure. -/
def attempt (m : Fallible σ ε α) : Fallible σ ε' (Except ε α) := fun s =>
  let r := m s
  (r.1, .ok r.2)

variable {m : Fallible σ ε α} {f : α → Fallible σ ε β}

theorem bind_of_ok {s s' : σ} {a : α}
    (h : m s = (s', .ok a)) : (m >>= f) s = f a s' := by
  show (match m s with
    | (s', .ok a) => f a s'
    | (s', .error e) => (s', .error e)) = _
  rw [h]

theorem bind_of_error {s s' : σ} {e : ε}
    (h : m s = (s', .error e)) : (m >>= f) s = (s', .error e) := by
  show (match m s with
    | (s', .ok a) => f a s'
    | (s', .error e) => (s', .error e)) = _
  rw [h]

/-- What holds at the end: `Q` after a value, `R` after an error. -/
def Ends (Q : α → σ → Prop) (R : ε → σ → Prop) : σ × Except ε α → Prop
  | (s, .ok a) => Q a s
  | (s, .error e) => R e s

/-- From every state in `P`, the computation ends in `Q` with a value or in `R` with an error. -/
def Triple (P : σ → Prop) (m : Fallible σ ε α) (Q : α → σ → Prop) (R : ε → σ → Prop) : Prop :=
  ∀ s, P s → Ends Q R (m s)

variable {P P' : σ → Prop} {Q Q' : α → σ → Prop} {R R' : ε → σ → Prop} {m : Fallible σ ε α}

theorem Triple.conseq (h : Triple P' m Q' R') (hP : ∀ s, P s → P' s) (hQ : ∀ a s, Q' a s → Q a s)
    (hR : ∀ e s, R' e s → R e s) : Triple P m Q R := by
  intro s hs
  have hend := h s (hP s hs)
  rcases hm : m s with ⟨s', e | a⟩ <;> rw [hm] at hend
  · exact hR e s' hend
  · exact hQ a s' hend

theorem Triple.pre (h : Triple P' m Q R) (hP : ∀ s, P s → P' s) : Triple P m Q R :=
  h.conseq hP (fun _ _ h => h) fun _ _ h => h

theorem Triple.post (h : Triple P m Q' R) (hQ : ∀ a s, Q' a s → Q a s) : Triple P m Q R :=
  h.conseq (fun _ h => h) hQ fun _ _ h => h

variable {p : Prop}

theorem triple_of_pre (hp : ∀ s, P s → p) (h : p → Triple P m Q R) : Triple P m Q R :=
  fun s hs => h (hp s hs) s hs

theorem Triple.run (h : Triple P m Q R) :
    Triple P m (fun a s' => Q a s' ∧ ∃ s, P s ∧ m s = (s', .ok a)) R := by
  intro s hs
  have hend := h s hs
  rcases hm : m s with ⟨s', e | a⟩ <;> rw [hm] at hend
  · exact hend
  · exact ⟨hend, s, hs, hm⟩

theorem triple_fact (h : p → Triple P m Q R) : Triple (fun s => p ∧ P s) m Q R :=
  fun s hs => h hs.1 s hs.2

theorem triple_ite [Decidable p] {m' : Fallible σ ε α} (hm : Triple P m Q R)
    (hm' : Triple P m' Q R) : Triple P (if p then m else m') Q R := by split <;> assumption

theorem triple_pure {a : α} (h : ∀ s, P s → Q a s) : Triple P (pure a : Fallible σ ε α) Q R :=
  fun s hs => h s hs

theorem triple_fail {e : ε} (h : ∀ s, P s → R e s) : Triple P (fail e : Fallible σ ε α) Q R :=
  fun s hs => h s hs

theorem triple_modify {f : σ → σ} {Q : Unit → σ → Prop} (h : ∀ s, P s → Q () (f s)) :
    Triple P (modify f : Fallible σ ε Unit) Q R := fun s hs => h s hs

theorem triple_lift {r : Except ε α} (hok : ∀ s a, P s → r = .ok a → Q a s)
    (herror : ∀ s e, P s → r = .error e → R e s) : Triple P (lift r) Q R := by
  intro s hs
  rcases r with e | a
  · exact herror s e hs rfl
  · exact hok s a hs rfl

theorem triple_reading {f : σ → Except ε α} (hok : ∀ s a, P s → f s = .ok a → Q a s)
    (herror : ∀ s e, P s → f s = .error e → R e s) : Triple P (reading f) Q R := by
  intro s hs
  unfold reading
  rcases hf : f s with e | a
  · exact herror s e hs hf
  · exact hok s a hs hf

theorem Triple.bind {Q : β → σ → Prop} (hm : Triple P m Q' R)
    (hf : ∀ a, Triple (Q' a) (f a) Q R) : Triple P (m >>= f) Q R := by
  intro s hs
  have hend := hm s hs
  show Ends Q R (match m s with
    | (s', .ok a) => f a s'
    | (s', .error e) => (s', .error e))
  rcases hms : m s with ⟨s', e | a⟩ <;> rw [hms] at hend
  · exact hend
  · exact hf a s' hend

theorem Triple.mapFailure {f : ε → ε'} {R : ε' → σ → Prop} (h : Triple P m Q fun e => R (f e)) :
    Triple P (m.mapFailure f) Q R := by
  intro s hs
  have hend := h s hs
  unfold Fallible.mapFailure
  rcases hm : m s with ⟨s', e | a⟩ <;> rw [hm] at hend <;> exact hend

theorem Triple.attempt {R : ε → σ → Prop} {R' : ε' → σ → Prop} (h : Triple P m Q R) :
    Triple P (m.attempt : Fallible σ ε' (Except ε α))
      (fun r s => Ends Q R (s, r)) R' := fun s hs => h s hs

/-- What follows an attempt starts where the attempt ended, with its outcome. -/
theorem ends_attempt_bind {f : Except ε α → Fallible σ ε' β} {Q : β → σ → Prop}
    {R : ε' → σ → Prop} {s : σ} :
    Ends Q R ((m.attempt >>= f) s) ↔ Ends Q R (f (m s).2 (m s).1) := Iff.rfl

/-- A loop that has come over a list goes on with one more element. -/
theorem foldlM_concat {f : β → α → Fallible σ ε β} {a : α} {b' b'' : β} {s' s'' : σ} (l : List α)
    (b : β) (s : σ) (h : l.foldlM f b s = (s', .ok b')) (ha : f b' a s' = (s'', .ok b'')) :
    (l ++ [a]).foldlM f b s = (s'', .ok b'') := by
  induction l generalizing b s with
  | nil =>
    cases h
    show (f b' a >>= fun b => pure b) s' = _
    exact bind_of_ok ha
  | cons x l ih =>
    show (f b x >>= fun b => (l ++ [a]).foldlM f b) s = _
    change (f b x >>= fun b => l.foldlM f b) s = _ at h
    rcases hx : f b x s with ⟨s₁, e | b₁⟩
    · rw [bind_of_error hx] at h
      cases h
    · rw [bind_of_ok hx] at h ⊢
      exact ih b₁ s₁ h

/-- The rule for a loop: one step keeps the invariant, which may speak of the rest of the list. -/
theorem triple_foldlM {f : β → α → Fallible σ ε β} {I : List α → β → σ → Prop}
    (h : ∀ b a l, Triple (I (a :: l) b) (f b a) (I l) R) :
    ∀ (l : List α) (b : β), Triple (I l b) (l.foldlM f b) (I []) R
  | [], _ => triple_pure fun _ hs => hs
  | a :: l, b => by
    exact (h b a l).bind fun b' => triple_foldlM h l b'

/-- The action leaves `f` of the state alone, however it ends. -/
def Keeps {τ : Type} (f : σ → τ) (m : Fallible σ ε α) : Prop := ∀ s, f (m s).1 = f s

section Keeps

variable {τ : Type} {g : σ → τ}

theorem Keeps.triple (h : Keeps g m) (C : τ → Prop) :
    Triple (fun s => C (g s)) m (fun _ s => C (g s)) fun _ s => C (g s) := by
  intro s hs
  have hk : C (g (m s).1) := by rwa [h s]
  rcases hm : m s with ⟨s', e | a⟩ <;> rw [hm] at hk <;> exact hk

theorem keeps_pure (a : α) : Keeps g (pure a : Fallible σ ε α) := fun _ => rfl

theorem keeps_fail (e : ε) : Keeps g (fail e : Fallible σ ε α) := fun _ => rfl

theorem keeps_lift (r : Except ε α) : Keeps g (lift r : Fallible σ ε α) := fun _ => rfl

theorem keeps_reading (f : σ → Except ε α) : Keeps g (reading f) := fun _ => rfl

theorem keeps_modify {f : σ → σ} (h : ∀ s, g (f s) = g s) :
    Keeps g (modify f : Fallible σ ε Unit) := h

theorem Keeps.bind {f : α → Fallible σ ε β} (hm : Keeps g m) (hf : ∀ a, Keeps g (f a)) :
    Keeps g (m >>= f) := by
  intro s
  have hk := hm s
  show g (match m s with
    | (s', .ok a) => f a s'
    | (s', .error e) => (s', .error e)).1 = g s
  rcases hms : m s with ⟨s', e | a⟩ <;> rw [hms] at hk
  · exact hk
  · exact (hf a s').trans hk

theorem Keeps.mapFailure {f : ε → ε'} (hm : Keeps g m) : Keeps g (m.mapFailure f) := by
  intro s
  have hk := hm s
  unfold Fallible.mapFailure
  rcases hms : m s with ⟨s', e | a⟩ <;> rw [hms] at hk <;> exact hk

theorem keeps_ite {p : Prop} [Decidable p] {m m' : Fallible σ ε α} (hm : Keeps g m)
    (hm' : Keeps g m') : Keeps g (if p then m else m') := by split <;> assumption

theorem keeps_foldlM {f : β → α → Fallible σ ε β} (h : ∀ b a, Keeps g (f b a)) :
    ∀ (l : List α) (b : β), Keeps g (l.foldlM f b)
  | [], b => keeps_pure b
  | a :: l, b => by
    exact (h b a).bind fun b' => keeps_foldlM h l b'

end Keeps

/-- The action keeps `I`, however it ends. -/
def Stays (I : σ → Prop) (m : Fallible σ ε α) : Prop := ∀ s, I s → I (m s).1

section Stays

variable {I : σ → Prop}

theorem Stays.triple (h : Stays I m) : Triple I m (fun _ => I) fun _ => I := by
  intro s hs
  have hI := h s hs
  rcases hm : m s with ⟨s', e | a⟩ <;> rw [hm] at hI <;> exact hI

theorem stays_of_triple (h : Triple I m (fun _ => I) fun _ => I) : Stays I m := by
  intro s hs
  have hend := h s hs
  rcases hm : m s with ⟨s', e | a⟩ <;> rw [hm] at hend <;> exact hend

theorem Keeps.stays {τ : Type} {g : σ → τ} (h : Keeps g m) (C : τ → Prop) :
    Stays (fun s => C (g s)) m := stays_of_triple (h.triple C)

/-- What follows may use how its value was come by. -/
theorem Stays.bind_of {f : α → Fallible σ ε β} (hm : Stays I m)
    (hf : ∀ s s' a, I s → m s = (s', .ok a) → Stays I (f a)) : Stays I (m >>= f) := by
  refine stays_of_triple (hm.triple.run.bind fun a s' hs' => ?_)
  obtain ⟨hI, s, hs, hrun⟩ := hs'
  exact (hf s s' a hs hrun).triple s' hI

theorem Stays.bind {f : α → Fallible σ ε β} (hm : Stays I m) (hf : ∀ a, Stays I (f a)) :
    Stays I (m >>= f) := hm.bind_of fun _ _ a _ _ => hf a

theorem stays_ite {p : Prop} [Decidable p] {m m' : Fallible σ ε α} (hm : p → Stays I m)
    (hm' : ¬ p → Stays I m') : Stays I (if p then m else m') := by
  split
  · exact hm ‹_›
  · exact hm' ‹_›

theorem Stays.mapFailure {f : ε → ε'} (hm : Stays I m) : Stays I (m.mapFailure f) :=
  stays_of_triple (Triple.mapFailure hm.triple)

theorem Stays.attempt (hm : Stays I m) : Stays I (m.attempt : Fallible σ ε' (Except ε α)) := hm

theorem stays_foldlM {f : β → α → Fallible σ ε β} : ∀ (l : List α),
    (∀ b, ∀ a ∈ l, Stays I (f b a)) → ∀ b, Stays I (l.foldlM f b)
  | [], _, _ => fun _ hs => hs
  | a :: l, h, b => by
    exact (h b a (List.mem_cons_self ..)).bind fun b' =>
      stays_foldlM l (fun b a' ha => h b a' (List.mem_cons_of_mem _ ha)) b'

end Stays

end Fallible
