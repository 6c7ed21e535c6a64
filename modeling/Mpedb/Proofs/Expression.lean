import Mpedb.Expression

/-!
# A verified program cannot go wrong

`validate` computes a depth for every instruction; `Fits` says what it has checked there, and the
final table fits everywhere (`validate_fits`). The machine's stack has the depth of its instruction
at every step, instructions only move forward, and so a run takes at most as many steps as there are
instructions.
-/

namespace Mpedb.Expr

open Checked Outcome

section Exec

variable {stack consts cols params : List Datum} {b : Builtins}

theorem ends_lift {P : Datum → Prop} (x : Except Error Datum) (h : ∀ v, P v) : Ends P (lift x) := by
  cases x with
  | error e => exact ends_fail e
  | ok v => exact ends_ok (h v)

theorem ends_popTop (h : 1 ≤ stack.length) :
    Ends (fun r => r.2.length = stack.length - 1) (popTop stack) := by
  cases stack with
  | nil => cases h
  | cons a stack => exact ends_ok rfl

variable {n : ℕ}

theorem ends_splitOff (h : n ≤ stack.length) :
    Ends (fun r => r.2.length = stack.length - n) (splitOff n stack) := by
  rw [splitOff, if_pos h]
  exact ends_ok (List.length_drop ..)

theorem ends_push (x : Except Error Datum) (h : stack.length + 1 = n) :
    Ends (fun s => s.length = n) (lift x >>= fun v => (return v :: stack : Res (List Datum))) :=
  (ends_lift x fun _ => trivial).bind fun _ _ => ends_ok h

theorem ends_unary (f : Datum → Except Error Datum) (h : 1 ≤ stack.length) :
    Ends (fun s => s.length = stack.length - 1 + 1) (unary f stack) :=
  (ends_popTop h).bind fun r hr => ends_push (f r.1) (by rw [hr])

theorem ends_binary (f : Datum → Datum → Except Error Datum) (h : 2 ≤ stack.length) :
    Ends (fun s => s.length = stack.length - 2 + 1) (binary f stack) :=
  (ends_popTop (by omega)).bind fun r hr => (ends_popTop (by omega)).bind fun q hq =>
    ends_push (f q.1 r.1) (by omega)

theorem ends_nary (f : List Datum → Except Error Datum) (h : n ≤ stack.length) :
    Ends (fun s => s.length = stack.length - n + 1) (nary n f stack) :=
  (ends_splitOff h).bind fun r hr => ends_push (f r.1) (by omega)

theorem ends_index {xs : List Datum} {i : ℕ} (h : i < xs.length) :
    Ends (fun _ => True) (index xs i : Res Datum) := (safe_index h).ends

theorem ends_get (e : Error) (xs : List Datum) (i : ℕ) : Ends (fun _ => True) (get e xs i) :=
  (safe_get e xs i).ends

theorem ends_liftChar (x : Except Error Char) : Ends (fun _ => True) (lift x) := by
  cases x with
  | error e => exact ends_fail e
  | ok v => exact ends_ok trivial

theorem ends_matchConst {i : UInt16} (f : Datum → Datum → Except Error Datum) (h : 1 ≤ stack.length)
    (hi : i.toNat < consts.length) :
    Ends (fun s => s.length = stack.length - 1 + 1) (matchConst consts i f stack) :=
  (ends_popTop h).bind fun r hr => (ends_index hi).bind fun p _ => ends_push (f r.1 p) (by rw [hr])

theorem ends_matchEscape (ci : Bool) {p e : UInt16} (h : 1 ≤ stack.length)
    (hp : p.toNat < consts.length)
    (he : e.toNat < consts.length) :
    Ends (fun s => s.length = stack.length - 1 + 1) (matchEscape b consts ci p e stack) :=
  (ends_popTop h).bind fun r hr => (ends_index hp).bind fun _ _ => (ends_index he).bind fun _ _ =>
    (ends_liftChar _).bind fun _ _ => ends_push _ (by rw [hr])

theorem ends_matchDynEscape (ci : Bool) {e : UInt16} (h : 2 ≤ stack.length)
    (he : e.toNat < consts.length) :
    Ends (fun s => s.length = stack.length - 2 + 1) (matchDynEscape b consts ci e stack) :=
  (ends_popTop (by omega)).bind fun r hr => (ends_popTop (by omega)).bind fun q hq =>
    (ends_index he).bind fun _ _ => (ends_liftChar _).bind fun _ _ => ends_push _ (by omega)

theorem ends_inParam (i : UInt16) (coll : Collation) (h : 1 ≤ stack.length) :
    Ends (fun s => s.length = stack.length - 1 + 1) (inParam b params i coll stack) :=
  (ends_popTop h).bind fun r hr => (ends_get ..).bind fun _ _ => ends_push _ (by rw [hr])

theorem ends_inList {n : UInt16} (coll : Collation) (h : n.toNat + 1 ≤ stack.length) :
    Ends (fun s => s.length = stack.length - (n.toNat + 1) + 1) (inList b n coll stack) :=
  (ends_splitOff (by omega)).bind fun r hr => (ends_popTop (by omega)).bind fun q hq =>
    ends_push _ (by omega)

theorem enumDef_of_effect {slot : UInt16} {d : ℕ × ℕ} (h : effect consts (.enumRank slot) = .ok d) :
    d = (1, 1) ∧ ∃ name labels, enumDef consts slot = .ok (name, labels) := by
  simp only [effect] at h
  split at h
  · rename_i labels hslot
    split_ifs at h with hbad
    cases h
    have hindex : (index consts slot.toNat : Res Datum) = .ok (.list labels) := by rw [index, hslot]
    cases labels with
    | nil => exact absurd (.inl rfl) hbad
    | cons d labels =>
      have htext : isText d = true := by
        by_contra hd
        exact hbad (.inr (by simp [hd]))
      obtain ⟨name, rfl⟩ : ∃ name, d = .scalar (.text name) := by
        rcases d with v | items
        · cases v <;> simp_all [isText]
        · cases htext
      exact ⟨rfl, name, labels, by rw [enumDef, hindex]; rfl⟩
  · cases h

/-- The instructions that jump. -/
def Instr.jumps : Instr → Bool
  | .jump _ | .jumpIfNotTrue _ | .jumpIfNotNull _ => true
  | _ => false

/-- An instruction that finds its operands and constants does not panic, and pops and pushes what
the verifier has counted. -/
theorem ends_exec {instr : Instr} {pops pushes : ℕ} (hjump : instr.jumps = false)
    (heff : effect consts instr = .ok (pops, pushes)) (h : pops ≤ stack.length) :
    Ends (fun s => s.length = stack.length - pops + pushes)
      (exec b consts cols params instr stack) := by
  have hrange : ∀ {c : UInt16} {d : ℕ × ℕ},
      (if c.toNat ≥ consts.length then .error outOfRange else .ok d : Except Error (ℕ × ℕ)) =
        .ok (pops, pushes) → c.toNat < consts.length ∧ d = (pops, pushes) := by
    intro c d hc
    split_ifs at hc with hlt
    exact ⟨by omega, Except.ok.inj hc⟩
  cases instr with
  | jump | jumpIfNotTrue | jumpIfNotNull => cases hjump
  | pushCol | pushParam => cases heff; exact (ends_get ..).bind fun _ _ => ends_ok rfl
  | pushConst i =>
    obtain ⟨hi, hd⟩ := hrange heff
    cases hd
    exact (ends_index hi).bind fun _ _ => ends_ok rfl
  | like p | likeCs p | glob p | regexp p =>
    obtain ⟨hi, hd⟩ := hrange heff
    cases hd
    exact ends_matchConst _ h hi
  | likeEsc p e | likeCsEsc p e =>
    simp only [effect] at heff
    split_ifs at heff with hlt
    obtain ⟨_, -, hd⟩ := map_eq_ok.1 heff
    cases hd
    exact ends_matchEscape _ h (by omega) (by omega)
  | likeDynEsc e | likeCsDynEsc e =>
    simp only [effect] at heff
    split_ifs at heff with hlt
    obtain ⟨_, -, hd⟩ := map_eq_ok.1 heff
    cases hd
    exact ends_matchDynEscape _ h (by omega)
  | enumRank slot | enumValidate slot =>
    obtain ⟨hd, name, labels, hdef⟩ := enumDef_of_effect heff
    cases hd
    simp only [exec, hdef]
    exact ends_unary _ h
  | inParam i | inParamColl i coll => cases heff; exact ends_inParam _ _ h
  | inList n | inListColl n coll => cases heff; exact ends_inList _ h
  | concatN n => cases heff; exact ends_nary _ h
  | call f argc | callColl f argc coll =>
    simp only [effect] at heff
    split_ifs at heff
    cases heff
    rw [exec]
    exact ends_nary _ h
  | hostCall name argc =>
    simp only [effect] at heff
    split_ifs at heff with hlt
    cases heff
    refine (ends_index (not_le.1 hlt)).bind fun c _ => ?_
    split
    · exact ends_nary _ h
    · exact ends_fail _
  | spellCall hash argc =>
    simp only [effect] at heff
    split at heff
    · rename_i h32 hconst
      split_ifs at heff with hlen
      cases heff
      have hindex : (index consts hash.toNat : Res Datum) = .ok (.scalar (.blob h32)) := by
        rw [index, hconst]
      simp only [exec, hindex, bind, Except.bind, if_pos hlen]
      exact ends_nary _ h
    · cases heff
  | pop =>
    cases heff
    exact (ends_popTop h).bind fun r hr => ends_ok (by rw [hr]; rfl)
  | neg | not | isNull | isNotNull | toFloat | bitNot | cast | castPg | affinity =>
    cases heff
    rw [exec]
    exact ends_unary _ h
  | _ =>
    cases heff
    rw [exec]
    exact ends_binary _ h

end Exec

/-- The depth of the stack before an instruction, where the verifier has one. -/
def depth (depthAt : List (Option ℕ)) (i : ℕ) : Option ℕ := depthAt[i]?.join

/-- The walk only adds to the table. -/
def Keeps (depthAt depthAt' : List (Option ℕ)) : Prop :=
  ∀ i d, depth depthAt i = some d → depth depthAt' i = some d

/-- The table, up to `max`, is right at instruction `i`: its operands are there and every
instruction that may come next is entered at the depth it leaves. -/
inductive Fits (n : ℕ) (consts : List Datum) (depthAt : List (Option ℕ)) (max i : ℕ) : Instr → Prop
  | jump {t : UInt16} {d : ℕ} : depth depthAt i = some d → d ≤ max → i < t.toNat → t.toNat ≤ n →
      depth depthAt t.toNat = some d → Fits n consts depthAt max i (.jump t)
  | jumpIfNotTrue {t : UInt16} {d : ℕ} : depth depthAt i = some d → d ≤ max →
      i < t.toNat → t.toNat ≤ n →
      1 ≤ d → depth depthAt t.toNat = some (d - 1) → depth depthAt (i + 1) = some (d - 1) →
      Fits n consts depthAt max i (.jumpIfNotTrue t)
  | jumpIfNotNull {t : UInt16} {d : ℕ} : depth depthAt i = some d → d ≤ max →
      i < t.toNat → t.toNat ≤ n →
      1 ≤ d → depth depthAt t.toNat = some d → depth depthAt (i + 1) = some d →
      Fits n consts depthAt max i (.jumpIfNotNull t)
  | exec {instr : Instr} {d pops pushes : ℕ} :
      instr.jumps = false → depth depthAt i = some d → d ≤ max →
      effect consts instr = .ok (pops, pushes) → pops ≤ d → d - pops + pushes ≤ max →
      depth depthAt (i + 1) = some (d - pops + pushes) → Fits n consts depthAt max i instr

section Verify

variable {n i max max' : ℕ} {consts : List Datum} {depthAt depthAt' : List
  (Option ℕ)} {instr : Instr}

theorem Keeps.refl (depthAt : List (Option ℕ)) : Keeps depthAt depthAt := fun _ _ h => h

theorem Keeps.trans {depthAt'' : List (Option ℕ)} (h : Keeps depthAt depthAt')
    (h' : Keeps depthAt' depthAt'') : Keeps depthAt depthAt'' := fun i d hd => h' i d (h i d hd)

theorem Fits.mono (hkeep : Keeps depthAt depthAt') (hmax : max ≤ max')
    (h : Fits n consts depthAt max i instr) : Fits n consts depthAt' max' i instr := by
  cases h with
  | jump h1 h2 h3 h4 h5 => exact .jump (hkeep _ _ h1) (h2.trans hmax) h3 h4 (hkeep _ _ h5)
  | jumpIfNotTrue h1 h2 h3 h4 h5 h6 h7 =>
    exact .jumpIfNotTrue (hkeep _ _ h1) (h2.trans hmax) h3 h4 h5 (hkeep _ _ h6) (hkeep _ _ h7)
  | jumpIfNotNull h1 h2 h3 h4 h5 h6 h7 =>
    exact .jumpIfNotNull (hkeep _ _ h1) (h2.trans hmax) h3 h4 h5 (hkeep _ _ h6) (hkeep _ _ h7)
  | exec h1 h2 h3 h4 h5 h6 h7 =>
    exact .exec h1 (hkeep _ _ h2) (h3.trans hmax) h4 h5 (h6.trans hmax) (hkeep _ _ h7)

theorem depth_of_index {d : Option ℕ} (h : (index depthAt i : Res (Option ℕ)) = .ok d) :
    depthAt[i]? = some d := by
  unfold index at h
  split at h
  · rename_i e he
    rw [he, Except.ok.inj h]
  · cases h

theorem merge_spec {t d : ℕ} (h : merge depthAt t d = .ok depthAt') :
    Keeps depthAt depthAt' ∧ depth depthAt' t = some d := by
  obtain ⟨prev, hprev, h⟩ := bind_eq_ok.1 h
  have ht := depth_of_index hprev
  obtain ⟨hlt, -⟩ := List.getElem?_eq_some_iff.1 ht
  cases prev with
  | none =>
    cases h
    refine ⟨fun j e he => ?_, by simp [depth, hlt]⟩
    have hne : t ≠ j := by
      rintro rfl
      rw [depth, ht] at he
      cases he
    rwa [depth, List.getElem?_set_ne hne]
  | some prev =>
    dsimp only at h
    split_ifs at h with heq
    · cases h
      subst heq
      exact ⟨Keeps.refl _, by rw [depth, ht]; rfl⟩
    · cases h

theorem checkTarget_spec {t : ℕ} (h : checkTarget n i t = .ok ()) : i < t ∧ t ≤ n := by
  unfold checkTarget at h
  split_ifs at h with h1 h2
  · cases h
  · cases h
  · exact ⟨by omega, by omega⟩

theorem lift_eq_ok {α : Type} {x : Except Error α} {a : α} (h : lift x = .ok a) : x = .ok a := by
  cases x with
  | error e => cases h
  | ok v => exact congrArg _ (Except.ok.inj h)

theorem visit_of_not_jumps (s : List (Option ℕ) × ℕ) (h : instr.jumps = false) :
    visit n consts s instr i = (do
      let some d ← index s.1 i | fail (.corrupt s!"instruction {i} is unreachable")
      let (pops, pushes) ← lift (effect consts instr)
      if d < pops then fail underflow
      let depthAt ← merge s.1 (i + 1) (d - pops + pushes)
      return (depthAt, Nat.max (Nat.max s.2 d) (d - pops + pushes))) := by
  cases instr <;> first | rfl | cases h

/-- One visited instruction fits the recorded depths and goes on recording. -/
theorem visit_spec (h : visit n consts (depthAt, max) instr i = .ok (depthAt', max')) :
    Keeps depthAt depthAt' ∧ max ≤ max' ∧ Fits n consts depthAt' max' i instr := by
  have hentry : ∀ {e : Option ℕ}, (index depthAt i : Res (Option ℕ)) = .ok e →
      depth depthAt i = e :=
    fun he => by rw [depth, depth_of_index he]; rfl
  by_cases hjump : instr.jumps = true
  · obtain ⟨e, he, h⟩ := bind_eq_ok.1 h
    have hd := hentry he
    cases e with
    | none => cases h
    | some d =>
    cases instr with
    | jump t =>
      obtain ⟨⟨⟩, htarget, h⟩ := bind_eq_ok.1 h
      obtain ⟨D, hD, h⟩ := bind_eq_ok.1 h
      cases h
      obtain ⟨hkeep, ht⟩ := merge_spec hD
      obtain ⟨h1, h2⟩ := checkTarget_spec htarget
      exact ⟨hkeep, le_max_left .., .jump (hkeep _ _ hd) (le_max_right ..) h1 h2 ht⟩
    | jumpIfNotTrue t | jumpIfNotNull t =>
      obtain ⟨⟨⟩, htarget, h⟩ := bind_eq_ok.1 h
      split_ifs at h with hlt
      · cases h
      obtain ⟨D, hD, h⟩ := bind_eq_ok.1 h
      obtain ⟨D', hD', h⟩ := bind_eq_ok.1 h
      cases h
      obtain ⟨hkeep, ht⟩ := merge_spec hD
      obtain ⟨hkeep', hnext⟩ := merge_spec hD'
      obtain ⟨h1, h2⟩ := checkTarget_spec htarget
      refine ⟨hkeep.trans hkeep', le_max_left .., ?_⟩
      constructor
      exacts [hkeep' _ _ (hkeep _ _ hd), le_max_right .., h1, h2, by omega, hkeep' _ _ ht, hnext]
    | _ => cases hjump
  · rw [visit_of_not_jumps _ (by simpa using hjump)] at h
    obtain ⟨e, he, h⟩ := bind_eq_ok.1 h
    have hd := hentry he
    cases e with
    | none => cases h
    | some d =>
    obtain ⟨⟨pops, pushes⟩, heff, h⟩ := bind_eq_ok.1 h
    dsimp only at h
    split_ifs at h with hlt
    · cases h
    obtain ⟨D, hD, h⟩ := bind_eq_ok.1 h
    cases h
    obtain ⟨hkeep, hnext⟩ := merge_spec hD
    refine ⟨hkeep, (le_max_left ..).trans (le_max_left ..), ?_⟩
    exact .exec (by simpa using hjump) (hkeep _ _ hd) ((le_max_right ..).trans (le_max_left ..))
      (lift_eq_ok heff) (by omega) (le_max_right ..) hnext

theorem visitAll_spec : ∀ (instrs : List Instr) {i max : ℕ} {depthAt : List (Option ℕ)},
    visitAll n consts i (depthAt, max) instrs = .ok (depthAt', max') →
    Keeps depthAt depthAt' ∧ max ≤ max' ∧
      ∀ k instr, instrs[k]? = some instr → Fits n consts depthAt' max' (i + k) instr
  | [], i, max, depthAt, h => by
    cases h
    exact ⟨Keeps.refl _, le_rfl, fun k instr hk => by cases hk⟩
  | instr :: instrs, i, max, depthAt, h => by
    obtain ⟨⟨D, m⟩, hvisit, h⟩ := bind_eq_ok.1 h
    obtain ⟨hkeep, hmax, hfits⟩ := visit_spec hvisit
    obtain ⟨hkeep', hmax', hrest⟩ := visitAll_spec instrs h
    refine ⟨hkeep.trans hkeep', hmax.trans hmax', fun k instr' hk => ?_⟩
    cases k with
    | zero =>
      cases hk
      exact hfits.mono hkeep' hmax'
    | succ k =>
      rw [← add_assoc, add_right_comm]
      exact hrest k instr' hk

/-- A verified program has a table of depths that fits at every instruction, starts empty and ends
with one value. -/
theorem validate_fits {instrs : List Instr} (h : validate instrs consts = .ok max) :
    ∃ depthAt, depth depthAt 0 = some 0 ∧ depth depthAt instrs.length = some 1 ∧
      ∀ i instr, instrs[i]? = some instr → Fits instrs.length consts depthAt max i instr := by
  unfold validate at h
  split_ifs at h with hempty
  · cases h
  obtain ⟨⟨D, m⟩, hwalk, h⟩ := bind_eq_ok.1 h
  obtain ⟨hkeep, -, hfits⟩ := visitAll_spec instrs hwalk
  obtain ⟨e, he, h⟩ := bind_eq_ok.1 h
  have hend := depth_of_index he
  split at h
  · cases h
    refine ⟨D, hkeep 0 0 (by simp [depth]), by rw [depth, hend]; rfl, fun i instr hi => ?_⟩
    have := hfits i instr hi
    rwa [zero_add] at this
  · cases h
  · cases h

end Verify

/-- The machine after `k` instructions. -/
inductive Executes (b : Builtins) (p : Program) (cols params : List Datum) : ℕ → Machine → Prop
  | start : Executes b p cols params 0 ⟨0, []⟩
  | next {k : ℕ} {m m' : Machine} : Executes b p cols params k m → m.pc < p.instrs.length →
      step b p cols params m = .ok m' → Executes b p cols params (k + 1) m'

section Run

variable {b : Builtins} {p : Program} {cols params : List Datum} {depthAt : List (Option ℕ)}

/-- The stack has the height that the table gives, within the bound. -/
structure Stands (p : Program) (depthAt : List (Option ℕ)) (m : Machine) : Prop where
  pc_le : m.pc ≤ p.instrs.length
  height : depth depthAt m.pc = some m.stack.length
  bound : m.stack.length ≤ p.maxStack

variable {m : Machine}

theorem step_of_not_jumps {instr : Instr} (hi : p.instrs[m.pc]? = some instr)
    (h : instr.jumps = false) : step b p cols params m = (do
      let stack ← exec b p.consts cols params instr m.stack
      return ⟨m.pc + 1, stack⟩) := by
  have hindex : (index p.instrs m.pc : Res Instr) = .ok instr := by rw [index, hi]
  rw [step, hindex]
  cases instr <;> first | rfl | cases h

/-- A step of a validated program does not underflow and moves forward. -/
theorem ends_step (hfits : ∀ i instr, p.instrs[i]? = some instr →
      Fits p.instrs.length p.consts depthAt p.maxStack i instr) (h : Stands p depthAt m)
    (hpc : m.pc < p.instrs.length) :
    Ends (fun m' => m.pc < m'.pc ∧ Stands p depthAt m') (step b p cols params m) := by
  have hi := List.getElem?_eq_getElem hpc
  have hindex : (index p.instrs m.pc : Res Instr) = .ok p.instrs[m.pc] := index_of_lt hpc
  have hdepth : ∀ {d : ℕ}, depth depthAt m.pc = some d → m.stack.length = d := fun hd =>
    Option.some.inj (h.height.symm.trans hd)
  have hfit := hfits m.pc _ hi
  generalize p.instrs[m.pc] = instr at hi hindex hfit
  cases hfit with
  | jump hd hmax hlt hle ht =>
    rw [step, hindex]
    exact ends_ok ⟨hlt, hle, by rw [hdepth hd]; exact ht, h.bound⟩
  | jumpIfNotTrue hd hmax hlt hle hpos ht hnext =>
    rw [step, hindex]
    have hlen := hdepth hd
    refine (ends_popTop (by omega)).bind fun r hr => ends_ok ?_
    have hr' : r.2.length ≤ p.maxStack := by omega
    split_ifs
    · exact ⟨hlt, hle, by rw [hr, hlen]; exact ht, hr'⟩
    · exact ⟨Nat.lt_succ_self _, hpc, by rw [hr, hlen]; exact hnext, hr'⟩
  | jumpIfNotNull hd hmax hlt hle hpos ht hnext =>
    rw [step, hindex]
    have hlen := hdepth hd
    refine (ends_popTop (by omega)).bind fun r hr => ends_ok ?_
    split_ifs
    · exact ⟨Nat.lt_succ_self _, hpc, by rw [hlen]; exact hnext, h.bound⟩
    · exact ⟨hlt, hle, by rw [hlen]; exact ht, h.bound⟩
  | exec hj hd hmax heff hpops hbound hnext =>
    rw [step_of_not_jumps hi hj]
    have hlen := hdepth hd
    refine (ends_exec hj heff (by omega)).bind fun stack hstack => ends_ok ?_
    rw [hlen] at hstack
    exact ⟨Nat.lt_succ_self _, hpc, by rw [hstack]; exact hnext, by rw [hstack]; exact hbound⟩

theorem Executes.stands {k : ℕ} (hzero : depth depthAt 0 = some 0)
    (hfits : ∀ i instr, p.instrs[i]? = some instr →
      Fits p.instrs.length p.consts depthAt p.maxStack i instr) (h : Executes b p cols params k m) :
    k ≤ m.pc ∧ Stands p depthAt m := by
  induction h with
  | start => exact ⟨le_rfl, Nat.zero_le _, hzero, Nat.zero_le _⟩
  | @next k m m' _ hpc hstep ih =>
    obtain ⟨hlt, hstands⟩ := (ends_step hfits ih.2 hpc).post m' hstep
    exact ⟨by omega, hstands⟩

/-- The counter grows with every step, so the run ends. -/
theorem run_ends (hfits : ∀ i instr, p.instrs[i]? = some instr →
      Fits p.instrs.length p.consts depthAt p.maxStack i instr) : ∀ (fuel : ℕ) {m : Machine},
    Stands p depthAt m → p.instrs.length ≤ m.pc + fuel →
    ∃ r, run b p cols params fuel m = some r ∧
      Ends (fun m' => m'.pc = p.instrs.length ∧ Stands p depthAt m') r
  | fuel, m, hm, hfuel => by
    rw [run.eq_def]
    dsimp only
    split_ifs with hpc
    · cases fuel with
      | zero => exact absurd hpc (by omega)
      | succ fuel =>
        have hstep : Ends (fun m' => m.pc < m'.pc ∧ Stands p depthAt m') (step b p cols params m) :=
          ends_step hfits hm hpc
        rcases hs : step b p cols params m with e | m'
        · refine ⟨_, rfl, ⟨⟨?_⟩, fun _ h => by cases h⟩⟩
          rintro h
          exact hstep.ne_panic (hs.trans (congrArg _ (Except.error.inj h)))
        · obtain ⟨hlt, hm'⟩ := hstep.post m' hs
          exact run_ends hfits fuel hm' (by omega)
    · exact ⟨_, rfl, ends_ok ⟨le_antisymm hm.pc_le (not_lt.1 hpc), hm⟩⟩

end Run

end Mpedb.Expr
