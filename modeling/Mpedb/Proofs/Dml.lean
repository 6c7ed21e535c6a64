import Mpedb.Proofs.Statement

/-!
# Whole statements

A statement that succeeds leaves a healthy transaction healthy, with all that its triggers and
foreign keys do. One that fails without its flag has changed no table, as long as its conditions
hold: the exits that leave the flag alone are not taken once a row has changed, and what runs before
the first row is counted does not write.
-/

namespace Mpedb

open Fallible

open List hiding set

/-! ## Triggers -/

/-- The procedure gives up when one of its statements fails. -/
def Proc.Strict : Proc → Prop
  | .done _ => True
  | .call _ _ next => (∀ e, next (.error e) = .done (.error e)) ∧ ∀ r, (next (.ok r)).Strict

/-- A body that does not go on after a failed statement. -/
def TriggerBody.Strict : TriggerBody → Prop
  | .sql _ => True
  | .proc _ run => ∀ args, (run args).Strict

/-- No trigger goes on after one of its statements has failed. -/
structure WriteRules.Strict (rules : WriteRules) : Prop where
  beforeInsert : ∀ id, ∀ trig ∈ rules.beforeInsert id, trig.body.Strict
  beforeUpdate : ∀ id, ∀ trig ∈ rules.beforeUpdate id, trig.body.Strict
  beforeDelete : ∀ id, ∀ trig ∈ rules.beforeDelete id, trig.body.Strict
  afterInsert : ∀ id, ∀ trig ∈ rules.afterInsert id, trig.body.Strict
  afterUpdate : ∀ id, ∀ trig ∈ rules.afterUpdate id, trig.body.Strict
  afterDelete : ∀ id, ∀ trig ∈ rules.afterDelete id, trig.body.Strict

/-- The procedure may run the plan. -/
def Proc.Runs (plan : CompiledPlan) : Proc → Prop
  | .done _ => False
  | .call plan' _ next => plan' = plan ∨ ∃ r, (next r).Runs plan

/-- The body may run the plan: a body that only checks runs none. -/
def TriggerBody.Runs (plan : CompiledPlan) : TriggerBody → Prop
  | .sql stmts => ∃ map, TriggerStmt.dml plan map ∈ stmts
  | .proc _ run => ∃ args, (run args).Runs plan

/-- The action keeps a property of the tables, however it ends. -/
abbrev StaysIn {ε α : Type} (I : (ℕ → TableTxn) → Prop) (m : Fallible DbTxn ε α) : Prop :=
  Stays (fun s => I s.tables) m

section Triggers

variable {c : Context} {ixs : ℕ → List IndexDef} {rules : WriteRules} {run : Inner}
  {new old : Option Row}

section StaysIn

variable {I : (ℕ → TableTxn) → Prop} {ε α : Type}

theorem staysIn_of_keeps {m : Fallible DbTxn ε α} (h : Keeps DbTxn.tables m) :
    StaysIn I m := h.stays I

theorem staysIn_pure (a : α) : StaysIn I (pure a : Fallible DbTxn ε α) :=
  staysIn_of_keeps (keeps_pure a)

theorem staysIn_fail (e : ε) : StaysIn I (fail e : Fallible DbTxn ε α) :=
  staysIn_of_keeps (keeps_fail e)

theorem staysIn_lift (r : Except ε α) : StaysIn I (lift r : Fallible DbTxn ε α) :=
  staysIn_of_keeps (keeps_lift r)

theorem staysIn_runStmts : ∀ (stmts : List TriggerStmt),
    (∀ plan map, .dml plan map ∈ stmts → ∀ params, StaysIn I (run plan params)) →
    StaysIn I (runStmts run new old stmts)
  | [], _ => staysIn_pure _
  | .dml plan map :: stmts, h => (staysIn_lift _).bind fun params =>
      (h plan map (mem_cons_self ..) params).bind fun _ =>
        staysIn_runStmts stmts fun plan map hp => h plan map (mem_cons_of_mem _ hp)
  | .raise kind msg gate :: stmts, h => by
    refine (staysIn_lift _).bind fun b => stays_ite (fun _ => ?_) fun _ =>
      staysIn_runStmts stmts fun plan map hp => h plan map (mem_cons_of_mem _ hp)
    split
    · exact staysIn_fail _
    · exact staysIn_pure _
  | .eval programs map :: stmts, h => (staysIn_lift _).bind fun _ => (staysIn_lift _).bind fun _ =>
      staysIn_runStmts stmts fun plan map hp => h plan map (mem_cons_of_mem _ hp)

theorem staysIn_runProc : ∀ (p : Proc),
    (∀ plan, p.Runs plan → ∀ params, StaysIn I (run plan params)) → StaysIn I (runProc run p)
  | .done r, _ => staysIn_lift r
  | .call plan params next, h => (h plan (.inl rfl) params).attempt.bind fun r =>
      staysIn_runProc (next r) fun plan hp => h plan (.inr ⟨r, hp⟩)

/-- What every statement of a trigger body keeps, the body keeps. -/
theorem staysIn_runBody {body : TriggerBody}
    (h : ∀ plan, body.Runs plan → ∀ params, StaysIn I (run plan params)) :
    StaysIn I (runBody run new old body) := by
  rcases body with stmts | ⟨args, proc⟩
  · exact staysIn_runStmts stmts fun plan map hp => h plan ⟨map, hp⟩
  · exact (staysIn_lift _).bind fun a => (staysIn_runProc (proc a) fun plan hp =>
      h plan ⟨a, hp⟩).bind fun _ => staysIn_pure _

end StaysIn

theorem preserves_runStmts (hrun : ∀ plan params, Preserves c ixs (run plan params)) :
    ∀ (stmts : List TriggerStmt), Preserves c ixs (runStmts run new old stmts)
  | [] => preserves_of_keeps (keeps_pure _)
  | .dml plan map :: stmts => (preserves_of_keeps (keeps_lift _)).bind fun _ =>
      (hrun _ _).bind fun _ => preserves_runStmts hrun stmts
  | .raise kind msg gate :: stmts => by
    refine (preserves_of_keeps (keeps_lift _)).bind fun b => triple_ite ?_
      (preserves_runStmts hrun stmts)
    split
    · exact preserves_of_keeps (keeps_fail _)
    · exact preserves_of_keeps (keeps_pure _)
  | .eval programs map :: stmts => (preserves_of_keeps (keeps_lift _)).bind fun _ =>
      (preserves_of_keeps (keeps_lift _)).bind fun _ => preserves_runStmts hrun stmts

theorem preserves_runProc (hrun : ∀ plan params, Preserves c ixs (run plan params)) :
    ∀ (p : Proc), p.Strict → Preserves c ixs (runProc run p)
  | .done r, _ => preserves_of_keeps (keeps_lift r)
  | .call plan params next, hp => by
    refine Triple.bind (hrun plan params).attempt fun r => ?_
    rcases r with e | r
    · rw [hp.1 e]
      exact fun _ _ => trivial
    · exact preserves_runProc hrun (next (.ok r)) (hp.2 r)

theorem preserves_runBody (hrun : ∀ plan params, Preserves c ixs (run plan params))
    {body : TriggerBody} (hb : body.Strict) : Preserves c ixs (runBody run new old body) := by
  rcases body with stmts | ⟨args, proc⟩
  · exact preserves_runStmts hrun stmts
  · exact (preserves_of_keeps (keeps_lift _)).bind fun a =>
      (preserves_runProc hrun (proc a) (hb a)).bind fun _ => preserves_of_keeps (keeps_pure _)

variable {inner : List String → Inner} {active : List String} {changed : List ℕ}

theorem preserves_fireEach
    (hrun : ∀ active plan params, Preserves c ixs (inner active plan params)) :
    ∀ (trigs : List CompiledTrigger), (∀ trig ∈ trigs, trig.body.Strict) →
      Preserves c ixs (fireEach c rules inner active new old changed trigs)
  | [], _ => preserves_of_keeps (keeps_pure _)
  | trig :: trigs, h => by
    have hrest := preserves_fireEach hrun trigs fun t ht => h t (mem_cons_of_mem _ ht)
    refine triple_ite hrest ?_
    refine (preserves_of_keeps (keeps_lift _)).bind fun b => triple_ite ?_ hrest
    refine (preserves_of_keeps (keeps_chargeWork c _ _)).bind fun _ =>
      (preserves_runBody (hrun _) (h trig (mem_cons_self ..))).bind fun o => ?_
    cases o with
    | proceed => exact hrest
    | skipRow => exact preserves_of_keeps (keeps_pure _)

theorem staysIn_fireEach {I : (ℕ → TableTxn) → Prop} : ∀ (trigs : List CompiledTrigger),
    (∀ trig ∈ trigs, ∀ plan, trig.body.Runs plan → ∀ active params,
      StaysIn I (inner active plan params)) →
    StaysIn I (fireEach c rules inner active new old changed trigs)
  | [], _ => staysIn_pure _
  | trig :: trigs, h => by
    have hrest := staysIn_fireEach trigs fun t ht => h t (mem_cons_of_mem _ ht)
    refine stays_ite (fun _ => hrest) fun _ =>
      (staysIn_lift _).bind fun b => stays_ite (fun _ => ?_) fun _ => hrest
    refine (staysIn_of_keeps (keeps_chargeWork c _ _)).bind fun _ =>
      (staysIn_runBody fun plan hp => h trig (mem_cons_self ..) plan hp _).bind fun o => ?_
    cases o with
    | proceed => exact hrest
    | skipRow => exact staysIn_pure _

/-- A level down, or the end of the levels. -/
def InnerPreserves (c : Context) (ixs : ℕ → List IndexDef)
    (inner : Option (List String → Inner)) : Prop :=
  ∀ run, inner = some run → ∀ active plan params, Preserves c ixs (run active plan params)

theorem preserves_fireRowTriggers {inner : Option (List String → Inner)}
    (hrun : InnerPreserves c ixs inner) {trigs : List CompiledTrigger}
    (h : ∀ trig ∈ trigs, trig.body.Strict) :
    Preserves c ixs (fireRowTriggers c rules inner active trigs new old changed) := by
  refine triple_ite (preserves_of_keeps (keeps_pure _)) ?_
  rcases inner with _ | run
  · exact preserves_of_keeps (keeps_fail _)
  · exact preserves_fireEach (hrun run rfl) trigs h

theorem staysIn_fireRowTriggers {I : (ℕ → TableTxn) → Prop}
    {inner : Option (List String → Inner)} {trigs : List CompiledTrigger}
    (h : ∀ trig ∈ trigs, ∀ plan, trig.body.Runs plan → ∀ run, inner = some run →
      ∀ active params, StaysIn I (run active plan params)) :
    StaysIn I (fireRowTriggers c rules inner active trigs new old changed) := by
  refine stays_ite (fun _ => staysIn_pure _) fun _ => ?_
  rcases inner with _ | run
  · exact staysIn_fail _
  · exact staysIn_fireEach trigs fun trig ht plan hp => h trig ht plan hp run rfl

/-- Triggers that only check leave the tables alone. -/
theorem keeps_fireRowTriggers {inner : Option (List String → Inner)}
    {trigs : List CompiledTrigger} (h : ∀ trig ∈ trigs, ∀ plan, ¬ trig.body.Runs plan) :
    Keeps DbTxn.tables (fireRowTriggers c rules inner active trigs new old changed) := fun s =>
  staysIn_fireRowTriggers (I := (· = s.tables)) (fun trig ht plan hp => (h trig ht plan hp).elim)
    s rfl

end Triggers

/-! ## Exits -/

/-- The transaction is healthy and, under the conditions `M`, its tables are still those before the
statement as long as no row counts as applied. -/
def Here (c : Context) (ixs : ℕ → List IndexDef) (M : Prop) (T : ℕ → TableTxn) (flag : Bool)
    (s : DbTxn) : Prop :=
  Healthy c ixs s.tables ∧ (M → flag = false → s.tables = T)

/-- A failure without the flag has changed no table. -/
def Honest (M : Prop) (T : ℕ → TableTxn) (f : Failure) (s : DbTxn) : Prop :=
  M → f.partialFlag = false → s.tables = T

/-- Where the call succeeds in the state `s` it has not written. -/
def Leaves {α : Type} (m : Stmt α) (s : DbTxn) : Prop :=
  ∀ s' a, m s = (s', .ok a) → s'.tables = s.tables

/-- The row loops count their rows. Under the conditions the tables are those before the statement
while nothing is counted. -/
def Uncounted (c : Context) (ixs : ℕ → List IndexDef) (M : Prop) (T : ℕ → TableTxn)
    (count : Progress → ℕ) (p : Progress) (s : DbTxn) : Prop :=
  Healthy c ixs s.tables ∧ (M → count p = 0 → s.tables = T)

/-- In the state `s` the row gets through and is counted. -/
def Counts (count : Progress → ℕ) (step : Stmt Progress) (s : DbTxn) : Prop :=
  ∃ s' p, step s = (s', .ok p) ∧ 0 < count p

section Exits

variable {c : Context} {ixs : ℕ → List IndexDef} {M : Prop} {T : ℕ → TableTxn} {flag : Bool}
  {α : Type} {m : TxnCall α}

/-- A call that keeps the tables, and with them whatever says that nothing is changed yet. -/
theorem triple_flagged {C : (ℕ → TableTxn) → Prop} (hm : Keeps DbTxn.tables m)
    (hC : ∀ tables, C tables → M → flag = false → tables = T) :
    Triple (fun s => C s.tables) (flagged flag m) (fun _ s => C s.tables) (Honest M T) :=
  ((hm.triple C).conseq (fun _ h => h) (fun _ _ h => h) fun _ _ h => hC _ h).mapFailure

theorem triple_flagged_lift {P : DbTxn → Prop} (r : Except Error α)
    (hP : ∀ s, P s → M → flag = false → s.tables = T) :
    Triple P (flagged flag (lift r)) (fun a s => r = .ok a ∧ P s) (Honest M T) :=
  Triple.mapFailure (triple_lift (fun _ _ hs hr => ⟨hr, hs⟩) fun _ _ hs _ => hP _ hs)

theorem triple_flagged_true (hm : Preserves c ixs m) :
    Triple (fun s => Healthy c ixs s.tables) (flagged true m) (fun _ s => Healthy c ixs s.tables)
      (Honest M T) :=
  (Triple.conseq hm (fun _ h => h) (fun _ _ h => h) fun _ _ _ _ hf => nomatch hf).mapFailure

/-- BEFORE triggers: if they fail the flag is set, and if they succeed they must not have written
where the conditions hold. -/
theorem triple_flagged_before {s₀ : DbTxn} (hm : Preserves c ixs m)
    (hk : M → flag = false → Leaves (flagged true m) s₀ ∧ s₀.tables = T) :
    Triple (fun s => Healthy c ixs s.tables ∧ s = s₀) (flagged true m)
      (fun a s => Here c ixs M T flag s ∧ flagged true m s₀ = (s, .ok a)) (Honest M T) := by
  rintro s ⟨hs, rfl⟩
  have hend := triple_flagged_true (M := M) (T := T) hm s hs
  rcases hrun : flagged true m s with ⟨s', e | a⟩ <;> rw [hrun] at hend
  · exact hend
  · exact ⟨⟨hend, fun hM hf => ((hk hM hf).1 s' a hrun).trans (hk hM hf).2⟩, rfl⟩

theorem triple_bare {P : DbTxn → Prop} {Q : α → DbTxn → Prop}
    (h : Triple P m Q fun _ s => M → s.tables = T) : Triple P (bare m) Q (Honest M T) :=
  (h.conseq (fun _ h => h) (fun _ _ h => h) fun _ _ h hM _ => h hM).mapFailure

theorem triple_bare_ok (hm : Keeps DbTxn.tables m)
    (hok : Triple (fun s => Healthy c ixs s.tables) m (fun _ _ => True) fun _ _ => False) :
    Triple (Here c ixs M T flag) (bare m) (fun _ => Here c ixs M T flag) (Honest M T) := by
  refine triple_bare fun s hs => ?_
  have hend := hok s hs.1
  have htables := hm s
  rcases hrun : m s with ⟨s', e | a⟩ <;> rw [hrun] at hend htables
  · exact hend.elim
  · exact ⟨htables ▸ hs.1, fun hM hf => htables.trans (hs.2 hM hf)⟩

/-- A row call that failed: it left everything as it was, or its error sets the flag. -/
theorem honest_rowFailure {e : Error} {s : DbTxn} (table : String) (rls : Bool)
    (h : Here c ixs M T flag s ∨ ∃ msg, e = .unsupported msg) :
    Honest M T (rowFailure flag e table rls) s := by
  intro hM hf
  obtain ⟨hflag, hc⟩ := Bool.or_eq_false_iff.1 hf
  rcases h with h | ⟨msg, rfl⟩
  · exact h.2 hM hflag
  · cases hc

theorem keeps_pushDeferred (held : List Deferred) : Keeps DbTxn.tables (pushDeferred held) :=
  keeps_modify fun _ => rfl

theorem triple_pushDeferred {P : (ℕ → TableTxn) → Prop} {R : Failure → DbTxn → Prop}
    (held : List Deferred) : Triple (fun s => P s.tables) (pushDeferred held)
      (fun _ s => P s.tables) R := triple_modify fun _ hs => hs

end Exits

section Insert

variable {c : Context} {ixs : ℕ → List IndexDef} {rules : WriteRules}
  {inner : Option (List String → Inner)} {active : List String} {st : SchemaTable} {id : ℕ}
  {params : List Value} {M : Prop} {T : ℕ → TableTxn} {flag : Bool}

theorem keeps_childCheck (row : Row) : Keeps DbTxn.tables (childCheck c rules id row) := by
  exact keeps_ite (keeps_checkChild c id row) (keeps_pure _)

theorem nextRowid_ok {rc : ℕ} (hst : c.schema[id]? = some st) (hrc : st.rowidAliasCol = some rc) :
    Triple (fun s => Healthy c ixs s.tables) (nextRowid st id) (fun _ _ => True)
      fun _ _ => False := by
  refine (triple_reading (Q := fun _ _ => True) (fun _ _ _ _ => trivial) fun s e hs he => ?_).bind
    fun m => triple_ite (triple_pure fun _ _ => trivial) fun _ _ => trivial
  obtain ⟨m, hm⟩ := (hs id st hst).maxRowid_ok hrc
  exact nomatch hm.symm.trans he

theorem triple_assignRowid (hst : c.schema[id]? = some st) (row : Row) :
    Triple (Here c ixs M T flag) (assignRowid st id flag row) (fun _ => Here c ixs M T flag)
      (Honest M T) := by
  have hsame : Triple (Here c ixs M T flag) (pure row : Stmt Row) (fun _ => Here c ixs M T flag)
      (Honest M T) := triple_pure fun _ hs => hs
  unfold assignRowid
  split
  · exact hsame
  rename_i rc hrc
  split
  · refine (triple_bare_ok (keeps_nextRowid st id) (nextRowid_ok hst hrc)).bind fun next => ?_
    exact (triple_flagged_lift _ fun _ hs => hs.2).post fun _ _ h => h.2
  · exact (triple_bare_ok (keeps_noteRowid st id _) (triple_ite (fun _ _ => trivial)
      fun _ _ => trivial)).bind fun _ => hsame
  · exact hsame

theorem triple_prepareRow (hst : c.schema[id]? = some st) (row : Row) :
    Triple (Here c ixs M T flag) (prepareRow st id flag row) (fun _ => Here c ixs M T flag)
      (Honest M T) :=
  (triple_flagged_lift _ fun _ hs => hs.2).bind fun row₁ => triple_fact fun _ =>
    triple_assignRowid hst row₁

theorem preserves_deleteReferenced (hx : SchemaOK c ixs) (hst : c.schema[id]? = some st) (old : Row)
    (pk : List Value) : Preserves c ixs (deleteReferenced c st id old pk) :=
  (preserves_onParentChange hx _ _ _ _ _).bind fun _ => (preserves_onTable hst fun _ ht =>
    ht.deleteByPk_ends pk).bind fun _ => (preserves_onParentChange hx _ _ _ _ _).bind fun _ =>
      preserves_of_keeps (keeps_pure _)

/-- A victim is removed at most once, with its references if it has any. -/
theorem triple_removeVictim (hx : SchemaOK c ixs) (hst : c.schema[id]? = some st)
    (hw : M → st.handle.writeBlocked = false) (deleted : List (List Value)) (pk : List Value) :
    Triple (fun s => Healthy c ixs s.tables) (removeVictim c rules st id deleted pk)
      (fun _ s => Healthy c ixs s.tables) (Honest M T) := by
  have hread : Triple (fun s => Healthy c ixs s.tables) (bare (referencedRow c rules st id pk))
      (fun _ s => Healthy c ixs s.tables) (Honest M T) := by
    refine triple_bare fun s hs => ?_
    unfold referencedRow
    split <;> exact hs
  refine triple_ite (triple_pure fun _ hs => hs) (hread.bind fun referenced => ?_)
  rcases referenced with _ | old
  · refine Triple.bind (triple_bare fun s hs => ?_) fun _ => triple_pure fun _ hs => hs
    have hend := preserves_onTable hst (fun t ht => ht.deleteByPk_ends pk) s hs
    rcases hrun : onTable id (fun t => deleteByPk st.handle t pk) s with ⟨s', e | b⟩ <;>
      rw [hrun] at hend
    · intro hM
      obtain ⟨b, hb⟩ := (hs id st hst).deleteByPk_ok (hw hM) pk
      exact nomatch hb.symm.trans (congrArg (·.2) hrun)
    · exact hend
  · exact (triple_flagged_true (preserves_deleteReferenced hx hst old pk)).bind fun held =>
      (triple_pushDeferred (P := Healthy c ixs) held).bind fun _ => triple_pure fun _ hs => hs

variable {row : Row}

/-- Before the first row is counted there are no victims, so nothing is removed without the flag. -/
theorem triple_removeVictims (hx : SchemaOK c ixs) (hst : c.schema[id]? = some st)
    (hw : M → flag = true → st.handle.writeBlocked = false)
    (hv : M → flag = false → replaceVictims st (T id) row = .ok []) :
    Triple (Here c ixs M T flag) (removeVictims c rules st id row) (fun _ => Here c ixs M T flag)
      (Honest M T) := by
  have hread : Triple (Here c ixs M T flag)
      (bare (reading fun s => replaceVictims st (s.tables id) row))
      (fun pks s => Here c ixs M T flag s ∧ (M → flag = false → pks = [])) (Honest M T) := by
    refine triple_bare (triple_reading (fun s pks hs hr => ⟨hs, fun hM hf => ?_⟩)
      fun s e hs hr => ?_)
    · have hnil := hv hM hf
      rw [← hs.2 hM hf, hr] at hnil
      cases hnil
      rfl
    · obtain ⟨pks, hpks⟩ := (hs.1 id st hst).uniqueVictims_ok row (s.tables id).bundle 0
        (by rw [(hs.1 id st hst).bundle, Nat.zero_add])
      unfold replaceVictims at hr
      rw [hpks] at hr
      cases hr
  refine hread.bind fun pks => (triple_foldlM (I := fun pks _ s => Here c ixs M T flag s ∧
    (M → flag = false → pks = [])) (fun deleted pk rest => ?_) pks []).bind fun _ =>
      triple_pure fun _ hs => hs.1
  -- there is a row to remove, so rows count as applied
  refine triple_of_pre (fun s hs hM hf => nomatch hs.2 hM hf) fun hne : M →
    flag = false → False => ?_
  have hset : M → flag = true := fun hM => by
    rcases hf : flag with _ | _
    · exact (hne hM hf).elim
    · rfl
  exact ((triple_removeVictim hx hst (fun hM => hw hM (hset hM)) deleted pk).pre
    fun s hs => hs.1.1).post fun _ _ h => ⟨⟨h, fun hM hf => (hne hM hf).elim⟩,
      fun hM hf => (hne hM hf).elim⟩

theorem triple_makeRoom {onConflict : OnConflict} (hx : SchemaOK c ixs)
    (hst : c.schema[id]? = some st)
    (hw : M → flag = true → onConflict = .replace → st.handle.writeBlocked = false)
    (hv : M → flag = false → onConflict = .replace → replaceVictims st (T id) row = .ok []) :
    Triple (Here c ixs M T flag) (makeRoom c rules st id onConflict row)
      (fun _ => Here c ixs M T flag) (Honest M T) := by
  unfold makeRoom
  split
  · exact triple_removeVictims hx hst (fun hM hf => hw hM hf rfl) fun hM hf => hv hM hf rfl
  all_goals exact triple_pure fun _ hs => hs

/-- RETURNING can be evaluated on the row. -/
def Returns (returning : Option (List Projection)) (params : List Value) (row : Row) : Prop :=
  ∃ out, returningRow returning row params = .ok out

variable {returning : Option (List Projection)}

theorem triple_returning (hret : M → Returns returning params row) :
    Triple (fun s => Healthy c ixs s.tables) (bare (lift (returningRow returning row params)))
      (fun _ s => Healthy c ixs s.tables) (Honest M T) := by
  refine triple_bare (triple_lift (fun _ _ hs _ => hs) fun _ e _ he hM => ?_)
  obtain ⟨out, hout⟩ := hret hM
  exact nomatch hout.symm.trans he

theorem triple_rowFailure {α : Type} {e : Error} (table : String) (rls : Bool)
    {Q : α → DbTxn → Prop} :
    Triple (fun s => Here c ixs M T flag s ∨ ∃ msg, e = .unsupported msg)
      (fail (rowFailure flag e table rls)) Q (Honest M T) :=
  triple_fail fun _ hs => honest_rowFailure _ rls hs

section DoUpdate

variable {target : List ℕ} {probe : ConflictProbe} {set : List (ℕ × Expr)} {filter : Option Filter}

/-- The probe of a conflict clause reads the tables only. -/
theorem conflictRow_congr (st : SchemaTable) (id : ℕ) (target : List ℕ) (probe : ConflictProbe)
    (row : Row) {s s' : DbTxn} (h : s.tables = s'.tables) :
    (conflictRow st id target probe row s).1 = s ∧
      (conflictRow st id target probe row s).2 = (conflictRow st id target probe row s').2 := by
  unfold conflictRow
  split
  · exact ⟨rfl, by rw [getByPk, reading, reading, h]⟩
  rename_i no
  have hread (s : DbTxn) : (reading fun s : DbTxn => (.ok (s.tables id).bundle[no - 1]? :
      Except Error (Option IndexDef))) s = (s, .ok (s.tables id).bundle[no - 1]?) := rfl
  rw [bind_of_ok (hread s), bind_of_ok (hread s'), h]
  rcases (s'.tables id).bundle[no - 1]? with _ | ix
  · exact ⟨rfl, rfl⟩
  dsimp only
  split_ifs
  · exact ⟨rfl, rfl⟩
  · exact ⟨rfl, by rw [getByIndex, reading, reading, h]⟩

/-- What DO UPDATE asks of the row that met another one in the state `s`: where earlier rows count
as applied, the probe and SET can be evaluated, and RETURNING can on the row that is written. -/
def DoUpdateMeets (st : SchemaTable) (id : ℕ) (params : List Value) (flag : Bool)
    (returning : Option (List Projection)) (target : List ℕ) (probe : ConflictProbe)
    (set : List (ℕ × Expr)) (filter : Option Filter) (row : Row) (s : DbTxn) : Prop :=
  (flag = true → ∃ o, (conflictRow st id target probe row s).2 = .ok o) ∧
  ∀ old, (conflictRow st id target probe row s).2 = .ok (some old) →
    (filter.elim (.ok true) fun f => f (old ++ row) params) = .ok true →
    (flag = true → ∃ new, assign (old ++ row) params set old = .ok new) ∧
    ∀ new₁ new b, assign (old ++ row) params set old = .ok new₁ →
      st.table.generated (st.table.storeAffinity new₁) = .ok new →
      (updateByPk st.handle (s.tables id) new).2 = .ok b → Returns returning params new

/-- The conflicting row is rewritten; what can fail after that carries the flag. -/
theorem triple_doUpdate (hx : SchemaOK c ixs) (hst : c.schema[id]? = some st) {s₀ : DbTxn}
    (hu : M → DoUpdateMeets st id params flag returning target probe set filter row s₀)
    (rls : Bool) (e : Error) :
    Triple (fun s => Here c ixs M T flag s ∧ s.tables = s₀.tables)
      (doUpdate st id params flag rls returning target probe set filter e row)
      (fun _ s => Healthy c ixs s.tables) (Honest M T) := by
  have hprobe : Triple (fun s => Here c ixs M T flag s ∧ s.tables = s₀.tables)
      (bare (conflictRow st id target probe row))
      (fun o s => (conflictRow st id target probe row s₀).2 = .ok o ∧
        Here c ixs M T flag s ∧ s.tables = s₀.tables) (Honest M T) := by
    refine triple_bare fun s hs => ?_
    obtain ⟨hsame, hresult⟩ := conflictRow_congr st id target probe row hs.2
    rcases hr : conflictRow st id target probe row s with ⟨s', e | o⟩ <;> rw [hr] at hsame hresult
    · intro hM
      cases hsame
      rcases hf : flag with _ | _
      · exact hs.1.2 hM hf
      · obtain ⟨o, ho⟩ := (hu hM).1 hf
        exact nomatch hresult.trans ho
    · cases hsame
      exact ⟨hresult.symm, hs⟩
  refine hprobe.bind fun o => triple_fact fun ho => ?_
  rcases o with _ | old
  · exact (triple_rowFailure _ rls).pre fun _ h => .inl h.1
  refine (triple_flagged_lift _ fun _ hs => hs.1.2).bind fun b => triple_fact fun hb => ?_
  rcases b with _ | _
  · exact triple_pure fun _ hs => hs.1.1
  have hassign : Triple (fun s => Here c ixs M T flag s ∧ s.tables = s₀.tables)
      (bare (lift (assign (old ++ row) params set old)))
      (fun new s => assign (old ++ row) params set old = .ok new ∧
        Here c ixs M T flag s ∧ s.tables = s₀.tables) (Honest M T) := by
    refine triple_bare (triple_lift (fun _ _ hs hr => ⟨hr, hs⟩) fun s e hs he hM => ?_)
    rcases hf : flag with _ | _
    · exact hs.1.2 hM hf
    · obtain ⟨new, hnew⟩ := ((hu hM).2 old ho hb).1 hf
      exact nomatch hnew.symm.trans he
  refine hassign.bind fun new₁ => triple_fact fun h₁ => ?_
  refine (triple_flagged_lift _ fun _ hs => hs.1.2).bind fun new => triple_fact fun hgen => ?_
  rintro s ⟨hs, htables⟩
  have hend := triple_onTable hst (fun t ht => ht.updateByPk_ends (hx id st hst) new)
    (fun tables => M → flag = false → tables = T) s hs
  have hcall : (onTable id (fun t => updateByPk st.handle t new) s).2 =
      (updateByPk st.handle (s₀.tables id) new).2 := by rw [← htables]; rfl
  refine ends_attempt_bind.2 ?_
  rcases hr : onTable id (fun t => updateByPk st.handle t new) s with ⟨s', e' | b⟩ <;>
    rw [hr] at hend hcall
  · exact triple_rowFailure _ rls s' hend
  · exact ((triple_returning fun hM => ((hu hM).2 old ho hb).2 new₁ new b h₁ hgen hcall.symm).bind
      fun _ => triple_pure fun _ hs => hs) s' hend.1

end DoUpdate

/-- What a row that is about to land in the state `s` asks: if it lands, RETURNING can be evaluated
on it, and if it meets another one, what DO UPDATE asks. -/
structure LandMeets (st : SchemaTable) (id : ℕ) (params : List Value) (flag : Bool)
    (onConflict : OnConflict) (returning : Option (List Projection)) (row : Row) (s : DbTxn) :
    Prop where
  returns : (insertRow st.handle (s.tables id) row).2 = .ok () → Returns returning params row
  conflict : ∀ e target probe set filter, (insertRow st.handle (s.tables id) row).2 = .error e →
    e.isUniqueness = true → onConflict = .doUpdate target probe set filter →
    DoUpdateMeets st id params flag returning target probe set filter row s

theorem isUniqueness_ne {e : Error} (hu : e.isUniqueness = true) :
    ¬ ∃ msg, e = .unsupported msg := by
  rintro ⟨msg, rfl⟩
  cases hu

variable {onConflict : OnConflict}

/-- A refused row has left the tables alone, and the conflict clause goes on from there. -/
theorem triple_onInsertError (hx : SchemaOK c ixs) (hst : c.schema[id]? = some st) {s₀ : DbTxn}
    {e : Error} (he : (insertRow st.handle (s₀.tables id) row).2 = .error e)
    (hl : M → LandMeets st id params flag onConflict returning row s₀) (rls : Bool) (p : Progress) :
    Triple (fun s => (Here c ixs M T flag s ∧ s.tables = s₀.tables) ∨ ∃ msg, e = .unsupported msg)
      (onInsertError st id params flag rls onConflict returning p e row)
      (fun p' s => p'.applied = p.applied ∧ Healthy c ixs s.tables) (Honest M T) := by
  have hfail {α : Type} {Q : α → DbTxn → Prop} : Triple (fun s => (Here c ixs M T flag s ∧
      s.tables = s₀.tables) ∨ ∃ msg, e = .unsupported msg)
      (fail (rowFailure flag e st.table.name rls)) Q (Honest M T) :=
    (triple_rowFailure _ rls).pre fun _ h => h.imp_left And.left
  unfold onInsertError
  split
  · exact hfail
  rename_i hu
  have hu : e.isUniqueness = true := by simpa using hu
  have hhere : ∀ s, ((Here c ixs M T flag s ∧ s.tables = s₀.tables) ∨ ∃ msg, e = .unsupported msg) →
      Here c ixs M T flag s ∧ s.tables = s₀.tables :=
    fun s hs => hs.resolve_right (isUniqueness_ne hu)
  split
  · exact hfail
  · exact hfail
  · exact triple_pure fun s hs => ⟨rfl, (hhere s hs).1.1⟩
  · refine ((triple_doUpdate hx hst (fun hM => (hl hM).conflict _ _ _ _ _ he hu rfl) rls e).pre
      hhere).bind fun o => ?_
    rcases o with _ | out <;> exact triple_pure fun s hs => ⟨rfl, hs⟩

/-- Once the row has landed every failure is flagged, as long as RETURNING can be evaluated. -/
theorem triple_landRow (hx : SchemaOK c ixs) (hst : c.schema[id]? = some st)
    (hrun : InnerPreserves c ixs inner) (hstrict : rules.Strict) {s₀ : DbTxn}
    (hl : M → LandMeets st id params flag onConflict returning row s₀) (rls : Bool) (p : Progress) :
    Triple (fun s => Here c ixs M T flag s ∧ s = s₀)
      (landRow c rules inner active st id params flag rls onConflict returning p row)
      (fun p' s => p'.applied = p.applied ∧ Healthy c ixs s.tables) (Honest M T) := by
  rintro s ⟨hs, rfl⟩
  have hend := triple_onTable hst (fun t ht => ht.insertRow_ends (hx id st hst) row)
    (fun tables => (M → flag = false → tables = T) ∧ tables = s.tables) s ⟨hs.1, hs.2, rfl⟩
  have hcall : (onTable id (fun t => insertRow st.handle t row) s).2 =
      (insertRow st.handle (s.tables id) row).2 := rfl
  refine ends_attempt_bind.2 ?_
  rcases hr : onTable id (fun t => insertRow st.handle t row) s with ⟨s', e | _⟩ <;>
    rw [hr] at hend hcall
  · exact triple_onInsertError hx hst hcall.symm hl rls p s'
      (hend.imp_left fun h => ⟨⟨h.1, h.2.1⟩, h.2.2⟩)
  have hrecord : Triple (fun s => Healthy c ixs s.tables) (recordRowid st row)
      (fun _ s => Healthy c ixs s.tables) (Honest M T) := by
    unfold recordRowid
    split
    · exact triple_modify fun _ hs => hs
    · exact triple_pure fun _ hs => hs
  exact (hrecord.bind fun _ => (triple_returning fun hM => (hl hM).returns hcall.symm).bind
    fun out => (triple_flagged_true (preserves_fireRowTriggers hrun
      (hstrict.afterInsert id))).bind fun _ => triple_pure fun _ hs => ⟨rfl, hs⟩) s' hend.1

/-- What one row of an INSERT asks in the state `s` in which the loop reaches it. Of the first row:
unless it gets through, its BEFORE triggers have not written and OR REPLACE has nothing to remove.
Of every row: what is asked where it lands. -/
structure InsertRowMeets (c : Context) (rules : WriteRules) (inner : Option (List String → Inner))
    (active : List String) (st : SchemaTable) (id : ℕ) (params : List Value)
    (withCheck : Option Filter) (onConflict : OnConflict) (returning : Option (List Projection))
    (p : Progress) (row : Row) (s : DbTxn) : Prop where
  first : p.applied = 0 → Counts Progress.applied
      (insertStep c rules inner active st id params withCheck onConflict returning p row) s ∨
    ∀ s₁ row', prepareRow st id false row s = (s₁, .ok row') →
      Leaves (flagged true (fireRowTriggers c rules inner active (rules.beforeInsert id) (some row')
        none [])) s₁ ∧
      (onConflict = .replace → replaceVictims st (s.tables id) row' = .ok [])
  frozen : 0 < p.applied → onConflict = .replace → st.handle.writeBlocked = false
  land : ∀ s₁ row' s₂ s₃ s₄, prepareRow st id (decide (0 < p.applied)) row s = (s₁, .ok row') →
    flagged true (fireRowTriggers c rules inner active (rules.beforeInsert id) (some row') none [])
      s₁ = (s₂, .ok .proceed) →
    s₃.tables = s₂.tables → makeRoom c rules st id onConflict row' s₃ = (s₄, .ok ()) →
    LandMeets st id params (decide (0 < p.applied)) onConflict returning row' s₄

/-- One row of an INSERT: nothing has changed when it fails unflagged before any row is counted. -/
theorem triple_insertStep (hx : SchemaOK c ixs) (hst : c.schema[id]? = some st)
    (hrun : InnerPreserves c ixs inner) (hstrict : rules.Strict) {withCheck : Option Filter}
    {p : Progress} {row : Row} {s₀ : DbTxn} (hT : M → p.applied = 0 → s₀.tables = T)
    (hM : M → InsertRowMeets c rules inner active st id params withCheck onConflict returning p row
      s₀)
    (hfail : M → ¬Counts Progress.applied
      (insertStep c rules inner active st id params withCheck onConflict returning p row) s₀) :
    Triple (fun s => Healthy c ixs s.tables ∧ s = s₀)
      (insertStep c rules inner active st id params withCheck onConflict returning p row)
      (fun p' s => p'.applied = p.applied + 1 ∧ Healthy c ixs s.tables) (Honest M T) := by
  set flag := decide (0 < p.applied) with hflag
  have hzero : flag = false → p.applied = 0 := fun hf => by simpa [hflag] using hf
  have hpos : flag = true → 0 < p.applied := fun hf => by simpa [hflag] using hf
  have hfirst : M → flag = false → ∀ s₁ row', prepareRow st id flag row s₀ = (s₁, .ok row') →
      Leaves (flagged true (fireRowTriggers c rules inner active (rules.beforeInsert id) (some row')
        none [])) s₁ ∧ (onConflict = .replace → replaceVictims st (T id) row' = .ok []) := by
    intro hm hf s₁ row' hprep
    rw [← hT hm (hzero hf)]
    exact ((hM hm).first (hzero hf)).resolve_left (hfail hm) s₁ row' (hf ▸ hprep)
  have hstart : ∀ s, Healthy c ixs s.tables ∧ s = s₀ → Here c ixs M T flag s := fun s hs =>
    ⟨hs.1, fun hm hf => by rw [hs.2, hT hm (hzero hf)]⟩
  refine Triple.bind ((triple_prepareRow hst row).pre hstart).run fun row' => ?_
  rintro s₁ ⟨hs₁, _, ⟨-, rfl⟩, hprep⟩
  have hat : ∀ s, Here c ixs M T flag s ∧ s = s₁ → M → flag = false → s.tables = T :=
    fun _ hs => hs.1.2
  refine ((triple_flagged_lift _ hat).post fun _ _ h => h.2).bind (fun _ => ?_) s₁ ⟨hs₁, rfl⟩
  refine Triple.bind ((triple_flagged_before (M := M) (T := T)
    (preserves_fireRowTriggers hrun (hstrict.beforeInsert id))
    fun hm hf => ⟨(hfirst hm hf s₁ row' hprep).1, hs₁.2 hm hf⟩).pre
    fun s hs => ⟨hs.1.1, hs.2⟩) fun o => ?_
  rcases o with _ | _
  swap
  · exact triple_pure fun s hs => ⟨rfl, hs.1.1⟩
  rintro s₂ ⟨hs₂, hfire⟩
  have hC : ∀ tables, ((Healthy c ixs tables ∧ (M → flag = false → tables = T)) ∧
      tables = s₂.tables) → M → flag = false → tables = T := fun _ h => h.1.2
  refine Triple.bind (triple_flagged (keeps_childCheck row') hC) (fun held => ?_) s₂ ⟨hs₂, rfl⟩
  refine (triple_pushDeferred (P := fun tables => (Healthy c ixs tables ∧
    (M → flag = false → tables = T)) ∧ tables = s₂.tables) held).bind fun _ => ?_
  refine Triple.bind (((triple_makeRoom (M := M) (T := T) hx hst
    (fun hm hf => (hM hm).frozen (hpos hf))
    fun hm hf => (hfirst hm hf s₁ row' hprep).2).pre fun s hs => hs.1).run) fun _ => ?_
  rintro s₄ ⟨hs₄, s₃, hs₃, hroom⟩
  exact triple_landRow hx hst hrun hstrict
    (fun hm => (hM hm).land s₁ row' s₂ s₃ s₄ hprep hfire hs₃.2 hroom) _ _ s₄ ⟨hs₄, rfl⟩

end Insert

section Rewrite

variable {c : Context} {ixs : ℕ → List IndexDef} {rules : WriteRules}
  {inner : Option (List String → Inner)} {active : List String} {st : SchemaTable} {id : ℕ}
  {params : List Value} {M : Prop} {T : ℕ → TableTxn} {flag : Bool}

theorem keeps_parentGuard (old : Row) (new : Option Row) :
    Keeps DbTxn.tables (parentPhase c rules st id .guard old new) := by
  exact keeps_ite (keeps_guard c _ id old new) (keeps_pure _)

theorem preserves_parentPhase (hx : SchemaOK c ixs) (phase : Phase) (old : Row) (new : Option Row) :
    Preserves c ixs (parentPhase c rules st id phase old new) := by
  exact triple_ite (preserves_onParentChange hx _ phase id old new)
    (preserves_of_keeps (keeps_pure _))

variable {returning : Option (List Projection)}

theorem triple_rewritten {row : Row} (hret : M → Returns returning params row)
    {act : TxnCall (List Deferred)} (hact : Preserves c ixs act) (held : List Deferred)
    {fire : TxnCall FireOutcome} (hfire : Preserves c ixs fire) (p : Progress) :
    Triple (fun s => Healthy c ixs s.tables)
      (do
        let held' ← flagged true act
        pushDeferred (held ++ held')
        let out ← bare (lift (returningRow returning row params))
        let _ ← flagged true fire
        return ({ p with written := p.written + 1, out := p.out ++ out } : Progress))
      (Uncounted c ixs M T Progress.written) (Honest M T) :=
  (triple_flagged_true hact).bind fun held' =>
    (triple_pushDeferred (P := Healthy c ixs) (held ++ held')).bind fun _ =>
      (triple_returning hret).bind fun _ => (triple_flagged_true hfire).bind fun _ =>
        triple_pure fun _ hs => ⟨hs, fun _ h0 => nomatch h0⟩

/-- What a row of an UPDATE or a DELETE asks in the state `s` in which the loop reaches it, with the
BEFORE triggers `before` and the row call `call`. As long as no row is written: unless this one is,
its BEFORE triggers have not written. Of every row: if it is written, RETURNING can be evaluated on
`row`. -/
structure RewriteRowMeets (step : Stmt Progress) (before : Stmt FireOutcome)
    (call : TableTxn → TableTxn × Except Error Bool) (id : ℕ)
    (returning : Option (List Projection)) (params : List Value) (row : Row) (p : Progress)
    (s : DbTxn) : Prop where
  first : p.written = 0 → Counts Progress.written step s ∨ Leaves before s
  returns : ∀ s₁, before s = (s₁, .ok .proceed) → (call (s₁.tables id)).2 = .ok true →
    Returns returning params row

/-- One row of an UPDATE. -/
theorem triple_updateStep (hx : SchemaOK c ixs) (hst : c.schema[id]? = some st)
    (hrun : InnerPreserves c ixs inner) (hstrict : rules.Strict) {withCheck : Option Filter}
    {set : List (ℕ × Expr)} {p : Progress} {old : Row} {s₀ : DbTxn}
    (hT : M → p.written = 0 → s₀.tables = T)
    (hM : M → ∀ new, postImage st params set old = .ok new → RewriteRowMeets
      (updateStep c rules inner active st id params set withCheck returning p old)
      (flagged true (fireRowTriggers c rules inner active (rules.beforeUpdate id) (some new)
        (some old) (set.map (·.1))))
      (fun t => updateByPk st.handle t new) id returning params new p s₀)
    (hfail : M → ¬Counts Progress.written
      (updateStep c rules inner active st id params set withCheck returning p old) s₀) :
    Triple (fun s => Healthy c ixs s.tables ∧ s = s₀)
      (updateStep c rules inner active st id params set withCheck returning p old)
      (Uncounted c ixs M T Progress.written) (Honest M T) := by
  set flag := decide (0 < p.written) with hflag
  have hzero : flag = false → p.written = 0 := fun hf => by simpa [hflag] using hf
  have hpos : p.written = 0 → flag = false := fun h0 => by simp [hflag, h0]
  have hat : ∀ s, Healthy c ixs s.tables ∧ s = s₀ → M → flag = false → s.tables = T :=
    fun s hs hm hf => by rw [hs.2, hT hm (hzero hf)]
  refine (triple_flagged_lift _ hat).bind fun new => triple_fact fun hnew => ?_
  refine (triple_flagged_lift _ hat).bind fun _ => triple_fact fun _ => ?_
  refine Triple.bind (triple_flagged_before (T := T)
    (preserves_fireRowTriggers hrun (hstrict.beforeUpdate id))
    fun (hm : M) (hf : flag = false) => ?_) fun o => ?_
  · exact ⟨((hM hm new hnew).first (hzero hf)).resolve_left (hfail hm), hT hm (hzero hf)⟩
  rcases o with _ | _
  swap
  · exact triple_pure fun s hs => ⟨hs.1.1, fun hm h0 => hs.1.2 hm (hpos h0)⟩
  rintro s₁ ⟨hs₁, hfire⟩
  have hC : ∀ tables, ((Healthy c ixs tables ∧ (M → flag = false → tables = T)) ∧
      tables = s₁.tables) → M → flag = false → tables = T := fun _ h => h.1.2
  refine Triple.bind (triple_flagged (keeps_childCheck new) hC) (fun held => ?_) s₁ ⟨hs₁, rfl⟩
  refine Triple.bind (triple_flagged (keeps_parentGuard old (some new)) hC) fun held' => ?_
  rintro s ⟨hs, htables⟩
  have hend := triple_onTable hst (fun t ht => ht.updateByPk_ends (hx id st hst) new)
    (fun tables => M → flag = false → tables = T) s hs
  have hcall : (onTable id (fun t => updateByPk st.handle t new) s).2 =
      (updateByPk st.handle (s₁.tables id) new).2 := by rw [← htables]; rfl
  refine ends_attempt_bind.2 ?_
  rcases hr : onTable id (fun t => updateByPk st.handle t new) s with ⟨s', e | _ | _⟩ <;>
    rw [hr] at hend hcall
  · exact triple_rowFailure _ _ s' hend
  · exact ⟨hend.1, fun hm h0 => hend.2 rfl hm (hpos h0)⟩
  · exact triple_rewritten (fun hm => (hM hm new hnew).returns s₁ hfire hcall.symm)
      (preserves_parentPhase hx .act old (some new)) (held ++ held')
      (preserves_fireRowTriggers hrun (hstrict.afterUpdate id)) p s' hend.1

/-- One row of a DELETE. -/
theorem triple_deleteStep (hx : SchemaOK c ixs) (hst : c.schema[id]? = some st)
    (hrun : InnerPreserves c ixs inner) (hstrict : rules.Strict) {p : Progress} {old : Row}
    {s₀ : DbTxn} (hT : M → p.written = 0 → s₀.tables = T)
    (hM : M → ∀ pk, keyOfRaw old st.table.primaryKey = some pk → RewriteRowMeets
      (deleteStep c rules inner active st id params returning p old)
      (flagged true (fireRowTriggers c rules inner active (rules.beforeDelete id) none (some old)
        []))
      (fun t => deleteByPk st.handle t pk) id returning params old p s₀)
    (hfail : M → ¬Counts Progress.written
      (deleteStep c rules inner active st id params returning p old) s₀) :
    Triple (fun s => Healthy c ixs s.tables ∧ s = s₀)
      (deleteStep c rules inner active st id params returning p old)
      (Uncounted c ixs M T Progress.written) (Honest M T) := by
  set flag := decide (0 < p.written) with hflag
  have hzero : flag = false → p.written = 0 := fun hf => by simpa [hflag] using hf
  have hpos : p.written = 0 → flag = false := fun h0 => by simp [hflag, h0]
  unfold deleteStep
  split
  · exact triple_fail fun s hs hm hf => by rw [hs.2, hT hm (hzero hf)]
  rename_i pk hpk
  refine Triple.bind (triple_flagged_before (T := T)
    (preserves_fireRowTriggers hrun (hstrict.beforeDelete id))
    fun (hm : M) (hf : flag = false) => ?_) fun o => ?_
  · exact ⟨((hM hm pk hpk).first (hzero hf)).resolve_left (hfail hm), hT hm (hzero hf)⟩
  rcases o with _ | _
  swap
  · exact triple_pure fun s hs => ⟨hs.1.1, fun hm h0 => hs.1.2 hm (hpos h0)⟩
  rintro s₁ ⟨hs₁, hfire⟩
  have hC : ∀ tables, ((Healthy c ixs tables ∧ (M → flag = false → tables = T)) ∧
      tables = s₁.tables) → M → flag = false → tables = T := fun _ h => h.1.2
  refine Triple.bind (triple_flagged (keeps_parentGuard old none) hC) (fun held => ?_) s₁
    ⟨hs₁, rfl⟩
  rintro s ⟨hs, htables⟩
  have hend := triple_onTable hst (fun t ht => ht.deleteByPk_ends pk)
    (fun tables => M → flag = false → tables = T) s hs
  have hcall : (onTable id (fun t => deleteByPk st.handle t pk) s).2 =
      (deleteByPk st.handle (s₁.tables id) pk).2 := by rw [← htables]; rfl
  refine ends_attempt_bind.2 ?_
  rcases hr : onTable id (fun t => deleteByPk st.handle t pk) s with ⟨s', e | _ | _⟩ <;>
    rw [hr] at hend hcall
  · exact fun _ hf => nomatch hf
  · exact ⟨hend.1, fun hm h0 => hend.2 rfl hm (hpos h0)⟩
  · exact triple_rewritten (fun hm => (hM hm pk hpk).returns s₁ hfire hcall.symm)
      (preserves_parentPhase hx .act old none) held
      (preserves_fireRowTriggers hrun (hstrict.afterDelete id)) p s' hend.1

end Rewrite

/-! ## Statements -/

/-- Every row that the loop over `rows` reaches from `s₁` has its conditions. -/
def LoopMeets (step : Progress → Row → Stmt Progress) (meets : Progress → Row → DbTxn → Prop)
    (rows : List Row) (s₁ : DbTxn) : Prop :=
  ∀ done row rest s p, rows = done ++ row :: rest → done.foldlM step {} s₁ = (s, .ok p) →
    meets p row s

/-- The conditions of a statement that starts in `s`. -/
def PlanStmt.Meets (c : Context) (rules : WriteRules) (inner : Option (List String → Inner))
    (active : List String) (params : List Value) (s : DbTxn) : PlanStmt → Prop
  | .select _ => True
  | .insert id src withCheck onConflict returning => ∀ st rows s₁, c.schema[id]? = some st →
      builtRows c st params src s = (s₁, .ok rows) →
      LoopMeets (insertStep c rules inner active st id params withCheck onConflict returning)
        (InsertRowMeets c rules inner active st id params withCheck onConflict returning) rows s₁
  | .update id access set withCheck returning => ∀ st rows s₁, c.schema[id]? = some st →
      gatherRows c id access params s = (s₁, .ok rows) →
      LoopMeets (updateStep c rules inner active st id params set withCheck returning)
        (fun p old s => ∀ new, postImage st params set old = .ok new → RewriteRowMeets
          (updateStep c rules inner active st id params set withCheck returning p old)
          (flagged true (fireRowTriggers c rules inner active (rules.beforeUpdate id) (some new)
            (some old) (set.map (·.1))))
          (fun t => updateByPk st.handle t new) id returning params new p s) rows s₁
  | .delete id access returning => ∀ st rows s₁, c.schema[id]? = some st →
      gatherRows c id access params s = (s₁, .ok rows) →
      LoopMeets (deleteStep c rules inner active st id params returning)
        (fun p old s => ∀ pk, keyOfRaw old st.table.primaryKey = some pk → RewriteRowMeets
          (deleteStep c rules inner active st id params returning p old)
          (flagged true (fireRowTriggers c rules inner active (rules.beforeDelete id) none
            (some old) []))
          (fun t => deleteByPk st.handle t pk) id returning params old p s) rows s₁

/-- What runs the statements of triggers with `levels` levels left. -/
def innerAt (c : Context) (rules : WriteRules) : ℕ → Option (List String → Inner)
  | 0 => none
  | levels + 1 => some fun active plan params =>
    (execStmtTriggered c rules levels active plan params).mapFailure (·.error)

/-- The conditions of a plan that is executed in `s`, once its parameters are known. -/
def CompiledPlan.Meets (c : Context) (rules : WriteRules) (levels : ℕ) (active : List String)
    (plan : CompiledPlan) (params : List Value) (s : DbTxn) : Prop :=
  ∀ s₁ params', plan.params.run c params s = (s₁, .ok params') →
    plan.stmt.Meets c rules (innerAt c rules levels) active params' s₁

section Exec

variable {c : Context} {ixs : ℕ → List IndexDef} {rules : WriteRules}
  {inner : Option (List String → Inner)} {active : List String} {params : List Value}

theorem triple_start {α : Type} {m : TxnCall α} (hm : Keeps DbTxn.tables m)
    (M : Prop) (s₀ : DbTxn) :
    Triple (fun s => Healthy c ixs s.tables ∧ s = s₀) (bare m)
      (fun a s => m s₀ = (s, .ok a) ∧ Healthy c ixs s.tables ∧ s.tables = s₀.tables)
      (Honest M s₀.tables) := by
  refine triple_bare ?_
  rintro s ⟨hs, rfl⟩
  have htables := hm s
  rcases hrun : m s with ⟨s', e | a⟩ <;> rw [hrun] at htables
  · exact fun _ => htables
  · exact ⟨rfl, htables ▸ hs, htables⟩

theorem tableDef_ok {id : ℕ} {st : SchemaTable} (h : tableDef c id = .ok st) :
    c.schema[id]? = some st := by
  unfold tableDef at h
  split at h
  · cases h
    assumption
  · cases h

theorem keeps_builtRows (st : SchemaTable) (src : RowSource) :
    Keeps DbTxn.tables (builtRows c st params src) := by
  unfold builtRows
  split
  · exact keeps_lift _
  · exact (keeps_read c _ params).bind fun _ => keeps_lift _

theorem keeps_gatherRows (id : ℕ) (access : Read (List Key)) :
    Keeps DbTxn.tables (gatherRows c id access params) :=
  (keeps_read c access params).bind fun _ => keeps_reading _

/-- The rule for a row loop. A step has to be honest only about a row that does not get through. -/
theorem ends_rowLoop (count : Progress → ℕ) {M : Prop} {step : Progress → Row → Stmt Progress}
    {meets : Progress → Row → DbTxn → Prop} {rows : List Row} {s₁ : DbTxn}
    (hM : M → LoopMeets step meets rows s₁) (hs₁ : Healthy c ixs s₁.tables)
    (hstep : ∀ (M' : Prop) p row s, Healthy c ixs s.tables →
      (M' → count p = 0 → s.tables = s₁.tables) → (M' → meets p row s) →
      (M' → ¬Counts count (step p row) s) → Fallible.Ends (Uncounted c ixs M' s₁.tables count)
        (Honest M' s₁.tables) (step p row s)) :
    Fallible.Ends (fun _ s => Healthy c ixs s.tables) (Honest M s₁.tables)
      (rows.foldlM step {} s₁) := by
  -- the invariant: the rows done so far, and that the run over them has come here
  have hloop := triple_foldlM (R := Honest M s₁.tables) (f := step) (I := fun rest p s =>
    (∃ done, rows = done ++ rest ∧ done.foldlM step {} s₁ = (s, .ok p)) ∧
      Uncounted c ixs M s₁.tables count p s) ?_ rows {}
  · exact hloop.post (fun _ _ h => h.2.1) s₁ ⟨⟨[], rfl, rfl⟩, hs₁, fun _ _ => rfl⟩
  rintro p row rest s ⟨⟨done, hrows, hdone⟩, hs, hT⟩
  have hend := hstep (M ∧ ¬Counts count (step p row) s) p row s hs (fun hm => hT hm.1)
    (fun hm => hM hm.1 done row rest s p hrows hdone) And.right
  rcases hr : step p row s with ⟨s', f | p'⟩ <;> rw [hr] at hend
  · refine fun hm => hend ⟨hm, ?_⟩
    rintro ⟨_, _, hok, -⟩
    cases hr.symm.trans hok
  · refine ⟨⟨done ++ [row], by simpa using hrows, foldlM_concat done {} s₁ hdone hr⟩, hend.1,
      fun hm h0 => hend.2 ⟨hm, ?_⟩ h0⟩
    rintro ⟨_, _, hok, hpos⟩
    cases hr.symm.trans hok
    omega

/-- A statement that writes: it finds its table, gathers its rows without writing, and goes over
them. -/
theorem triple_rowStmt {M : Prop} {id : ℕ} {gather : SchemaTable → TxnCall (List Row)}
    {step : SchemaTable → Progress → Row → Stmt Progress}
    {result : SchemaTable → Progress → ExecResult} {s₀ : DbTxn}
    (hgather : ∀ st, Keeps DbTxn.tables (gather st))
    (hloop : ∀ st rows s₁, c.schema[id]? = some st → gather st s₀ = (s₁, .ok rows) →
      Healthy c ixs s₁.tables → Fallible.Ends (fun _ s => Healthy c ixs s.tables)
        (Honest M s₁.tables) (rows.foldlM (step st) {} s₁)) :
    Triple (fun s => Healthy c ixs s.tables ∧ s = s₀)
      (do
        let st ← bare (lift (tableDef c id))
        let rows ← bare (gather st)
        let p ← rows.foldlM (step st) {}
        return result st p)
      (fun _ s => Healthy c ixs s.tables) (Honest M s₀.tables) := by
  have htable : Triple (fun s => Healthy c ixs s.tables ∧ s = s₀) (bare (lift (tableDef c id)))
      (fun st s => c.schema[id]? = some st ∧ Healthy c ixs s.tables ∧ s = s₀)
      (Honest M s₀.tables) :=
    triple_bare (triple_lift (fun s st hs hst => ⟨tableDef_ok hst, hs⟩)
      fun s e hs he _ => by rw [hs.2])
  refine htable.bind fun st => triple_fact fun hst => ?_
  refine (triple_start (hgather st) M s₀).bind fun rows => ?_
  rintro s₁ ⟨hrows, hs₁, htables⟩
  rw [← htables]
  have hrows' : Triple (fun s => s = s₁) (rows.foldlM (step st) {})
      (fun _ s => Healthy c ixs s.tables) (Honest M s₁.tables) := by
    rintro s rfl
    exact hloop st rows s hst hrows hs₁
  exact hrows'.bind (fun p => triple_pure fun s hs => hs) s₁ rfl

/-- Each kind of statement by its row loop. -/
theorem triple_execStmtRest (hx : SchemaOK c ixs) (hrun : InnerPreserves c ixs inner)
    (hstrict : rules.Strict) (stmt : PlanStmt) (s₀ : DbTxn) :
    Triple (fun s => Healthy c ixs s.tables ∧ s = s₀)
      (execStmtRest c rules inner active params stmt) (fun _ s => Healthy c ixs s.tables)
      (Honest (stmt.Meets c rules inner active params s₀) s₀.tables) := by
  rcases stmt with read | ⟨id, src, withCheck, onConflict, returning⟩ |
    ⟨id, access, set, withCheck, returning⟩ | ⟨id, access, returning⟩
  · exact (triple_start (keeps_read c read params) _ s₀).bind fun rows =>
      triple_pure fun s hs => hs.2.1
  · refine triple_rowStmt (fun st => keeps_builtRows st src) fun st rows s₁ hst hrows hs₁ => ?_
    refine ends_rowLoop Progress.applied (fun hM => hM st rows s₁ hst hrows) hs₁
      fun M' p row s hs hT hm hfail => ?_
    refine ((triple_insertStep hx hst hrun hstrict hT hm hfail).post ?_) s ⟨hs, rfl⟩
    rintro p' s' ⟨happlied, hs'⟩
    exact ⟨hs', fun _ h0 => by omega⟩
  · refine triple_rowStmt (fun st => keeps_gatherRows id access) fun st rows s₁ hst hrows hs₁ => ?_
    exact ends_rowLoop Progress.written (fun hM => hM st rows s₁ hst hrows) hs₁
      fun M' p row s hs hT hm hfail =>
        triple_updateStep hx hst hrun hstrict hT hm hfail s ⟨hs, rfl⟩
  · refine triple_rowStmt (fun st => keeps_gatherRows id access) fun st rows s₁ hst hrows hs₁ => ?_
    exact ends_rowLoop Progress.written (fun hM => hM st rows s₁ hst hrows) hs₁
      fun M' p row s hs hT hm hfail =>
        triple_deleteStep hx hst hrun hstrict hT hm hfail s ⟨hs, rfl⟩

theorem execStmtTriggered_eq (levels : ℕ) (active : List String) (plan : CompiledPlan)
    (params : List Value) : execStmtTriggered c rules levels active plan params = (do
      let params ← bare (plan.params.run c params)
      execStmtRest c rules (innerAt c rules levels) active params plan.stmt) := by
  cases levels <;> rfl

/-- One level: the parameters are read, and the statement runs. -/
theorem triple_level (hx : SchemaOK c ixs) (hstrict : rules.Strict) {levels : ℕ}
    (hrun : InnerPreserves c ixs (innerAt c rules levels)) (active : List String)
    (plan : CompiledPlan) (params : List Value) (s₀ : DbTxn) :
    Triple (fun s => Healthy c ixs s.tables ∧ s = s₀)
      (execStmtTriggered c rules levels active plan params) (fun _ s => Healthy c ixs s.tables)
      (Honest (plan.Meets c rules levels active params s₀) s₀.tables) := by
  rw [execStmtTriggered_eq]
  refine (triple_start (keeps_read c plan.params params) _ s₀).bind fun params' => ?_
  rintro s₁ ⟨hparams, hs₁, htables⟩
  rw [← htables]
  exact (triple_execStmtRest hx hrun hstrict plan.stmt s₁).conseq (fun _ h => h) (fun _ _ h => h)
    (fun _ _ h hM => h (hM s₁ params' hparams)) s₁ ⟨hs₁, rfl⟩

theorem triple_execStmtTriggered (hx : SchemaOK c ixs) (hstrict : rules.Strict) :
    ∀ (levels : ℕ) (active : List String) (plan : CompiledPlan) (params : List Value) (s₀ : DbTxn),
      Triple (fun s => Healthy c ixs s.tables ∧ s = s₀)
        (execStmtTriggered c rules levels active plan params) (fun _ s => Healthy c ixs s.tables)
        (Honest (plan.Meets c rules levels active params s₀) s₀.tables) := by
  intro levels
  induction levels with
  | zero => exact triple_level hx hstrict fun _ h => nomatch h
  | succ levels ih =>
    refine triple_level hx hstrict fun run hr active plan params => ?_
    cases hr
    refine Preserves.mapFailure fun s hs => ?_
    exact (ih active plan params s).conseq (P := fun s' => s' = s)
      (by rintro _ rfl; exact ⟨hs, rfl⟩) (fun _ _ h => h) (fun _ _ _ => trivial) s rfl

end Exec

/-! ## Statements on small tables -/

/-- A column of integers that are not NULL. -/
def column (name : String) : ColumnDef := ⟨name, .int64, false, .binary, .blob, false, none, none⟩

/-- `name(id INTEGER PRIMARY KEY, a INTEGER NOT NULL)`. -/
def smallTable (name : String) : SchemaTable where
  handle := { table := ⟨name, [column "id", column "a"], [0], id, .ok⟩ }
  affinity_length _ := rfl
  generated_length _ _ h := by cases h; rfl
  pk_notNull i hi cd hcd := by
    cases List.mem_singleton.1 hi
    cases hcd
    rfl

/-- Two tables, the one that statements write and another for its triggers. -/
def smallSchema : Context := { schema := [smallTable "t", smallTable "log"] }

/-- `INSERT INTO t VALUES ...`. -/
def insertValues (rows : List Row) (onConflict : OnConflict)
    (returning : Option (List Projection)) :
    CompiledPlan :=
  { stmt := .insert 0 (.values (rows.map (·.map .const))) none onConflict returning }

/-- The transaction whose first table has the row `(1, 5)`. -/
def oneRow (ixs : List IndexDef) : DbTxn where
  tables
    | 0 => (insertRow (smallTable "t").handle (.fresh ixs) [.int 1, .int 5]).1
    | _ => .fresh []

/-- `INSERT INTO log VALUES (7, 7)`. -/
def logRow : CompiledPlan :=
  { stmt := .insert 1 (.values [[.const (.int 7), .const (.int 7)]]) none .error none }

/-- A trigger that writes. -/
def logging : CompiledTrigger where
  name := "logging"
  body := .sql [.dml logRow []]

/-- A trigger whose body is `SELECT RAISE(IGNORE) WHERE NEW.a = 9`. -/
def ignoring : CompiledTrigger where
  name := "ignoring"
  body := .sql [.raise .ignore "" (some (fun _ params => .ok (params == [.int 9]), [(.new, 1)]))]

/-- Inserts are checked before and logged after. -/
def checkedRules : WriteRules where
  beforeInsert _ := [ignoring]
  afterInsert _ := [logging]

/-- `abs(a)` in RETURNING. -/
def returningAbs : Option (List Projection) := some [.expr "abs(a)" fun row _ => absProgram 1 row]

/-- The refused row meets the conditions: its triggers only check, and it does not land. -/
theorem meets_refused : (insertValues [[.int 1, .int Int64.minValue]] .error returningAbs).Meets
    smallSchema checkedRules maxTriggerDepth [] [] (oneRow [uniqueIndex]) := by
  rintro s₁ params' hp st rows s₂ hst hrows done row rest s p hsplit hdone
  cases hp
  cases hst
  cases hrows
  -- the loop reaches one row, with nothing done
  obtain ⟨rfl, rfl, rfl⟩ : done = [] ∧ row = [.int 1, .int Int64.minValue] ∧ rest = [] := by
    rcases done with _ | ⟨_, _ | _⟩ <;> simp_all
  cases hdone
  have hfire : ∀ row', Keeps DbTxn.tables (flagged true (fireRowTriggers smallSchema checkedRules
      (innerAt smallSchema checkedRules maxTriggerDepth)
      [] (checkedRules.beforeInsert 0) (some row')
      none [])) := by
    refine fun row' => (keeps_fireRowTriggers fun trig ht => ?_).mapFailure
    cases mem_singleton.1 ht
    rintro plan ⟨map, hmem⟩
    cases mem_singleton.1 hmem
  refine ⟨fun _ => .inr fun s₁ row' hprep => ⟨fun s' o hrun => ?_, nofun⟩, nofun, ?_⟩
  · exact (congrArg (DbTxn.tables ·.1) hrun).symm.trans (hfire row' s₁)
  rintro s₁ row' s₂ s₃ s₄ hprep hrun htables hroom
  cases hprep
  cases hroom
  have htables' : s₃.tables = (oneRow [uniqueIndex]).tables :=
    htables.trans ((congrArg (DbTxn.tables ·.1) hrun).symm.trans (hfire _ _))
  have hins : (insertRow (smallTable "t").handle ((oneRow [uniqueIndex]).tables 0)
      [.int 1, .int Int64.minValue]).2 = .error (.primaryKeyViolation "t" "t.id") := by decide
  refine ⟨fun hok => ?_, nofun⟩
  rw [htables'] at hok
  cases hins.symm.trans hok

/-- What `abs` answers for the smallest integer. -/
def absOverflow : Error :=
  .typeMismatch "abs(): integer overflow (i64::MIN has no absolute value)"

/-- `INSERT OR REPLACE INTO t VALUES (1, ?)`. -/
def replaceParam : CompiledPlan :=
  { stmt := .insert 0 (.values [[.const (.int 1), .param 0]]) none .replace none }

/-- A statement that fails without its flag and has changed the rows of a table. -/
def Dishonest (rules : WriteRules) (plan : CompiledPlan) (params : List Value)
    (s : DbTxn) (id : ℕ) :
    Prop :=
  ∃ s' e, execStmtTriggered smallSchema rules maxTriggerDepth [] plan params s =
    (s', .error ⟨false, e⟩) ∧ (s'.tables id).pk ≠ (s.tables id).pk

end Mpedb
