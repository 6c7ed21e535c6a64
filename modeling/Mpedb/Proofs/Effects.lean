import Mathlib.Logic.Relation
import Mpedb.Proofs.Dml

/-!
# The row calls of a statement

What the execution of a statement does to the tables it does by row calls: on the table of the
statement, and on the tables that the actions of foreign keys reach from there. A property that
these calls keep is therefore kept by the statement, however it ends (`stays_execStmtTriggered`).
-/

namespace Mpedb

open Fallible

/-- A row call that keeps the property `I` of the tables. -/
def Allowed (c : Context) (I : (ℕ → TableTxn) → Prop) (id : ℕ) (call : Call) : Prop :=
  ∀ st T, c.schema[id]? = some st → I T →
    I (Function.update T id (perform st.handle (T id) call).1)

/-- A change of a row of table `id` may make the executor change rows of table `t`. -/
def Acts (c : Context) (id t : ℕ) : Prop :=
  ∃ st child i fk, c.schema[id]? = some st ∧ (t, i) ∈ incoming c st.table.name ∧
    c.schema[t]? = some child ∧ child.foreignKeys[i]? = some fk ∧
    (fk.onDelete.refuses = false ∨ fk.onUpdate.refuses = false)

/-- The tables that the actions of foreign keys reach from `id`. -/
abbrev Reached (c : Context) : ℕ → ℕ → Prop := Relation.TransGen (Acts c)

/-- The table that a statement writes. -/
def PlanStmt.table? : PlanStmt → Option ℕ
  | .select _ => none
  | .insert id .. | .update id .. | .delete id .. => some id

/-- The triggers of a table. -/
def WriteRules.on (rules : WriteRules) (id : ℕ) : List CompiledTrigger :=
  rules.beforeInsert id ++ rules.beforeUpdate id ++ rules.beforeDelete id ++
    rules.afterInsert id ++ rules.afterUpdate id ++ rules.afterDelete id

/-- A trigger of table `id` may run a statement that writes table `t`. -/
def Fires (rules : WriteRules) (id t : ℕ) : Prop :=
  ∃ trig ∈ rules.on id, ∃ plan, trig.body.Runs plan ∧ plan.stmt.table? = some t

/-- The tables that a statement on `id` may write: those of the statements that triggers run, at any
level, and those that the actions of foreign keys reach from them. Foreign keys fire no triggers. -/
def Touches (c : Context) (rules : WriteRules) (id t : ℕ) : Prop :=
  ∃ t', Relation.ReflTransGen (Fires rules) id t' ∧ Relation.ReflTransGen (Acts c) t' t

/-- No statement on `id` writes `t` except by its own row calls. -/
structure Aside (c : Context) (rules : WriteRules) (id t : ℕ) : Prop where
  reached : ¬ Reached c id t
  fired : ∀ t', Fires rules id t' → ¬ Touches c rules t' t

theorem Read.run_ok {α : Type} {f : Read α} {c : Context} {params : List Value}
    {s s' : DbTxn} {a : α}
    (h : f.run c params s = (s', .ok a)) : (f s params).2 = .ok a := by
  have hread : (reading fun s => .ok (f s params) : TxnCall (ℕ × Except Error α)) s =
      (s, .ok (f s params)) := rfl
  unfold Read.run at h
  rw [bind_of_ok hread] at h
  rcases hw : chargeWork c (f s params).1 "a read" s with ⟨s₁, e | ⟨⟩⟩
  · rw [bind_of_error hw] at h
    cases h
  · rw [bind_of_ok hw] at h
    exact congrArg (·.2) h

section Calls

variable {c : Context} {I : (ℕ → TableTxn) → Prop} {id : ℕ} {st : SchemaTable}

theorem staysIn_insertRow (hst : c.schema[id]? = some st) {row : Row}
    (h : Allowed c I id (.insertRow row)) :
    StaysIn I (onTable id fun t => insertRow st.handle t row) := fun s hs => h st s.tables hst hs

theorem staysIn_updateByPk (hst : c.schema[id]? = some st) {row : Row}
    (h : Allowed c I id (.updateByPk row)) :
    StaysIn I (onTable id fun t => updateByPk st.handle t row) := fun s hs => h st s.tables hst hs

theorem staysIn_deleteByPk (hst : c.schema[id]? = some st) {pk : List Value}
    (h : Allowed c I id (.deleteByPk pk)) :
    StaysIn I (onTable id fun t => deleteByPk st.handle t pk) := fun s hs => h st s.tables hst hs

theorem tableOf_ok (h : tableOf c id = .ok st) : c.schema[id]? = some st := by
  unfold tableOf at h
  split at h
  · split_ifs at h
    cases h
    assumption
  · cases h

end Calls

section ForeignKeys

variable {c : Context} {I : (ℕ → TableTxn) → Prop} {id : ℕ} {st : SchemaTable}

variable {recurse : Phase → ℕ → Row → Option Row → TxnCall (List Deferred)}

theorem staysIn_onChild (hrec : ∀ phase old new, StaysIn I (recurse phase id old new))
    (phase : Phase) (child : SchemaTable) (old : Row) (new : Option Row) :
    StaysIn I (onChild c recurse phase id child old new) :=
  stays_ite (fun _ => hrec phase old new) fun _ => staysIn_pure _

theorem staysIn_actOn {child : SchemaTable} (hst : c.schema[id]? = some child)
    (hrec : ∀ phase old new, StaysIn I (recurse phase id old new))
    (hcalls : ∀ call, Allowed c I id call) (fk : ForeignKeyDef) (action : FkAction) (deleted : Bool)
    (newKey : Option (List Value)) (held : List Deferred) (victim : Row) :
    StaysIn I (actOn c recurse id child fk action deleted newKey held victim) := by
  have hchild (phase : Phase) (old : Row) (new : Option Row) :=
    staysIn_onChild (c := c) hrec phase child old new
  refine (staysIn_of_keeps (keeps_chargeWork c _ _)).bind fun _ => stays_ite
    (fun _ => ?_) fun _ => ?_
  · exact (hchild .guard victim none).bind fun _ =>
      (staysIn_deleteByPk hst (hcalls _)).bind fun _ =>
        (hchild .act victim none).bind fun _ => staysIn_pure _
  · exact (hchild .guard victim _).bind fun _ => (staysIn_updateByPk hst (hcalls _)).bind fun _ =>
      (hchild .act victim _).bind fun _ =>
        (staysIn_of_keeps (keeps_checkChild c _ _)).bind fun _ => staysIn_pure _

/-- A reference changes rows only where its action does not refuse. -/
theorem staysIn_onReference
    (hst : c.schema[id]? = some st)
    (hrec : ∀ t, Acts c id t → ∀ phase old new, StaysIn I (recurse phase t old new))
    (hcalls : ∀ t, Acts c id t → ∀ call, Allowed c I t call) (phase : Phase) (old : Row)
    (new : Option Row) (held : List Deferred) {ref : ℕ × ℕ}
    (href : ref ∈ incoming c st.table.name) :
    StaysIn I (onReference c recurse phase old new held ref) := by
  have hnone : ∀ held : List Deferred, StaysIn I (pure held : TxnCall (List Deferred)) :=
    fun _ => staysIn_pure _
  refine (staysIn_of_keeps (keeps_lift _)).bind_of fun s s' child _ hchild => ?_
  have hchild : c.schema[ref.1]? = some child := tableOf_ok (congrArg (·.2) hchild)
  split
  · exact hnone held
  rename_i fk hfk
  refine (staysIn_of_keeps (keeps_reading _)).bind fun r => ?_
  split
  · exact hnone held
  refine stays_ite (fun _ => hnone held) fun _ => stays_ite (fun _ => hnone held) fun hphase => ?_
  refine (staysIn_of_keeps (keeps_childrenWithKey c _ _ _ _)).bind fun victims => ?_
  refine stays_ite (fun _ => hnone held) fun _ => stays_ite (fun _ => ?_) fun hact => ?_
  · exact stays_ite (fun _ => hnone _) fun _ => staysIn_fail _
  -- only an action that does not refuse gets here
  have hacts : Acts c id ref.1 := by
    refine ⟨st, child, ref.2, fk, hst, href, hchild, hfk, ?_⟩
    rcases new with _ | new <;> simp_all
  exact stays_foldlM victims (fun held victim _ => staysIn_actOn hchild (hrec _ hacts)
    (hcalls _ hacts) fk _ _ _ held victim) held

theorem staysIn_onParentChange : ∀ (levels : ℕ) (phase : Phase) (id : ℕ) (old : Row)
    (new : Option Row), (∀ t, Reached c id t → ∀ call, Allowed c I t call) →
    StaysIn I (onParentChange c levels phase id old new)
  | 0, _, _, _, _, _ => staysIn_fail _
  | levels + 1, phase, id, old, new, h => by
    refine (staysIn_of_keeps (keeps_lift _)).bind_of fun s s' st _ hst => ?_
    have hst : c.schema[id]? = some st := tableOf_ok (congrArg (·.2) hst)
    refine stays_foldlM _ (fun held ref href => staysIn_onReference hst
      (fun t ht phase old new => ?_)
      (fun t ht => h t (.single ht)) phase old new held href) []
    exact staysIn_onParentChange levels phase t old new fun t' ht' => h t' (.head ht ht')

end ForeignKeys

section Statements

variable {c : Context} {I : (ℕ → TableTxn) → Prop} {rules : WriteRules}
  {inner : Option (List String → Inner)} {active : List String} {st : SchemaTable} {id : ℕ}
  {params : List Value}

/-- The calls that the insert of a proposed row can come to keep the property. -/
structure InsertAllowed (c : Context) (I : (ℕ → TableTxn) → Prop) (st : SchemaTable) (id : ℕ)
    (params : List Value) (onConflict : OnConflict) (row : Row) : Prop where
  lands : Allowed c I id (.insertRow row)
  replaces : onConflict = .replace → ∀ T pks, I T → replaceVictims st (T id) row = .ok pks →
    ∀ pk ∈ pks, Allowed c I id (.deleteByPk pk)
  updates : ∀ target probe set filter, onConflict = .doUpdate target probe set filter →
    ∀ s existing image new, I s.tables →
      (conflictRow st id target probe row s).2 = .ok (some existing) →
      assign (existing ++ row) params set existing = .ok image →
      st.table.generated (st.table.storeAffinity image) = .ok new →
      Allowed c I id (.updateByPk new)

/-- The statements that the triggers of a table run, a level down, keep the property. -/
def FiredStay (I : (ℕ → TableTxn) → Prop) (rules : WriteRules)
    (inner : Option (List String → Inner)) (id : ℕ) : Prop :=
  ∀ trig ∈ rules.on id, ∀ plan, trig.body.Runs plan → ∀ run, inner = some run →
    ∀ active params, StaysIn I (run active plan params)

theorem FiredStay.triggers (h : FiredStay I rules inner id) {trigs : List CompiledTrigger}
    (hon : ∀ trig ∈ trigs, trig ∈ rules.on id) (new old : Option Row) (changed : List ℕ) :
    StaysIn I (flagged true (fireRowTriggers c rules inner active trigs new old changed)) :=
  (staysIn_fireRowTriggers fun trig ht => h trig (hon trig ht)).mapFailure

variable {α : Type}

theorem staysIn_flagged_lift (flag : Bool) (r : Except Error α) :
    StaysIn I (flagged flag (lift r)) := (staysIn_of_keeps (keeps_lift r)).mapFailure

theorem staysIn_pushDeferred (held : List Deferred) : StaysIn I (pushDeferred held) :=
  staysIn_of_keeps (keeps_pushDeferred held)

theorem flagged_ok {flag : Bool} {m : TxnCall α} {s s' : DbTxn} {a : α}
    (h : flagged flag m s = (s', .ok a)) : m s = (s', .ok a) := by
  unfold flagged mapFailure at h
  rcases hm : m s with ⟨s₁, e | a'⟩ <;> rw [hm] at h <;> cases h
  rfl

theorem flagged_lift_ok {flag : Bool} {r : Except Error α} {s s' : DbTxn} {a : α}
    (h : flagged flag (lift r) s = (s', .ok a)) : r = .ok a := congrArg (·.2) (flagged_ok h)

theorem keeps_conflictRow (target : List ℕ) (probe : ConflictProbe) (row : Row) :
    Keeps DbTxn.tables (conflictRow st id target probe row) := by
  cases probe with
  | pk => exact keeps_reading _
  | index no =>
    refine (keeps_reading _).bind fun ix => ?_
    cases ix with
    | none => exact keeps_fail _
    | some ix => exact keeps_ite (keeps_pure _) (keeps_reading _)

variable (hst : c.schema[id]? = some st)

include hst

theorem staysIn_deleteReferenced (hreached : ∀ t, Reached c id t → ∀ call, Allowed c I t call)
    {pk : List Value} (hdel : Allowed c I id (.deleteByPk pk)) (old : Row) :
    StaysIn I (deleteReferenced c st id old pk) :=
  (staysIn_onParentChange _ _ _ _ _ hreached).bind fun _ =>
    (staysIn_deleteByPk hst hdel).bind fun _ =>
    (staysIn_onParentChange _ _ _ _ _ hreached).bind fun _ => staysIn_pure _

theorem staysIn_removeVictim (hreached : ∀ t, Reached c id t → ∀ call, Allowed c I t call)
    {pk : List Value} (hdel : Allowed c I id (.deleteByPk pk)) (deleted : List (List Value)) :
    StaysIn I (removeVictim c rules st id deleted pk) := by
  have hread : Keeps DbTxn.tables (referencedRow c rules st id pk) :=
    keeps_ite (keeps_reading _) (keeps_pure _)
  refine stays_ite (fun _ => staysIn_pure _) fun _ =>
    (staysIn_of_keeps hread).mapFailure.bind fun referenced => ?_
  rcases referenced with _ | old
  · exact (staysIn_deleteByPk hst hdel).mapFailure.bind fun _ => staysIn_pure _
  · exact (staysIn_deleteReferenced hst hreached hdel old).mapFailure.bind fun held =>
      (staysIn_pushDeferred held).bind fun _ => staysIn_pure _

variable {onConflict : OnConflict} {row : Row}

theorem staysIn_makeRoom (hreached : ∀ t, Reached c id t → ∀ call, Allowed c I t call)
    (h : InsertAllowed c I st id params onConflict row) :
    StaysIn I (makeRoom c rules st id onConflict row) := by
  cases onConflict with
  | replace =>
    have hread : StaysIn I (bare (reading fun s => replaceVictims st (s.tables id) row)) :=
      (staysIn_of_keeps (keeps_reading _)).mapFailure
    refine hread.bind_of fun s s' pks hs hpks => ?_
    have hvictims : replaceVictims st (s.tables id) row = .ok pks :=
      congrArg (·.2) (flagged_ok hpks)
    exact (stays_foldlM pks (fun deleted pk hpk => staysIn_removeVictim hst hreached
      (h.replaces rfl s.tables pks hs hvictims pk hpk) deleted) []).bind fun _ =>
        staysIn_pure _
  | error | doNothing | doUpdate => exact staysIn_pure _

/-- The row that DO UPDATE writes is the assigned one. -/
theorem staysIn_doUpdate {target : List ℕ} {probe : ConflictProbe} {set : List (ℕ × Expr)}
    {filter : Option Filter}
    (h : InsertAllowed c I st id params (.doUpdate target probe set filter) row) (flag rls : Bool)
    (returning : Option (List Projection)) (e : Error) :
    StaysIn I (doUpdate st id params flag rls returning target probe set filter e row) := by
  refine (staysIn_of_keeps (keeps_conflictRow target probe row)).mapFailure.bind_of
    fun s s' found hs hfound => ?_
  rcases found with _ | existing
  · exact staysIn_fail _
  refine (staysIn_flagged_lift flag _).bind fun b =>
    stays_ite (fun _ => ?_) fun _ => staysIn_pure _
  refine (staysIn_flagged_lift false _).bind_of fun _ _ image _ himage =>
    (staysIn_flagged_lift flag _).bind_of fun _ _ new _ hnew => ?_
  have hcall := h.updates target probe set filter rfl s existing image new hs
    (congrArg (·.2) (flagged_ok hfound)) (flagged_lift_ok himage) (flagged_lift_ok hnew)
  refine (staysIn_updateByPk hst hcall).attempt.bind fun r => ?_
  rcases r with e | found
  · exact staysIn_fail _
  · exact (staysIn_flagged_lift false _).bind fun _ => staysIn_pure _

theorem staysIn_onInsertError (h : InsertAllowed c I st id params onConflict row) (flag rls : Bool)
    (returning : Option (List Projection)) (p : Progress) (e : Error) :
    StaysIn I (onInsertError st id params flag rls onConflict returning p e row) := by
  refine stays_ite (fun _ => staysIn_fail _) fun _ => ?_
  cases onConflict with
  | error | replace => exact staysIn_fail _
  | doNothing => exact staysIn_pure _
  | doUpdate target probe set filter =>
    refine (staysIn_doUpdate hst h flag rls returning e).bind fun out => ?_
    cases out <;> exact staysIn_pure _

theorem staysIn_landRow (hrules : FiredStay I rules inner id)
    (h : InsertAllowed c I st id params onConflict row) (flag rls : Bool)
    (returning : Option (List Projection)) (p : Progress) :
    StaysIn I (landRow c rules inner active st id params flag rls onConflict returning p row) := by
  refine (staysIn_insertRow hst h.lands).attempt.bind fun r => ?_
  rcases r with e | ⟨⟩
  · exact staysIn_onInsertError hst h flag rls returning p e
  · have hrowid : StaysIn I (recordRowid st row) := by
      unfold recordRowid
      split
      · exact staysIn_of_keeps (keeps_modify fun _ => rfl)
      · exact staysIn_pure _
    exact hrowid.bind fun _ => (staysIn_flagged_lift false _).bind fun _ =>
      (hrules.triggers (fun _ ht => by simp [WriteRules.on, ht]) _ _ _).bind fun _ => staysIn_pure _

/-- One row of an INSERT calls on its own table, for its victims and through its triggers. -/
theorem staysIn_insertStep (hrules : FiredStay I rules inner id)
    (hreached : ∀ t, Reached c id t → ∀ call, Allowed c I t call)
    {proposed : Row}
    (h : ∀ flag s s' row, I s.tables → prepareRow st id flag proposed s = (s', .ok row) →
      InsertAllowed c I st id params onConflict row) (withCheck : Option Filter)
    (returning : Option (List Projection)) (p : Progress) :
    StaysIn I
    (insertStep c rules inner active st id params withCheck onConflict returning p proposed) := by
  have hprepare : ∀ flag, StaysIn I (prepareRow st id flag proposed) := by
    refine fun flag => (staysIn_flagged_lift flag _).bind fun row => ?_
    unfold assignRowid
    split
    · exact staysIn_pure _
    split
    · exact (staysIn_of_keeps (keeps_nextRowid st id)).mapFailure.bind fun _ =>
        staysIn_flagged_lift flag _
    · exact (staysIn_of_keeps (keeps_noteRowid st id _)).mapFailure.bind fun _ =>
        staysIn_pure _
    · exact staysIn_pure _
  refine (hprepare _).bind_of fun s s' row hs hrow => ?_
  have hrow := h _ s s' row hs hrow
  refine (staysIn_flagged_lift _ _).bind fun _ =>
    (hrules.triggers (fun _ ht => by simp [WriteRules.on, ht]) _ _ _).bind fun o => ?_
  cases o with
  | skipRow => exact staysIn_pure _
  | proceed =>
    exact (staysIn_of_keeps (keeps_childCheck row)).mapFailure.bind fun held =>
      (staysIn_pushDeferred held).bind fun _ => (staysIn_makeRoom hst hreached hrow).bind fun _ =>
        staysIn_landRow hst hrules hrow _ _ returning _

omit hst in
theorem staysIn_parentPhase (hreached : ∀ t, Reached c id t → ∀ call, Allowed c I t call)
    (phase : Phase) (old : Row) (new : Option Row) :
    StaysIn I (parentPhase c rules st id phase old new) :=
  stays_ite (fun _ => staysIn_onParentChange _ phase id old new hreached) fun _ =>
    staysIn_pure _

/-- One row of an UPDATE, with the two phases of its references. -/
theorem staysIn_updateStep (hrules : FiredStay I rules inner id)
    (hreached : ∀ t, Reached c id t → ∀ call, Allowed c I t call)
    {set : List (ℕ × Expr)} {old : Row}
    (h : ∀ new, postImage st params set old = .ok new → Allowed c I id (.updateByPk new))
    (withCheck : Option Filter) (returning : Option (List Projection)) (p : Progress) :
    StaysIn I (updateStep c rules inner active st id params set withCheck returning p old) := by
  refine (staysIn_flagged_lift _ _).bind_of fun _ _ new _ hnew =>
    (staysIn_flagged_lift _ _).bind fun _ =>
    (hrules.triggers (fun _ ht => by simp [WriteRules.on, ht]) _ _ _).bind fun o => ?_
  cases o with
  | skipRow => exact staysIn_pure _
  | proceed =>
    refine (staysIn_of_keeps (keeps_childCheck new)).mapFailure.bind fun held =>
      (staysIn_parentPhase hreached .guard old (some new)).mapFailure.bind fun held' =>
        (staysIn_updateByPk hst (h new (flagged_lift_ok hnew))).attempt.bind fun r => ?_
    rcases r with e | _ | _
    · exact staysIn_fail _
    · exact staysIn_pure _
    · exact (staysIn_parentPhase hreached .act old (some new)).mapFailure.bind fun held'' =>
        (staysIn_pushDeferred _).bind fun _ => (staysIn_flagged_lift false _).bind fun _ =>
          (hrules.triggers (fun _ ht => by simp [WriteRules.on, ht]) _ _ _).bind fun _ =>
            staysIn_pure _

/-- One row of a DELETE, with the two phases of its references. -/
theorem staysIn_deleteStep (hrules : FiredStay I rules inner id)
    (hreached : ∀ t, Reached c id t → ∀ call, Allowed c I t call) {old : Row}
    (h : ∀ pk, keyOfRaw old st.table.primaryKey = some pk → Allowed c I id (.deleteByPk pk))
    (returning : Option (List Projection)) (p : Progress) :
    StaysIn I (deleteStep c rules inner active st id params returning p old) := by
  unfold deleteStep
  rcases hpk : keyOfRaw old st.table.primaryKey with _ | pk
  · exact staysIn_fail _
  refine (hrules.triggers (fun _ ht => by simp [WriteRules.on, ht]) _ _ _).bind fun o => ?_
  cases o with
  | skipRow => exact staysIn_pure _
  | proceed =>
    refine (staysIn_parentPhase hreached .guard old none).mapFailure.bind fun held =>
      (staysIn_deleteByPk hst (h pk hpk)).attempt.bind fun r => ?_
    rcases r with e | _ | _
    · exact staysIn_fail _
    · exact staysIn_pure _
    · exact (staysIn_parentPhase hreached .act old none).mapFailure.bind fun held' =>
        (staysIn_pushDeferred _).bind fun _ => (staysIn_flagged_lift false _).bind fun _ =>
          (hrules.triggers (fun _ ht => by simp [WriteRules.on, ht]) _ _ _).bind fun _ =>
            staysIn_pure _

end Statements

/-- The calls that a statement makes on its own table keep the property. -/
def PlanStmt.OwnAllowed (c : Context) (I : (ℕ → TableTxn) → Prop) (params : List Value) :
    PlanStmt → Prop
  | .select _ => True
  | .insert id rows _ onConflict _ => ∀ st s built, c.schema[id]? = some st → I s.tables →
      (builtRows c st params rows s).2 = .ok built → ∀ proposed ∈ built,
      ∀ flag s s' row, I s.tables →
        prepareRow st id flag proposed s = (s', .ok row) →
        InsertAllowed c I st id params onConflict row
  | .update id access set _ _ => ∀ st s rows, c.schema[id]? = some st → I s.tables →
      (gatherRows c id access params s).2 = .ok rows → ∀ old ∈ rows, ∀ new,
        postImage st params set old = .ok new → Allowed c I id (.updateByPk new)
  | .delete id access _ => ∀ st s rows, c.schema[id]? = some st → I s.tables →
      (gatherRows c id access params s).2 = .ok rows → ∀ old ∈ rows, ∀ pk,
        keyOfRaw old st.table.primaryKey = some pk → Allowed c I id (.deleteByPk pk)

section Statement

variable {c : Context} {I : (ℕ → TableTxn) → Prop} {rules : WriteRules}
  {inner : Option (List String → Inner)} {active : List String} {params : List Value}
  {stmt : PlanStmt}

/-- By the row loop of each kind of statement. -/
theorem stays_execStmtRest (hrules : ∀ id, stmt.table? = some id → FiredStay I rules inner id)
    (hreached : ∀ id, stmt.table? = some id → ∀ t, Reached c id t → ∀ call, Allowed c I t call)
    (hown : stmt.OwnAllowed c I params) :
    StaysIn I (execStmtRest c rules inner active params stmt) := by
  cases stmt with
  | select read =>
    exact (staysIn_of_keeps (keeps_read c read params)).mapFailure.bind fun _ => staysIn_pure _
  | insert id rows withCheck onConflict returning =>
    refine (staysIn_flagged_lift false _).bind_of fun _ _ st _ hst => ?_
    have hst := tableDef_ok (flagged_lift_ok hst)
    refine (staysIn_of_keeps (keeps_builtRows st rows)).mapFailure.bind_of
      fun s _ built hs hbuilt => ?_
    exact (stays_foldlM built (fun p proposed hmem => staysIn_insertStep hst (hrules id rfl)
      (hreached id rfl) (hown st s built hst hs (congrArg (·.2) (flagged_ok hbuilt)) proposed hmem)
      withCheck returning p) {}).bind fun _ => staysIn_pure _
  | update id access set withCheck returning =>
    refine (staysIn_flagged_lift false _).bind_of fun _ _ st _ hst => ?_
    have hst := tableDef_ok (flagged_lift_ok hst)
    refine (staysIn_of_keeps (keeps_gatherRows id access)).mapFailure.bind_of
      fun s _ rows hs hrows => ?_
    exact (stays_foldlM rows (fun p old hmem => staysIn_updateStep hst (hrules id rfl)
      (hreached id rfl) (hown st s rows hst hs (congrArg (·.2) (flagged_ok hrows)) old hmem)
      withCheck returning p) {}).bind fun _ => staysIn_pure _
  | delete id access returning =>
    refine (staysIn_flagged_lift false _).bind_of fun _ _ st _ hst => ?_
    have hst := tableDef_ok (flagged_lift_ok hst)
    refine (staysIn_of_keeps (keeps_gatherRows id access)).mapFailure.bind_of
      fun s _ rows hs hrows => ?_
    exact (stays_foldlM rows (fun p old hmem => staysIn_deleteStep hst (hrules id rfl)
      (hreached id rfl) (hown st s rows hst hs (congrArg (·.2) (flagged_ok hrows)) old hmem)
      returning p) {}).bind fun _ => staysIn_pure _

theorem stays_execStmt {plan : CompiledPlan}
    (hrules : ∀ id, plan.stmt.table? = some id → FiredStay I rules inner id)
    (hreached : ∀ id, plan.stmt.table? = some id → ∀ t, Reached c id t → ∀ call, Allowed c I t call)
    (hown : ∀ s params', I s.tables → (plan.params s params).2 = .ok params' →
      plan.stmt.OwnAllowed c I params') :
    StaysIn I (bare (plan.params.run c params) >>= fun params =>
      execStmtRest c rules inner active params plan.stmt) := by
  have hread : StaysIn I (bare (plan.params.run c params)) :=
    (staysIn_of_keeps (keeps_read c plan.params params)).mapFailure
  refine hread.bind_of fun s s' params' hs h => stays_execStmtRest hrules hreached ?_
  exact hown s params' hs (Read.run_ok (flagged_ok h))

theorem PlanStmt.ownAllowed_of_forall
    (h : ∀ id, stmt.table? = some id → ∀ call, Allowed c I id call) :
    stmt.OwnAllowed c I params := by
  cases stmt with
  | select => trivial
  | insert id =>
    have hall := h id rfl
    exact fun _ _ _ _ _ _ _ _ _ _ _ _ _ _ => ⟨hall _, fun _ _ _ _ _ _ _ => hall _,
      fun _ _ _ _ _ _ _ _ _ _ _ _ _ => hall _⟩
  | update id | delete id =>
    have hall := h id rfl
    exact fun _ _ _ _ _ _ _ _ _ _ => hall _

/-- A property that every row call on the tables a statement touches keeps, the statement keeps. -/
theorem stays_of_touches : ∀ (levels : ℕ) (active : List String) (plan : CompiledPlan)
    (params : List Value), (∀ id, plan.stmt.table? = some id → ∀ t, Touches c rules id t →
      ∀ call, Allowed c I t call) →
    StaysIn I (execStmtTriggered c rules levels active plan params)
  | 0, _, _, _, h => stays_execStmt (fun _ _ _ _ _ _ _ hrun => by cases hrun)
      (fun id hid t ht => h id hid t ⟨id, .refl, ht.to_reflTransGen⟩)
      fun _ _ _ _ => PlanStmt.ownAllowed_of_forall fun id hid => h id hid id ⟨id, .refl, .refl⟩
  | levels + 1, _, _, _, h => by
    refine stays_execStmt (fun id hid trig ht plan hp run hrun active params => ?_)
      (fun id hid t ht => h id hid t ⟨id, .refl, ht.to_reflTransGen⟩)
      fun _ _ _ _ => PlanStmt.ownAllowed_of_forall fun id hid => h id hid id ⟨id, .refl, .refl⟩
    cases hrun
    refine (stays_of_touches levels active plan params fun id' hid' t ht' => ?_).mapFailure
    obtain ⟨t', hfires, hacts⟩ := ht'
    exact h id hid t ⟨t', .head ⟨trig, ht, plan, hp, hid'⟩ hfires, hacts⟩

/-- So is a property that the statement's own calls keep and every call on the other tables it
touches. -/
theorem stays_execStmtTriggered {plan : CompiledPlan}
    (hfired : ∀ id, plan.stmt.table? = some id → ∀ t', Fires rules id t' →
      ∀ t, Touches c rules t' t → ∀ call, Allowed c I t call)
    (hreached : ∀ id, plan.stmt.table? = some id → ∀ t, Reached c id t → ∀ call, Allowed c I t call)
    (hown : ∀ s params', I s.tables → (plan.params s params).2 = .ok params' →
      plan.stmt.OwnAllowed c I params') (levels : ℕ) :
    StaysIn I (execStmtTriggered c rules levels active plan params) := by
  cases levels with
  | zero => exact stays_execStmt (fun _ _ _ _ _ _ _ hrun => by cases hrun) hreached hown
  | succ levels =>
    refine stays_execStmt (fun id hid trig ht plan' hp run hrun active' params' => ?_) hreached hown
    cases hrun
    exact (stays_of_touches levels active' plan' params' fun id' hid' =>
      hfired id hid id' ⟨trig, ht, plan', hp, hid'⟩).mapFailure

end Statement

end Mpedb
