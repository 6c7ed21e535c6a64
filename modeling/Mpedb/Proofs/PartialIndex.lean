import Mpedb.PartialIndex
import Mpedb.Proofs.Compare
import Mpedb.Proofs.Lowering

/-!
# The implication test is sound

A conjunct that has an atom is TRUE exactly if the atom holds of the row (`Holds`), whichever way
around its comparison is written. Entailment of atoms keeps what they say, so the predicate of a
usable index is TRUE on every row on which the conjuncts are.
-/

namespace Mpedb

open List Outcome Bool

namespace F64

theorem parts_of_isZero {f : F64} (h : f.isZero = true) : f.exponent = 0 ∧ f.mantissa = 0 := by
  simpa [isZero] using h

theorem intFloatCmp_of_isZero {f g : F64} (hf : f.isZero = true)
    (hg : g.isZero = true) (i : Int64) :
    intFloatCmp i f = intFloatCmp i g := by
  obtain ⟨hfe, hfm⟩ := parts_of_isZero hf
  obtain ⟨hge, hgm⟩ := parts_of_isZero hg
  have hscale : f.scale = g.scale := by rw [scale, scale, hfe, hge]
  have hsig : f.significand = g.significand := by simp [significand, hfe, hfm, hge, hgm]
  have hexact (j : ℤ) : exactCmp j f = exactCmp j g := by rw [exactCmp, exactCmp, hscale, hsig]
  have htrunc : f.trunc = g.trunc := by rw [trunc, trunc, hscale, hsig]
  simp only [intFloatCmp, isNan, isInfinite, hfe, hfm, hge, hgm, hexact, htrunc]
  rfl

end F64

namespace Value

theorem sqlCmp_swap {a b : Value} {o : Option Ordering} (h : a.sqlCmp b = .ok o) :
    b.sqlCmp a = .ok (o.map .swap) := by
  have hnum (x y : String) : numericCmp y x = (numericCmp x y).swap := by
    rw [Numeric.numericCmp_eq, Numeric.numericCmp_eq]
    exact Std.OrientedCmp.eq_swap
  have hok {o o' : Ordering} (ho : o = o') :
      (Except.ok (some o) : Except Error (Option Ordering)) = .ok (some o') := by rw [ho]
  cases a <;> cases b <;> cases h <;> first
    | rfl
    | exact hok Std.OrientedOrd.eq_swap
    | exact hok (hnum _ _)
    | exact hok Ordering.swap_swap.symm

end Value

namespace Partial

open Lowering Mpedb.Expr Checked

variable {b : Value}

theorem valueEq_cases {a : Value} (h : valueEq a b = true) :
    a = b ∨ ∃ f g, a = .float f ∧ b = .float g ∧ f.isZero = true ∧ g.isZero = true := by
  cases a <;> cases b <;> try exact .inl (of_decide_eq_true h)
  rename_i f g
  simp only [valueEq, floatEq, and_eq_true, or_eq_true, beq_iff_eq] at h
  rcases h.2 with hbits | ⟨hf, hg⟩
  · left
    rw [show f = g from congrArg F64.mk hbits]
  · exact .inr ⟨f, g, rfl, rfl, hf, hg⟩

theorem sqlCmp_of_valueEq {a : Value} (h : valueEq a b = true) (x : Value) :
    x.sqlCmp a = x.sqlCmp b := by
  rcases valueEq_cases h with rfl | ⟨f, g, rfl, rfl, hf, hg⟩
  · rfl
  · cases x <;>
      simp [Value.sqlCmp, floatTotalCmp, normalizeFloatBits, hf, hg,
        F64.intFloatCmp_of_isZero hf hg, Value.typeName, Value.columnType]

theorem sqlCmp_scalar (a b : Value) : sqlCmp (.scalar a) (.scalar b) = a.sqlCmp b := by
  cases a <;> cases b <;> rfl

theorem isNull_of_valueEq {a : Value} (h : valueEq a b = true) : a.isNull = b.isNull := by
  rcases valueEq_cases h with rfl | ⟨f, g, rfl, rfl, -, -⟩ <;> rfl

variable {v : Datum}

theorem sqlCmp_of_datumEq {w : Datum} (h : datumEq v w = true) (x : Datum) :
    sqlCmp x v = sqlCmp x w := by
  rcases v with a | as <;> rcases w with b | bs <;> simp only [datumEq, false_eq_true] at h
  · rcases x with x | xs
    · rw [sqlCmp_scalar, sqlCmp_scalar, sqlCmp_of_valueEq h]
    · have := isNull_of_valueEq h
      cases a <;> cases b <;> first | rfl | cases this
  · rcases x with x | xs
    · cases x <;> rfl
    · rfl

variable {x : Datum}

theorem sqlCmp_swap {y : Datum} {o : Option Ordering} (h : sqlCmp x y = .ok o) :
    sqlCmp y x = .ok (o.map .swap) := by
  rcases x with x | xs <;> rcases y with y | ys
  · rw [sqlCmp_scalar] at h ⊢
    exact Value.sqlCmp_swap h
  · cases x <;> cases h
    rfl
  · cases y <;> cases h
    rfl
  · cases h

theorem sqlCmp_isNull {y : Datum} {o : Ordering} (h : sqlCmp x y = .ok (some o)) :
    x.isNull = false := by
  rcases x with (_ | _) | _ <;> first | rfl | cases h

/-- The comparison of an operator. -/
def kind : BinOp → CmpKind
  | .ne => .ne
  | .lt => .lt
  | .le => .le
  | .gt => .gt
  | .ge => .ge
  | _ => .eq

/-- What an atom says about a row. -/
def PAtom.Holds (cols : List Datum) : PAtom → Prop
  | .isNull c => ∃ x, cols[c.toNat]? = some x ∧ x.isNull = true
  | .isNotNull c => ∃ x, cols[c.toNat]? = some x ∧ x.isNull = false
  | .cmp c op v => ∃ x o, cols[c.toNat]? = some x ∧ sqlCmp x v = .ok (some o) ∧
      (kind op).holds o = true

variable {b : Builtins} {toReal : Value → F64} {cols params : List Datum}

theorem entails_holds {q p : PAtom} (h : entails q p = true) (hq : q.Holds cols) :
    p.Holds cols := by
  cases p <;> cases q <;> simp only [entails, and_eq_true, decide_eq_true_eq, false_eq_true] at h
  · exact h ▸ hq
  · exact h ▸ hq
  · obtain ⟨⟨rfl, -⟩, -⟩ := h
    obtain ⟨x, o, hx, hcmp, -⟩ := hq
    exact ⟨x, hx, sqlCmp_isNull hcmp⟩
  · obtain ⟨⟨rfl, rfl⟩, hv⟩ := h
    obtain ⟨x, o, hx, hcmp, ho⟩ := hq
    exact ⟨x, o, hx, by rw [sqlCmp_of_datumEq hv, hcmp], ho⟩

theorem holds_flipped {op : BinOp} (h : isCmp op = true) (o : Ordering) :
    (kind (flipped op)).holds o.swap = (kind op).holds o := by
  cases op <;> cases h <;> cases o <;> rfl

theorem get_eq_ok {e : Error} {i : ℕ} :
    (Checked.get e cols i : Res Datum) = .ok x ↔ cols[i]? = some x := by
  unfold Checked.get
  cases cols[i]? <;> simp [fail]

variable {a : PAtom} {e : BExpr}

theorem canonAtom_cases (h : canonAtom e = some a) :
    (∃ c, e = .unary .isNull (.col c) ∧ a = .isNull c) ∨
    (∃ c, e = .unary .isNotNull (.col c) ∧ a = .isNotNull c) ∨
    (∃ op c v, isCmp op = true ∧ e = .binary op (.col c) (.const v) ∧ a = .cmp c op v) ∨
    ∃ op c v, isCmp op = true ∧ e = .binary op (.const v) (.col c) ∧ a = .cmp c (flipped op) v := by
  unfold canonAtom at h
  split at h
  · cases h
    exact .inl ⟨_, rfl, rfl⟩
  · cases h
    exact .inr (.inl ⟨_, rfl, rfl⟩)
  · split_ifs at h with hc
    cases h
    exact .inr (.inr (.inl ⟨_, _, _, (and_eq_true _ _ ▸ hc).1, rfl, rfl⟩))
  · split_ifs at h with hc
    cases h
    exact .inr (.inr (.inr ⟨_, _, _, (and_eq_true _ _ ▸ hc).1, rfl, rfl⟩))
  · cases h

theorem plain_of_canonAtom (h : canonAtom e = some a) : Plain e := by
  rcases canonAtom_cases h with ⟨c, rfl, -⟩ | ⟨c, rfl, -⟩ | ⟨op, c, v, -, rfl, -⟩ | ⟨op,
    c, v, -, rfl, -⟩
  · trivial
  · trivial
  · exact ⟨trivial, trivial⟩
  · exact ⟨trivial, trivial⟩

theorem binValue_cmp {op : BinOp} (h : isCmp op = true) (x y : Datum) :
    binValue (withValues b toReal) op x y = (sqlCmp x y).map (verdict (kind op)) := by
  cases op <;> cases h <;> rfl

theorem cmp_true_iff {k : CmpKind} {r : Except Error (Option Ordering)} :
    (∃ v, lift (r.map (verdict k)) = .ok v ∧ truthy3 toReal v = some true) ↔
      ∃ o, r = .ok (some o) ∧ k.holds o = true := by
  rcases r with e | _ | o
  · simp [lift, Except.map, fail]
  · simp [lift, Except.map, verdict, truthy3, Datum.null]
  · simp [lift, Except.map, verdict, truthy3, Expr.bool]

theorem col_true_iff {c : UInt16} {f : Datum → Res Datum} :
    (∃ v, (meaning b cols params (.col c) >>= f) = .ok v ∧ truthy3 toReal v = some true) ↔
      ∃ x, cols[c.toNat]? = some x ∧ ∃ v, f x = .ok v ∧ truthy3 toReal v = some true := by
  simp only [meaning, bind_eq_ok, get_eq_ok]
  constructor
  · rintro ⟨v, ⟨x, hx, hf⟩, hv⟩
    exact ⟨x, hx, v, hf, hv⟩
  · rintro ⟨x, hx, v, hf, hv⟩
    exact ⟨v, ⟨x, hx, hf⟩, hv⟩

theorem true_iff_holds (h : canonAtom e = some a) :
    (∃ v, meaning (withValues b toReal) cols params e = .ok v ∧ truthy3 toReal v = some true) ↔
      a.Holds cols := by
  rcases canonAtom_cases h with ⟨c, rfl, rfl⟩ | ⟨c, rfl, rfl⟩ | ⟨op, c, v, hop, rfl, rfl⟩ |
    ⟨op, c, v, hop, rfl, rfl⟩
  · rw [meaning, col_true_iff]
    simp [unValue, lift, PAtom.Holds, truthy3, Expr.bool]
  · rw [meaning, col_true_iff]
    simp [unValue, lift, PAtom.Holds, truthy3, Expr.bool]
  · rw [meaning, col_true_iff]
    change (∃ x, cols[c.toNat]? = some x ∧ ∃ w, lift (binValue (withValues b toReal) op x v) =
      .ok w ∧ _) ↔ _
    simp only [binValue_cmp hop, cmp_true_iff, PAtom.Holds, exists_and_left]
  · change (∃ w, (meaning (withValues b toReal) cols params (.col c) >>= fun y =>
        lift (binValue (withValues b toReal) op v y)) = .ok w ∧ _) ↔ _
    rw [col_true_iff]
    simp only [binValue_cmp hop, cmp_true_iff, PAtom.Holds, ← exists_and_left]
    refine exists_congr fun x => ?_
    constructor
    · rintro ⟨o, hx, hcmp, ho⟩
      exact ⟨o.swap, hx, sqlCmp_swap hcmp, by rwa [holds_flipped hop]⟩
    · rintro ⟨o, hx, hcmp, ho⟩
      refine ⟨o.swap, hx, sqlCmp_swap hcmp, ?_⟩
      rwa [← holds_flipped hop, Ordering.swap_swap]

theorem verdict_value {k : CmpKind} {r : Except Error (Option Ordering)}
    (h : lift (r.map (verdict k)) = .ok v) : v = .null ∨ ∃ t, v = Expr.bool t := by
  rcases r with e | _ | o <;> cases h
  · exact .inl rfl
  · exact .inr ⟨_, rfl⟩

theorem atom_value (h : canonAtom e = some a)
    (hv : meaning (withValues b toReal) cols params e = .ok v) :
    v = .null ∨ ∃ t, v = Expr.bool t := by
  rcases canonAtom_cases h with ⟨c, rfl, -⟩ | ⟨c, rfl, -⟩ | ⟨op, c, w, hop, rfl, -⟩ |
    ⟨op, c, w, hop, rfl, -⟩ <;> obtain ⟨x, -, hv⟩ := bind_eq_ok.1 hv
  · cases hv
    exact .inr ⟨_, rfl⟩
  · cases hv
    exact .inr ⟨_, rfl⟩
  all_goals
    obtain ⟨y, -, hv⟩ := bind_eq_ok.1 hv
    rw [binValue_cmp hop] at hv
    exact verdict_value hv

theorem meaning_of_holds (h : canonAtom e = some a) (ha : a.Holds cols) :
    meaning (withValues b toReal) cols params e = .ok (Expr.bool true) := by
  obtain ⟨v, hv, htrue⟩ : ∃ v, meaning (withValues b toReal) cols params e = .ok v ∧
    truthy3 toReal v = some true := (true_iff_holds h).2 ha
  rw [hv]
  rcases atom_value h hv with rfl | ⟨t, rfl⟩
  · cases htrue
  · rw [Option.some.inj htrue]

theorem meaning_of_splitAnd
    (h : ∀ e' ∈ splitAnd e, ∃ a, canonAtom e' = some a ∧ a.Holds cols) :
    Plain e ∧ meaning (withValues b toReal) cols params e = .ok (Expr.bool true) := by
  fun_induction splitAnd e with
  | case1 l r ihl ihr =>
    obtain ⟨hpl, hl⟩ := ihl fun e' he' => h e' (mem_append_left _ he')
    obtain ⟨hpr, hr⟩ := ihr fun e' he' => h e' (mem_append_right _ he')
    refine ⟨⟨hpl, hpr⟩, ?_⟩
    rw [meaning, hl, hr]
    rfl
  | case2 e hand =>
    obtain ⟨a, hcanon, ha⟩ := h e (mem_singleton_self e)
    exact ⟨plain_of_canonAtom hcanon, meaning_of_holds hcanon ha⟩

theorem mem_of_mapM {α β : Type} {f : α → Option β} :
    ∀ {xs : List α} {ys : List β}, xs.mapM f = some ys →
    ∀ x ∈ xs, ∃ y ∈ ys, f x = some y
  | [], _, _, _, hx => nomatch hx
  | x' :: xs, ys, h, x, hx => by
    simp only [mapM_cons, Option.bind_eq_bind, Option.bind_eq_some_iff, Option.pure_def,
      Option.some.injEq] at h
    obtain ⟨y, hy, ys', hys, rfl⟩ := h
    rcases mem_cons.1 hx with rfl | hx
    · exact ⟨y, mem_cons_self .., hy⟩
    · obtain ⟨z, hz, hf⟩ := mem_of_mapM hys x hx
      exact ⟨z, mem_cons_of_mem _ hz, hf⟩

variable {F : Frontend} {t : TableDef}

theorem holds_of_isTrue {row : Row} {c : BExpr} {q : PAtom} (hq : canonAtom c = some q)
    (h : isTrue F (withValues b toReal) params row c = true) : q.Holds (row.map .scalar) := by
  unfold isTrue at h
  split at h
  · cases h
  · next p hp =>
    rw [evalWithStack_eq (plain_of_canonAtom hq) hp] at h
    split at h
    · cases h
    · next v hv => exact (true_iff_holds hq).1 ⟨v, hv, of_decide_eq_true h⟩

theorem bound_of_atoms {src : String} {atoms : List PAtom} {p : Expr.Program}
    (hatoms : predicateAtoms F t src = some atoms) (hp : compileIndexPredicate F src t = .ok p) :
    ∃ bound, (splitAnd bound).mapM canonAtom = some atoms ∧
    compileProgram F.display bound = .ok p := by
  unfold predicateAtoms at hatoms
  obtain ⟨⟨expr, n⟩, hparse, hp⟩ := bind_eq_ok.1 hp
  rw [lift_eq_ok hparse] at hatoms
  simp only at hatoms hp
  split_ifs at hatoms hp with hn
  obtain ⟨bound, hbind, hp⟩ := bind_eq_ok.1 hp
  rw [lift_eq_ok hbind] at hatoms
  exact ⟨bound, hatoms, hp⟩

/-- The predicate of an index is the program of its source. -/
def Compiled (F : Frontend) (b : Builtins) (t : TableDef) (ix : IndexDef) : Prop :=
  ∀ src prog, ix.predicate = some (src, prog) →
    ∃ p, compileIndexPredicate F src t = .ok p ∧ prog = onRow b p

/-- What the planner requires of the query makes the index's predicate true. -/
theorem admits_of_isTrue {b' : Builtins} {ix : IndexDef} {conjuncts : List BExpr} {row : Row}
    (hix : Compiled F (withValues b toReal) t ix) (husable : indexUsable F t ix conjuncts = true)
    (htrue : ∀ c ∈ conjuncts, isTrue F (withValues b' toReal) params row c = true) :
    indexPredicateAdmits ix.predicate t.name row = .ok true := by
  unfold indexUsable at husable
  rcases hpred : ix.predicate with _ | ⟨src, prog⟩
  · rfl
  · obtain ⟨p, hp, rfl⟩ := hix src prog hpred
    rw [hpred] at husable
    simp only at husable
    split at husable
    · cases husable
    · next atoms hatoms =>
      obtain ⟨bound, hmap, hcompile⟩ := bound_of_atoms hatoms hp
      have hholds : ∀ e ∈ splitAnd bound, ∃ a, canonAtom e = some a ∧
          a.Holds (row.map .scalar) := by
        intro e he
        obtain ⟨a, ha, hcanon⟩ := mem_of_mapM hmap e he
        obtain ⟨q, hq, hent⟩ := any_eq_true.1 (all_eq_true.1 husable a ha)
        obtain ⟨c, hc, hcq⟩ := mem_filterMap.1 hq
        exact ⟨a, hcanon, entails_holds hent (holds_of_isTrue hcq (htrue c hc))⟩
      obtain ⟨hplain, hmeaning⟩ : Plain bound ∧
          meaning (withValues b toReal) (row.map .scalar) [] bound = .ok (Expr.bool true) :=
        meaning_of_splitAnd hholds
      rw [indexPredicateAdmits, onRow, evalWithStack_eq hplain hcompile, hmeaning]
      rfl

/-- Every row on which the conjuncts are TRUE is a member of a usable index, so that filtering the
members gives what filtering the table gives. -/
theorem index_usable_sound (F : Frontend) (b b' : Builtins) (toReal : Value → F64) (t : TableDef)
    (ix : IndexDef) (conjuncts : List BExpr) (params : List Datum)
    (hix : Compiled F (withValues b toReal) t ix) (husable : indexUsable F t ix conjuncts = true) :
    (∀ row : Row, (∀ c ∈ conjuncts, isTrue F (withValues b' toReal) params row c = true) →
      indexPredicateAdmits ix.predicate t.name row = .ok true) ∧
    ∀ rows : List Row,
      (rows.filter fun row => indexPredicateAdmits ix.predicate t.name row = .ok true).filter
          (fun row => conjuncts.all (isTrue F (withValues b' toReal) params row)) =
        rows.filter fun row => conjuncts.all (isTrue F (withValues b' toReal) params row) := by
  refine ⟨fun row htrue => admits_of_isTrue hix husable htrue, fun rows => ?_⟩
  rw [filter_filter]
  refine filter_congr fun row _ => ?_
  rw [and_eq_left_iff_imp]
  intro htrue
  exact decide_eq_true (admits_of_isTrue hix husable (all_eq_true.1 htrue))

section Example

/-- Operators that answer nothing. -/
def noOperators : Builtins where
  sqlCmp _ _ := .ok none
  sqlCmpCollated _ _ _ := .ok none
  sortCmp _ _ _ := none
  truthy3 _ := none
  arith _ _ _ := .ok .null
  bitwise _ _ _ := .ok .null
  bitI64 _ := .ok none
  intToFloat _ := ⟨0⟩
  floatPrefix _ := ⟨0⟩
  castValue d _ := .ok d
  castPg d _ := .ok d
  storeAffinity _ d := d
  concatValue _ _ := .ok .null
  concatBytesN _ := .ok .null
  likeMatch _ _ _ := false
  likeMatchCs _ _ _ := false
  pgLikeMatch _ _ _ := .ok false
  globMatch _ _ := false
  regexpMatch _ _ := .ok false
  inList3vl _ _ _ := .ok .null
  inItems3vl _ _ _ := .ok .null
  callScalar _ _ := .ok .null
  callScalarCollated _ _ _ := .ok .null
  debugText s := s
  host := none
  spell := none

/-- Reads every source as `c1 IS NOT NULL`. -/
def oneSource : Frontend where
  Ast := Unit
  parseExprOnly _ := .ok ((), 0)
  bindCheck _ _ := .ok (.unary .isNotNull (.col 1))
  display _ := ""

/-- `t(c0 INTEGER PRIMARY KEY, c1 INTEGER)`. -/
def notNullTable : TableDef where
  name := "t"
  columns := [⟨"c0", .int64, false, .binary, .integer, false, none, none⟩,
    ⟨"c1", .int64, true, .binary, .integer, false, none, none⟩]
  primaryKey := [0]
  storeAffinity := id
  generated := .ok

/-- The program of `c1 IS NOT NULL`. -/
def notNullProgram : Expr.Program := ⟨[.pushCol 1, .isNotNull], [], 1, rfl⟩

/-- An index with that predicate. -/
def notNullIndex : IndexDef :=
  { columns := [1], predicate := some ("c1 IS NOT NULL",
      onRow (withValues noOperators fun _ => ⟨0⟩) notNullProgram) }

/-- The index serves `c1 = 7`, and has the row that the query finds. -/
theorem index_usable_eq :
    indexPredicateAdmits notNullIndex.predicate "t" [.int 1, .int 7] = .ok true := by
  refine (index_usable_sound oneSource noOperators noOperators (fun _ => ⟨0⟩)
    notNullTable notNullIndex
    [.binary .eq (.col 1) (.const (.scalar (.int 7)))] [] ?_ rfl).1 [.int 1, .int 7] ?_
  · rintro src prog ⟨⟩
    exact ⟨notNullProgram, rfl, rfl⟩
  · intro c hc
    cases mem_singleton.1 hc
    rfl

end Example

end Partial

end Mpedb
