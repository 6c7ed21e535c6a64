import Mpedb.ExpressionCodec
import Mpedb.Proofs.Lowering
import Mpedb.Proofs.RowCodec

/-!
# Programs survive their encoding

Every part of a program is read back from its bytes exactly when its counts and lengths fit the
bytes they are kept in and the decoder takes it (`Decodes`); the verifier then accepts the program
again.
-/

namespace Mpedb.Expr

open Bytes List Program
open ByteReader (Reads Decodes reads_take reads_byte reads_word bind_eq_ok map_eq_ok
  length_of_times)

theorem reads_readU16 (x : UInt16) : Reads readU16 (u16 x) x := by
  have h := (reads_word truncated 2 x.toNat).map UInt16.ofNat
  have hx : x.toNat % 256 ^ 2 = x.toNat := Nat.mod_eq_of_lt x.toNat_lt
  rwa [hx, UInt16.ofNat_toNat] at h

theorem reads_readByte (x : UInt8) : Reads readByte [x] x := reads_byte truncated x

theorem reads_readAffinity (bad : String) (aff : Affinity) :
    Reads (readAffinity bad) [affinityTag aff] aff := by
  cases aff <;> exact fun _ => rfl

theorem collationOf_tag (coll : Collation) : collationOf (collationTag coll) = pure coll := by
  cases coll <;> rfl

theorem cmpKindOf_tag (bad : String) (kind : CmpKind) : cmpKindOf bad kind.tag = pure kind := by
  cases kind <;> rfl

theorem fromTag_tag (f : ScalarFn) : ScalarFn.fromTag f.tag = .ok f := by
  cases f <;> rfl

theorem scalarFnOf_tag (f : ScalarFn) : scalarFnOf f.tag = pure f := by
  unfold scalarFnOf
  rw [fromTag_tag]
  rfl

/-- The decoder takes the instruction. -/
def Instr.Encodable : Instr → Prop
  | .concatN n => 2 ≤ n.toNat
  | .castPg oid => oid.toNat ∈ pgOids
  | _ => True

theorem reads_op {op : UInt8} {operands : List UInt8} {i : Instr}
    (h : Reads (readOperands op.toNat) operands i) : Reads readInstr (op :: operands) i :=
  (reads_readByte op).bind h

theorem reads_readCmp (bad : String) (f : CmpKind → Collation → Instr) (kind : CmpKind)
    (coll : Collation) :
    Reads (readCmp bad f) [kind.tag, collationTag coll] (f kind coll) := by
  refine (reads_readByte kind.tag).bind ((reads_readByte (collationTag coll)).bind ?_)
  rw [cmpKindOf_tag, collationOf_tag]
  exact Reads.pure _

/-- Every instruction is read back from its bytes. -/
theorem reads_readInstr {i : Instr} (h : i.Encodable) : Reads readInstr i.encode i := by
  cases i with
  | pushCol x | pushParam x | pushConst x | like x | likeCs x | glob x | regexp x
  | inParam x | inList x
  | jumpIfNotTrue x | jump x | jumpIfNotNull x | likeDynEsc x | likeCsDynEsc x | enumRank x
  | enumValidate x => exact reads_op ((reads_readU16 x).map _)
  | likeEsc x y | likeCsEsc x y | hostCall x y | spellCall x y =>
    exact reads_op ((reads_readU16 x).bind ((reads_readU16 y).map _))
  | inListColl x coll | inParamColl x coll =>
    refine reads_op ((reads_readU16 x).bind ((reads_readByte _).bind ?_))
    rw [collationOf_tag]
    exact Reads.pure _
  | cast aff | affinity aff => exact reads_op ((reads_readAffinity _ aff).map _)
  | cmpColl kind coll | cmpClass kind coll => exact reads_op (reads_readCmp _ _ kind coll)
  | call f argc =>
    refine reads_op ((reads_readByte f.tag).bind ((reads_readByte argc).bind ?_))
    rw [scalarFnOf_tag]
    exact Reads.pure _
  | callColl f argc coll =>
    refine reads_op
      ((reads_readByte f.tag).bind ((reads_readByte argc).bind ((reads_readByte _).bind ?_)))
    rw [collationOf_tag, scalarFnOf_tag]
    exact Reads.pure _
  | concatN n =>
    refine reads_op ((reads_readU16 n).bind (y := []) ?_)
    rw [if_neg (not_lt.2 h)]
    exact Reads.pure _
  | castPg oid =>
    have hknown : oid.toNat ∈ pgOids := h
    have hoid : oid.toNat % 256 ^ 4 = oid.toNat := Nat.mod_eq_of_lt oid.toNat_lt
    refine reads_op ((reads_word truncated 4 oid.toNat).bind (y := []) ?_)
    rw [hoid, if_neg (not_not.2 hknown), UInt32.ofNat_toNat]
    exact Reads.pure _
  | _ => exact reads_op (Reads.pure _)

theorem decodes_readInstr : Decodes readInstr Instr.encode Instr.Encodable := by
  intro i rest s
  by_cases h : i.Encodable
  · rw [reads_readInstr h rest]
    simp [h, eq_comm]
  · refine ⟨fun hr => ?_, fun hr => absurd hr.1 h⟩
    cases i with
    | concatN n =>
      have hn : n.toNat < 2 := not_le.1 h
      change readInstr ([64] ++ (u16 n ++ rest)) = _ at hr
      rw [readInstr, (reads_readByte 64).bind_run] at hr
      change (readU16 >>= _) _ = _ at hr
      rw [(reads_readU16 n).bind_run, if_pos hn] at hr
      cases hr
    | castPg oid =>
      have hknown : oid.toNat ∉ pgOids := h
      have hoid : oid.toNat % 256 ^ 4 = oid.toNat := Nat.mod_eq_of_lt oid.toNat_lt
      change readInstr ([67] ++ (le 4 oid.toNat ++ rest)) = _ at hr
      rw [readInstr, (reads_readByte 67).bind_run] at hr
      change (ByteReader.word truncated 4 >>= _) _ = _ at hr
      rw [(reads_word truncated 4 oid.toNat).bind_run, hoid, if_pos hknown] at hr
      cases hr
    | _ => exact absurd trivial h

/-- The lengths of the value fit four bytes, and a list holds no list. -/
def Encodable : Datum → Prop
  | .scalar v => v.varLen < 2 ^ 32
  | .list items => items.length < 2 ^ 32 ∧ ∀ d ∈ items, ∃ v, d = .scalar v ∧ v.varLen < 2 ^ 32

theorem reads_takeValue (x : List UInt8) {n : ℕ} (h : x.length = n) : Reads (takeValue n) x x := by
  subst h
  exact reads_take _ x

theorem reads_takeInt (x : Int64) : Reads takeInt (le 8 x.toUInt64.toNat) x := by
  have h := (reads_takeValue (le 8 x.toUInt64.toNat) (length_le ..)).map
    fun b => (UInt64.ofNat (ofLe b)).toInt64
  have hx : x.toUInt64.toNat % 256 ^ 8 = x.toUInt64.toNat := Nat.mod_eq_of_lt x.toUInt64.toNat_lt
  rw [ofLe_le, hx, UInt64.ofNat_toNat] at h
  exact h

theorem takeBody_eq (b rest : List UInt8) : takeBody (le 4 b.length ++ (b ++ rest)) =
    .ok (b.take (b.length % 2 ^ 32), b.drop (b.length % 2 ^ 32) ++ rest) := by
  have hmod := Nat.mod_le b.length (2 ^ 32)
  have hlen : ofLe (le 4 b.length) = b.length % 2 ^ 32 := ofLe_le 4 b.length
  rw [takeBody, (reads_takeValue (le 4 b.length) (length_le ..)).bind_run, hlen, takeValue,
    ByteReader.take, if_pos (by rw [length_append]; omega), take_append_of_le_length hmod,
    drop_append_of_le_length hmod]

theorem take_mod_iff {b : List UInt8} : b.take (b.length % 2 ^ 32) = b ↔ b.length < 2 ^ 32 := by
  constructor
  · intro h
    have := congrArg List.length h
    rw [length_take] at this
    omega
  · intro h
    rw [Nat.mod_eq_of_lt h, take_length]

variable {rest s : List UInt8}

theorem takeBody_iff {b : List UInt8} :
    takeBody (le 4 b.length ++ (b ++ rest)) = .ok (b, s) ↔ b.length < 2 ^ 32 ∧ s = rest := by
  rw [takeBody_eq, Except.ok.injEq, Prod.mk.injEq, take_mod_iff]
  refine and_congr_right fun h => ?_
  rw [Nat.mod_eq_of_lt h, drop_length, nil_append]
  exact eq_comm

theorem takeText_iff (invalid : String) {t : String} :
    takeText invalid (le 4 (utf8 t.toList).length ++ (utf8 t.toList ++ rest)) = .ok (t, s) ↔
      (utf8 t.toList).length < 2 ^ 32 ∧ s = rest := by
  rw [← takeBody_iff, takeText, bind_eq_ok]
  constructor
  · rintro ⟨b, s', hb, h⟩
    rcases hu : String.fromUTF8? ⟨b.toArray⟩ with _ | u
    · rw [textOf, hu] at h
      cases h
    · rw [textOf, hu] at h
      cases h
      rw [hb, RowCodec.fromUTF8?_eq_some.1 hu]
  · intro h
    exact ⟨_, _, h, by rw [textOf, RowCodec.fromUTF8?_eq_some.2 rfl]; rfl⟩

theorem writeValues_eq : ∀ items : List Datum, writeValues items = items.flatMap writeValue
  | [] => rfl
  | d :: items => by rw [writeValues, writeValues_eq items, flatMap_cons]

theorem readValueIn_cons (depth : ℕ) (tag : UInt8) (rest : List UInt8) :
    readValueIn (depth + 1) (tag :: rest) = readTagged
    (readItem (readValueIn depth)) tag.toNat rest :=
  (reads_takeValue [tag] rfl).bind_run rest

/-- A scalar is read back exactly when its length fits its prefix. -/
theorem readValueIn_scalar (depth : ℕ) (v : Value) (rest s : List UInt8) :
    readValueIn (depth + 1) (writeValue (.scalar v) ++ rest) = .ok (.scalar v, s) ↔
      v.varLen < 2 ^ 32 ∧ s = rest := by
  have hfixed : ∀ {v : Value} {p : Prop}, v.varLen = 0 → (v.varLen < 2 ^ 32 ∧ p ↔ p) :=
    fun hv => and_iff_right (by rw [hv]; decide)
  have hinj : ∀ {α : Type} (f : α → Value), Function.Injective f →
      Function.Injective fun a => Datum.scalar (f a) := fun f hf a b h => hf (Datum.scalar.inj h)
  cases v with
  | null =>
    rw [writeValue, singleton_append, readValueIn_cons, hfixed rfl]
    exact (Reads.pure (Datum.scalar .null)).eq_ok_iff
  | int x | timestamp x | date x | time x =>
    rw [writeValue, cons_append, readValueIn_cons, hfixed rfl, ← (reads_takeInt x).eq_ok_iff]
    exact map_eq_ok (hinj _ fun _ _ h => by cases h; rfl)
  | float x =>
    have hread := (reads_takeValue (le 8 x.bits.toNat) (length_le ..)).map
      fun b => Datum.scalar (.float ⟨UInt64.ofNat (ofLe b)⟩)
    have hx : x.bits.toNat % 256 ^ 8 = x.bits.toNat := Nat.mod_eq_of_lt x.bits.toNat_lt
    rw [ofLe_le, hx, UInt64.ofNat_toNat] at hread
    rw [writeValue, cons_append, readValueIn_cons, hfixed rfl]
    exact hread.eq_ok_iff
  | bool x =>
    have hread : Reads (readTagged (readItem (readValueIn depth)) 3) [x.toUInt8]
        (.scalar (.bool x)) := by
      refine (reads_takeValue [x.toUInt8] rfl).bind (y := []) ?_
      cases x <;> exact Reads.pure _
    rw [writeValue, cons_append, readValueIn_cons, hfixed rfl]
    exact hread.eq_ok_iff
  | text t =>
    rw [writeValue, cons_append, append_assoc, readValueIn_cons, Value.varLen,
      ← takeText_iff "invalid utf-8 in text value"]
    exact map_eq_ok (hinj _ fun _ _ => Value.text.inj)
  | numeric t =>
    rw [writeValue, cons_append, append_assoc, readValueIn_cons, Value.varLen,
      ← takeText_iff "invalid utf-8 in numeric value"]
    exact map_eq_ok (hinj _ fun _ _ => Value.numeric.inj)
  | blob b =>
    rw [writeValue, cons_append, append_assoc, readValueIn_cons, Value.varLen, ← takeBody_iff]
    exact map_eq_ok (hinj _ fun _ _ => Value.blob.inj)

theorem readItem_eq_ok {r : Reader Datum} {d : Datum} :
    readItem r rest = .ok (d, s) ↔ r rest = .ok (d, s) ∧ d.value?.isSome := by
  rw [readItem, bind_eq_ok]
  constructor
  · rintro ⟨d', s', hr, h⟩
    cases hd : d'.value? with
    | none =>
      rw [hd, Option.isNone_none, if_pos rfl] at h
      cases h
    | some v =>
      rw [hd, Option.isNone_some, if_neg (by decide)] at h
      cases h
      exact ⟨hr, by rw [hd]; rfl⟩
  · rintro ⟨hr, hd⟩
    refine ⟨d, s, hr, ?_⟩
    rw [if_neg (by simpa [Option.isSome_iff_ne_none] using hd)]
    rfl

theorem decodes_readItem (depth : ℕ) : Decodes (readItem (readValueIn (depth + 1))) writeValue
    fun d => ∃ v, d = .scalar v ∧ v.varLen < 2 ^ 32 := by
  intro d rest s
  rw [readItem_eq_ok]
  cases d with
  | scalar v =>
    rw [readValueIn_scalar]
    constructor
    · rintro ⟨⟨hv, hs⟩, -⟩
      exact ⟨⟨v, rfl, hv⟩, hs⟩
    · rintro ⟨⟨v', hv', hlen⟩, hs⟩
      cases hv'
      exact ⟨⟨hlen, hs⟩, rfl⟩
  | list items =>
    constructor
    · rintro ⟨-, hd⟩
      cases hd
    · rintro ⟨⟨v, hv, -⟩, -⟩
      cases hv

theorem readValueIn_list (depth : ℕ) (items : List Datum) (rest s : List UInt8) :
    readValueIn (depth + 2) (writeValue (.list items) ++ rest) = .ok (.list items, s) ↔
      Encodable (.list items) ∧ s = rest := by
  have hcount : ofLe (le 4 items.length) = items.length % 2 ^ 32 := ofLe_le 4 items.length
  have hread : readValueIn (depth + 2) (writeValue (.list items) ++ rest) = .ok (.list items, s) ↔
      ByteReader.times (readItem (readValueIn (depth + 1))) (items.length % 2 ^ 32)
        (items.flatMap writeValue ++ rest) = .ok (items, s) := by
    rw [writeValue, cons_append, append_assoc, readValueIn_cons, writeValues_eq, ← hcount]
    exact map_eq_ok fun _ _ => Datum.list.inj
  rw [hread]
  constructor
  · intro h
    have hlen := length_of_times h
    rw [← hlen] at h
    obtain ⟨hall, hs⟩ := ((decodes_readItem depth).times items rest s).1 h
    exact ⟨⟨by rw [hlen]; exact Nat.mod_lt _ (Nat.two_pow_pos 32), hall⟩, hs⟩
  · rintro ⟨⟨hlen, hall⟩, hs⟩
    rw [Nat.mod_eq_of_lt hlen]
    exact ((decodes_readItem depth).times items rest s).2 ⟨hall, hs⟩

theorem decodes_readValue : Decodes readValue writeValue Encodable := by
  intro d rest s
  cases d with
  | scalar v => exact readValueIn_scalar _ v rest s
  | list items =>
    have hlen : 1 ≤ (writeValue (.list items) ++ rest).length := by simp [writeValue]
    obtain ⟨depth, hdepth⟩ : ∃ depth, (writeValue (.list items) ++ rest).length + 1 = depth + 2 :=
      ⟨(writeValue (.list items) ++ rest).length - 1, by omega⟩
    rw [readValue, hdepth]
    exact readValueIn_list depth items rest s

/-- The counts fit two and four bytes, and the decoder takes the constants and the instructions. -/
structure Program.Encodable (p : Program) : Prop where
  consts_lt : p.consts.length < 2 ^ 16
  consts : ∀ c ∈ p.consts, Expr.Encodable c
  instrs_le : p.instrs.length ≤ 2 ^ 20
  instrs : ∀ i ∈ p.instrs, i.Encodable

variable {consts : List Datum} {p : Program}

theorem new_eq_ok {instrs : List Instr} :
    new instrs consts = .ok p ↔ p.instrs = instrs ∧ p.consts = consts := by
  constructor
  · intro h
    unfold new at h
    split at h
    · cases h
      exact ⟨rfl, rfl⟩
    · cases h
  · rintro ⟨rfl, rfl⟩
    obtain ⟨instrs, consts, maxStack, valid⟩ := p
    unfold new
    split
    · rename_i m hm
      cases valid.symm.trans hm
      rfl
    · rename_i e he
      cases valid.symm.trans he

/-- What a decoded program says of the bytes. -/
theorem decodeWith_eq_ok :
    decodeWith consts (le 4 p.instrs.length ++ rest) = .ok (p, s) ↔
      p.consts = consts ∧ p.instrs.length ≤ 2 ^ 20 ∧
        ByteReader.times readInstr p.instrs.length rest = .ok (p.instrs, s) := by
  have hcount : p.instrs.length % 256 ^ 4 = p.instrs.length % 2 ^ 32 := rfl
  rw [decodeWith, (reads_word truncated 4 _).bind_run, hcount]
  by_cases hbig : p.instrs.length % 2 ^ 32 > 2 ^ 20
  · rw [if_pos hbig]
    constructor
    · intro h
      cases h
    · rintro ⟨-, hle, -⟩
      exact absurd hbig (by omega)
  · rw [if_neg hbig]
    rw [bind_eq_ok]
    constructor
    · rintro ⟨instrs, s', hread, h⟩
      obtain ⟨q, hq, h⟩ := Outcome.map_eq_ok.1 h
      cases h
      obtain ⟨rfl, rfl⟩ := new_eq_ok.1 hq
      have hlen := length_of_times hread
      rw [← hlen] at hread hbig
      exact ⟨rfl, by omega, hread⟩
    · rintro ⟨rfl, hle, hread⟩
      rw [Nat.mod_eq_of_lt (by omega)]
      exact ⟨p.instrs, s, hread, Outcome.map_eq_ok.2 ⟨p, new_eq_ok.2 ⟨rfl, rfl⟩, rfl⟩⟩

theorem consts_of_decodeWith
    (h : decodeWith consts rest = .ok (p, s)) : p.consts = consts := by
  obtain ⟨n, s', -, h⟩ := bind_eq_ok.1 h
  split_ifs at h
  · cases h
  · obtain ⟨instrs, s', -, h⟩ := bind_eq_ok.1 h
    obtain ⟨q, hq, h⟩ := Outcome.map_eq_ok.1 h
    cases h
    exact (new_eq_ok.1 hq).2

theorem decodes_program : Decodes decode encodeInto Program.Encodable := by
  intro p rest s
  have hcount : p.consts.length % 256 ^ 2 = p.consts.length % 2 ^ 16 := rfl
  rw [encodeInto, append_assoc, decode, (reads_word truncated 2 _).bind_run, hcount,
    append_assoc, append_assoc, bind_eq_ok]
  constructor
  · rintro ⟨consts, s', hread, h⟩
    obtain rfl := consts_of_decodeWith h
    have hlen := length_of_times hread
    rw [← hlen] at hread
    obtain ⟨hconsts, rfl⟩ := (decodes_readValue.times p.consts _ _).1 hread
    obtain ⟨-, hle, hread⟩ := decodeWith_eq_ok.1 h
    obtain ⟨hinstrs, hs⟩ := (decodes_readInstr.times p.instrs _ _).1 hread
    exact ⟨⟨by rw [hlen]; exact Nat.mod_lt _ (Nat.two_pow_pos 16), hconsts, hle, hinstrs⟩, hs⟩
  · rintro ⟨h, rfl⟩
    rw [Nat.mod_eq_of_lt h.consts_lt]
    exact ⟨p.consts, _, (decodes_readValue.times p.consts _ _).2 ⟨h.consts, rfl⟩,
      decodeWith_eq_ok.2 ⟨rfl, h.instrs_le, (decodes_readInstr.times p.instrs _ _).2
        ⟨h.instrs, rfl⟩⟩⟩

/-- A program that was accepted, when it was built or from bytes, executes at most as many
instructions as it has, panics at none, keeps within its bound, ends with one value on the stack,
and is decoded from its encoding exactly when it is encodable. -/
theorem program_safe (b : Builtins) (p : Program) (cols params : List Datum) :
    (∀ k m, Executes b p cols params k m → k ≤ p.instrs.length ∧ m.stack.length ≤ p.maxStack ∧
      (m.pc < p.instrs.length → Checked.Safe (step b p cols params m)) ∧
      (¬m.pc < p.instrs.length → m.stack.length = 1)) ∧
    (∃ r, eval b p cols params p.instrs.length = some r ∧ Checked.Safe r) ∧
    ∀ rest, Program.decode (p.encodeInto ++ rest) = .ok (p, rest) ↔ p.Encodable := by
  obtain ⟨depthAt, hzero, hend, hfits⟩ := validate_fits p.valid
  refine ⟨fun k m h => ?_, ?_, fun rest => ?_⟩
  · obtain ⟨hk, hm⟩ := h.stands hzero hfits
    refine ⟨hk.trans hm.pc_le, hm.bound, fun hpc => (ends_step hfits hm hpc).toSafe, fun hpc => ?_⟩
    have hpc : m.pc = p.instrs.length := le_antisymm hm.pc_le (not_lt.1 hpc)
    exact Option.some.inj (hm.height.symm.trans (hpc ▸ hend))
  · have hstart : Stands p depthAt ⟨0, []⟩ := ⟨Nat.zero_le _, hzero, Nat.zero_le _⟩
    obtain ⟨r, hr, hends⟩ : ∃ r, run b p cols params p.instrs.length ⟨0, []⟩ = some r ∧ _ :=
      run_ends hfits p.instrs.length hstart (Nat.le_add_left ..)
    refine ⟨_, by rw [eval, hr]; rfl, hends.toSafe.bind fun m hm => ?_⟩
    obtain ⟨hpc, hm⟩ := hends.post m hm
    have hone : m.stack.length = 1 := Option.some.inj (hm.height.symm.trans (hpc ▸ hend))
    exact (ends_popTop (by omega)).toSafe.bind fun _ _ => Checked.safe_pure _
  · rw [decodes_program p rest rest, and_iff_left rfl]

theorem program_safe_case :
    let p : Program := ⟨[.pushCol 0, .jumpIfNotTrue 4, .pushConst 0, .jump 5, .pushConst 1],
      [.scalar (.text "yes"), .scalar .null], 1, rfl⟩
    p.Encodable ∧ ∀ b cols params rest, decode (p.encodeInto ++ rest) = .ok (p, rest) ∧
      ∃ r, eval b p cols params 5 = some r ∧ Checked.Safe r := by
  intro p
  have hp : p.Encodable := ⟨by decide, by simp [p, Encodable, Value.varLen]; decide, by decide,
    by simp [p, Instr.Encodable]⟩
  exact ⟨hp, fun b cols params rest =>
    ⟨((program_safe b p cols params).2.2 rest).2 hp, (program_safe b p cols params).2.1⟩⟩

theorem validate_pushConst (h : 0 < consts.length) : validate [.pushConst 0] consts = .ok 1 := by
  have heff : effect consts (.pushConst 0) = .ok (0, 1) := by
    rw [effect, if_neg (by simpa using length_pos_iff.1 h)]
  have hvisit : visit 1 consts ([some 0, none], 0) (.pushConst 0) 0 =
      .ok ([some 0, some 1], 1) := by
    rw [visit_of_not_jumps _ rfl, heff]
    rfl
  have hwalk : visitAll 1 consts 0 ([some 0, none], 0) [.pushConst 0] =
      .ok ([some 0, some 1], 1) := by
    rw [visitAll, hvisit]
    rfl
  change (visitAll 1 consts 0 ([some 0, none], 0) [.pushConst 0] >>= _) = _
  rw [hwalk]
  rfl

/-- A program with `2 ^ 16` constants is accepted; its count is kept as zero, and it is not
decoded. -/
theorem encodeInto_wraps_count :
    ∃ p : Program, p.instrs = [.pushConst 0] ∧ p.consts = List.replicate (2 ^ 16) .null ∧
      Program.new p.instrs p.consts = .ok p ∧ ∀ s, Program.decode
      (p.encodeInto ++ []) ≠ .ok (p, s) := by
  have hvalid : validate [.pushConst 0] (List.replicate (2 ^ 16) .null) = .ok 1 :=
    validate_pushConst (by rw [length_replicate]; decide)
  refine ⟨⟨_, _, 1, hvalid⟩, rfl, rfl, new_eq_ok.2 ⟨rfl, rfl⟩, fun s h => ?_⟩
  have hlt := ((decodes_program _ [] s).1 h).1.consts_lt
  rw [length_replicate] at hlt
  exact absurd hlt (lt_irrefl _)

/-- The way of an expression to the executor, compiled, stored in a plan and loaded from it, keeps
its meaning. -/
theorem stored_expression_means {display : Error → String} {e : Lowering.BExpr}
    (hp : Lowering.Plain e) (h : Lowering.compileProgram display e = .ok p) (henc : p.Encodable)
    (rest : List UInt8) : ∃ q, decode (p.encodeInto ++ rest) = .ok (q, rest) ∧
      ∀ b cols params, Lowering.evalWithStack b q cols params = Lowering.meaning b cols params e :=
  ⟨p, (decodes_program p rest rest).2 ⟨henc, rfl⟩, fun _ _ _ => Lowering.evalWithStack_eq hp h⟩

/-- `-c0 < ?1`. -/
theorem stored_expression_means_lt :
    let p : Program := ⟨[.pushCol 0, .neg, .pushParam 1, .lt], [], 2, rfl⟩
    ∃ q, decode (p.encodeInto ++ []) = .ok (q, []) ∧ ∀ b cols params,
      Lowering.evalWithStack b q cols params =
        Lowering.meaning b cols params (.binary .lt (.unary .neg (.col 0)) (.param 1)) := by
  intro p
  have hc : Lowering.compileProgram (fun _ => "") (.binary .lt (.unary .neg (.col 0)) (.param 1)) =
    .ok p := rfl
  exact stored_expression_means (by exact ⟨trivial, trivial⟩) hc
    ⟨by decide, by simp [p], by decide, by simp [p, Instr.Encodable]⟩ []

end Mpedb.Expr
