import Mpedb.Proofs.Compare
import Mpedb.Proofs.NumberOrder
import Mpedb.Proofs.NumericReading

/-!
# Encoded keys sort as the tuples they encode

For each value the word in a key sorts as `columnCmp` says, whatever follows it, and equal values
have equal words. So composite keys are compared column by column (`compare_encodeKeySpec`).
-/

namespace Mpedb

open Code List UInt8 KeyColumn Collation

variable {u v : List UInt8}

theorem nocaseFold_ofNat {n : ℕ} (hn : n < 256) :
    nocaseFold (UInt8.ofNat n) = UInt8.ofNat (if 65 ≤ n ∧ n ≤ 90 then n + 32 else n) := by
  have hbyte : (UInt8.ofNat n).toNat = n := toNat_ofNat_of_lt' hn
  have hiff : (0x41 ≤ UInt8.ofNat n && UInt8.ofNat n ≤ 0x5a) = true ↔ 65 ≤ n ∧ n ≤ 90 := by
    simp only [Bool.and_eq_true, decide_eq_true_eq, le_iff_toNat_le, hbyte]
    rfl
  rw [nocaseFold]
  simp only [hiff]
  split_ifs
  · rw [ofNat_add]
    rfl
  · rfl

theorem map_nocaseFold_utf8EncodeChar (c : Char) :
    (String.utf8EncodeChar c).map nocaseFold = String.utf8EncodeChar c.toLower := by
  have hkeep {n : ℕ} (hn : n < 256) (h : ¬(65 ≤ n ∧ n ≤ 90)) :
      nocaseFold (UInt8.ofNat n) = UInt8.ofNat n := by rw [nocaseFold_ofNat hn, if_neg h]
  by_cases hup : c.val ≥ 'A'.val ∧ c.val ≤ 'Z'.val
  · have h : 65 ≤ c.val.toNat ∧ c.val.toNat ≤ 90 := hup
    have hlow : c.toLower.val.toNat = c.val.toNat + 32 := by
      delta Char.toLower
      rw [dif_pos hup]
      change (c.val.toNat + 32) % 2 ^ 32 = _
      omega
    simp only [String.utf8EncodeChar]
    rw [if_pos (by omega), hlow, if_pos (by omega), map_singleton,
      nocaseFold_ofNat (by omega), if_pos h]
  · delta Char.toLower
    have hup : ¬ (65 ≤ c.val.toNat ∧ c.val.toNat ≤ 90) := hup
    simp only [String.utf8EncodeChar]
    split_ifs <;> simp (disch := omega) only [map_cons, map_nil, hkeep]

theorem Collation.key_eq (coll : Collation) (s : String) :
    coll.key s = utf8 (coll.foldKey s.toList) := by
  cases coll with
  | binary => rfl
  | rtrim => rfl
  | noCase =>
    simp only [key, foldKey, utf8, map_flatMap, flatMap_map,
      map_nocaseFold_utf8EncodeChar]

/-- The bytes of a value of a rigid type behind its tag. -/
def payload (coll : Collation) : Value → List UInt8
  | .null => []
  | .int x | .timestamp x | .date x | .time x => encodeI64 x
  | .float x => encodeF64 x
  | .numeric n => encodeNumeric n.toList
  | .bool x => [x.toUInt8]
  | .text s => encodeBytes (utf8 (coll.foldKey s.toList))
  | .blob b => encodeBytes b

theorem encodeValueCollated_eq {v : Value} (hv : v ≠ .null) (coll : Collation) :
    encodeValueCollated v coll = 0x01 :: payload coll v := by
  cases v with
  | null => exact absurd rfl hv
  | text s =>
    simp only [encodeValueCollated]
    split_ifs with hc
    · rfl
    · rw [not_not.1 hc]
      rfl
  | _ => rfl

theorem encodeBytes_inj : encodeBytes u = encodeBytes v ↔ u = v := by
  refine ⟨fun h => ?_, fun h => h ▸ rfl⟩
  exact (escaped_append_inj clear_nil clear_nil (congrArg (· ++ []) h)).1

section Payloads

variable {coll : Collation} {a b : Value}

/-- Decimals are what the parser stores. -/
def Value.Sound (v : Value) : Prop := ∀ n, v = .numeric n → NumericText n.toList

theorem payload_of_spelling {u : List UInt8} (h : a.spelling coll = some u) :
    payload coll a = encodeBytes u := by
  cases a <;> cases h <;> rfl

/-- Values in order have payloads in order, or differ in spelling alone. -/
theorem payload_lt (ha : a.Sound) (hb : b.Sound) (hty : a.columnType = b.columnType)
    (h : columnCmp coll a b = .lt) : Ahead (payload coll a) (payload coll b) ∨
      ∃ u v, a.spelling coll = some u ∧ b.spelling coll = some v ∧ u < v := by
  have hint {x y : Int64} (h : compare x y = .lt) : Ahead (encodeI64 x) (encodeI64 y) :=
    ahead_encodeI64 (Int64.lt_iff_toInt_lt.1 (Std.compare_eq_lt.1 h))
  cases a <;> cases b <;> simp only [Value.columnType, Option.some.injEq, reduceCtorEq] at hty
  case null.null => cases h
  case int.int | timestamp.timestamp | date.date | time.time => exact .inl (hint h)
  case float.float => exact .inl (ahead_encodeF64 (compare_lt_iff_lt.1 h))
  case bool.bool x y =>
    cases x <;> cases y
    · cases h
    · exact .inl (ahead_of_head_lt (by decide) _ _)
    · cases h
    · cases h
  case text.text s t =>
    rw [columnCmp, compareStr_eq, key_eq, key_eq, compare_bytes_lt] at h
    exact .inr ⟨_, _, rfl, rfl, h⟩
  case blob.blob u v => exact .inr ⟨_, _, rfl, rfl, compare_bytes_lt.1 h⟩
  case numeric.numeric m n =>
    exact .inl ((numericForm (ha m rfl)).ahead (numericForm (hb n rfl)) (compare_lt_iff_lt.1 h))

theorem payload_eq (ha : a.Sound) (hb : b.Sound) (hty : a.columnType = b.columnType)
    (h : columnCmp coll a b = .eq) : payload coll a = payload coll b := by
  cases a <;> cases b <;> simp only [Value.columnType, Option.some.injEq, reduceCtorEq] at hty
  case null.null => rfl
  case float.float => exact encodeF64_of_eq (compare_eq_iff_eq.1 h)
  case bool.bool x y => cases x <;> cases y <;> first | rfl | cases h
  case text.text s t =>
    rw [columnCmp, compareStr_eq, key_eq, key_eq,
      Std.compare_eq_iff_eq] at h
    simp only [payload, h]
  case numeric.numeric m n =>
    exact (numericForm (ha m rfl)).unique (numericForm (hb n rfl)) (compare_eq_iff_eq.1 h)
  all_goals
    have h : compare _ _ = Ordering.eq := h
    rw [Std.compare_eq_iff_eq] at h
    rw [h]

theorem columnCmp_of_class_ne (h : a.storageClass ≠ b.storageClass) :
    columnCmp coll a b = compare a.storageClass b.storageClass := by
  cases a <;> cases b <;> first | rfl | exact absurd rfl h

theorem columnCmp_swap : columnCmp coll b a = (columnCmp coll a b).swap := by
  cases a <;> cases b <;> simp only [columnCmp, compareStr_eq] <;>
    exact Std.OrientedOrd.eq_swap

/-- The bytes of a float in its order. -/
def Value.image : Value → List UInt8
  | .float f => encodeF64 f
  | _ => []

theorem numberPlace_int (i : Int64) : numberPlace (.finite i.toInt) = 1 := by
  have hmin := Int64.le_toInt i
  have hmax := Int64.toInt_lt i
  have hfloor : numberFloor (.finite i.toInt) = i.toInt := by
    rw [numberFloor_finite, Int.floor_intCast]
    omega
  rw [numberPlace_finite, hfloor, if_neg (lt_irrefl _), if_pos rfl]

theorem number_cases (h : a.storageClass = 1) : (∃ i, a = .int i) ∨ ∃ f, a = .float f := by
  cases a <;> cases h
  case int i => exact .inl ⟨i, rfl⟩
  case float f => exact .inr ⟨f, rfl⟩

theorem encodeGroupValue_number (h : a.storageClass = 1) :
    encodeGroupValue a coll = 0x01 :: numberWord a.number a.image := by
  obtain ⟨i, rfl⟩ | ⟨f, rfl⟩ := number_cases h
  · rw [encodeGroupValue, encodeInt_eq i []]
    rfl
  · rw [encodeGroupValue, encodeFloatNumber_eq f]
    rfl

theorem encodeGroupValue_other (h : a.storageClass ≠ 1) :
    encodeGroupValue a coll = UInt8.ofNat a.storageClass :: payload coll a := by
  cases a <;> first | rfl | exact absurd rfl h

theorem columnType_of_class (ha : a.storageClass ≠ 1) (h : a.storageClass = b.storageClass) :
    a.columnType = b.columnType := by
  cases a <;> cases b <;> first | rfl | exact absurd rfl ha | cases h

theorem proper_number (h : a.storageClass = 1) : Proper a.number := by
  obtain ⟨i, rfl⟩ | ⟨f, rfl⟩ := number_cases h
  · exact .finite _
  · exact f.proper

section

variable (ha : a.storageClass = 1)

include ha

theorem number_of_cmp_lt (hb : b.storageClass = 1)
    (h : columnCmp coll a b = .lt) : a.number < b.number := by
  obtain ⟨i, rfl⟩ | ⟨f, rfl⟩ := number_cases ha <;> obtain ⟨j, rfl⟩ | ⟨g, rfl⟩ := number_cases hb
  · have hlt := Int64.lt_iff_toInt_lt.1 (Std.compare_eq_lt.1 (show compare i j = .lt from h))
    exact finite_lt_iff.2 (Int.cast_lt.2 hlt)
  all_goals exact compare_lt_iff_lt.1 h

theorem number_of_cmp_eq (hb : b.storageClass = 1)
    (h : columnCmp coll a b = .eq) : a.number = b.number := by
  obtain ⟨i, rfl⟩ | ⟨f, rfl⟩ := number_cases ha <;> obtain ⟨j, rfl⟩ | ⟨g, rfl⟩ := number_cases hb
  · rw [Std.compare_eq_iff_eq.1 (show compare i j = .eq from h)]
  all_goals exact compare_eq_iff_eq.1 h

theorem float_of_place (hp : numberPlace a.number ≠ 1) :
    ∃ f, a = .float f := by
  obtain ⟨i, rfl⟩ | hf := number_cases ha
  · exact absurd (numberPlace_int i) hp
  · exact hf

theorem image_ahead (hb : b.storageClass = 1) (h : a.number < b.number)
    (hpa : numberPlace a.number ≠ 1) (hpb : numberPlace b.number ≠ 1) :
    Ahead a.image b.image := by
  obtain ⟨f, rfl⟩ := float_of_place ha hpa
  obtain ⟨g, rfl⟩ := float_of_place hb hpb
  exact ahead_encodeF64 h

end

theorem encodeGroupValue_tag (v : Value) (coll : Collation) :
    ∃ u, encodeGroupValue v coll = UInt8.ofNat v.storageClass :: u := by
  cases v <;> exact ⟨_, rfl⟩

/-- The same for the keys of groups, across storage classes. -/
theorem encodeGroupValue_lt (ha : a.Sound) (hb : b.Sound) (h : columnCmp coll a b = .lt) :
    Ahead (encodeGroupValue a coll) (encodeGroupValue b coll) ∨ a.storageClass = b.storageClass ∧
      ∃ u v, a.spelling coll = some u ∧ b.spelling coll = some v ∧ u < v := by
  by_cases hclass : a.storageClass = b.storageClass
  · by_cases hnum : a.storageClass = 1
    · have hnum' := hclass ▸ hnum
      have hlt := number_of_cmp_lt hnum hnum' h
      rw [encodeGroupValue_number hnum, encodeGroupValue_number hnum']
      exact .inl ((ahead_numberWord (proper_number hnum) (proper_number hnum')
        (image_ahead hnum hnum' hlt) hlt).cons _)
    · rcases payload_lt ha hb (columnType_of_class hnum hclass) h with hahead | hspell
      · rw [encodeGroupValue_other hnum, encodeGroupValue_other (hclass ▸ hnum), hclass]
        exact .inl (hahead.cons _)
      · exact .inr ⟨hclass, hspell⟩
  · rw [columnCmp_of_class_ne hclass, compare_lt_iff_lt] at h
    obtain ⟨u, hu⟩ := encodeGroupValue_tag a coll
    obtain ⟨v, hv⟩ := encodeGroupValue_tag b coll
    have hbound (v : Value) : v.storageClass < 256 := by cases v <;> simp [Value.storageClass]
    rw [hu, hv]
    refine .inl (ahead_of_head_lt (lt_iff_toNat_lt.2 ?_) _ _)
    rwa [toNat_ofNat_of_lt' (hbound a), toNat_ofNat_of_lt' (hbound b)]

theorem encodeGroupValue_of_eq (ha : a.Sound) (hb : b.Sound) (h : columnCmp coll a b = .eq) :
    encodeGroupValue a coll = encodeGroupValue b coll := by
  have hclass : a.storageClass = b.storageClass := by
    by_contra hne
    rw [columnCmp_of_class_ne hne, compare_eq_iff_eq] at h
    exact hne h
  by_cases hnum : a.storageClass = 1
  · have hnum' := hclass ▸ hnum
    have heq := number_of_cmp_eq hnum hnum' h
    rw [encodeGroupValue_number hnum, encodeGroupValue_number hnum', numberWord, numberWord,
      numberTail, numberTail, heq]
    by_cases hp : numberPlace b.number = 1
    · rw [if_pos hp, if_pos hp]
    · obtain ⟨f, rfl⟩ := float_of_place hnum (heq ▸ hp)
      obtain ⟨g, rfl⟩ := float_of_place hnum' hp
      rw [Value.image, Value.image, encodeF64_of_eq heq]
  · rw [encodeGroupValue_other hnum, encodeGroupValue_other (hclass ▸ hnum), hclass,
      payload_eq ha hb (columnType_of_class hnum hclass) h]

end Payloads

section Columns

variable {c : KeyColumn} {a b : Value}

theorem columnType_of_fits (hty : c.ty ≠ .any) (ha : c.Admits a) (hne : a ≠ .null) :
    a.columnType = some c.ty := by
  have hfits := ha.1
  rw [Value.fits, if_neg hty] at hfits
  cases a <;> first | exact absurd rfl hne | simpa [Value.columnType] using hfits

theorem encodeValueSpec_eq (c : KeyColumn) (v : Value) : encodeValueSpec v c.spec =
    if c.ty = .any then encodeGroupValue v c.coll else encodeValueCollated v c.coll := by
  simp [encodeValueSpec, spec, KeySpec.forColumn]

/-- The byte in front of a value of the column. -/
def KeyColumn.tag (c : KeyColumn) (v : Value) : UInt8 :=
  if c.ty = .any then UInt8.ofNat v.storageClass else 0x01

theorem encodeValueSpec_of_spelling {u : List UInt8} (h : a.spelling c.coll = some u) :
    encodeValueSpec a c.spec = c.tag a :: encodeBytes u := by
  have hclass : a.storageClass ≠ 1 := by
    cases a <;> cases h <;> simp [Value.storageClass]
  have hne : a ≠ .null := by
    rintro rfl
    cases h
  rw [encodeValueSpec_eq, tag, ← payload_of_spelling h]
  split_ifs
  · exact encodeGroupValue_other hclass
  · exact encodeValueCollated_eq hne c.coll

theorem encodeValueSpec_lt (ha : c.Admits a) (hb : c.Admits b) (h : columnCmp c.coll a b = .lt) :
    Ahead (encodeValueSpec a c.spec) (encodeValueSpec b c.spec) ∨ a.storageClass = b.storageClass ∧
      ∃ u v, a.spelling c.coll = some u ∧ b.spelling c.coll = some v ∧ u < v := by
  rw [encodeValueSpec_eq, encodeValueSpec_eq]
  split_ifs with hty
  · exact encodeGroupValue_lt ha.2 hb.2 h
  · by_cases hbn : b = .null
    · subst hbn
      cases a <;> cases h
    · rw [encodeValueCollated_eq hbn]
      by_cases han : a = .null
      · subst han
        exact .inl (ahead_of_head_lt (by decide) _ _)
      · have hcol := (columnType_of_fits hty ha han).trans (columnType_of_fits hty hb hbn).symm
        rw [encodeValueCollated_eq han]
        rcases payload_lt ha.2 hb.2 hcol h with hahead | hspell
        · exact .inl (hahead.cons _)
        · refine .inr ⟨?_, hspell⟩
          cases a <;> cases b <;> first | rfl | cases hcol

theorem before_encodeValueSpec (ha : c.Admits a) (hb : c.Admits b)
    (h : columnCmp c.coll a b = .lt) :
    Before 0xff (encodeValueSpec a c.spec) (encodeValueSpec b c.spec) := by
  rcases encodeValueSpec_lt ha hb h with hahead | ⟨hclass, u, v, hu, hv, hlt⟩
  · exact hahead.before
  · rw [encodeValueSpec_of_spelling hu, encodeValueSpec_of_spelling hv, tag, tag, hclass]
    exact (before_encodeBytes hlt).cons _

theorem encodeValueSpec_of_eq (ha : c.Admits a) (hb : c.Admits b)
    (h : columnCmp c.coll a b = .eq) : encodeValueSpec a c.spec = encodeValueSpec b c.spec := by
  rw [encodeValueSpec_eq, encodeValueSpec_eq]
  split_ifs with hty
  · exact encodeGroupValue_of_eq ha.2 hb.2 h
  · by_cases han : a = .null
    · subst han
      cases b <;> first | rfl | cases h
    · by_cases hbn : b = .null
      · subst hbn
        cases a <;> first | exact absurd rfl han | cases h
      · rw [encodeValueCollated_eq han, encodeValueCollated_eq hbn, payload_eq ha.2 hb.2
          ((columnType_of_fits hty ha han).trans (columnType_of_fits hty hb hbn).symm) h]

theorem compare_append_left (u r r' : List UInt8) : compare (u ++ r) (u ++ r') = compare r r' := by
  induction u with
  | nil => rfl
  | cons a u ih => rw [List.cons_append, List.cons_append, List.compare_cons_cons, Std.compare_self,
      Ordering.eq_then, ih]

theorem compare_encodeValueSpec (ha : c.Admits a) (hb : c.Admits b) {r r' : List UInt8}
    (hr : Clear 0xff r) (hr' : Clear 0xff r') :
    compare (encodeValueSpec a c.spec ++ r) (encodeValueSpec b c.spec ++ r') =
      (columnCmp c.coll a b).then (compare r r') := by
  cases h : columnCmp c.coll a b with
  | lt => exact compare_bytes_lt.2 (before_encodeValueSpec ha hb h r r' hr hr')
  | eq =>
    rw [encodeValueSpec_of_eq ha hb h, compare_append_left]
    rfl
  | gt =>
    have h' : columnCmp c.coll b a = .lt := by rw [columnCmp_swap, h]; rfl
    have hlt := compare_bytes_lt.2 (before_encodeValueSpec hb ha h' r' r hr' hr)
    rw [Std.OrientedOrd.eq_swap, hlt]
    rfl

end Columns

/-- Every value may stand in its column. -/
def Admissible (cols : List KeyColumn) (vs : List Value) : Prop :=
  List.Forall₂ KeyColumn.Admits cols vs

theorem compare_encodeKeySpec_append {cols : List KeyColumn} {as bs : List Value}
    (ha : Admissible cols as) (hb : Admissible cols bs) {r r' : List UInt8} (hr : Clear 0xff r)
    (hr' : Clear 0xff r') :
    compare (encodeKeySpec as (cols.map spec) ++ r)
      (encodeKeySpec bs (cols.map spec) ++ r') =
        (tupleCmp cols as bs).then (compare r r') := by
  induction ha generalizing bs with
  | nil =>
    cases hb
    rfl
  | cons hca hrest ih =>
    cases hb with
    | cons hcb hrest' =>
      rw [map_cons, encodeKeySpec, encodeKeySpec, append_assoc, append_assoc,
        headD_cons, tail_cons, compare_encodeValueSpec hca hcb
          (clear_encodeKeySpec _ _ hr) (clear_encodeKeySpec _ _ hr'), ih hrest', tupleCmp,
        Ordering.then_assoc]

/-- One key starts another one that is longer. -/
def ProperPrefix (u v : List UInt8) : Prop := u <+: v ∧ u ≠ v

section Prefixes

variable {c : KeyColumn} {a b : Value}

theorem goesOn_iff {coll : Collation} : goesOn coll a b = true ↔ a.storageClass = b.storageClass ∧
    ∃ u v, a.spelling coll = some u ∧ b.spelling coll = some v ∧ u ++ [0x00] <+: v := by
  unfold goesOn
  rcases ha : a.spelling coll with _ | u <;> rcases hb : b.spelling coll with _ | v <;> simp

theorem encodeValueSpec_prefix_iff (ha : c.Admits a) (hb : c.Admits b) :
    ProperPrefix (encodeValueSpec a c.spec) (encodeValueSpec b c.spec) ↔
    goesOn c.coll a b = true := by
  have hspelled {u v : List UInt8} (hclass : a.storageClass = b.storageClass)
      (hu : a.spelling c.coll = some u) (hv : b.spelling c.coll = some v) :
      ProperPrefix (encodeValueSpec a c.spec) (encodeValueSpec b c.spec) ↔ u ++ [0x00] <+: v := by
    have hne : u ++ [0x00] <+: v → u ≠ v := by
      rintro h rfl
      simpa using h.length_le
    rw [ProperPrefix, encodeValueSpec_of_spelling hu, encodeValueSpec_of_spelling hv, tag,
      cons_prefix_cons, ne_eq, List.cons.injEq, encodeBytes_inj, encodeBytes, encodeBytes,
      escaped_isPrefix_iff]
    tauto
  rw [goesOn_iff]
  refine ⟨fun h => ?_, fun ⟨hclass, u, v, hu, hv, h⟩ => (hspelled hclass hu hv).2 h⟩
  cases hcmp : columnCmp c.coll a b with
  | eq => exact absurd (encodeValueSpec_of_eq ha hb hcmp) h.2
  | lt =>
    rcases encodeValueSpec_lt ha hb hcmp with hahead | ⟨hclass, u, v, hu, hv, -⟩
    · exact absurd h.1 hahead.not_prefix.1
    · exact ⟨hclass, u, v, hu, hv, (hspelled hclass hu hv).1 h⟩
  | gt =>
    have hcmp : columnCmp c.coll b a = .lt := by rw [columnCmp_swap, hcmp]; rfl
    rcases encodeValueSpec_lt hb ha hcmp with hahead | ⟨hclass, v, u, hv, hu, -⟩
    · exact absurd h.1 hahead.not_prefix.2
    · exact ⟨hclass.symm, u, v, hu, hv, (hspelled hclass.symm hu hv).1 h⟩

end Prefixes

theorem properPrefix_append_left {w : List UInt8} :
    ProperPrefix (w ++ u) (w ++ v) ↔ ProperPrefix u v := by
  rw [ProperPrefix, ProperPrefix, prefix_append_right_inj, ne_eq, append_cancel_left_eq]

/-- Only the last column can run out before the other key does. -/
theorem encodeKeySpec_prefix_iff {cols : List KeyColumn} {as bs : List Value}
    (ha : Admissible cols as) (hb : Admissible cols bs) :
    ProperPrefix (encodeKeySpec as (cols.map spec)) (encodeKeySpec bs (cols.map spec)) ↔
      zeroExtends cols as bs = true := by
  induction ha generalizing bs with
  | nil =>
    cases hb
    simp [ProperPrefix, zeroExtends]
  | @cons c a cols as hca hrest ih =>
    cases hb with
    | @cons _ b _ bs hcb hrest' =>
      rw [map_cons, encodeKeySpec, encodeKeySpec, headD_cons, tail_cons]
      cases hrest with
      | nil =>
        cases hrest'
        simpa only [encodeKeySpec, append_nil, zeroExtends] using encodeValueSpec_prefix_iff hca hcb
      | @cons c' a' cols as hca' hrest =>
        cases hrest' with
        | @cons _ b' _ bs hcb' hrest' =>
          rw [zeroExtends, Bool.and_eq_true, beq_iff_eq, ← ih (.cons hcb' hrest')]
          · by_cases hcmp : columnCmp c.coll a b = .eq
            · rw [encodeValueSpec_of_eq hca hcb hcmp, properPrefix_append_left]
              simp [hcmp]
            · refine iff_of_false (fun h => hcmp ?_) fun h => hcmp h.1
              obtain ⟨⟨t, ht⟩, -⟩ := h
              -- what follows the first column starts with a tag in both keys
              have hclear : Clear 0xff (encodeKeySpec (a' :: as) ((c' :: cols).map spec) ++ t) := by
                obtain ⟨x, u, hx, hne⟩ := encodeValueSpec_opens a' c'.spec
                rw [map_cons, encodeKeySpec, headD_cons, hx]
                exact clear_cons hne _
              have hclear' := clear_encodeKeySpec (b' :: bs) ((c' :: cols).map spec) clear_nil
              rw [append_nil] at hclear'
              have heq := compare_encodeValueSpec hca hcb hclear hclear'
              rw [← append_assoc, ht, Std.compare_self] at heq
              exact (Ordering.then_eq_eq.1 heq.symm).1
          · simp

theorem encodeKeySpec_embeds {cols : List KeyColumn} {as bs : List Value}
    (ha : Admissible cols as) (hb : Admissible cols bs) :
    (compare (encodeKeySpec as (cols.map KeyColumn.spec))
      (encodeKeySpec bs (cols.map KeyColumn.spec)) =
        tupleCmp cols as bs ∧
      ¬ ProperPrefix (encodeKeySpec as (cols.map KeyColumn.spec))
      (encodeKeySpec bs (cols.map KeyColumn.spec)) ∧
      ¬ ProperPrefix (encodeKeySpec bs (cols.map KeyColumn.spec))
      (encodeKeySpec as (cols.map KeyColumn.spec))) ↔
    zeroExtends cols as bs = false ∧ zeroExtends cols bs as = false := by
  have hcmp := compare_encodeKeySpec_append ha hb clear_nil clear_nil
  rw [append_nil, append_nil] at hcmp
  rw [encodeKeySpec_prefix_iff ha hb, encodeKeySpec_prefix_iff hb ha]
  simp [hcmp]

/-- A NOCASE text, a typeless column and a decimal. -/
theorem encodeKeySpec_embeds_mixed :
    compare
        (encodeKeySpec [.text "Abc", .int 1, .numeric "-12.50"]
          ([⟨.text, .noCase⟩, ⟨.any, .binary⟩, ⟨.numeric, .binary⟩].map KeyColumn.spec))
        (encodeKeySpec [.text "aBC", .int 1, .numeric "3"]
          ([⟨.text, .noCase⟩, ⟨.any, .binary⟩, ⟨.numeric, .binary⟩].map KeyColumn.spec)) =
      tupleCmp [⟨.text, .noCase⟩, ⟨.any, .binary⟩, ⟨.numeric, .binary⟩]
        [.text "Abc", .int 1, .numeric "-12.50"] [.text "aBC", .int 1, .numeric "3"] := by
  have hplain (n : String) (h : NumericText n.toList) : KeyColumn.Admits
      ⟨.numeric, .binary⟩ (.numeric n) :=
    ⟨rfl, fun m hm => by cases hm; exact h⟩
  have hneg : NumericText "-12.50".toList :=
    .inr (.inr (.inr ⟨true, "12".toList, "50".toList, by decide, all_eq_true.1 (by decide),
      by decide, by decide, by decide⟩))
  have hpos : NumericText "3".toList :=
    .inr (.inr (.inr ⟨false, "3".toList, [], by decide, all_eq_true.1 (by decide),
      by decide, by decide, by decide⟩))
  exact ((encodeKeySpec_embeds
    (.cons ⟨rfl, by rintro _ ⟨⟩⟩ (.cons ⟨rfl, by rintro _ ⟨⟩⟩ (.cons (hplain _ hneg) .nil)))
    (.cons ⟨rfl, by rintro _ ⟨⟩⟩ (.cons ⟨rfl, by rintro _ ⟨⟩⟩ (.cons (hplain _ hpos) .nil)))).2
    ⟨by decide, by decide⟩).1

/-- The key of the empty text starts the key of the text that is one zero character. -/
theorem encodeKeySpec_zero_prefix :
    Admissible [⟨.text, .binary⟩] [.text ""] ∧ Admissible [⟨.text, .binary⟩] [.text "\x00"] ∧
      columnCmp .binary (.text "") (.text "\x00") = .lt ∧
      ProperPrefix (encodeKeySpec [.text ""] [KeyColumn.spec ⟨.text, .binary⟩])
        (encodeKeySpec [.text "\x00"] [KeyColumn.spec ⟨.text, .binary⟩]) :=
  ⟨.cons ⟨rfl, by rintro _ ⟨⟩⟩ .nil, .cons ⟨rfl, by rintro _ ⟨⟩⟩ .nil, by decide, by
    decide, by decide⟩

end Mpedb
