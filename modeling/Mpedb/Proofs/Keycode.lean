import Mpedb.Keycode

/-!
# Encoded keys are self-delimiting

The encodings of the values of one rigid type, and those of all values by storage class, form
delimited codes with `0xff` as the reserved symbol. So the columns of a composite key can be told
apart, and two rows with different primary keys never share an entry (`indexRowKey_pk_inj`).
-/

namespace Mpedb

open Code List

theorem utf8_decimal {c : Char} (h : isDecimalChar c = true) :
    ∃ b : UInt8, String.utf8EncodeChar c = [b] ∧ b ≠ 0x00 := by
  have hc : 46 ≤ c.val.toNat ∧ c.val.toNat ≤ 57 := by
    simp only [isDecimalChar, Char.isDigit, Bool.or_eq_true, Bool.and_eq_true, decide_eq_true_eq,
      beq_iff_eq] at h
    rcases h with ⟨h₁, h₂⟩ | rfl
    · have h₁ : '0'.val.toNat ≤ c.val.toNat := h₁
      have h₂ : c.val.toNat ≤ '9'.val.toNat := h₂
      have : '0'.val.toNat = 48 := rfl
      have : '9'.val.toNat = 57 := rfl
      omega
    · decide
  refine ⟨UInt8.ofNat c.val.toNat, ?_, ?_⟩
  · simp only [String.utf8EncodeChar]
    rw [if_pos (by omega)]
  · intro h
    have := congrArg UInt8.toNat h
    rw [UInt8.toNat_ofNat_of_lt' (by show c.val.toNat < 256; omega)] at this
    change c.val.toNat = 0 at this
    omega

theorem not_mem_utf8_decimal : ∀ {s : List Char}, (∀ c ∈ s, isDecimalChar c = true) →
    0x00 ∉ utf8 s
  | [], _ => by simp [utf8]
  | c :: s, h => by
    obtain ⟨b, hb, hne⟩ := utf8_decimal (h c (mem_cons_self ..))
    have ih := not_mem_utf8_decimal fun c' hc' => h c' (mem_cons_of_mem _ hc')
    simp only [utf8, flatMap_cons, hb] at ih ⊢
    simp [Ne.symm hne, ih]

/-- What may follow each class byte of an encoded decimal. -/
def numericRest (t : UInt8) : Set (List UInt8) :=
  if t = 0x01 then {w | ∃ u ∈ {u | u.length = 4}, ∃ v ∈ {w | ∃ u, 0xff ∉ u ∧ w = u ++ [0xff]}, w =
    u ++ v}
  else if t = 0x03 then
    {w | ∃ u ∈ {u | u.length = 4}, ∃ v ∈ {w | ∃ u, 0x00 ∉ u ∧ w = u ++ [0x00]}, w = u ++ v}
  else if t = 0x06 then Set.range (escaped 0x00 0xff)
  else {[]}

theorem delimited_numericRest (t : UInt8) : Delimited 0xff (numericRest t) := by
  unfold numericRest
  split_ifs
  · exact .append_left (fun u hu => hu) (delimited_terminated _)
  · exact .append_left (fun u hu => hu) (delimited_terminated _)
  · exact delimited_escaped _
  · exact delimited_of_length (n := 0) fun u hu => by rw [Set.mem_singleton_iff.1 hu]; rfl

theorem mem_splitPoint {s : List Char} {c : Char} (h : c ∈ (splitPoint s).1 ++ (splitPoint s).2) :
    c ∈ s := by
  rcases mem_append.1 h with h | h
  · exact (takeWhile_sublist _).subset h
  · exact (dropWhile_sublist _).subset ((drop_sublist 1 _).subset h)

theorem encodeDecimal_mem (neg : Bool) {body : List Char}
    (hb : ∀ c ∈ body, isDecimalChar c = true) :
    encodeDecimal neg body ∈ {w | ∃ t, ∃ u ∈ numericRest t, w = t :: u} := by
  unfold encodeDecimal
  simp only []
  set sig := (((splitPoint body).1 ++ (splitPoint body).2).dropWhile (· == '0')).rdropWhile
    (· == '0')
  have hsig : 0x00 ∉ utf8 sig := not_mem_utf8_decimal fun c hc =>
    hb c (mem_splitPoint ((dropWhile_sublist _).subset
      ((List.rdropWhile_prefix _ _).sublist.subset hc)))
  split_ifs
  · exact ⟨0x02, [], rfl, rfl⟩
  · refine ⟨0x01, _, ⟨_, ?_, _, ⟨_, ?_, rfl⟩, rfl⟩, rfl⟩
    · simp
    · intro h
      obtain ⟨b, hb, hneg⟩ := mem_map.1 h
      have : b = 0x00 := by rw [← UInt8.not_not (a := b), hneg]; rfl
      exact hsig (this ▸ hb)
  · refine ⟨0x03, _, ⟨_, ?_, _, ⟨_, hsig, rfl⟩, rfl⟩, rfl⟩
    simp

theorem encodeNumeric_mem (s : List Char) :
    encodeNumeric s ∈ {w | ∃ t, ∃ u ∈ numericRest t, w = t :: u} := by
  unfold encodeNumeric
  simp only []
  generalize (if s.any (fun b => b == 'e' || b == 'E') then (parseNumeric s).getD (trim s)
    else canonicalNumeric s) = c
  split_ifs with h₁ h₂ h₃ hb
  · exact ⟨0x05, [], rfl, rfl⟩
  · exact ⟨0x04, [], rfl, rfl⟩
  · exact ⟨0x00, [], rfl, rfl⟩
  · exact ⟨0x06, _, ⟨_, rfl⟩, rfl⟩
  · refine encodeDecimal_mem _ fun c hc => ?_
    simp only [Bool.or_eq_true, Bool.not_eq_true', not_or, Bool.not_eq_false] at hb
    exact all_eq_true.1 hb.2 c hc

theorem length_encodeI64 (x : Int64) : (encodeI64 x).length = 8 := Bytes.length_be ..

theorem length_encodeF64 (x : F64) : (encodeF64 x).length = 8 := Bytes.length_be ..

theorem delimited_encodeNumeric : Delimited 0xff (Set.range encodeNumeric) :=
  (Delimited.tagged delimited_numericRest).mono fun _ ⟨s, hs⟩ => hs ▸ encodeNumeric_mem s

theorem delimited_encodeBytes : Delimited 0xff (Set.range encodeBytes) := delimited_escaped _

theorem delimited_encodeI64 : Delimited 0xff (Set.range encodeI64) :=
  delimited_of_length fun _ ⟨x, hx⟩ => hx ▸ length_encodeI64 x

theorem delimited_encodeF64 : Delimited 0xff (Set.range encodeF64) :=
  delimited_of_length fun _ ⟨x, hx⟩ => hx ▸ length_encodeF64 x

/-- What may follow the sub-tag of a number. -/
def numberRest (t : UInt8) : Set (List UInt8) := if t = 0x01 then {[]} else Set.range encodeF64

/-- What may follow each class tag. -/
def groupRest (t : UInt8) : Set (List UInt8) :=
  if t = 0x01 then {w | ∃ u ∈ {u | u.length = 8}, ∃ v ∈ {w | ∃ t, ∃ u ∈ numberRest t, w = t :: u},
    w = u ++ v}
  else if t = 0x02 ∨ t = 0x03 then Set.range encodeBytes
  else if t = 0x04 then {w | w.length = 1}
  else if t = 0x08 then Set.range encodeNumeric
  else if t = 0x00 then {[]}
  else Set.range encodeI64

theorem delimited_nil : Delimited 0xff {([] : List UInt8)} :=
  delimited_of_length (n := 0) fun u hu => by rw [Set.mem_singleton_iff.1 hu]; rfl

theorem delimited_groupRest (t : UInt8) : Delimited 0xff (groupRest t) := by
  unfold groupRest
  split_ifs
  · refine .append_left (fun u hu => hu) (.tagged fun t => ?_)
    unfold numberRest
    split_ifs
    · exact delimited_nil
    · exact delimited_encodeF64
  · exact delimited_encodeBytes
  · exact delimited_of_length fun u hu => hu
  · exact delimited_encodeNumeric
  · exact delimited_nil
  · exact delimited_encodeI64

theorem encodeFloatNumber_mem (f : F64) : encodeFloatNumber f ∈ groupRest 0x01 := by
  unfold encodeFloatNumber
  split_ifs
  · exact ⟨_, length_encodeI64 _, _, ⟨0x03, _, ⟨f, rfl⟩, rfl⟩, rfl⟩
  · exact ⟨_, length_encodeI64 _, _, ⟨0x02, _, ⟨f, rfl⟩, rfl⟩, rfl⟩
  · exact ⟨_, length_encodeI64 _, _, ⟨0x00, _, ⟨f, rfl⟩, rfl⟩, rfl⟩
  · exact ⟨_, length_encodeI64 _, _, ⟨0x01, [], rfl, rfl⟩, rfl⟩
  · exact ⟨_, length_encodeI64 _, _, ⟨0x02, _, ⟨f, rfl⟩, rfl⟩, rfl⟩

theorem encodeGroupValue_mem (v : Value) (coll : Collation) :
    ∃ t, t ≠ 0xff ∧ ∃ u ∈ groupRest t, encodeGroupValue v coll = t :: u := by
  cases v with
  | null => exact ⟨0x00, by decide, [], rfl, rfl⟩
  | int i =>
    exact ⟨0x01, by decide, _, ⟨_, length_encodeI64 i, _, ⟨0x01, [], rfl, rfl⟩, rfl⟩, rfl⟩
  | float f => exact ⟨0x01, by decide, _, encodeFloatNumber_mem f, rfl⟩
  | text s => exact ⟨0x02, by decide, _, ⟨_, rfl⟩, rfl⟩
  | blob b => exact ⟨0x03, by decide, _, ⟨_, rfl⟩, rfl⟩
  | bool x => exact ⟨0x04, by decide, [x.toUInt8], rfl, rfl⟩
  | timestamp x => exact ⟨0x05, by decide, _, ⟨x, rfl⟩, rfl⟩
  | date x => exact ⟨0x06, by decide, _, ⟨x, rfl⟩, rfl⟩
  | time x => exact ⟨0x07, by decide, _, ⟨x, rfl⟩, rfl⟩
  | numeric n => exact ⟨0x08, by decide, _, ⟨n.toList, rfl⟩, rfl⟩

/-- What may follow the tag of a value of a rigid type. -/
def typedRest : ColumnType → Set (List UInt8)
  | .int64 | .timestamp | .date | .time => Set.range encodeI64
  | .float64 => Set.range encodeF64
  | .bool => {w | w.length = 1}
  | .text | .blob => Set.range encodeBytes
  | .numeric => Set.range encodeNumeric
  | .any => ∅

theorem delimited_typedRest (ty : ColumnType) : Delimited 0xff (typedRest ty) := by
  cases ty with
  | int64 | timestamp | date | time => exact delimited_encodeI64
  | float64 => exact delimited_encodeF64
  | bool => exact delimited_of_length fun u hu => hu
  | text | blob => exact delimited_encodeBytes
  | numeric => exact delimited_encodeNumeric
  | any => exact fun u hu => hu.elim

theorem encodeValueCollated_mem {v : Value} {ty : ColumnType} (hv : v.columnType = some ty)
    (coll : Collation) : ∃ u ∈ typedRest ty, encodeValueCollated v coll = 0x01 :: u := by
  cases v with
  | null => cases hv
  | int x | timestamp x | date x | time x =>
    cases hv
    exact ⟨_, ⟨x, rfl⟩, rfl⟩
  | float x =>
    cases hv
    exact ⟨_, ⟨x, rfl⟩, rfl⟩
  | bool x =>
    cases hv
    exact ⟨[x.toUInt8], rfl, rfl⟩
  | blob b =>
    cases hv
    exact ⟨_, ⟨b, rfl⟩, rfl⟩
  | numeric n =>
    cases hv
    exact ⟨_, ⟨n.toList, rfl⟩, rfl⟩
  | text s =>
    cases hv
    unfold encodeValueCollated
    split_ifs
    · exact ⟨_, ⟨_, rfl⟩, rfl⟩
    · exact ⟨_, ⟨_, rfl⟩, rfl⟩

theorem Value.isNull_of_columnType {v : Value} (h : v.columnType = none) : v.isNull = true := by
  cases v with
  | null => rfl
  | _ => cases h

theorem encodeValueSpec_opens (v : Value) (spec : KeySpec) :
    ∃ a u, encodeValueSpec v spec = a :: u ∧ a ≠ 0xff := by
  unfold encodeValueSpec
  split_ifs
  · obtain ⟨t, ht, u, -, h⟩ := encodeGroupValue_mem v spec.coll
    exact ⟨t, u, h, ht⟩
  · rcases hv : v.columnType with _ | ty
    · cases v with
      | null => exact ⟨0x00, [], rfl, by decide⟩
      | _ => cases hv
    · obtain ⟨u, -, h⟩ := encodeValueCollated_mem hv spec.coll
      exact ⟨0x01, u, h, by decide⟩

theorem clear_encodeKeySpec (vs : List Value) (specs : List KeySpec) {r : List UInt8}
    (hr : Clear 0xff r) : Clear 0xff (encodeKeySpec vs specs ++ r) := by
  cases vs with
  | nil => exact hr
  | cons v vs =>
    obtain ⟨a, u, h, ha⟩ := encodeValueSpec_opens v (specs.headD {})
    rw [encodeKeySpec, h]
    exact clear_cons ha _

/-- Two values that a key column with this spec tells apart by their bytes: of one type, unless the
column is encoded by storage class. -/
def Alike (spec : KeySpec) (v v' : Value) : Prop :=
  spec.byClass = true ∨ v.columnType = v'.columnType

/-- The tuples are alike, value by value. -/
def AllAlike : List KeySpec → List Value → List Value → Prop
  | _, [], [] => True
  | specs, v :: vs, v' :: vs' => Alike (specs.headD {}) v v' ∧ AllAlike specs.tail vs vs'
  | _, _, _ => False

theorem encodeValueSpec_append_inj {spec : KeySpec} {v v' : Value} (h : Alike spec v v')
    (hv : v.isNull = false) {r r' : List UInt8} (hr : Clear 0xff r) (hr' : Clear 0xff r')
    (heq : encodeValueSpec v spec ++ r = encodeValueSpec v' spec ++ r') : r = r' := by
  unfold encodeValueSpec at heq
  split_ifs at heq with hc
  · obtain ⟨t, -, u, hu, h⟩ := encodeGroupValue_mem v spec.coll
    obtain ⟨t', -, u', hu', h'⟩ := encodeGroupValue_mem v' spec.coll
    rw [h, h'] at heq
    exact (Delimited.tagged delimited_groupRest _ ⟨t, u, hu, rfl⟩ _ ⟨t', u', hu', rfl⟩ r r' hr hr'
      heq).2
  · have hty := h.resolve_left hc
    rcases hv' : v.columnType with _ | ty
    · rw [Value.isNull_of_columnType hv'] at hv
      cases hv
    · obtain ⟨u, hu, h⟩ := encodeValueCollated_mem hv' spec.coll
      obtain ⟨u', hu', h'⟩ := encodeValueCollated_mem (hty ▸ hv') spec.coll
      rw [h, h', cons_append, cons_append] at heq
      exact (delimited_typedRest ty u hu u' hu' r r' hr hr' (List.cons.inj heq).2).2

theorem encodeKeySpec_append_inj : ∀ {vs vs' : List Value} {specs : List KeySpec}
    {r r' : List UInt8}, AllAlike specs vs vs' → vs.any Value.isNull = false → Clear 0xff r →
    Clear 0xff r' → encodeKeySpec vs specs ++ r = encodeKeySpec vs' specs ++ r' → r = r'
  | [], [], _, _, _, _, _, _, _, heq => heq
  | [], _ :: _, _, _, _, h, _, _, _, _ => h.elim
  | _ :: _, [], _, _, _, h, _, _, _, _ => h.elim
  | v :: vs, v' :: vs', specs, r, r', h, hn, hr, hr', heq => by
    rw [any_cons, Bool.or_eq_false_iff] at hn
    rw [encodeKeySpec, encodeKeySpec, append_assoc, append_assoc] at heq
    have hrest := encodeValueSpec_append_inj h.1 hn.1 (clear_encodeKeySpec vs _ hr)
      (clear_encodeKeySpec vs' _ hr') heq
    exact encodeKeySpec_append_inj h.2 hn.2 hr hr' hrest

theorem indexRowKey_eq_some {unique : Bool} {parts : List Value} {pk k : List UInt8}
    {specs : List KeySpec} : indexRowKey unique parts pk specs = some k ↔
      parts.any Value.isNull = false ∧ encodeKeySpec parts specs ++ (if unique then [] else pk) =
        k := by
  unfold indexRowKey
  by_cases hn : parts.any Value.isNull = true
  · simp [hn]
  · rw [if_neg hn, Option.some.injEq]
    simp [hn]

theorem indexRowKey_pk_inj {parts parts' : List Value} {pk pk' k : List UInt8}
    {specs : List KeySpec} (h : AllAlike specs parts parts') (hpk : Clear 0xff pk)
    (hpk' : Clear 0xff pk') (hk : indexRowKey false parts pk specs = some k)
    (hk' : indexRowKey false parts' pk' specs = some k) : pk = pk' := by
  obtain ⟨hn, rfl⟩ := indexRowKey_eq_some.1 hk
  obtain ⟨-, heq⟩ := indexRowKey_eq_some.1 hk'
  exact encodeKeySpec_append_inj h hn hpk hpk' heq.symm

end Mpedb
