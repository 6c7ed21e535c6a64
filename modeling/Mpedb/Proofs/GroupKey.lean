import Mpedb.Proofs.KeyOrder
import Mpedb.Proofs.ValueOrder

/-!
# Exact keys and grouping keys

An exact key starts each value with its type, but merges what the ordered payload merges: the two
zeros of a float, and the texts of one decimal. A grouping key agrees with `sort_cmp` but for two
decimals whose texts lie to each other differently as the key reads them and as they are spelled.
Plain decimals are ordered by their value either way.
-/

namespace Mpedb

open Code List

namespace Value

/-- The same value of the same type in the same printed form: all NaNs are printed alike. -/
def Same : Value → Value → Prop
  | .float x, .float y => x = y ∨ x.isNan = true ∧ y.isNan = true
  | v, w => v = w

/-- The two zeros of a float, or two texts that read as one decimal. -/
def Merges : Value → Value → Prop
  | .float x, .float y => x.isZero = true ∧ y.isZero = true ∧ x ≠ y
  | .numeric m, .numeric n => numericReading m.toList = numericReading n.toList ∧ m ≠ n
  | _, _ => False

end Value

theorem F64.value_eq_cases {f g : F64} : f.value = g.value ↔
    (f = g ∨ f.isNan = true ∧ g.isNan = true) ∨ f.isZero = true ∧ g.isZero = true ∧ f ≠ g := by
  have hext : f = g ↔ f.bits.toNat = g.bits.toNat := by
    rw [UInt64.toNat_inj]
    exact ⟨fun h => h ▸ rfl, fun h => by cases f; cases g; exact congrArg F64.mk h⟩
  have hnan : infinityMagnitude < nanMagnitude := by decide
  have := f.bits.toNat_lt
  have := g.bits.toNat_lt
  simp only [ne_eq, hext, value_eq_iff, signed, isNan_iff, isZero_iff, negative_iff, magnitude]
  split_ifs <;> omega

theorem utf8_toList_inj {s t : String} (h : utf8 s.toList = utf8 t.toList) : s = t := by
  have hutf (s : String) : utf8 s.toList = s.toByteArray.data.toList := by
    rw [utf8, ← String.utf8Encode_toList, List.utf8Encode]
    simp
  rw [hutf, hutf] at h
  exact String.toByteArray_inj.1 (ByteArray.ext (Array.ext' h))

section Exact

variable {v w : Value} {r r' : List UInt8}

theorem encodeValueSpec_default (v : Value) : encodeValueSpec v {} = encodeValue v := by
  cases v <;> rfl

theorem encodeValue_append_inj (hty : v.columnType = w.columnType) (hr : Clear 0xff r)
    (hr' : Clear 0xff r') (h : encodeValue v ++ r = encodeValue w ++ r') :
    encodeValue v = encodeValue w ∧ r = r' := by
  have hrest : r = r' := by
    rcases hv : v.isNull
    · rw [← encodeValueSpec_default, ← encodeValueSpec_default] at h
      exact encodeValueSpec_append_inj (.inr hty) hv hr hr' h
    · cases v <;> cases hv
      cases w <;> cases hty
      exact (List.cons.inj h).2
  subst hrest
  exact ⟨append_cancel_right h, rfl⟩

theorem encodeI64_inj {x y : Int64} : encodeI64 x = encodeI64 y ↔ x = y :=
  ⟨fun h => Int64.toInt_inj.1 (eq_of_ahead encodeI64 Int64.toInt (fun _ _ => ahead_encodeI64) h),
    fun h => h ▸ rfl⟩

theorem encodeF64_inj {x y : F64} : encodeF64 x = encodeF64 y ↔ x.value = y.value :=
  ⟨eq_of_ahead encodeF64 F64.value fun _ _ => ahead_encodeF64, encodeF64_of_eq⟩

theorem encodeValue_eq_iff : v.columnType = w.columnType ∧ encodeValue v = encodeValue w ↔
    v.Same w ∨ v.Merges w := by
  cases v <;> cases w <;> simp [Value.columnType, encodeValue, Value.Same, Value.Merges,
    encodeI64_inj, encodeF64_inj, encodeBytes_inj, encodeNumeric_eq_iff, F64.value_eq_cases]
  case bool.bool x y => cases x <;> cases y <;> decide
  case text.text s t => exact ⟨utf8_toList_inj, fun h => h ▸ rfl⟩
  case numeric.numeric m n => by_cases h : m = n <;> simp [h]

theorem fromTag_elim (o : Option ColumnType) :
    ColumnType.fromTag (o.elim 0 ColumnType.tag) = o := by
  rcases o with _ | ty
  · rfl
  · cases ty <;> rfl

theorem clear_encodeKeyExact (vs : List Value) : Clear 0xff (encodeKeyExact vs) := by
  cases vs with
  | nil => exact clear_nil
  | cons v vs =>
    refine clear_cons ?_ _
    rcases v.columnType with _ | ty
    · decide
    · cases ty <;> decide

theorem encodeKeyExact_eq_iff : ∀ {a b : List Value}, encodeKeyExact a = encodeKeyExact b ↔
    List.Forall₂ (fun v w => v.Same w ∨ v.Merges w) a b
  | [], [] => by simp [encodeKeyExact]
  | [], _ :: _ => by simp [encodeKeyExact]
  | _ :: _, [] => by simp [encodeKeyExact]
  | v :: a, w :: b => by
    rw [forall₂_cons, ← encodeKeyExact_eq_iff, ← encodeValue_eq_iff]
    change _ :: (encodeValue v ++ encodeKeyExact a) = _ :: (encodeValue w ++ encodeKeyExact b) ↔ _
    constructor
    · intro h
      obtain ⟨htag, h⟩ := List.cons.inj h
      have hty := congrArg ColumnType.fromTag htag
      rw [fromTag_elim, fromTag_elim] at hty
      obtain ⟨hv, ha⟩ := encodeValue_append_inj hty (clear_encodeKeyExact a)
        (clear_encodeKeyExact b) h
      exact ⟨⟨hty, hv⟩, ha⟩
    · rintro ⟨⟨hty, hv⟩, ha⟩
      rw [hty, hv, ha]

theorem not_merges (h : v.Same w) : ¬v.Merges w := by
  intro hm
  cases v <;> cases w <;> simp only [Value.Same, Value.Merges] at h hm
  case float.float x y =>
    rcases h with rfl | ⟨hnan, -⟩
    · exact hm.2.2 rfl
    · simp [F64.isZero, F64.isNan] at hm hnan
      omega
  case numeric.numeric m n =>
    cases h
    exact hm.2 rfl

end Exact

/-- The keys of plain decimals lie as their values. -/
theorem compare_encodeNumeric_plain {s t : List Char} (hs : PlainText s) (ht : PlainText t) :
    compare (encodeNumeric s) (encodeNumeric t) = compare (decimalValue s) (decimalValue t) := by
  have hlt {s t : List Char} (hs : PlainText s) (ht : PlainText t)
      (h : decimalValue s < decimalValue t) : encodeNumeric s < encodeNumeric t := by
    simpa using (numericForm_plain hs).ahead (numericForm_plain ht) h [] []
  rcases lt_trichotomy (decimalValue s) (decimalValue t) with h | h | h
  · rw [compare_lt_iff_lt.2 h, compare_bytes_lt.2 (hlt hs ht h)]
  · rw [(numericForm_plain hs).unique (numericForm_plain ht) h, h, Std.compare_self,
      Std.compare_self]
  · rw [compare_gt_iff_gt.2 h, Std.OrientedOrd.eq_swap, compare_bytes_lt.2 (hlt ht hs h)]
    rfl

/-- Plain decimals read the same if they have one value. -/
theorem numericReading_eq_iff {s t : List Char} (hs : PlainText s) (ht : PlainText t) :
    numericReading s = numericReading t ↔ decimalValue s = decimalValue t := by
  rw [← encodeNumeric_eq_iff, ← Std.compare_eq_iff_eq (a := encodeNumeric s),
    compare_encodeNumeric_plain hs ht, compare_eq_iff_eq]

/-- Tuples with one key are the same values in the same printed form, unless somewhere the one has
the other zero of a float, or another text of the same decimal. Two plain decimals are that if they
have one value and are spelled differently. -/
theorem encode_key_exact_injective (a b : List Value) :
    ((encodeKeyExact a = encodeKeyExact b → List.Forall₂ Value.Same a b) ↔
      ¬(List.Forall₂ (fun v w => v.Same w ∨ v.Merges w) a b ∧ ∃ p ∈ a.zip b, p.1.Merges p.2)) ∧
    ∀ m n, PlainText m.toList → PlainText n.toList →
      ((Value.numeric m).Merges (.numeric n) ↔
        decimalValue m.toList = decimalValue n.toList ∧ m ≠ n) := by
  refine ⟨?_, fun m n hm hn => and_congr_left' (numericReading_eq_iff hm hn)⟩
  rw [encodeKeyExact_eq_iff]
  constructor
  · rintro h ⟨hab, p, hp, hm⟩
    exact not_merges ((forall₂_iff_zip.1 (h hab)).2 hp) hm
  · intro h hab
    obtain ⟨hlen, hzip⟩ := forall₂_iff_zip.1 hab
    exact forall₂_iff_zip.2 ⟨hlen, fun hp => (hzip hp).resolve_right fun hm => h ⟨hab, _, hp, hm⟩⟩

/-- `1.0` and `1.00`, and the zeros `0.0` and `-0.0`. -/
theorem encode_key_exact_merges :
    encodeKeyExact [.numeric "1.0"] = encodeKeyExact [.numeric "1.00"] ∧
      encodeKeyExact [.float ⟨0⟩] = encodeKeyExact [.float ⟨0x8000000000000000⟩] := by
  decide

/-- The digits before and after the point of a decimal, without the zeros that carry no value. -/
structure Trimmed (i f : List Char) : Prop where
  int : ∀ c ∈ i, c.isDigit = true
  frac : ∀ c ∈ f, c.isDigit = true
  first : i.head? ≠ some '0'
  last : f.getLast? ≠ some '0'

/-- The number with these digits before and after the point. -/
def magnitude (i f : List Char) : ℚ := sci i.length (i ++ f)

section Magnitude

variable {i f i' f' : List Char}

theorem Trimmed.digits (h : Trimmed i f) : ∀ c ∈ i ++ f, c.isDigit = true :=
  forall_mem_append.2 ⟨h.int, h.frac⟩

theorem Trimmed.pos (h : Trimmed i f) (hne : ¬(i = [] ∧ f = [])) : 0 < magnitude i f := by
  rw [magnitude, sci_append]
  by_cases hi : i = []
  · exact add_pos_of_nonneg_of_pos (sci_nonneg ..)
      (sci_pos_of_last h.frac (fun hf => hne ⟨hi, hf⟩) h.last _)
  · exact add_pos_of_pos_of_nonneg (lt_of_lt_of_le (by positivity) (le_sci h.int hi h.first _))
      (sci_nonneg ..)

theorem length_utf8 (hd : ∀ c ∈ i, c.isDigit = true) : (utf8 i).length = i.length := by
  rw [utf8_eq_map hd, length_map]

theorem magnitude_lt (h : Trimmed i f) (h' : Trimmed i' f')
    (hlt : toLex (i.length, toLex (i, f)) < toLex (i'.length, toLex (i', f'))) :
    numericMagnitudeCmp (utf8 i, utf8 f) (utf8 i', utf8 f') = .lt ∧
      magnitude i f < magnitude i' f' := by
  rw [Prod.Lex.toLex_lt_toLex, Prod.Lex.toLex_lt_toLex] at hlt
  rw [numericMagnitudeCmp, length_utf8 h.int, length_utf8 h'.int, magnitude, magnitude]
  obtain hlen | ⟨hlen, hi | ⟨heq, hf⟩⟩ := hlt <;> dsimp only at *
  · have hne : i' ≠ [] := length_pos_iff.1 (Nat.zero_lt_of_lt hlen)
    rw [compare_lt_iff_lt.2 hlen]
    exact ⟨rfl, sci_lt_of_exponent h.digits h'.digits (by simp [hne])
      (by rw [List.head?_append_of_ne_nil _ hne]; exact h'.first) (by exact_mod_cast hlen)⟩
  · rw [compare_bytes_lt.2 (utf8_lt h.int h'.int hi), hlen, Std.compare_self]
    have hd := h.digits
    have he := h'.digits
    rcases exists_of_lt hi with ⟨p, a, b, u, v, rfl, rfl, hab⟩ | ⟨b, v, rfl⟩
    · rw [append_assoc, cons_append] at hd he ⊢
      rw [append_assoc, cons_append]
      exact ⟨rfl, sci_lt_of_differ hd he hab _⟩
    · simp at hlen
  · subst heq
    rw [Std.compare_self, Std.compare_self, compare_bytes_lt.2 (utf8_lt h.frac h'.frac hf),
      sci_append, sci_append]
    exact ⟨rfl, add_lt_add_right (sci_lt_of_digits h.frac h'.frac h'.last hf _) _⟩

theorem numericMagnitudeCmp_swap (a b : List UInt8 × List UInt8) :
    numericMagnitudeCmp b a = (numericMagnitudeCmp a b).swap := by
  simp only [numericMagnitudeCmp, Ordering.swap_then]
  rw [Std.OrientedOrd.eq_swap, Std.OrientedOrd.eq_swap (a := b.1),
    Std.OrientedOrd.eq_swap (a := b.2)]

theorem numericMagnitudeCmp_value (h : Trimmed i f) (h' : Trimmed i' f') :
    numericMagnitudeCmp (utf8 i, utf8 f) (utf8 i', utf8 f') =
      compare (magnitude i f) (magnitude i' f') := by
  rcases lt_trichotomy (toLex (i.length, toLex (i, f))) (toLex (i'.length, toLex (i', f')))
    with hlt | heq | hgt
  · obtain ⟨hm, hs⟩ := magnitude_lt h h' hlt
    rw [hm, compare_lt_iff_lt.2 hs]
  · obtain ⟨-, rfl, rfl⟩ : i.length = i'.length ∧ i = i' ∧ f = f' := by simpa using heq
    simp [numericMagnitudeCmp]
  · obtain ⟨hm, hs⟩ := magnitude_lt h' h hgt
    rw [numericMagnitudeCmp_swap, hm, compare_gt_iff_gt.2 hs]
    rfl

end Magnitude

/-- What `numeric_cmp` finds in a plain decimal. -/
theorem plainText_cases {s : String} (h : PlainText s.toList) :
    (∃ r, numericSpecialRank s = some r ∧ (r = 0 ∧ decimalValue s.toList = .negInfinity ∨
      r = 3 ∧ decimalValue s.toList = .infinity ∨ r = 4 ∧ decimalValue s.toList = .nan)) ∨
    numericSpecialRank s = none ∧ ∃ neg i f, Trimmed i f ∧ numericParts s = (neg, utf8 i, utf8 f) ∧
      (neg = true → 0 < magnitude i f) ∧
      decimalValue s.toList = .finite (if neg then -magnitude i f else magnitude i f) := by
  by_cases h₁ : s.toList = "NaN".toList
  · obtain rfl := String.toList_inj.1 h₁
    exact .inl ⟨4, rfl, .inr (.inr ⟨rfl, rfl⟩)⟩
  by_cases h₂ : s.toList = "Infinity".toList
  · obtain rfl := String.toList_inj.1 h₂
    exact .inl ⟨3, rfl, .inr (.inl ⟨rfl, rfl⟩)⟩
  by_cases h₃ : s.toList = "-Infinity".toList
  · obtain rfl := String.toList_inj.1 h₃
    exact .inl ⟨0, rfl, .inl ⟨rfl, rfl⟩⟩
  obtain ⟨-, -, hd⟩ := ((h.resolve_left h₁).resolve_left h₂).resolve_left h₃
  have hrank : numericSpecialRank s = none := by
    unfold numericSpecialRank
    rw [if_neg, if_neg, if_neg]
    all_goals rintro rfl
    exacts [h₁ rfl, h₂ rfl, h₃ rfl]
  set neg := (splitSign s.toList).1 with hneg
  set ip := (splitPoint (splitSign s.toList).2).1 with hip
  set fp := (splitPoint (splitSign s.toList).2).2 with hfp
  have hparts : numericParts s = (neg && !((ip.dropWhile (· == '0')).isEmpty &&
      (fp.rdropWhile (· == '0')).isEmpty), utf8 (ip.dropWhile (· == '0')),
      utf8 (fp.rdropWhile (· == '0'))) := rfl
  have ht : Trimmed (ip.dropWhile (· == '0')) (fp.rdropWhile (· == '0')) :=
    ⟨fun c hc => hd c (mem_append_left _ ((dropWhile_sublist _).subset hc)),
      fun c hc => hd c (mem_append_right _ ((List.rdropWhile_prefix _ _).subset hc)),
      head_dropWhile_zero ip, getLast_rdropWhile_zero fp⟩
  have hvalue : decimalValue s.toList =
      .finite (if neg then -sci ip.length (ip ++ fp) else sci ip.length (ip ++ fp)) := by
    rw [decimalValue, if_neg h₁, if_neg h₂, if_neg h₃]
  rw [← sci_trimmed] at hvalue
  generalize ip.dropWhile (· == '0') = i at ht hparts hvalue
  generalize fp.rdropWhile (· == '0') = f at ht hparts hvalue
  by_cases h0 : i = [] ∧ f = []
  · obtain ⟨rfl, rfl⟩ := h0
    refine .inr ⟨hrank, false, [], [], ht, by simpa using hparts, by simp, hvalue.trans ?_⟩
    simp [magnitude, sci_nil]
  · have hfull : (i.isEmpty && f.isEmpty) = false := by simpa using h0
    rw [hfull, Bool.not_false, Bool.and_true] at hparts
    exact .inr ⟨hrank, neg, i, f, ht, hparts, fun _ => ht.pos h0, hvalue⟩

theorem compare_rank {a b : ℕ} (p q : ℚ) (h : a ≠ b) :
    compare (toLex (a, p) : Extended) (toLex (b, q)) = compare a b := by
  refine compare_congr ?_ ?_ <;> rw [Prod.Lex.toLex_lt_toLex] <;> simp only <;> omega

/-- On plain decimal texts the comparison is that of their values. -/
theorem numericCmp_value {m n : String} (hm : PlainText m.toList) (hn : PlainText n.toList) :
    numericCmp m n = compare (decimalValue m.toList) (decimalValue n.toList) := by
  unfold numericCmp
  obtain ⟨r, hr, hx⟩ | ⟨hr, neg, i, f, ht, hparts, hneg, hx⟩ := plainText_cases hm <;>
    obtain ⟨r', hr', hy⟩ | ⟨hr', neg', i', f', ht', hparts', hneg', hy⟩ := plainText_cases hn <;>
    simp only [hr, hr']
  · rcases hx with ⟨rfl, hx⟩ | ⟨rfl, hx⟩ | ⟨rfl, hx⟩ <;>
      rcases hy with ⟨rfl, hy⟩ | ⟨rfl, hy⟩ | ⟨rfl, hy⟩ <;>
      rw [hx, hy] <;> decide
  · rw [hy]
    rcases hx with ⟨rfl, hx⟩ | ⟨rfl, hx⟩ | ⟨rfl, hx⟩ <;> rw [hx] <;>
      exact (compare_rank _ _ (by decide)).symm
  · rw [hx]
    rcases hy with ⟨rfl, hy⟩ | ⟨rfl, hy⟩ | ⟨rfl, hy⟩ <;> rw [hy] <;>
      exact (compare_rank _ _ (by decide)).symm
  · rw [hparts, hparts', hx, hy, compare_finite, numericMagnitudeCmp_value ht ht']
    have hv : 0 ≤ magnitude i f := sci_nonneg ..
    have hv' : 0 ≤ magnitude i' f' := sci_nonneg ..
    cases neg <;> cases neg'
    · rfl
    · have := hneg' rfl
      exact (compare_gt_iff_gt.2
        (by simp only [if_true, Bool.false_eq_true, if_false]; linarith)).symm
    · have := hneg rfl
      exact (compare_lt_iff_lt.2
        (by simp only [if_true, Bool.false_eq_true, if_false]; linarith)).symm
    · exact Std.OrientedOrd.eq_swap.symm.trans
        (compare_congr neg_lt_neg_iff.symm neg_lt_neg_iff.symm)

section Spelled

/-- A sign, the bytes before the point and those behind it. -/
def spelledNumber : Bool × List UInt8 × List UInt8 → Reading
  | (neg, i, f) => if i = [] ∧ f = [] then .zero else .finite neg i.length (i ++ f)

/-- How `numeric_cmp` reads a decimal: it knows the special names, and of every other text it takes
the sign, the bytes before the point without leading zeros and the bytes behind it without trailing
zeros, whatever they are. -/
def spelledReading (s : String) : Reading :=
  match numericSpecialRank s with
  | some 0 => .negInfinity
  | some 3 => .infinity
  | some _ => .nan
  | none => spelledNumber (numericParts s)

theorem compare_append {u u' : List UInt8} (h : u.length = u'.length) (v v' : List UInt8) :
    compare (u ++ v) (u' ++ v') = (compare u u').then (compare v v') := by
  induction u generalizing u' with
  | nil =>
    obtain rfl : u' = [] := length_eq_zero_iff.1 h.symm
    rfl
  | cons a u ih =>
    cases u' with
    | nil => cases h
    | cons b u' =>
      rw [cons_append, cons_append, List.compare_cons_cons, List.compare_cons_cons,
        ih (Nat.succ.inj h), Ordering.then_assoc]

theorem numericMagnitudeCmp_eq (i f i' f' : List UInt8) : numericMagnitudeCmp (i, f) (i', f') =
    (compare (i.length : ℤ) i'.length).then (compare (i ++ f) (i' ++ f')) := by
  have hcast : compare (i.length : ℤ) i'.length = compare i.length i'.length :=
    compare_congr Nat.cast_lt Nat.cast_lt
  rw [hcast, numericMagnitudeCmp]
  by_cases h : i.length = i'.length
  · rw [compare_append h]
  · rcases Nat.lt_or_gt_of_ne h with h | h
    · rw [compare_lt_iff_lt.2 h]
      rfl
    · rw [compare_gt_iff_gt.2 h]
      rfl

theorem numericSpecialRank_cases (s : String) : numericSpecialRank s = none ∨
    numericSpecialRank s = some 0 ∨ numericSpecialRank s = some 3 ∨
    numericSpecialRank s = some 4 := by
  unfold numericSpecialRank
  split_ifs <;> simp

theorem eq_nil_of_utf8 {l : List Char} (h : utf8 l = []) : l = [] := by
  cases l with
  | nil => rfl
  | cons c l =>
    have hlen := congrArg List.length h
    rw [utf8, flatMap_cons, length_append, String.length_utf8EncodeChar, length_nil] at hlen
    have := c.utf8Size_pos
    omega

/-- Zero has no sign. -/
theorem numericParts_zero {s : String} {neg : Bool} (h : numericParts s = (neg, [], [])) :
    neg = false := by
  have hparts : numericParts s = ((splitSign s.toList).1 &&
      !((splitSignificant (splitSign s.toList).2).1.isEmpty &&
        (splitSignificant (splitSign s.toList).2).2.isEmpty),
      utf8 (splitSignificant (splitSign s.toList).2).1,
      utf8 (splitSignificant (splitSign s.toList).2).2) := rfl
  simp only [hparts, Prod.mk.injEq] at h
  obtain ⟨rfl, hi, hf⟩ := h
  simp [eq_nil_of_utf8 hi, eq_nil_of_utf8 hf]

theorem numericMagnitudeCmp_nil {i f : List UInt8} (h : ¬(i = [] ∧ f = [])) :
    numericMagnitudeCmp ([], []) (i, f) = .lt := by
  rcases i with _ | ⟨b, i⟩
  · rcases f with _ | ⟨b, f⟩
    · exact absurd ⟨rfl, rfl⟩ h
    · rfl
  · rfl

theorem numericCmp_numbers {m n : String} (hm : numericSpecialRank m = none)
    (hn : numericSpecialRank n = none) : numericCmp m n =
      (spelledNumber (numericParts m)).cmp (spelledNumber (numericParts n)) := by
  unfold numericCmp
  simp only [hm, hn]
  rcases hpm : numericParts m with ⟨a, i, f⟩
  rcases hpn : numericParts n with ⟨b, i', f'⟩
  simp only [spelledNumber]
  by_cases h : i = [] ∧ f = [] <;> by_cases h' : i' = [] ∧ f' = []
  · obtain ⟨rfl, rfl⟩ := h
    obtain ⟨rfl, rfl⟩ := h'
    rw [numericParts_zero hpm, numericParts_zero hpn]
    rfl
  · obtain ⟨rfl, rfl⟩ := h
    rw [numericParts_zero hpm, numericMagnitudeCmp_nil h', if_neg h']
    cases b <;> rfl
  · obtain ⟨rfl, rfl⟩ := h'
    rw [numericParts_zero hpn, numericMagnitudeCmp_swap, numericMagnitudeCmp_nil h, if_neg h]
    cases a <;> rfl
  · have hint : compare (i'.length : ℤ) i.length = (compare (i.length : ℤ) i'.length).swap :=
      Std.OrientedOrd.eq_swap
    have hlist : compare (i' ++ f') (i ++ f) = (compare (i ++ f) (i' ++ f')).swap :=
      Std.OrientedOrd.eq_swap
    rw [if_neg h, if_neg h', numericMagnitudeCmp_eq]
    cases a <;> cases b
    · rfl
    · rfl
    · rfl
    · simp only [Reading.cmp, hint, hlist, ← Ordering.swap_then]
      rfl

/-- On any two texts it is that of their readings. -/
theorem numericCmp_eq_spelled (m n : String) :
    numericCmp m n = (spelledReading m).cmp (spelledReading n) := by
  have hnumber (p : Bool × List UInt8 × List UInt8) :
      spelledNumber p = .zero ∨ ∃ neg place digits, spelledNumber p = .finite neg place digits := by
    obtain ⟨neg, i, f⟩ := p
    simp only [spelledNumber]
    split_ifs
    · exact .inl rfl
    · exact .inr ⟨_, _, _, rfl⟩
  unfold spelledReading
  rcases numericSpecialRank_cases m with hm | hm | hm | hm <;>
    rcases numericSpecialRank_cases n with hn | hn | hn | hn <;> simp only [hm, hn]
  case inl.inl => exact numericCmp_numbers hm hn
  all_goals simp only [numericCmp, hm, hn]
  -- a special name and a number: the kinds decide
  case inl.inr.inl | inl.inr.inr.inl | inl.inr.inr.inr =>
    obtain h | ⟨neg, place, digits, h⟩ := hnumber (numericParts m) <;> rw [h]
    · rfl
    · cases neg <;> rfl
  case inr.inl.inl | inr.inr.inl.inl | inr.inr.inr.inl =>
    obtain h | ⟨neg, place, digits, h⟩ := hnumber (numericParts n) <;> rw [h]
    · rfl
    · cases neg <;> rfl
  all_goals rfl

end Spelled

section Groups

variable {a b : Value} {coll : Collation}

/-- Two decimals. -/
def bothNumeric : Value → Value → Bool
  | .numeric _, .numeric _ => true
  | _, _ => false

theorem compare_encodeGroupValue_of_sound (ha : a.Sound) (hb : b.Sound) :
    compare (encodeGroupValue a coll) (encodeGroupValue b coll) = columnCmp coll a b := by
  have h := compare_encodeValueSpec (c := ⟨.any, coll⟩) ⟨rfl, ha⟩ ⟨rfl, hb⟩ clear_nil clear_nil
  simpa [encodeValueSpec, KeyColumn.spec, KeySpec.forColumn] using h

theorem compare_encodeGroupValue_numeric (m n : String) :
    compare (encodeGroupValue (.numeric m) coll) (encodeGroupValue (.numeric n) coll) =
      compare (encodeNumeric m.toList) (encodeNumeric n.toList) := by
  rw [encodeGroupValue, encodeGroupValue, List.compare_cons_cons, Std.compare_self,
    Ordering.eq_then]

/-- The texts of decimals are looked at in two decimals only. -/
theorem compare_encodeGroupValue (h : bothNumeric a b = false) :
    compare (encodeGroupValue a coll) (encodeGroupValue b coll) = columnCmp coll a b := by
  by_cases hclass : a.storageClass = b.storageClass
  · refine compare_encodeGroupValue_of_sound ?_ ?_
    · rintro n rfl
      cases b <;> cases hclass
      cases h
    · rintro n rfl
      cases a <;> cases hclass
      cases h
  · obtain ⟨u, hu⟩ := encodeGroupValue_tag a coll
    obtain ⟨v, hv⟩ := encodeGroupValue_tag b coll
    revert hclass
    cases a <;> cases b <;> intro hclass <;> first | rfl | exact absurd rfl hclass

theorem sortCmp_cases (h : bothNumeric a b = false) :
    a.sortCmp b coll = some (columnCmp coll a b) ∨
      a.sortCmp b coll = none ∧ (columnCmp coll a b = .eq ↔ a = .null ∧ b = .null) := by
  have hswap (x y : Extended) : (compare x y).swap = compare y x := Std.OrientedOrd.eq_swap.symm
  cases a <;> cases b <;>
    simp [Value.sortCmp, Value.isNull, Value.sqlCmpCollated, Value.sqlCmp,
      Value.classRank, columnCmp, Value.storageClass, F64.floatTotalCmp_eq, F64.intFloatCmp_eq,
      hswap]
  case numeric.numeric => cases h

/-- The key of a group tells two values apart just as the comparator does. -/
def GroupKeyAgrees (a b : Value) (coll : Collation) : Prop :=
  (encodeGroupValue a coll = encodeGroupValue b coll ↔
    a.sortCmp b coll = some .eq ∨ a = .null ∧ b = .null) ∧
  ∀ o, a.sortCmp b coll = some o → compare (encodeGroupValue a coll) (encodeGroupValue b coll) = o

theorem groupKeyAgrees_of_not_numeric (h : bothNumeric a b = false) : GroupKeyAgrees a b coll := by
  rw [GroupKeyAgrees, ← Std.compare_eq_iff_eq (a := encodeGroupValue a coll),
    compare_encodeGroupValue h]
  rcases sortCmp_cases h with hs | ⟨hs, hnull⟩ <;> rw [hs]
  · refine ⟨⟨fun heq => .inl (by rw [heq]), ?_⟩, fun o ho => Option.some.inj ho⟩
    rintro (heq | ⟨rfl, rfl⟩)
    · exact Option.some.inj heq
    · rfl
  · exact ⟨hnull.trans (by simp), nofun⟩

theorem groupKeyAgrees_numeric (m n : String) : GroupKeyAgrees (.numeric m) (.numeric n) coll ↔
    compare (encodeNumeric m.toList) (encodeNumeric n.toList) = numericCmp m n := by
  have hsort : (Value.numeric m).sortCmp (.numeric n) coll = some (numericCmp m n) := rfl
  rw [GroupKeyAgrees, ← Std.compare_eq_iff_eq (a := encodeGroupValue (.numeric m) coll),
    compare_encodeGroupValue_numeric, hsort]
  constructor
  · exact fun h => h.2 _ rfl
  · intro h
    simp [h]

end Groups

/-- The key of a group agrees with `sort_cmp` on two values if and only if, where both are decimals,
their texts lie to each other as the key reads them as they lie as they are spelled. Plain decimals
do. -/
theorem group_key_matches_sort_cmp (a b : Value) (coll : Collation) :
    (GroupKeyAgrees a b coll ↔ ∀ m n, a = .numeric m → b = .numeric n →
      (numericReading m.toList).cmp (numericReading n.toList) =
        (spelledReading m).cmp (spelledReading n)) ∧
    ((∀ m, a = .numeric m → PlainText m.toList) → (∀ n, b = .numeric n → PlainText n.toList) →
      GroupKeyAgrees a b coll) := by
  have hiff : GroupKeyAgrees a b coll ↔ ∀ m n, a = .numeric m → b = .numeric n →
      (numericReading m.toList).cmp (numericReading n.toList) =
        (spelledReading m).cmp (spelledReading n) := by
    rcases hnum : bothNumeric a b
    · refine iff_of_true (groupKeyAgrees_of_not_numeric hnum) ?_
      rintro m n rfl rfl
      cases hnum
    · cases a <;> cases b <;> cases hnum
      rw [groupKeyAgrees_numeric, compare_encodeNumeric, numericCmp_eq_spelled]
      simp
  refine ⟨hiff, fun ha hb => hiff.2 ?_⟩
  rintro m n rfl rfl
  rw [← compare_encodeNumeric, ← numericCmp_eq_spelled, numericCmp_value (ha m rfl) (hb n rfl)]
  exact compare_encodeNumeric_plain (ha m rfl) (hb n rfl)

/-- `+5` and `5.0`, as nothing stores them, are one group and equal. -/
theorem group_key_matches_signed : GroupKeyAgrees (.numeric "+5") (.numeric "5.0") .binary := by
  refine (group_key_matches_sort_cmp _ _ _).2 ?_ ?_ <;> rintro m ⟨⟩ <;>
    exact .inr (.inr (.inr ⟨by decide, by decide, all_eq_true.1 (by decide)⟩))

/-- `1e3` and `1000` are one group, and not equal. -/
theorem group_key_merges_exponent :
    encodeGroupValue (.numeric "1e3") .binary = encodeGroupValue (.numeric "1000") .binary ∧
      (Value.numeric "1e3").sortCmp (.numeric "1000") .binary = some .lt := by
  decide

end Mpedb
