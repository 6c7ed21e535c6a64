import Mpedb.Compare
import Mpedb.Proofs.DecimalOrder

/-!
# How the text of a decimal is read

The key of a decimal and `numeric_cmp` read its text in two ways. The key leaves out the blanks
around it and lets an exponent move the point; `numeric_cmp` takes every character as it is spelled.
Both come to a sign, a place and the digits from there on, and compare these in the same way, so the
two agree where the two readings do.
-/

namespace Mpedb

open Code List

section Bytes

variable {u v : List UInt8}

theorem compare_bytes_lt : compare u v = .lt ↔ u < v := by
  induction u generalizing v with
  | nil =>
    cases v with
    | nil => simp
    | cons b v => simp [nil_lt_cons]
  | cons a u ih =>
    cases v with
    | nil => simp [not_lt_nil]
    | cons b v =>
      rw [List.compare_cons_cons, List.cons_lt_cons_iff, Ordering.then_eq_lt, Std.compare_eq_lt,
        Std.compare_eq_iff_eq, ih]

theorem before_encodeBytes (h : u < v) :
    Before 0xff (encodeBytes u) (encodeBytes v) :=
  before_escaped (fun _ => UInt8.le_iff_toNat_le.2 (Nat.zero_le _))
    (fun b => UInt8.le_iff_toNat_le.2 (Nat.le_of_lt_succ b.toNat_lt)) h

end Bytes

/-- A text read as a decimal: one of the special names, a sign with the place of the point and the
digits, or a text that is no decimal. -/
inductive Reading
  | negInfinity
  | zero
  | infinity
  | nan
  | finite (neg : Bool) (place : ℤ) (digits : List UInt8)
  | word (text : List UInt8)
  deriving DecidableEq

namespace Reading

/-- The order of the kinds. -/
def rank : Reading → ℕ
  | .negInfinity => 0
  | .finite neg _ _ => if neg then 1 else 3
  | .zero => 2
  | .infinity => 4
  | .nan => 5
  | .word _ => 6

/-- Numbers lie by sign, place and digits, words behind them by their bytes. -/
def cmp : Reading → Reading → Ordering
  | .finite true p ds, .finite true q es => (compare q p).then (compare es ds)
  | .finite false p ds, .finite false q es => (compare p q).then (compare ds es)
  | .word t, .word u => compare t u
  | r, r' => compare r.rank r'.rank

/-- What the key of a decimal holds. -/
def write : Reading → List UInt8
  | .negInfinity => [0x00]
  | .finite true p ds =>
    0x01 :: ((Bytes.be 4 (p + 2 ^ 31).toNat).map (~~~·) ++ (ds.map (~~~·) ++ [0xff]))
  | .zero => [0x02]
  | .finite false p ds => 0x03 :: (Bytes.be 4 (p + 2 ^ 31).toNat ++ (ds ++ [0x00]))
  | .infinity => [0x04]
  | .nan => [0x05]
  | .word t => 0x06 :: encodeBytes t

/-- The place is an `i32`, and no digit is the terminator. -/
def Fits : Reading → Prop
  | .finite _ p ds => (-2 ^ 31 ≤ p ∧ p < 2 ^ 31) ∧ ∀ b ∈ ds, 0x00 < b
  | _ => True

variable {r r' : Reading}

theorem cmp_swap (r r' : Reading) : r'.cmp r = (r.cmp r').swap := by
  have hlist (u v : List UInt8) : compare v u = (compare u v).swap := Std.OrientedOrd.eq_swap
  have hint (p q : ℤ) : compare q p = (compare p q).swap := Std.OrientedOrd.eq_swap
  rcases r with _ | _ | _ | _ | ⟨_ | _, p, ds⟩ | t <;>
    rcases r' with _ | _ | _ | _ | ⟨_ | _, q, es⟩ | u <;>
    first
      | rfl
      | exact hlist ..
      | (simp only [cmp, Ordering.swap_then]
         rw [← hlist, ← hint])

/-- Readings in order have codes in order. -/
theorem write_lt (hr : r.Fits) (hr' : r'.Fits) (h : r.cmp r' = .lt) : r.write < r'.write := by
  have hahead {u v : List UInt8} (h : Ahead u v) : u < v := by simpa using h [] []
  rcases r with _ | _ | _ | _ | ⟨_ | _, p, ds⟩ | t <;>
    rcases r' with _ | _ | _ | _ | ⟨_ | _, q, es⟩ | u
  case finite.false.finite.false =>
    rw [cmp, Ordering.then_eq_lt, compare_lt_iff_lt, compare_eq_iff_eq, compare_bytes_lt] at h
    refine hahead (Ahead.cons ?_ _)
    obtain h | ⟨rfl, h⟩ := h
    · exact (ahead_of_length (by simp) (biased_lt hr.1.1 hr'.1.2 h)).append _ _
    · exact (ahead_terminated hr'.2 h).append_left _
  case finite.true.finite.true =>
    rw [cmp, Ordering.then_eq_lt, compare_lt_iff_lt, compare_eq_iff_eq, compare_bytes_lt] at h
    refine hahead (Ahead.cons ?_ _)
    obtain h | ⟨rfl, h⟩ := h
    · exact (ahead_map_of_length not_strictAnti (by simp) (biased_lt hr'.1.1 hr.1.2 h)).append _ _
    · exact (ahead_map_terminated not_strictAnti hr.2 h).append_left _
  case word.word =>
    rw [cmp, compare_bytes_lt] at h
    exact cons_lt_cons_iff.2 (.inr ⟨rfl, by
      simpa using before_encodeBytes h [] [] clear_nil clear_nil⟩)
  all_goals first
    | exact cons_lt_cons_iff.2 (.inl (by decide))
    | cases h

theorem eq_of_cmp (h : r.cmp r' = .eq) : r = r' := by
  rcases r with _ | _ | _ | _ | ⟨_ | _, p, ds⟩ | t <;>
    rcases r' with _ | _ | _ | _ | ⟨_ | _, q, es⟩ | u <;>
    simp [cmp, rank, Ordering.then_eq_eq] at h ⊢ <;> grind

theorem compare_write (hr : r.Fits) (hr' : r'.Fits) : compare r.write r'.write = r.cmp r' := by
  rcases h : r.cmp r' with _ | _ | _
  · exact compare_bytes_lt.2 (write_lt hr hr' h)
  · rw [eq_of_cmp h, Std.compare_self]
  · have hlt : r'.cmp r = .lt := by rw [cmp_swap, h]; rfl
    rw [Std.OrientedOrd.eq_swap, compare_bytes_lt.2 (write_lt hr' hr hlt)]
    rfl

end Reading

/-! ## The reading of the key -/

/-- Digits with the point behind the first `point` of them. Zeros at both ends do not count, and the
place of the first digit that does is kept as an `i32`. -/
def scientific (neg : Bool) (point : ℤ) (ds : List Char) : Reading :=
  let rest := ds.dropWhile (· == '0')
  let digits := rest.rdropWhile (· == '0')
  if digits = [] then .zero
  else .finite neg ((point - (ds.length - rest.length : ℕ)).bmod (2 ^ 32)) (utf8 digits)

/-- The marks of an exponent. -/
def isExponentMark (c : Char) : Bool := c == 'e' || c == 'E'

/-- The point and the digits of a text that the key takes for a decimal: digits and points, or what
the parser takes if there is an exponent. -/
def decimalDigits (body : List Char) : Option (ℤ × List Char) :=
  match splitExponent body with
  | none => none
  | some (mantissa, exp) =>
    let (ip, fp) := splitPoint mantissa
    let point := ip.length + exp
    let fits := if body.any isExponentMark then !(ip ++ fp).isEmpty &&
      (ip ++ fp).all Char.isDigit &&
        !(point > numericMaxWeight || (ip ++ fp).length - point > numericMaxScale)
      else !body.isEmpty && body.all isDecimalChar
    if fits then some (point, ip ++ fp) else none

/-- How the key reads the text of a decimal. -/
def numericReading (s : List Char) : Reading :=
  let t := trim s
  if t = "NaN".toList then .nan
  else if t = "Infinity".toList then .infinity
  else if t = "-Infinity".toList then .negInfinity
  else match decimalDigits (splitSign t).2 with
    | some (point, ds) => scientific (splitSign t).1 point ds
    | none => .word (utf8 t)

section Scientific

variable {neg : Bool} {point : ℤ}

theorem scientific_zero_cons (ds : List Char) :
    scientific neg point ('0' :: ds) = scientific neg (point - 1) ds := by
  have hle : (ds.dropWhile (· == '0')).length ≤ ds.length := (dropWhile_sublist _).length_le
  have hplace : point - (('0' :: ds).length - (ds.dropWhile (· == '0')).length : ℕ) =
      point - 1 - (ds.length - (ds.dropWhile (· == '0')).length : ℕ) := by
    rw [length_cons]
    omega
  have hdrop : ('0' :: ds).dropWhile (· == '0') = ds.dropWhile (· == '0') := rfl
  simp only [scientific, hdrop, hplace]

theorem scientific_dropWhile (ip fp : List Char) :
    scientific neg (ip.dropWhile (· == '0')).length (ip.dropWhile (· == '0') ++ fp) =
      scientific neg ip.length (ip ++ fp) := by
  induction ip with
  | nil => rfl
  | cons c ip ih =>
    rw [dropWhile_cons]
    split_ifs with hc
    · have hc : c = '0' := by simpa using hc
      rw [ih, hc, cons_append, scientific_zero_cons, length_cons]
      congr 1
      omega
    · rfl

theorem scientific_replicate_append (n : ℕ) (ds : List Char) :
    scientific neg point (replicate n '0' ++ ds) = scientific neg (point - n) ds := by
  induction n generalizing point with
  | zero => simp
  | succ n ih =>
    rw [replicate_succ, cons_append, scientific_zero_cons, ih]
    congr 1
    omega

theorem scientific_concat_zero (ds : List Char) :
    scientific neg point (ds ++ ['0']) = scientific neg point ds := by
  by_cases h : ds.dropWhile (· == '0') = []
  · have hz : (ds ++ ['0']).dropWhile (· == '0') = [] := by rw [dropWhile_append, h]; rfl
    simp [scientific, hz, h]
  · have hz : (ds ++ ['0']).dropWhile (· == '0') = ds.dropWhile (· == '0') ++ ['0'] := by
      rw [dropWhile_append, if_neg (by simpa using h)]
    have hr : (ds.dropWhile (· == '0') ++ ['0']).rdropWhile (· == '0') =
        (ds.dropWhile (· == '0')).rdropWhile (· == '0') := by
      rw [rdropWhile_concat, if_pos (beq_self_eq_true '0')]
    have hlen : (ds ++ ['0']).length - (ds.dropWhile (· == '0') ++ ['0']).length =
        ds.length - (ds.dropWhile (· == '0')).length := by simp
    simp only [scientific, hz, hr, hlen]

theorem scientific_append_replicate (n : ℕ) (ds : List Char) :
    scientific neg point (ds ++ replicate n '0') = scientific neg point ds := by
  induction n with
  | zero => simp
  | succ n ih => rw [replicate_succ', ← append_assoc, scientific_concat_zero, ih]

theorem scientific_rdropWhile (ip fp : List Char) :
    scientific neg point (ip ++ fp.rdropWhile (· == '0')) = scientific neg point (ip ++ fp) := by
  induction fp using List.reverseRecOn with
  | nil => rfl
  | append_singleton fp c ih =>
    rw [rdropWhile_concat]
    split_ifs with hc
    · have hc : c = '0' := by simpa using hc
      rw [ih, hc, ← append_assoc, scientific_concat_zero]
    · rfl

/-- Zero has no sign. -/
theorem scientific_neg_of_zero {ds : List Char} (h : ∀ c ∈ ds, c = '0') :
    scientific neg point ds = .zero := by
  have hdrop : ds.dropWhile (· == '0') = [] := dropWhile_eq_nil_iff.2 fun c hc => by simp [h c hc]
  simp [scientific, hdrop]

theorem encodeDecimal_eq (neg : Bool) (body : List Char) : encodeDecimal neg body =
    (scientific neg (splitPoint body).1.length
      ((splitPoint body).1 ++ (splitPoint body).2)).write := by
  have hmod (x : ℤ) : x.bmod (2 ^ 32) + 2 ^ 31 = (x + 2 ^ 31) % 2 ^ 32 := by
    rw [Int.bmod_def]
    split_ifs <;> omega
  simp only [encodeDecimal, scientific, List.isEmpty_iff]
  by_cases h : (((splitPoint body).1 ++ (splitPoint body).2).dropWhile (· == '0')).rdropWhile
    (· == '0') = []
  · rw [if_pos h, if_pos h]
    rfl
  · rw [if_neg h, if_neg h]
    cases neg <;> simp only [Reading.write, hmod] <;> rfl

theorem fits_scientific {ds : List Char} (h : ∀ c ∈ ds, isDecimalChar c = true) :
    (scientific neg point ds).Fits := by
  simp only [scientific]
  split_ifs
  · trivial
  refine ⟨⟨?_, ?_⟩, fun b hb => ?_⟩
  · have := Int.le_bmod (x := point - (ds.length - (ds.dropWhile (· == '0')).length : ℕ))
      (m := 2 ^ 32) (by decide)
    omega
  · have := Int.bmod_lt (x := point - (ds.length - (ds.dropWhile (· == '0')).length : ℕ))
      (m := 2 ^ 32) (by decide)
    omega
  · refine UInt8.pos_iff_ne_zero.2 fun h0 => ?_
    subst h0
    exact not_mem_utf8_decimal (fun c hc => h c ((dropWhile_sublist _).subset
      ((List.rdropWhile_prefix _ _).subset hc))) hb

end Scientific

section Texts

variable {s t : List Char} {c : Char}

theorem mem_trim_of_mem (hc : isWhitespace c = false) (h : c ∈ s) : c ∈ trim s := by
  have hleft : c ∈ s.dropWhile isWhitespace := by
    rw [← takeWhile_append_dropWhile (p := isWhitespace) (l := s)] at h
    rcases mem_append.1 h with h | h
    · exact absurd (mem_takeWhile_imp h) (by simp [hc])
    · exact h
  rw [trim, rdropWhile, mem_reverse]
  rw [← mem_reverse, ← takeWhile_append_dropWhile (p := isWhitespace)
    (l := (s.dropWhile isWhitespace).reverse)] at hleft
  rcases mem_append.1 hleft with h | h
  · exact absurd (mem_takeWhile_imp h) (by simp [hc])
  · exact h

theorem mem_of_mem_trim (h : c ∈ trim s) : c ∈ s :=
  (dropWhile_sublist _).subset ((List.rdropWhile_prefix _ _).subset h)

/-- At most one sign is split off. -/
theorem splitSign_cases (t : List Char) : t = '-' :: (splitSign t).2 ∧ (splitSign t).1 = true ∨
    t = '+' :: (splitSign t).2 ∧ (splitSign t).1 = false ∨
    t = (splitSign t).2 ∧ (splitSign t).1 = false ∧ t.head? ≠ some '-' := by
  rcases t with _ | ⟨c, t⟩
  · exact .inr (.inr ⟨rfl, rfl, by simp⟩)
  · by_cases hm : c = '-'
    · subst hm
      exact .inl ⟨rfl, rfl⟩
    by_cases hp : c = '+'
    · subst hp
      exact .inr (.inl ⟨rfl, rfl⟩)
    · have h : splitSign (c :: t) = (false, c :: t) := by
        unfold splitSign
        split
        · rename_i heq
          exact absurd (List.cons.inj heq).1 hm
        · rename_i heq
          exact absurd (List.cons.inj heq).1 hp
        · rfl
      rw [h]
      exact .inr (.inr ⟨rfl, rfl, by simpa using hm⟩)

theorem mem_splitSign (hm : c ≠ '-') (hp : c ≠ '+') : c ∈ (splitSign t).2 ↔ c ∈ t := by
  rcases splitSign_cases t with ⟨h, -⟩ | ⟨h, -⟩ | ⟨h, -⟩
  · conv_rhs => rw [h]
    simp [hm]
  · conv_rhs => rw [h]
    simp [hp]
  · rw [← h]

/-- An exponent stands neither in the blanks nor in the sign. -/
theorem any_exponentMark (s : List Char) :
    (splitSign (trim s)).2.any isExponentMark = s.any isExponentMark := by
  rw [Bool.eq_iff_iff, any_eq_true, any_eq_true]
  refine exists_congr fun c => and_congr_left fun hc => ?_
  have hc : c = 'e' ∨ c = 'E' := by simpa [isExponentMark] using hc
  rw [mem_splitSign (by rcases hc with rfl | rfl <;> decide)
    (by rcases hc with rfl | rfl <;> decide)]
  exact ⟨mem_of_mem_trim, mem_trim_of_mem (by rcases hc with rfl | rfl <;> decide)⟩

end Texts

/-- The key of a text in its canonical form. -/
def encodeCanonical (c : List Char) : List UInt8 :=
  let (neg, body) := stripMinus c
  if c = "NaN".toList then [0x05]
  else if c = "Infinity".toList then [0x04]
  else if c = "-Infinity".toList then [0x00]
  else if body.isEmpty || !body.all isDecimalChar then 0x06 :: encodeBytes (utf8 c)
  else encodeDecimal neg body

theorem encodeCanonical_plainDecimal {neg : Bool} {ip fp : List Char} (h : DecimalParts ip fp) :
    encodeCanonical (plainDecimal neg ip fp) = (scientific neg ip.length (ip ++ fp)).write := by
  obtain ⟨h₁, h₂, h₃⟩ := not_special neg h
  simp only [encodeCanonical, stripMinus_plainDecimal h, if_neg h₁, if_neg h₂, if_neg h₃,
    plainBody_nonempty h, all_plainBody h, encodeDecimal_eq, splitPoint_plainBody h]
  rfl

theorem encodeCanonical_word {t : List Char} (h₁ : t ≠ "NaN".toList) (h₂ : t ≠ "Infinity".toList)
    (h₃ : t ≠ "-Infinity".toList)
    (h : (splitSign t).2 = [] ∨ ¬∀ c ∈ (splitSign t).2, isDecimalChar c = true) :
    encodeCanonical t = (Reading.word (utf8 t)).write := by
  have hbody : ((stripMinus t).2.isEmpty || !(stripMinus t).2.all isDecimalChar) = true := by
    have hor : (stripMinus t).2 = [] ∨ ¬∀ c ∈ (stripMinus t).2, isDecimalChar c = true := by
      rcases splitSign_cases t with ⟨ht, -⟩ | ⟨ht, -⟩ | ⟨ht, -, hm⟩
      · rw [ht] at h ⊢
        exact h
      · rw [ht]
        exact .inr fun hall => absurd (hall '+' (mem_cons_self ..)) (by decide)
      · have hstrip : stripMinus t = (false, t) := by
          unfold stripMinus
          split
          · exact absurd rfl hm
          · rfl
        rw [hstrip]
        rwa [← ht] at h
    simpa using hor
  simp only [encodeCanonical, if_neg h₁, if_neg h₂, if_neg h₃, hbody]
  rfl

section Canonical

variable {neg neg' : Bool} {point : ℤ} {ip fp : List Char}

/-- The digits before the point without leading zeros, one of them left where there are no
others. -/
def canonicalInt (ip : List Char) : List Char :=
  if (ip.dropWhile (· == '0')).isEmpty then ['0'] else ip.dropWhile (· == '0')

theorem scientific_canonicalInt : scientific neg (canonicalInt ip).length (canonicalInt ip ++ fp) =
    scientific neg ip.length (ip ++ fp) := by
  rw [← scientific_dropWhile ip, canonicalInt]
  split_ifs with h
  · rw [List.isEmpty_iff.1 h, singleton_append, scientific_zero_cons]
    rfl
  · rfl

theorem decimalParts_canonicalInt (hip : ∀ c ∈ ip, c.isDigit = true)
    (hfp : ∀ c ∈ fp, isDecimalChar c = true) : DecimalParts (canonicalInt ip) fp := by
  unfold canonicalInt
  split_ifs with h
  · exact ⟨by simp, fun c hc => by rw [mem_singleton.1 hc]; rfl, hfp⟩
  · exact ⟨by simpa using h, fun c hc => hip c ((dropWhile_sublist _).subset hc), hfp⟩

/-- The sign is dropped from zero only. -/
theorem scientific_sign (neg : Bool)
    (h : neg' = neg ∨ canonicalInt ip = ['0'] ∧ ∀ c ∈ fp, c = '0') :
    scientific neg' (canonicalInt ip).length (canonicalInt ip ++ fp) =
      scientific neg (canonicalInt ip).length (canonicalInt ip ++ fp) := by
  rcases h with rfl | ⟨hi, hf⟩
  · rfl
  · have hz : ∀ c ∈ canonicalInt ip ++ fp, c = '0' := by
      rw [hi]
      simpa using hf
    rw [scientific_neg_of_zero hz, scientific_neg_of_zero hz]

end Canonical

theorem isDigit_of_mem_splitPoint {s : List Char} {c : Char}
    (h : ∀ c ∈ s, isDecimalChar c = true) (hc : c ∈ (splitPoint s).1) : c.isDigit = true := by
  have hne : (c != '.') = true := mem_takeWhile_imp (p := (· != '.')) hc
  exact (isDecimalChar_iff.1 (h c ((takeWhile_sublist _).subset hc))).resolve_right
    (by simpa using hne)

/-- A text of digits and points is written with its digits, its sign if it is not zero. -/
theorem encodeCanonical_canonicalNumeric {s : List Char} (hne : (splitSign (trim s)).2 ≠ [])
    (hall : ∀ c ∈ (splitSign (trim s)).2, isDecimalChar c = true) :
    encodeCanonical (canonicalNumeric s) = (scientific (splitSign (trim s)).1
      (splitPoint (splitSign (trim s)).2).1.length ((splitPoint (splitSign (trim s)).2).1 ++
        (splitPoint (splitSign (trim s)).2).2)).write := by
  set neg := (splitSign (trim s)).1
  set body := (splitSign (trim s)).2
  set ip := (splitPoint body).1 with hip
  set fp := (splitPoint body).2 with hfp
  have hcond : (body.isEmpty || !body.all isDecimalChar) = false := by simpa [hne] using hall
  have hcanon : canonicalNumeric s = plainDecimal (neg && !(canonicalInt ip == ['0'] &&
      (fp.rdropWhile (· == '0')).isEmpty)) (canonicalInt ip) (fp.rdropWhile (· == '0')) := by
    unfold canonicalNumeric
    simp only []
    rw [if_neg (by rw [hcond]; simp)]
    rfl
  have hparts : DecimalParts (canonicalInt ip) (fp.rdropWhile (· == '0')) :=
    decimalParts_canonicalInt (fun c hc => isDigit_of_mem_splitPoint hall hc) fun c hc =>
      hall c (mem_splitPoint (mem_append_right _ ((List.rdropWhile_prefix _ _).subset hc)))
  rw [hcanon, encodeCanonical_plainDecimal hparts, scientific_sign neg,
    scientific_canonicalInt, scientific_rdropWhile]
  rcases hz : (canonicalInt ip == ['0'] && (fp.rdropWhile (· == '0')).isEmpty) with _ | _
  · simp
  · simp only [Bool.and_eq_true, beq_iff_eq, List.isEmpty_iff] at hz
    exact .inr ⟨hz.1, by rw [hz.2]; simp⟩

section Parsed

variable {point : ℤ} {ds : List Char}

/-- The plain text of a literal: the exponent has become the place of the point. -/
def movedPoint (point : ℤ) (ds : List Char) : List Char :=
  if point ≤ 0 then "0.".toList ++ replicate (-point).toNat '0' ++ ds
  else if ds.length ≤ point.toNat then ds ++ replicate (point.toNat - ds.length) '0'
  else ds.take point.toNat ++ '.' :: ds.drop point.toNat

theorem splitPoint_digits (ip : List Char) (h : ∀ c ∈ ip, c.isDigit = true) (fp : List Char) :
    splitPoint ip = (ip, []) ∧ splitPoint (ip ++ '.' :: fp) = (ip, fp) := by
  have hne : ∀ c ∈ ip, (c != '.') = true := fun c hc => by
    simpa using ne_of_isDigit (h c hc) (by decide : '.'.isDigit = false)
  unfold splitPoint
  rw [takeWhile_eq_self_iff.2 hne, dropWhile_eq_nil_iff.2 hne, takeWhile_append_of_pos hne,
    dropWhile_append_of_pos hne]
  simp

/-- Moving the point keeps the digits and the number. -/
theorem splitPoint_movedPoint (point : ℤ) (h : ∀ c ∈ ds, c.isDigit = true) :
    (∀ c ∈ (splitPoint (movedPoint point ds)).1, c.isDigit = true) ∧
    (∀ c ∈ (splitPoint (movedPoint point ds)).2, c.isDigit = true) ∧
    ∀ neg, scientific neg (splitPoint (movedPoint point ds)).1.length
      ((splitPoint (movedPoint point ds)).1 ++ (splitPoint (movedPoint point ds)).2) =
      scientific neg point ds := by
  have hzero (n : ℕ) : ∀ c ∈ replicate n '0', c.isDigit = true := fun c hc => by
    rw [eq_of_mem_replicate hc]
    rfl
  unfold movedPoint
  split_ifs with h₀ hle
  · have hsplit := (splitPoint_digits ['0'] (by simp) (replicate (-point).toNat '0' ++ ds)).2
    rw [show "0.".toList ++ replicate (-point).toNat '0' ++ ds =
      ['0'] ++ '.' :: (replicate (-point).toNat '0' ++ ds) from rfl, hsplit]
    refine ⟨by simp, fun c hc => (mem_append.1 hc).elim (hzero _ c) (h c), fun neg => ?_⟩
    rw [singleton_append, scientific_zero_cons, scientific_replicate_append]
    congr 1
    simp only [length_singleton]
    omega
  · have hd : ∀ c ∈ ds ++ replicate (point.toNat - ds.length) '0', c.isDigit = true :=
      fun c hc => (mem_append.1 hc).elim (h c) (hzero _ c)
    rw [(splitPoint_digits _ hd []).1]
    refine ⟨hd, by simp, fun neg => ?_⟩
    rw [append_nil, scientific_append_replicate, length_append, length_replicate]
    congr 1
    omega
  · rw [(splitPoint_digits _ (fun c hc => h c (mem_of_mem_take hc)) _).2]
    refine ⟨fun c hc => h c (mem_of_mem_take hc), fun c hc => h c (mem_of_mem_drop hc),
      fun neg => ?_⟩
    rw [take_append_drop, length_take]
    congr 1
    omega

/-- A text with an exponent is none of the special names. -/
theorem parseNumeric_eq {s : List Char} (he : s.any isExponentMark = true) :
    parseNumeric s = (splitExponent (splitSign (trim s)).2).bind fun (mantissa, exp) =>
      let (ip, fp) := splitPoint mantissa
      let point := ip.length + exp
      if ip.isEmpty && fp.isEmpty then none
      else if !(ip ++ fp).all Char.isDigit then none
      else if point > numericMaxWeight || (ip ++ fp).length - point > numericMaxScale then none
      else
        let (ip', fp') := splitPoint (movedPoint point (ip ++ fp))
        some (plainDecimal
          ((splitSign (trim s)).1 && !(canonicalInt ip' == ['0'] && fp'.all (· == '0')))
          (canonicalInt ip') fp') := by
  rw [← any_exponentMark] at he
  obtain ⟨c, hc, hmark⟩ := any_eq_true.1 he
  have hmark : c = 'e' ∨ c = 'E' := by simpa [isExponentMark] using hmark
  have hname (w : String) (hw : 'e' ∉ w.toList) :
      eqIgnoreAsciiCase (splitSign (trim s)).2 w = false := by
    rw [eqIgnoreAsciiCase, beq_eq_false_iff_ne]
    intro heq
    refine hw (heq ▸ mem_map.2 ⟨c, hc, ?_⟩)
    rcases hmark with rfl | rfl <;> decide
  have ht : (trim s).isEmpty = false := by
    rw [isEmpty_eq_false_iff]
    intro h
    rw [h] at hc
    cases hc
  unfold parseNumeric
  simp only [ht, hname "nan" (by decide), hname "infinity" (by decide), hname "inf" (by decide),
    Bool.false_eq_true, if_false, Bool.or_self]
  rfl

/-- With an exponent, a text is a decimal of the key if the parser takes it, and then its plain form
has the same reading. -/
theorem parseNumeric_cases {s : List Char} (he : s.any isExponentMark = true) :
    decimalDigits (splitSign (trim s)).2 = none ∧ parseNumeric s = none ∨
    ∃ point ds neg ip fp, decimalDigits (splitSign (trim s)).2 = some (point, ds) ∧
      (∀ c ∈ ds, c.isDigit = true) ∧ DecimalParts ip fp ∧
      parseNumeric s = some (plainDecimal neg ip fp) ∧
      scientific neg ip.length (ip ++ fp) = scientific (splitSign (trim s)).1 point ds := by
  have hparse := parseNumeric_eq he
  rw [← any_exponentMark] at he
  set neg := (splitSign (trim s)).1
  set body := (splitSign (trim s)).2
  rw [hparse, decimalDigits]
  rcases hsplit : splitExponent body with _ | ⟨mantissa, exp⟩
  · exact .inl ⟨rfl, rfl⟩
  simp only [Option.bind_some, he, if_true]
  set ip := (splitPoint mantissa).1
  set fp := (splitPoint mantissa).2
  have hempty : (ip ++ fp).isEmpty = (ip.isEmpty && fp.isEmpty) := by
    rw [Bool.eq_iff_iff]
    simp
  rw [hempty]
  rcases ip.isEmpty && fp.isEmpty with _ | _
  swap
  · exact .inl ⟨rfl, rfl⟩
  rcases hdigits : (ip ++ fp).all Char.isDigit with _ | _
  · exact .inl ⟨rfl, rfl⟩
  rcases decide (ip.length + exp > numericMaxWeight) ||
    decide (((ip ++ fp).length : ℤ) - (ip.length + exp) > numericMaxScale) with _ | _
  swap
  · exact .inl ⟨rfl, rfl⟩
  have hd : ∀ c ∈ ip ++ fp, c.isDigit = true := all_eq_true.1 hdigits
  obtain ⟨hip, hfp, hsci⟩ := splitPoint_movedPoint (ip.length + exp) hd
  set ip' := (splitPoint (movedPoint (ip.length + exp) (ip ++ fp))).1
  set fp' := (splitPoint (movedPoint (ip.length + exp) (ip ++ fp))).2
  refine .inr ⟨_, _, _, canonicalInt ip', fp', rfl, hd, decimalParts_canonicalInt hip fun c hc =>
    isDecimalChar_iff.2 (.inl (hfp c hc)), rfl, ?_⟩
  rw [scientific_sign neg, scientific_canonicalInt, hsci]
  rcases hz : (canonicalInt ip' == ['0'] && fp'.all (· == '0')) with _ | _
  · simp
  · simp only [Bool.and_eq_true, beq_iff_eq, all_eq_true] at hz
    exact .inr hz

end Parsed

section Key

variable {s : List Char}

theorem canonicalNumeric_word
    (h : (splitSign (trim s)).2 = [] ∨ ¬∀ c ∈ (splitSign (trim s)).2, isDecimalChar c = true) :
    canonicalNumeric s = trim s := by
  unfold canonicalNumeric
  simp only []
  exact if_pos (by simpa using h)

/-- Without an exponent, the key takes digits and points for a decimal. -/
theorem decimalDigits_unmarked {body : List Char} (h : body.any isExponentMark = false) :
    decimalDigits body = if !body.isEmpty && body.all isDecimalChar then
      some (((splitPoint body).1.length : ℤ), (splitPoint body).1 ++
        (splitPoint body).2) else none := by
  have hsplit : splitExponent body = some (body, 0) := if_neg (Bool.eq_false_iff.1 h)
  simp [decimalDigits, hsplit, h]

theorem numericReading_of_special {w : List Char}
    (hw : w = "NaN".toList ∨ w = "Infinity".toList ∨ w = "-Infinity".toList) (h : trim s = w) :
    encodeNumeric s = (numericReading s).write := by
  have hnone : s.any isExponentMark = false := by
    rw [← any_exponentMark, h]
    rcases hw with rfl | rfl | rfl <;> decide
  have hcanon : encodeNumeric s = encodeCanonical (canonicalNumeric s) :=
    congrArg encodeCanonical (if_neg (Bool.eq_false_iff.1 hnone))
  have hword : ¬∀ c ∈ (splitSign (trim s)).2, isDecimalChar c = true := by
    rw [h, ← all_eq_true]
    rcases hw with rfl | rfl | rfl <;> decide
  rw [hcanon, canonicalNumeric_word (.inr hword), numericReading, h]
  rcases hw with rfl | rfl | rfl <;> rfl

/-- The key of a text is what is written for its reading. -/
theorem encodeNumeric_eq (s : List Char) : encodeNumeric s = (numericReading s).write := by
  by_cases hw : trim s = "NaN".toList ∨ trim s = "Infinity".toList ∨ trim s = "-Infinity".toList
  · exact numericReading_of_special hw rfl
  obtain ⟨h₁, h₂, h₃⟩ : trim s ≠ "NaN".toList ∧ trim s ≠ "Infinity".toList ∧
      trim s ≠ "-Infinity".toList := by simpa [not_or] using hw
  have hcanon : encodeNumeric s = encodeCanonical (if s.any isExponentMark then
    (parseNumeric s).getD (trim s) else canonicalNumeric s) := rfl
  rw [hcanon, numericReading, if_neg h₁, if_neg h₂, if_neg h₃]
  rcases he : s.any isExponentMark with _ | _
  · rw [if_neg (by simp), decimalDigits_unmarked (by rw [any_exponentMark, he])]
    split_ifs with hd
    · simp only [Bool.and_eq_true, Bool.not_eq_true', all_eq_true, isEmpty_eq_false_iff] at hd
      exact encodeCanonical_canonicalNumeric hd.1 hd.2
    · have hd : (splitSign (trim s)).2 = [] ∨
          ¬∀ c ∈ (splitSign (trim s)).2, isDecimalChar c = true := by
        by_contra hno
        rw [not_or, not_not] at hno
        exact hd (by simpa using hno)
      rw [canonicalNumeric_word hd]
      exact encodeCanonical_word h₁ h₂ h₃ hd
  · rw [if_pos rfl]
    obtain ⟨hnone, hparse⟩ | ⟨point, ds, neg, ip, fp, hsome, -, hparts, hparse, hsci⟩ :=
      parseNumeric_cases he
    · rw [hnone, hparse]
      refine encodeCanonical_word h₁ h₂ h₃ (.inr fun hall => ?_)
      rw [← any_exponentMark] at he
      obtain ⟨c, hc, hmark⟩ := any_eq_true.1 he
      have hmark : c = 'e' ∨ c = 'E' := by simpa [isExponentMark] using hmark
      rcases hmark with rfl | rfl <;> exact absurd (hall _ hc) (by decide)
    · rw [hsome, hparse]
      exact (encodeCanonical_plainDecimal hparts).trans (congrArg Reading.write hsci)

theorem fits_numericReading (s : List Char) : (numericReading s).Fits := by
  unfold numericReading
  simp only []
  split_ifs
  · trivial
  · trivial
  · trivial
  rcases hd : decimalDigits (splitSign (trim s)).2 with _ | ⟨point, ds⟩
  · trivial
  refine fits_scientific fun c hc => ?_
  rcases he : s.any isExponentMark with _ | _
  · rw [decimalDigits_unmarked (by rw [any_exponentMark, he])] at hd
    split_ifs at hd with hall
    cases hd
    simp only [Bool.and_eq_true, all_eq_true] at hall
    exact hall.2 c (mem_splitPoint hc)
  · obtain ⟨hnone, -⟩ | ⟨point, ds, neg, ip, fp, hsome, hdigits, -⟩ := parseNumeric_cases he
    · rw [hnone] at hd
      cases hd
    · rw [hsome] at hd
      cases hd
      exact isDecimalChar_iff.2 (.inl (hdigits c hc))

theorem compare_encodeNumeric (s t : List Char) : compare (encodeNumeric s) (encodeNumeric t) =
    (numericReading s).cmp (numericReading t) := by
  rw [encodeNumeric_eq, encodeNumeric_eq]
  exact Reading.compare_write (fits_numericReading s) (fits_numericReading t)

theorem encodeNumeric_eq_iff {s t : List Char} :
    encodeNumeric s = encodeNumeric t ↔ numericReading s = numericReading t := by
  refine ⟨fun h => Reading.eq_of_cmp ?_, fun h => by rw [encodeNumeric_eq, encodeNumeric_eq, h]⟩
  rw [← compare_encodeNumeric, h, Std.compare_self]

end Key

/-! ## Plain decimals -/

/-- A decimal as it is spelled without blanks and without an exponent: a sign, and digits with at
most one point. -/
def PlainText (s : List Char) : Prop :=
  s = "NaN".toList ∨ s = "Infinity".toList ∨ s = "-Infinity".toList ∨
    (splitSign s).2 ≠ [] ∧ s.length < 2 ^ 31 ∧
      ∀ c ∈ (splitPoint (splitSign s).2).1 ++ (splitPoint (splitSign s).2).2, c.isDigit = true

/-- The number that a plain decimal stands for. -/
def decimalValue (s : List Char) : Extended :=
  if s = "NaN".toList then .nan
  else if s = "Infinity".toList then .infinity
  else if s = "-Infinity".toList then .negInfinity
  else
    let (neg, body) := splitSign s
    let (ip, fp) := splitPoint body
    .finite (if neg then -sci ip.length (ip ++ fp) else sci ip.length (ip ++ fp))

section Plain

variable {s : List Char}

theorem numericForm_scientific (neg : Bool) (point : ℤ) {ds : List Char}
    (h : ∀ c ∈ ds, c.isDigit = true) (hmin : -2 ^ 31 ≤ point - ds.length) (hmax : point < 2 ^ 31) :
    NumericForm (.finite (if neg then -sci point ds else sci point ds))
      (scientific neg point ds).write := by
  have hlen : (ds.dropWhile (· == '0')).length ≤ ds.length := (dropWhile_sublist _).length_le
  have hvalue := sci_dropWhile point ds
  rw [← sci_rdropWhile] at hvalue
  rw [← hvalue]
  simp only [scientific]
  by_cases hsig : (ds.dropWhile (· == '0')).rdropWhile (· == '0') = []
  · rw [if_pos hsig, hsig, sci_nil, neg_zero, ite_self]
    exact .zero
  rw [if_neg hsig, Int.bmod_eq_of_le (by omega) (by omega)]
  have hds : Significant ((ds.dropWhile (· == '0')).rdropWhile (· == '0')) := by
    obtain ⟨t, ht⟩ : (ds.dropWhile (· == '0')).rdropWhile (· == '0') <+: ds.dropWhile (· == '0') :=
      rdropWhile_prefix _ _
    refine ⟨fun c hc => h c ((dropWhile_sublist _).subset (ht ▸ mem_append_left t hc)), hsig,
      fun h0 => head_dropWhile_zero ds ?_, getLast_rdropWhile_zero _⟩
    rw [← ht, head?_append_of_ne_nil _ hsig, h0]
  cases neg with
  | true => exact .neg hds (by omega) (by omega)
  | false => exact .pos hds (by omega) (by omega)

theorem isDigit_or_point {body : List Char} (h : ∀ c ∈ (splitPoint body).1 ++ (splitPoint body).2,
    c.isDigit = true) : ∀ c ∈ body, isDecimalChar c = true := by
  intro c hc
  rw [← takeWhile_append_dropWhile (p := (· != '.')) (l := body)] at hc
  rcases mem_append.1 hc with hc | hc
  · exact isDecimalChar_iff.2 (.inl (h c (mem_append_left _ hc)))
  · rcases hd : body.dropWhile (· != '.') with _ | ⟨d, rest⟩
    · rw [hd] at hc
      cases hc
    · rw [hd] at hc
      rcases mem_cons.1 hc with rfl | hc
      · have := head?_dropWhile_not (· != '.') body
        rw [hd] at this
        exact isDecimalChar_iff.2 (.inr (by simpa using this))
      · refine isDecimalChar_iff.2 (.inl (h c (mem_append_right _ ?_)))
        rw [splitPoint, hd]
        exact hc

theorem trim_of_body (h : ∀ c ∈ (splitSign s).2, isDecimalChar c = true) : trim s = s := by
  refine trim_of_forall fun c hc => ?_
  by_cases hm : c = '-'
  · rw [hm]
    decide
  by_cases hp : c = '+'
  · rw [hp]
    decide
  have hd := isDecimalChar_iff.1 (h c ((mem_splitSign hm hp).2 hc))
  exact not_whitespace (hd.imp_right .inl)

/-- The key of a plain decimal is the form of its value. -/
theorem numericForm_plain (h : PlainText s) : NumericForm (decimalValue s) (encodeNumeric s) := by
  by_cases hw : s = "NaN".toList ∨ s = "Infinity".toList ∨ s = "-Infinity".toList
  · rcases hw with rfl | rfl | rfl
    · exact .nan
    · exact .infinity
    · exact .negInfinity
  obtain ⟨h₁, h₂, h₃⟩ : s ≠ "NaN".toList ∧ s ≠ "Infinity".toList ∧ s ≠ "-Infinity".toList := by
    simpa [not_or] using hw
  obtain ⟨hne, hlen, hd⟩ := ((h.resolve_left h₁).resolve_left h₂).resolve_left h₃
  have hall := isDigit_or_point hd
  have htrim := trim_of_body hall
  have hmark : s.any isExponentMark = false := by
    rw [← any_exponentMark, htrim, any_eq_false]
    intro c hc hmark
    have hmark : c = 'e' ∨ c = 'E' := by simpa [isExponentMark] using hmark
    rcases hmark with rfl | rfl <;> exact absurd (hall _ hc) (by decide)
  have hbody : (splitSign s).2.length ≤ s.length := by
    rcases splitSign_cases s with ⟨hs, -⟩ | ⟨hs, -⟩ | ⟨hs, -⟩ <;> conv_rhs => rw [hs]
    all_goals simp
  have hip : (splitPoint (splitSign s).2).1.length ≤ (splitSign s).2.length :=
    (takeWhile_sublist _).length_le
  have hfp : (splitPoint (splitSign s).2).2.length ≤ (splitSign s).2.length :=
    ((drop_sublist 1 _).trans (dropWhile_sublist _)).length_le
  have hform := numericForm_scientific (splitSign s).1
    (splitPoint (splitSign s).2).1.length hd (by rw [length_append]; omega) (by omega)
  rw [encodeNumeric_eq, numericReading, htrim, if_neg h₁, if_neg h₂, if_neg h₃,
    decimalDigits_unmarked (by rw [← htrim, any_exponentMark, hmark]),
    if_pos (by simpa [hne] using hall), decimalValue, if_neg h₁, if_neg h₂, if_neg h₃]
  exact hform

/-- On a NUMERIC text the two readings are one number. -/
theorem plainText_of_numericText (h : NumericText s) :
    PlainText s ∧ decimalValue s = numericValue s := by
  obtain h | h | h | ⟨neg, ip, fp, hne, hdigits, hip, hfp, rfl⟩ := h
  · exact ⟨.inl h, by rw [h]; rfl⟩
  · exact ⟨.inr (.inl h), by rw [h]; rfl⟩
  · exact ⟨.inr (.inr (.inl h)), by rw [h]; rfl⟩
  have hp := decimalParts_of_digits hne hdigits
  obtain ⟨h₁, h₂, h₃⟩ := not_special neg hp
  refine ⟨.inr (.inr (.inr ⟨?_, ?_, ?_⟩)), ?_⟩
  · rw [splitSign_plainDecimal hp]
    simpa using plainBody_nonempty hp
  · have hlen : (plainDecimal neg ip fp).length ≤ ip.length + fp.length + 2 := by
      rw [plainDecimal, length_append, length_append]
      split_ifs <;> simp <;> omega
    have hw : numericMaxWeight = 131072 := rfl
    have hs : numericMaxScale = 16383 := rfl
    omega
  · rw [splitSign_plainDecimal hp, splitPoint_plainBody hp]
    exact hdigits
  · rw [numericValue_plainDecimal hp, decimalValue, if_neg h₁, if_neg h₂, if_neg h₃,
      splitSign_plainDecimal hp]
    simp only [splitPoint_plainBody hp]

theorem numericForm (h : NumericText s) : NumericForm (numericValue s) (encodeNumeric s) := by
  obtain ⟨hplain, hvalue⟩ := plainText_of_numericText h
  exact hvalue ▸ numericForm_plain hplain

end Plain

end Mpedb
