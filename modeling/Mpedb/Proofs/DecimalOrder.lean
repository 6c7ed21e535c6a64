import Mathlib.Algebra.Order.Field.Power
import Mathlib.Data.Char
import Mathlib.Data.List.DropRight
import Mathlib.Tactic.Linarith
import Mathlib.Tactic.Ring
import Mpedb.KeyOrder
import Mpedb.Lib.OrderedCode
import Mpedb.Proofs.Keycode

/-!
# Decimals sort as their values

A decimal is written as its significant digits behind the exponent of the first one, complemented if
it is negative. `sci e ds` is the number `0.ds * 10 ^ e`: dropping zeros at either end of the digits
does not change it, and of two numbers without such zeros the exponent decides, then the digits.
-/

namespace Mpedb

open Code List Bool

/-- The value of a digit. -/
def digit (c : Char) : ℕ := c.toNat - '0'.toNat

variable {c : Char}

theorem digit_spec (h : c.isDigit = true) : c.toNat = 48 + digit c ∧ digit c ≤ 9 := by
  simp only [Char.isDigit, and_eq_true, decide_eq_true_eq] at h
  have h : 48 ≤ c.toNat ∧ c.toNat ≤ 57 := h
  have : '0'.toNat = 48 := rfl
  rw [digit]
  omega

theorem digit_le (h : c.isDigit = true) : digit c ≤ 9 := (digit_spec h).2

theorem toNat_digit (h : c.isDigit = true) : c.toNat = 48 + digit c := (digit_spec h).1

theorem digit_lt {d : Char} (h : c < d) (hc : c.isDigit = true) (hd : d.isDigit = true) :
    digit c < digit d := by
  have hlt : c.toNat < d.toNat := h
  have := toNat_digit hc
  have := toNat_digit hd
  omega

theorem digit_pos (h : c.isDigit = true) (hc : c ≠ '0') : 0 < digit c := by
  by_contra h0
  have := toNat_digit h
  exact hc (Char.ext (UInt32.toNat_inj.1 (by show c.toNat = 48; omega)))

theorem digitsToNat_foldl (ds : List Char) (n : ℕ) :
    ds.foldl (fun n c => 10 * n + (c.toNat - '0'.toNat)) n = n * 10 ^ ds.length +
      digitsToNat ds := by
  induction ds generalizing n with
  | nil => simp [digitsToNat]
  | cons c ds ih =>
    have hhead : digitsToNat (c :: ds) = (10 * 0 + (c.toNat - '0'.toNat)) * 10 ^ ds.length +
        digitsToNat ds :=
      ih _
    rw [foldl_cons, ih, hhead, length_cons]
    ring

theorem digitsToNat_cons (c : Char) (ds : List Char) :
    digitsToNat (c :: ds) = digit c * 10 ^ ds.length + digitsToNat ds := by
  rw [digitsToNat, foldl_cons, digitsToNat_foldl, mul_zero, zero_add]
  rfl

theorem digitsToNat_append (ds es : List Char) :
    digitsToNat (ds ++ es) = digitsToNat ds * 10 ^ es.length + digitsToNat es := by
  rw [digitsToNat, foldl_append, digitsToNat_foldl]
  rfl

/-- The number with the digits `ds` behind the point, `e` places up. -/
def sci (e : ℤ) (ds : List Char) : ℚ := digitsToNat ds * 10 ^ (e - ds.length)

theorem sci_nil (e : ℤ) : sci e [] = 0 := by simp [sci, digitsToNat]

theorem sci_cons (e : ℤ) (c : Char) (ds : List Char) :
    sci e (c :: ds) = digit c * 10 ^ (e - 1) + sci (e - 1) ds := by
  have hlen : e - (c :: ds).length = e - 1 - ds.length := by
    push_cast [length_cons]
    ring
  have hpow : (10 : ℚ) ^ (e - 1) = 10 ^ ds.length * 10 ^ (e - 1 - ds.length) := by
    rw [← zpow_natCast, ← zpow_add₀ (by norm_num), add_sub_cancel]
  rw [sci, sci, digitsToNat_cons, hlen, hpow]
  push_cast
  ring

theorem sci_append (e : ℤ) (ds es : List Char) :
    sci e (ds ++ es) = sci e ds + sci (e - ds.length) es := by
  induction ds generalizing e with
  | nil => simp [sci_nil]
  | cons c ds ih =>
    rw [cons_append, sci_cons, sci_cons, ih, length_cons, Nat.cast_succ, sub_sub, add_comm 1,
      add_assoc]

theorem sci_zero (e : ℤ) : sci e ['0'] = 0 := by
  have h0 : digitsToNat ['0'] = 0 := rfl
  rw [sci, h0, Nat.cast_zero, zero_mul]

theorem sci_dropWhile (e : ℤ) (ds : List Char) :
    sci (e - (ds.length - (ds.dropWhile (· == '0')).length : ℕ))
    (ds.dropWhile (· == '0')) = sci e ds := by
  induction ds generalizing e with
  | nil => simp
  | cons c ds ih =>
    rw [dropWhile_cons]
    split_ifs with hc
    · have hc : c = '0' := by simpa using hc
      have hle : (ds.dropWhile (· == '0')).length ≤ ds.length := (dropWhile_sublist _).length_le
      have h0 : digit '0' = 0 := rfl
      rw [sci_cons, hc, h0, ← ih, length_cons, Nat.sub_add_comm hle, Nat.cast_succ, Nat.cast_zero,
        zero_mul, zero_add, sub_sub, add_comm 1]
    · simp

theorem sci_rdropWhile (e : ℤ) (ds : List Char) : sci e (ds.rdropWhile (· == '0')) = sci e ds := by
  induction ds using List.reverseRecOn with
  | nil => rfl
  | append_singleton ds c ih =>
    rw [rdropWhile_concat]
    split_ifs with hc
    · have hc : c = '0' := by simpa using hc
      rw [ih, hc, sci_append, sci_zero, add_zero]
    · rfl

theorem head_dropWhile_zero (ds : List Char) : (ds.dropWhile (· == '0')).head? ≠ some '0' := by
  intro h
  simpa [h] using List.head?_dropWhile_not (· == '0') ds

theorem getLast_rdropWhile_zero (ds : List Char) :
    (ds.rdropWhile (· == '0')).getLast? ≠ some '0' := by
  rw [List.rdropWhile, List.getLast?_reverse]
  exact head_dropWhile_zero _

theorem sci_nonneg (e : ℤ) (ds : List Char) : 0 ≤ sci e ds := by
  unfold sci
  positivity

section Order

variable {ds es : List Char} {e e' : ℤ}

theorem sci_lt (h : ∀ c ∈ ds, c.isDigit = true) (e : ℤ) : sci e ds < 10 ^ e := by
  induction ds generalizing e with
  | nil =>
    rw [sci_nil]
    positivity
  | cons c ds ih =>
    have hd : (digit c : ℚ) ≤ 9 := by exact_mod_cast digit_le (h c (mem_cons_self ..))
    have hrest := ih (fun c hc => h c (mem_cons_of_mem _ hc)) (e - 1)
    have hpow : (10 : ℚ) ^ e = 10 * 10 ^ (e - 1) := by
      rw [← zpow_one_add₀ (by norm_num), add_sub_cancel]
    have hpos : (0 : ℚ) < 10 ^ (e - 1) := by positivity
    rw [sci_cons]
    nlinarith

/-- Digits without zeros at their ends. -/
structure Significant (ds : List Char) : Prop where
  digits : ∀ c ∈ ds, c.isDigit = true
  nonempty : ds ≠ []
  first : ds.head? ≠ some '0'
  last : ds.getLast? ≠ some '0'

theorem le_sci (h : ∀ c ∈ ds, c.isDigit = true) (hne : ds ≠ [])
    (hfirst : ds.head? ≠ some '0') (e : ℤ) :
    10 ^ (e - 1) ≤ sci e ds := by
  cases ds with
  | nil => exact absurd rfl hne
  | cons c ds =>
    have hc : 0 < digit c := digit_pos (h c (mem_cons_self ..)) fun hc => hfirst (by simp [hc])
    have hc : (1 : ℚ) ≤ digit c := by exact_mod_cast hc
    have hpos : (0 : ℚ) < 10 ^ (e - 1) := by positivity
    rw [sci_cons]
    nlinarith [sci_nonneg (e - 1) ds]

theorem sci_pos_of_last (h : ∀ c ∈ ds, c.isDigit = true) (hne : ds ≠ [])
    (hlast : ds.getLast? ≠ some '0') (e : ℤ) : 0 < sci e ds := by
  induction ds using List.reverseRecOn with
  | nil => exact absurd rfl hne
  | append_singleton ds c _ =>
    have hc : 0 < digit c := digit_pos (h c (by simp)) fun hc => hlast (by simp [hc])
    have hnat : 0 < digitsToNat (ds ++ [c]) := by
      rw [digitsToNat_append, digitsToNat_cons]
      simp only [length_nil]
      omega
    unfold sci
    positivity

theorem sci_pos (h : Significant ds) (e : ℤ) : 0 < sci e ds :=
  sci_pos_of_last h.digits h.nonempty h.last e

theorem sci_lt_of_exponent (hd : ∀ c ∈ ds, c.isDigit = true) (he : ∀ c ∈ es, c.isDigit = true)
    (hne : es ≠ []) (hfirst : es.head? ≠ some '0') (h : e < e') : sci e ds < sci e' es :=
  calc sci e ds < 10 ^ e := sci_lt hd e
    _ ≤ 10 ^ (e' - 1) := zpow_le_zpow_right₀ (by norm_num) (by omega)
    _ ≤ sci e' es := le_sci he hne hfirst e'

/-- The first digit in which they differ decides. -/
theorem sci_lt_of_differ {p u v : List Char} {a b : Char} (hd : ∀ c ∈ p ++ a :: u, c.isDigit = true)
    (he : ∀ c ∈ p ++ b :: v, c.isDigit = true) (hab : a < b) (e : ℤ) :
    sci e (p ++ a :: u) < sci e (p ++ b :: v) := by
  have hlt := digit_lt hab (hd a (by simp)) (he b (by simp))
  have hlt : (digit a : ℚ) + 1 ≤ digit b := by exact_mod_cast hlt
  have hu : sci (e - p.length - 1) u < _ := sci_lt (fun c hc => hd c (by simp [hc])) _
  have hpos : (0 : ℚ) < 10 ^ (e - p.length - 1) := by positivity
  rw [sci_append, sci_append, sci_cons, sci_cons]
  nlinarith [sci_nonneg (e - p.length - 1) v]

theorem sci_lt_of_digits (hd : ∀ c ∈ ds, c.isDigit = true) (he : ∀ c ∈ es, c.isDigit = true)
    (hlast : es.getLast? ≠ some '0') (h : ds < es) (e : ℤ) : sci e ds < sci e es := by
  rcases exists_of_lt h with ⟨p, a, b, u, v, rfl, rfl, hab⟩ | ⟨b, v, rfl⟩
  · exact sci_lt_of_differ hd he hab e
  · rw [List.getLast?_append_of_ne_nil _ (cons_ne_nil b v)] at hlast
    have hv := sci_pos_of_last (fun c hc => he c (mem_append_right _ hc)) (by simp) hlast
    rw [sci_append]
    exact lt_add_of_pos_right _ (hv _)

end Order

section Plain

variable {neg : Bool} {ip fp : List Char}

/-- The parts of a decimal as the key writes it: digits, and behind the first point digits and
points. -/
structure DecimalParts (ip fp : List Char) : Prop where
  nonempty : ip ≠ []
  int : ∀ c ∈ ip, c.isDigit = true
  frac : ∀ c ∈ fp, isDecimalChar c = true

theorem isDecimalChar_iff : isDecimalChar c = true ↔ c.isDigit = true ∨ c = '.' := by
  simp [isDecimalChar]

theorem decimalParts_of_digits (hne : ip ≠ []) (hd : ∀ c ∈ ip ++ fp, c.isDigit = true) :
    DecimalParts ip fp :=
  ⟨hne, fun c hc => hd c (mem_append_left _ hc),
    fun c hc => isDecimalChar_iff.2 (.inl (hd c (mem_append_right _ hc)))⟩

/-- A decimal without its sign. -/
def plainBody (ip fp : List Char) : List Char := ip ++ if fp.isEmpty then [] else '.' :: fp

theorem plainDecimal_eq : plainDecimal neg ip fp = (if neg then ['-'] else []) ++ plainBody ip fp :=
  append_assoc ..

theorem mem_plainBody (h : DecimalParts ip fp) :
    ∀ c ∈ plainBody ip fp, c.isDigit = true ∨ c = '.' := by
  intro c hc
  rcases mem_append.1 hc with hc | hc
  · exact .inl (h.int c hc)
  · split_ifs at hc
    · cases hc
    · rcases mem_cons.1 hc with rfl | hc
      · exact .inr rfl
      · exact isDecimalChar_iff.1 (h.frac c hc)

theorem mem_plainDecimal (h : DecimalParts ip fp) :
    ∀ c ∈ plainDecimal neg ip fp, c.isDigit = true ∨ c = '.' ∨ c = '-' := by
  intro c hc
  rw [plainDecimal_eq] at hc
  rcases mem_append.1 hc with hc | hc
  · split_ifs at hc
    · exact .inr (.inr (by simpa using hc))
    · cases hc
  · rcases mem_plainBody h c hc with hc | hc
    · exact .inl hc
    · exact .inr (.inl hc)

theorem ne_of_isDigit {c d : Char} (h : c.isDigit = true) (hd : d.isDigit = false) : c ≠ d := by
  rintro rfl
  rw [h] at hd
  cases hd

theorem not_mem_plainDecimal (h : DecimalParts ip fp) {d : Char} (hd : d.isDigit = false)
    (hp : d ≠ '.') (hm : d ≠ '-') : d ∉ plainDecimal neg ip fp := by
  intro hmem
  rcases mem_plainDecimal h d hmem with h | h | h
  · exact ne_of_isDigit h hd rfl
  · exact hp h
  · exact hm h

theorem not_whitespace {c : Char} (h : c.isDigit = true ∨ c = '.' ∨ c = '-') :
    isWhitespace c = false := by
  rcases h with h | rfl | rfl
  · have := toNat_digit h
    have := digit_le h
    simp only [isWhitespace, or_eq_false_iff, and_eq_false_iff, decide_eq_false_iff_not,
      beq_eq_false_iff_ne]
    omega
  · decide
  · decide

theorem trim_of_forall {s : List Char} (h : ∀ c ∈ s, isWhitespace c = false) : trim s = s := by
  have hdrop : s.dropWhile isWhitespace = s := by
    cases s with
    | nil => rfl
    | cons c s => rw [dropWhile_cons, if_neg (by simp [h c (mem_cons_self ..)])]
  rw [trim, hdrop, rdropWhile_eq_self_iff]
  intro hne
  simp [h _ (getLast_mem hne)]

section

variable (h : DecimalParts ip fp)

include h

theorem exists_cons_plainBody :
    ∃ c s, plainBody ip fp = c :: s ∧ c.isDigit = true := by
  cases ip with
  | nil => exact absurd rfl h.nonempty
  | cons c ip => exact ⟨c, _, rfl, h.int c (mem_cons_self ..)⟩

theorem splitSign_plainDecimal :
    splitSign (plainDecimal neg ip fp) = (neg, plainBody ip fp) := by
  rw [plainDecimal_eq]
  cases neg with
  | true => rfl
  | false =>
    obtain ⟨c, s, hbody, hc⟩ := exists_cons_plainBody h
    rw [hbody]
    unfold splitSign
    split
    · rename_i heq
      exact absurd (List.cons.inj heq).1 (ne_of_isDigit hc rfl)
    · rename_i heq
      exact absurd (List.cons.inj heq).1 (ne_of_isDigit hc rfl)
    · rfl

theorem stripMinus_plainDecimal :
    stripMinus (plainDecimal neg ip fp) = (neg, plainBody ip fp) := by
  rw [plainDecimal_eq]
  cases neg with
  | true => rfl
  | false =>
    obtain ⟨c, s, hbody, hc⟩ := exists_cons_plainBody h
    rw [hbody]
    unfold stripMinus
    split
    · rename_i heq
      exact absurd (List.cons.inj heq).1 (ne_of_isDigit hc rfl)
    · rfl

theorem splitPoint_plainBody : splitPoint (plainBody ip fp) = (ip, fp) := by
  have hne : ∀ c ∈ ip, (c != '.') = true := fun c hc => by
    simpa using ne_of_isDigit (h.int c hc) (by decide : '.'.isDigit = false)
  unfold splitPoint plainBody
  split_ifs with hf
  · have hf : fp = [] := by simpa using hf
    rw [append_nil, takeWhile_eq_self_iff.2 hne, dropWhile_eq_nil_iff.2 hne, hf]
    rfl
  · rw [takeWhile_append_of_pos hne, dropWhile_append_of_pos hne]
    simp

theorem all_plainBody : (plainBody ip fp).all isDecimalChar = true := by
  refine all_eq_true.2 fun c hc => ?_
  rcases mem_plainBody h c hc with hc | rfl
  · simp [isDecimalChar, hc]
  · rfl

theorem plainBody_nonempty : (plainBody ip fp).isEmpty = false := by
  obtain ⟨c, s, hbody, -⟩ := exists_cons_plainBody h
  rw [hbody]
  rfl

theorem plainDecimal_ne {s : List Char} {d : Char} (hmem : d ∈ s)
    (hd : d.isDigit = false) (hp : d ≠ '.') (hm : d ≠ '-') : plainDecimal neg ip fp ≠ s := by
  rintro rfl
  exact not_mem_plainDecimal h hd hp hm hmem

end

theorem not_special (neg : Bool) (h : DecimalParts ip fp) : plainDecimal neg ip fp ≠ "NaN".toList ∧
    plainDecimal neg ip fp ≠ "Infinity".toList ∧ plainDecimal neg ip fp ≠ "-Infinity".toList :=
  ⟨plainDecimal_ne (d := 'N') h (by decide) rfl (by decide) (by decide),
    plainDecimal_ne (d := 'I') h (by decide) rfl (by decide) (by decide),
    plainDecimal_ne (d := 'I') h (by decide) rfl (by decide) (by decide)⟩

theorem numericValue_plainDecimal (h : DecimalParts ip fp) :
    numericValue (plainDecimal neg ip fp) =
      .finite (if neg then -sci ip.length (ip ++ fp) else sci ip.length (ip ++ fp)) := by
  obtain ⟨h₁, h₂, h₃⟩ := not_special neg h
  have hsci : (digitsToNat (ip ++ fp) : ℚ) / 10 ^ fp.length = sci ip.length (ip ++ fp) := by
    rw [sci, length_append, div_eq_mul_inv, ← zpow_natCast, ← zpow_neg, Nat.cast_add,
      sub_add_cancel_left]
  rw [numericValue, if_neg h₁, if_neg h₂, if_neg h₃, stripMinus_plainDecimal h]
  simp only [splitPoint_plainBody h, hsci]

theorem sci_trimmed (ip fp : List Char) : sci (ip.dropWhile (· == '0')).length
    (ip.dropWhile (· == '0') ++ fp.rdropWhile (· == '0')) = sci ip.length (ip ++ fp) := by
  have hle : (ip.dropWhile (· == '0')).length ≤ ip.length := (dropWhile_sublist _).length_le
  have h := sci_dropWhile ip.length ip
  rw [Nat.cast_sub hle, sub_sub_cancel] at h
  rw [sci_append, sci_append, sci_rdropWhile, h, sub_self, sub_self]

end Plain

/-- What is written for each number. -/
inductive NumericForm : Extended → List UInt8 → Prop
  | negInfinity : NumericForm .negInfinity [0x00]
  | neg {e : ℤ} {ds : List Char} (hds : Significant ds) (hmin : -2 ^ 31 ≤ e) (hmax : e < 2 ^ 31) :
      NumericForm (.finite (-sci e ds)) (0x01 :: ((Bytes.be 4 (e + 2 ^ 31).toNat).map (~~~·) ++
        ((utf8 ds).map (~~~·) ++ [0xff])))
  | zero : NumericForm (.finite 0) [0x02]
  | pos {e : ℤ} {ds : List Char} (hds : Significant ds) (hmin : -2 ^ 31 ≤ e) (hmax : e < 2 ^ 31) :
      NumericForm (.finite (sci e ds))
        (0x03 :: (Bytes.be 4 (e + 2 ^ 31).toNat ++ (utf8 ds ++ [0x00])))
  | infinity : NumericForm .infinity [0x04]
  | nan : NumericForm .nan [0x05]

theorem utf8_digit (h : c.isDigit = true) :
    String.utf8EncodeChar c = [UInt8.ofNat (48 + digit c)] := by
  have hc : c.val.toNat = 48 + digit c := toNat_digit h
  have hd := digit_le h
  simp only [String.utf8EncodeChar]
  rw [if_pos (by omega), hc]

theorem toNat_digitByte (h : c.isDigit = true) :
    (UInt8.ofNat (48 + digit c)).toNat = 48 + digit c := by
  have hd := digit_le h
  exact UInt8.toNat_ofNat_of_lt' (by show _ < 256; omega)

section Words

variable {ds es : List Char} {e e' : ℤ}

theorem utf8_eq_map (h : ∀ c ∈ ds, c.isDigit = true) :
    utf8 ds = ds.map fun c => UInt8.ofNat (48 + digit c) := by
  induction ds with
  | nil => rfl
  | cons c ds ih =>
    have hrest := ih fun c hc => h c (mem_cons_of_mem _ hc)
    rw [utf8] at hrest ⊢
    rw [flatMap_cons, utf8_digit (h c (mem_cons_self ..)), hrest]
    rfl

theorem utf8_lt (hd : ∀ c ∈ ds, c.isDigit = true) (he : ∀ c ∈ es, c.isDigit = true) (h : ds < es) :
    utf8 ds < utf8 es := by
  rw [utf8_eq_map hd, utf8_eq_map he]
  rcases exists_of_lt h with ⟨p, a, b, u, v, rfl, rfl, hab⟩ | ⟨b, v, rfl⟩
  · have ha := hd a (by simp)
    have hb := he b (by simp)
    have hlt : UInt8.ofNat (48 + digit a) < UInt8.ofNat (48 + digit b) := by
      have := digit_lt hab ha hb
      rw [UInt8.lt_iff_toNat_lt, toNat_digitByte ha, toNat_digitByte hb]
      omega
    rw [map_append, map_append]
    exact append_left_lt (cons_lt_cons_iff.2 (.inl hlt))
  · rw [map_append]
    simpa using append_left_lt (nil_lt_cons (UInt8.ofNat (48 + digit b)) _)

theorem utf8_pos (h : ∀ c ∈ ds, c.isDigit = true) : ∀ b ∈ utf8 ds, 0x00 < b := by
  intro b hb
  rw [utf8_eq_map h] at hb
  obtain ⟨c, hc, rfl⟩ := mem_map.1 hb
  rw [UInt8.lt_iff_toNat_lt, toNat_digitByte (h c hc)]
  exact Nat.lt_of_lt_of_le (by decide : 0 < 48) (Nat.le_add_right ..)

theorem not_strictAnti : StrictAnti (fun b : UInt8 => ~~~b) := by
  intro a b h
  have hlt := UInt8.lt_iff_toNat_lt.1 h
  have hb := b.toNat_lt
  have hsize : UInt8.size = 256 := rfl
  rw [UInt8.lt_iff_toNat_lt, UInt8.toNat_not, UInt8.toNat_not]
  omega

theorem sci_lt_cases (hd : Significant ds) (he : Significant es) (h : sci e ds < sci e' es) :
    e < e' ∨ e = e' ∧ ds < es := by
  rcases lt_trichotomy e e' with hlt | rfl | hgt
  · exact .inl hlt
  · rcases lt_trichotomy ds es with hlt | rfl | hgt
    · exact .inr ⟨rfl, hlt⟩
    · exact absurd h (lt_irrefl _)
    · exact absurd (sci_lt_of_digits he.digits hd.digits hd.last hgt e) h.not_gt
  · exact absurd (sci_lt_of_exponent he.digits hd.digits hd.nonempty hd.first hgt) h.not_gt

theorem sci_inj (hd : Significant ds) (he : Significant es) (h : sci e ds = sci e' es) :
    e = e' ∧ ds = es := by
  rcases lt_trichotomy e e' with hlt | rfl | hgt
  · exact absurd h (sci_lt_of_exponent hd.digits he.digits he.nonempty he.first hlt).ne
  · rcases lt_trichotomy ds es with hlt | rfl | hgt
    · exact absurd h (sci_lt_of_digits hd.digits he.digits he.last hlt e).ne
    · exact ⟨rfl, rfl⟩
    · exact absurd h (sci_lt_of_digits he.digits hd.digits hd.last hgt e).ne'
  · exact absurd h (sci_lt_of_exponent he.digits hd.digits hd.nonempty hd.first hgt).ne'

theorem biased_lt (hmin : -2 ^ 31 ≤ e) (hmax : e' < 2 ^ 31) (h : e < e') :
    Bytes.be 4 (e + 2 ^ 31).toNat < Bytes.be 4 (e' + 2 ^ 31).toNat := by
  have hlt := Bytes.be_append_lt [] [] 4 (show (e + 2 ^ 31).toNat < (e' + 2 ^ 31).toNat by omega)
    (by omega)
  rwa [append_nil, append_nil] at hlt

theorem ahead_pos (hd : Significant ds) (he : Significant es) (hmin : -2 ^ 31 ≤ e)
    (hmax : e' < 2 ^ 31) (h : sci e ds < sci e' es) :
    Ahead (Bytes.be 4 (e + 2 ^ 31).toNat ++ (utf8 ds ++ [0x00]))
      (Bytes.be 4 (e' + 2 ^ 31).toNat ++ (utf8 es ++ [0x00])) := by
  rcases sci_lt_cases hd he h with hlt | ⟨rfl, hlt⟩
  · exact (ahead_of_length (by simp) (biased_lt hmin hmax hlt)).append _ _
  · exact (ahead_terminated (utf8_pos he.digits) (utf8_lt hd.digits he.digits hlt)).append_left _

theorem ahead_neg (hd : Significant ds) (he : Significant es) (hmin : -2 ^ 31 ≤ e)
    (hmax : e' < 2 ^ 31) (h : sci e ds < sci e' es) :
    Ahead ((Bytes.be 4 (e' + 2 ^ 31).toNat).map (~~~·) ++ ((utf8 es).map (~~~·) ++ [0xff]))
      ((Bytes.be 4 (e + 2 ^ 31).toNat).map (~~~·) ++ ((utf8 ds).map (~~~·) ++ [0xff])) := by
  rcases sci_lt_cases hd he h with hlt | ⟨rfl, hlt⟩
  · exact (ahead_map_of_length not_strictAnti (by simp) (biased_lt hmin hmax hlt)).append _ _
  · exact (ahead_map_terminated not_strictAnti (utf8_pos he.digits)
      (utf8_lt hd.digits he.digits hlt)).append_left _

end Words

theorem NumericForm.ahead {x y : Extended} {u v : List UInt8} (hu : NumericForm x u)
    (hv : NumericForm y v) (h : x < y) : Ahead u v := by
  have hfinite {p q : ℚ} (h : Extended.finite p < .finite q) : p < q := by
    simpa [Extended.finite, Prod.Lex.toLex_lt_toLex] using h
  have hrank {m n : ℕ} {p q : ℚ} (hmn : n < m) : ¬ (toLex (m, p) : Extended) < toLex (n, q) := by
    rw [Prod.Lex.toLex_lt_toLex]
    rintro (h | ⟨h, -⟩)
    · exact absurd h hmn.not_gt
    · exact hmn.ne' h
  cases hu <;> cases hv
  case neg.neg hds hmin hmax e' es hes hmin' hmax' =>
    exact (ahead_neg hes hds hmin' hmax (neg_lt_neg_iff.1 (hfinite h))).cons _
  case pos.pos hds hmin hmax e' es hes hmin' hmax' =>
    exact (ahead_pos hds hes hmin hmax' (hfinite h)).cons _
  case zero.neg e es hes _ _ => exact absurd (hfinite h) (by linarith [sci_pos hes e])
  case pos.zero e ds hds _ _ => exact absurd (hfinite h) (by linarith [sci_pos hds e])
  case pos.neg e ds hds _ _ e' es hes _ _ =>
    exact absurd (hfinite h) (by linarith [sci_pos hes e', sci_pos hds e])
  all_goals first
    | exact ahead_of_head_lt (by decide) _ _
    | exact absurd h (lt_irrefl _)
    | exact absurd h (hrank (by decide))

theorem NumericForm.unique {x y : Extended} {u v : List UInt8} (hu : NumericForm x u)
    (hv : NumericForm y v) (h : x = y) : u = v := by
  have hfinite {p q : ℚ} (h : Extended.finite p = .finite q) : p = q := by
    simpa [Extended.finite] using h
  have hrank {m n : ℕ} {p q : ℚ} (hmn : m ≠ n) : (toLex (m, p) : Extended) ≠ toLex (n, q) :=
    fun h => hmn (congrArg Prod.fst (toLex_inj.1 h))
  cases hu <;> cases hv
  case neg.neg hds _ _ e' es hes _ _ =>
    obtain ⟨rfl, rfl⟩ := sci_inj hds hes (neg_inj.1 (hfinite h))
    rfl
  case pos.pos hds _ _ e' es hes _ _ =>
    obtain ⟨rfl, rfl⟩ := sci_inj hds hes (hfinite h)
    rfl
  case neg.zero e ds hds _ _ | pos.zero e ds hds _ _ | zero.neg e ds hds _ _
      | zero.pos e ds hds _ _ =>
    exact absurd (hfinite h) (by linarith [sci_pos hds e])
  case neg.pos e ds hds _ _ e' es hes _ _ | pos.neg e ds hds _ _ e' es hes _ _ =>
    exact absurd (hfinite h) (by linarith [sci_pos hds e, sci_pos hes e'])
  all_goals first
    | rfl
    | exact absurd h (hrank (by decide))

end Mpedb
