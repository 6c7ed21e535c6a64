import Mpedb.Lib.BitMask
import Mpedb.RowCodec

/-!
# What the row encoder writes is what the readers read

The encoder's head is a bitmap and one slot after another (`encodeColumns_eq`), the readers find the
slot of a column by the widths before it, and a slot is read back when the four bytes of its offset
lead to its body (`decodeSlot_iff`). They keep the offset modulo `2 ^ 32`.
-/

namespace Mpedb.RowCodec

open Bytes Checked List Outcome Value

/-! ## The head as bitmap and slots -/

/-- The bytes of a value in its slot. -/
def payload (start : ℕ) : Value → List UInt8
  | .null => []
  | .int x | .timestamp x | .date x | .time x => le 8 x.toUInt64.toNat
  | .float x => le 8 x.bits.toNat
  | .bool x => [x.toUInt8]
  | .text s | .numeric s => le 4 start ++ le 4 (utf8 s.toList).length
  | .blob b => le 4 start ++ le 4 b.length

/-- The slot of a value. -/
def slot (start : ℕ) (v : Value) (ty : ColumnType) : List UInt8 :=
  if v.isNull then List.replicate (fixedWidth ty) 0
  else if ty = .any then
    [anyTag v] ++ (payload start v ++ List.replicate (8 - (payload start v).length) 0)
  else payload start v

/-- The slots of a row. -/
def slots : ℕ → Row → List ColumnType → List UInt8
  | start, v :: values, ty :: types => slot start v ty ++ slots (start + v.varLen) values types
  | _, _, _ => []

/-- The bitmap with the NULLs of a row marked, from the column `i` on. -/
def markNulls : ℕ → List UInt8 → Row → List UInt8
  | _, bm, [] => bm
  | i, bm, v :: values =>
    markNulls (i + 1)
      (if v.isNull then bm.modify (i / 8) (· ||| ((1 : UInt8) <<< UInt8.ofNat (i % 8))) else bm)
      values

variable {v : Value}

theorem isNull_iff : v.isNull = true ↔ v = .null := by cases v <;> simp [isNull]

theorem varLen_eq (v : Value) : v.varLen = ((body v).getD []).length := by cases v <;> rfl

theorem length_payload_le (start : ℕ) (v : Value) : (payload start v).length ≤ 8 := by
  cases v <;> simp [payload]

variable {start : ℕ} {ty : ColumnType}

theorem length_payload (h : v.columnType = some ty) : (payload start v).length = fixedWidth ty := by
  cases v <;> cases h <;> simp [payload, fixedWidth]

theorem columnType_of_fits (h : v.fits ty = true)
    (hnull : v.isNull = false) (hany : ty ≠ .any) : v.columnType = some ty := by
  rw [fits] at h
  cases v <;> simp_all [columnType, isNull]

theorem length_slot (h : v.fits ty = true) : (slot start v ty).length = fixedWidth ty := by
  unfold slot
  split_ifs with hnull hany
  · simp
  · have := length_payload_le start v
    subst hany
    simp only [length_append, length_replicate, length_singleton, fixedWidth]
    omega
  · exact length_payload (columnType_of_fits h (by simpa using hnull) hany)

/-- The payload takes the place of the zeroes that were reserved for it. -/
theorem encodeAt_eq (p : Parts) {pre post : List UInt8} (i : ℕ) (hnull : v.isNull = false)
    (hlen : v.varLen ≤ 2 ^ 32 - 1) :
    encodeAt p (pre ++ (List.replicate (payload p.varLen v).length 0 ++ post)) pre.length i v =
      .ok { p with
        head := pre ++ (payload p.varLen v ++ post)
        bodies := p.bodies ++ (body v).toList
        varLen := p.varLen + v.varLen } := by
  have hpoint : ∀ bytes : List UInt8, bytes.length ≤ 2 ^ 32 - 1 →
      encodeAt.pointAt p (pre ++ (List.replicate 8 0 ++ post)) pre.length bytes =
        .ok { p with
          head := pre ++ ((le 4 p.varLen ++ le 4 bytes.length) ++ post)
          bodies := p.bodies ++ [bytes]
          varLen := p.varLen + bytes.length } := by
    intro bytes hbytes
    have h1 : (put (pre ++ (List.replicate 8 0 ++ post)) pre.length (le 4 p.varLen) : Res _) =
        .ok (pre ++ (le 4 p.varLen ++ (List.replicate 4 0 ++ post))) := by
      rw [replicate_add 4 4, append_assoc]
      exact put_append rfl (by simp)
    have h2 : (put (pre ++ (le 4 p.varLen ++ (List.replicate 4 0 ++ post))) (pre.length + 4)
        (le 4 bytes.length) : Res _) =
        .ok (pre ++ (le 4 p.varLen ++ (le 4 bytes.length ++ post))) := by
      rw [← append_assoc pre, put_append (by simp) (by simp), append_assoc]
    simp only [encodeAt.pointAt, if_neg (not_lt.2 hbytes), h1, h2, bind, Except.bind,
      pure, Except.pure, append_assoc]
  cases v with
  | null => cases hnull
  | text s | numeric s =>
    simpa [encodeAt, payload, body, Value.varLen] using hpoint (utf8 s.toList) hlen
  | blob b => simpa [encodeAt, payload, body, Value.varLen] using hpoint b hlen
  | int x | float x | bool x | timestamp x | date x | time x =>
    simp only [encodeAt, payload, body, Value.varLen, put_append rfl (length_replicate ..)]
    simp [bind, Except.bind, pure, Except.pure]

/-- One column more: its NULL bit, its slot and its body. -/
theorem encodeValue_eq {bm done post : List UInt8} {bodies : List (List UInt8)} {i : ℕ}
    (hfit : v.fits ty = true) (hlen : v.varLen ≤ 2 ^ 32 - 1) (hi : i / 8 < bm.length) :
    encodeValue ⟨bm ++ (done ++ (List.replicate (fixedWidth ty) 0 ++ post)), bodies, start,
        bm.length + done.length⟩ i v ty =
      .ok ⟨markNulls i bm [v] ++ (done ++ (slot start v ty ++ post)), bodies ++ (body v).toList,
        start + v.varLen, bm.length + done.length + fixedWidth ty⟩ := by
  have hpre : ∀ x y : List UInt8, bm ++ (done ++ (x ++ y)) = (bm ++ done) ++ (x ++ y) := by simp
  have hcur : bm.length + done.length = (bm ++ done).length := by simp
  by_cases hnull : v.isNull = true
  · obtain rfl := isNull_iff.1 hnull
    simp only [encodeValue, encodeAt, Value.isNull, update_append _ hi, markNulls, slot]
    simp [bind, Except.bind, pure, Except.pure, body, Value.varLen]
  · have hn : v.isNull = false := by simpa using hnull
    simp only [markNulls, hn, slot]
    by_cases hany : ty = .any
    · subst hany
      -- the nine bytes are the tag, the value and what the value leaves of the eight
      have hz : List.replicate (fixedWidth .any) (0 : UInt8) = [0] ++
          (List.replicate (payload start v).length 0 ++
            List.replicate (8 - (payload start v).length) 0) := by
        have := length_payload_le start v
        rw [← replicate_add, show (payload start v).length + (8 - (payload start v).length) =
          8 by omega]
        rfl
      have htag : (put (bm ++ (done ++ (List.replicate (fixedWidth .any) 0 ++ post)))
          (bm.length + done.length) [anyTag v] : Res _) =
          .ok ((bm ++ done ++ [anyTag v]) ++ (List.replicate (payload start v).length 0 ++
            (List.replicate (8 - (payload start v).length) 0 ++ post))) := by
        rw [hpre, hz, append_assoc [0], put_append hcur (by simp)]
        simp only [append_assoc]
      have hcur' : bm.length + done.length + 1 = (bm ++ done ++ [anyTag v]).length := by
        simp [add_assoc]
      rw [encodeValue, if_pos ⟨rfl, by simp [hn]⟩, htag, hcur']
      simp only [bind, Except.bind, pure, Except.pure, encodeAt_eq _ i hn hlen]
      simp [append_assoc]
    · have hw : (payload start v).length = fixedWidth ty :=
        length_payload (columnType_of_fits hfit hn hany)
      rw [encodeValue, if_neg (fun h => hany h.1), hpre, hcur, ← hw]
      simp only [bind, Except.bind, pure, Except.pure, encodeAt_eq _ i hn hlen, if_neg hany]
      simp [append_assoc]

theorem length_markNulls : ∀ (values : Row) (i : ℕ) (bm : List UInt8),
    (markNulls i bm values).length = bm.length
  | [], _, _ => rfl
  | v :: values, i, bm => by
    rw [markNulls, length_markNulls values]
    split_ifs <;> simp

/-- Every value fits its column. -/
abbrev Fits (values : Row) (types : List ColumnType) : Prop :=
  List.Forall₂ (fun v ty => v.fits ty = true) values types

/-- The bytes of the bodies. -/
def varSum (values : Row) : ℕ := (values.map Value.varLen).sum

theorem varSum_cons (v : Value) (values : Row) : varSum (v :: values) = v.varLen + varSum values :=
  rfl

theorem fixedTotal_cons (ty : ColumnType) (types : List ColumnType) :
    fixedTotal (ty :: types) = fixedWidth ty + fixedTotal types := rfl

variable {values : Row}

/-- By recursion on the columns; what is done lies before the reserved zeroes. -/
theorem encodeColumns_eq {types : List ColumnType} (hfit : Fits values types)
    (hlen : ∀ v ∈ values, v.varLen ≤ 2 ^ 32 - 1) :
    ∀ {bm done : List UInt8} {bodies : List (List UInt8)}
      {start i : ℕ}, i + values.length ≤ 8 * bm.length →
    encodeColumns i ⟨bm ++ (done ++ List.replicate (fixedTotal types) 0), bodies, start,
        bm.length + done.length⟩ (values.map .scalar) types =
      .ok ⟨markNulls i bm values ++ (done ++ slots start values types),
        bodies ++ values.filterMap body, start + varSum values,
        bm.length + done.length + fixedTotal types⟩ := by
  induction hfit with
  | nil => intro bm done bodies start i _; simp [encodeColumns, fixedTotal,
      markNulls, slots, varSum]
  | @cons v ty values types hv _ ih =>
    intro bm done bodies start i hi
    obtain ⟨hvlen, hlen⟩ := forall_mem_cons.1 hlen
    rw [length_cons] at hi
    have hib : i / 8 < bm.length := by omega
    have hbm : (markNulls i bm [v]).length = bm.length := length_markNulls ..
    have hslot : (slot start v ty).length = fixedWidth ty := length_slot hv
    have hrest := @ih hlen (markNulls i bm [v]) (done ++ slot start v ty)
      (bodies ++ (body v).toList)
      (start + v.varLen) (i + 1) (by rw [hbm]; omega)
    simp only [hbm, length_append, hslot, append_assoc, ← add_assoc] at hrest
    have hbodies : (v :: values).filterMap body = (body v).toList ++ values.filterMap body := by
      cases hb : body v <;> simp [hb]
    rw [map_cons, encodeColumns, encodeDatum, fixedTotal_cons, replicate_add,
      encodeValue_eq hv hvlen hib, hbodies, varSum_cons]
    simp only [← add_assoc]
    exact hrest

/-- The bitmap of a row. -/
def bitmap (values : Row) : List UInt8 :=
  markNulls 0 (List.replicate (bitmapLen values.length) 0) values

/-- The bodies of a row, one after the other. -/
def bodies (values : Row) : List UInt8 := (values.filterMap body).flatten

/-- The bytes of a row. -/
def image (values : Row) (types : List ColumnType) : List UInt8 :=
  bitmap values ++ (slots 0 values types ++ bodies values)

section Encode

variable {values : Row} {types : List ColumnType}

@[simp] theorem length_bitmap : (bitmap values).length = bitmapLen values.length := by
  rw [bitmap, length_markNulls, length_replicate]

theorem length_slots (hfit : Fits values types) (start : ℕ) :
    (slots start values types).length = fixedTotal types := by
  induction hfit generalizing start with
  | nil => rfl
  | cons hv _ ih => rw [slots, length_append, length_slot hv, ih, fixedTotal_cons]

theorem length_bodies (values : Row) : (bodies values).length = varSum values := by
  induction values with
  | nil => rfl
  | cons v values ih =>
    rw [varSum_cons, ← ih, varLen_eq]
    cases hb : body v <;> simp [bodies, hb]

theorem encodeRowParts_eq (hfit : Fits values types) (hlen : ∀ v ∈ values, v.varLen ≤ 2 ^ 32 - 1) :
    encodeRowParts (values.map .scalar) types = .ok
    (bitmap values ++ slots 0 values types, values.filterMap body) := by
  have hcols : types.length = values.length := hfit.length_eq.symm
  have hroom : 0 + values.length ≤
      8 * (List.replicate (bitmapLen values.length) (0 : UInt8)).length := by
    rw [length_replicate, bitmapLen]
    omega
  have hrun := @encodeColumns_eq _ _ hfit hlen _ [] [] 0 0 hroom
  rw [encodeRowParts, hcols, replicate_add]
  simp only [nil_append, length_nil, length_replicate, add_zero] at hrun
  simp only [hrun]
  rfl

theorem foldl_append (bodies : List (List UInt8)) (buf : List UInt8) :
    bodies.foldl (· ++ ·) buf = buf ++ bodies.flatten := by
  induction bodies generalizing buf with
  | nil => simp
  | cons b bodies ih => simp [ih]

theorem encodeRow_eq (hfit : Fits values types) (hlen : ∀ v ∈ values, v.varLen ≤ 2 ^ 32 - 1) :
    encodeRow (values.map .scalar) types = .ok (image values types) := by
  rw [encodeRow, encodeRowParts_eq hfit hlen]
  simp only [bind, Except.bind, pure, Except.pure, foldl_append, image, bodies, append_assoc]

theorem length_image (hfit : Fits values types) :
    (image values types).length = encodedLen (values.map .scalar) types := by
  have hvar : ((values.map Datum.scalar).map varLen).sum = varSum values := by
    rw [map_map]
    rfl
  simp only [image, length_append, length_bitmap, length_slots hfit, length_bodies,
    encodedLen, hvar, hfit.length_eq, add_assoc]

/-- A length that does not fit 32 bits is refused. -/
theorem varLen_le_of_encodeValue {p q : Parts} {i : ℕ} {v : Value} {ty : ColumnType}
    (h : encodeValue p i v ty = .ok q) : v.varLen ≤ 2 ^ 32 - 1 := by
  have hat : ∀ {head : List UInt8} {off : ℕ} {q : Parts}, encodeAt p head off i v = .ok q →
      v.varLen ≤ 2 ^ 32 - 1 := by
    intro head off q h
    have hpoint : ∀ {bytes : List UInt8}, encodeAt.pointAt p head off bytes = .ok q →
        bytes.length ≤ 2 ^ 32 - 1 := by
      intro bytes h
      by_contra hlt
      rw [encodeAt.pointAt, if_pos (by omega)] at h
      cases h
    cases v with
    | text | numeric | blob => exact hpoint h
    | _ => exact Nat.zero_le _
  rw [encodeValue] at h
  split_ifs at h
  · obtain ⟨head, -, h⟩ := bind_eq_ok.1 h
    obtain ⟨_, hq, -⟩ := bind_eq_ok.1 h
    exact hat hq
  · obtain ⟨_, hq, -⟩ := bind_eq_ok.1 h
    exact hat hq

theorem varLen_le_of_encodeColumns (hfit : Fits values types) : ∀ {i : ℕ} {p q : Parts},
    encodeColumns i p (values.map .scalar) types = .ok q → ∀ v ∈ values, v.varLen ≤ 2 ^ 32 - 1 := by
  induction hfit with
  | nil => exact fun _ => forall_mem_nil _
  | cons _ _ ih =>
    intro i p q h
    obtain ⟨p', hp, h⟩ := bind_eq_ok.1 h
    exact forall_mem_cons.2 ⟨varLen_le_of_encodeValue hp, ih h⟩

theorem varLen_le_of_encodeRow (hfit : Fits values types) {buf : List UInt8}
    (h : encodeRow (values.map .scalar) types = .ok buf) : ∀ v ∈ values, v.varLen ≤ 2 ^ 32 - 1 := by
  obtain ⟨parts, hparts, -⟩ := bind_eq_ok.1 h
  obtain ⟨p, hp, -⟩ := bind_eq_ok.1 hparts
  exact varLen_le_of_encodeColumns hfit hp

end Encode

/-! ## The null bits -/

theorem toNat_bit (i : ℕ) : ((1 : UInt8) <<< UInt8.ofNat (i % 8)).toNat = 2 ^ (i % 8) := by
  have hbits : ∀ k < 8, ((1 : UInt8) <<< UInt8.ofNat k).toNat = 2 ^ k := by decide
  exact hbits _ (Nat.mod_lt _ (by decide))

theorem nullBit_eq (byte : UInt8) (i : ℕ) : nullBit byte i = byte.toNat.testBit (i % 8) := by
  have hand : (byte &&& ((1 : UInt8) <<< UInt8.ofNat (i % 8))).toNat =
      (byte.toNat.testBit (i % 8)).toNat * 2 ^ (i % 8) := by
    rw [UInt8.toNat_and, toNat_bit, Nat.and_two_pow]
  unfold nullBit
  cases hb : byte.toNat.testBit (i % 8)
  · have : byte &&& ((1 : UInt8) <<< UInt8.ofNat (i % 8)) = 0 :=
      UInt8.toNat_inj.1 (by simpa [hb] using hand)
    simp [this]
  · have : byte &&& ((1 : UInt8) <<< UInt8.ofNat (i % 8)) ≠ 0 := by
      intro h
      rw [h, hb] at hand
      have hpos := Nat.two_pow_pos (i % 8)
      simp at hand
      omega
    simpa using this

theorem map_markNulls : ∀ (values : Row) (i : ℕ) (bm : List UInt8),
    (markNulls i bm values).map UInt8.toNat =
      ((values.map isNull).foldl (BitMask.mark 8) (bm.map UInt8.toNat, i)).1
  | [], _, _ => rfl
  | v :: values, i, bm => by
    have hstep :
        (if v.isNull then bm.modify (i / 8)
          (· ||| ((1 : UInt8) <<< UInt8.ofNat (i % 8))) else bm).map
        UInt8.toNat = (BitMask.mark 8 (bm.map UInt8.toNat, i) v.isNull).1 := by
      unfold BitMask.mark BitMask.set
      split_ifs
      · refine ext_getElem (by simp) fun j h1 h2 => ?_
        rw [getElem_map, getElem_modify, getElem_modify]
        split_ifs
        · rw [UInt8.toNat_or, toNat_bit, getElem_map]
        · rw [getElem_map]
      · rfl
    rw [markNulls, map_markNulls values, hstep]
    rfl

theorem nullBit_bitmap {col : ℕ} (hv : values[col]? = some v) (rest : List UInt8) (e : Error) :
    ∃ byte, get e (bitmap values ++ rest) (col / 8) = .ok byte ∧ nullBit byte col = v.isNull := by
  obtain ⟨hcol, rfl⟩ := List.getElem?_eq_some_iff.1 hv
  have hbyte : col / 8 < (bitmap values).length := by
    rw [length_bitmap, bitmapLen]
    omega
  have hbits : (bitmap values).map UInt8.toNat = BitMask.ofList 8 (values.map isNull) := by
    rw [bitmap, map_markNulls, BitMask.ofList, BitMask.empty]
    simp [bitmapLen]
  refine ⟨(bitmap values)[col / 8], ?_, ?_⟩
  · rw [get_of_lt (by rw [length_append]; omega), getElem_append_left hbyte]
  · have hread := BitMask.get_ofList (w := 8) (by decide) (values.map isNull) col
    rw [← hbits, BitMask.get, getD_eq_getElem _ _ (by simpa using hbyte), getElem_map] at hread
    rw [nullBit_eq, hread, getD_eq_getElem _ _ (by simpa using hcol), getElem_map]

/-! ## Reading a slot -/

theorem fromUTF8?_eq_some {bytes : List UInt8} {s : String} :
    String.fromUTF8? ⟨bytes.toArray⟩ = some s ↔ utf8 s.toList = bytes := by
  have hs : s.toByteArray = ⟨(utf8 s.toList).toArray⟩ := by
    rw [← String.utf8Encode_toList]
    exact ByteArray.ext (data_toByteArray ..)
  have hbytes : utf8 s.toList = bytes ↔ s.toByteArray = ⟨bytes.toArray⟩ := by
    rw [hs]
    exact ⟨fun h => by rw [h], fun h => by simpa using h⟩
  rw [hbytes, String.fromUTF8?]
  split_ifs with hvalid
  · rw [Option.some.injEq, ← String.toByteArray_inj]
    exact eq_comm
  · simp only [false_iff]
    rintro h
    exact hvalid (h ▸ s.isValidUTF8)

theorem word_le (w n : ℕ) : word w (le w n) = .ok (n % 256 ^ w) := by
  rw [word, if_pos (length_le w n), ofLe_le]

theorem pointer_le (m n : ℕ) : pointer (le 4 m ++ le 4 n) = .ok (m % 2 ^ 32, n % 2 ^ 32) := by
  have h1 : (slice (le 4 m ++ le 4 n) 0 4 : Res _) = .ok (le 4 m) := by
    rw [slice, if_pos (by simp), drop_zero, take_left' (by simp)]
  have h2 : (slice (le 4 m ++ le 4 n) 4 8 : Res _) = .ok (le 4 n) := by
    rw [slice, if_pos (by simp), drop_left' (by simp), take_of_length_le (by simp)]
  simp only [pointer, h1, h2, bind, Except.bind, word_le]
  rfl

/-- The bytes the readers find for a body at `start` are `b`. -/
def Leads (buf : List UInt8) (fixedEnd start : ℕ) (v : Value) : Prop :=
  ∀ b, body v = some b →
    window truncated buf (fixedEnd + start % 2 ^ 32) (fixedEnd + start % 2 ^ 32 + b.length) = .ok b

section Slot

variable {pre post : List UInt8} {fixedEnd start : ℕ}

theorem window_slot (e : Error) {raw : List UInt8} (h : raw.length = 8) :
    window e (pre ++ (raw ++ post)) pre.length (pre.length + 8) = .ok raw :=
  window_append rfl (by rw [h])

theorem decodeInteger_le (x : Int64) :
    decodeInteger (pre ++ (le 8 x.toUInt64.toNat ++ post)) pre.length = .ok x := by
  have hx : x.toUInt64.toNat % 256 ^ 8 = x.toUInt64.toNat := Nat.mod_eq_of_lt x.toUInt64.toNat_lt
  simp only [decodeInteger, window_slot truncated (length_le ..), bind, Except.bind, word_le, hx,
    UInt64.ofNat_toNat]
  rfl

theorem decodeBody_le {n : ℕ} (hn : n ≤ 2 ^ 32 - 1) :
    decodeBody (pre ++ ((le 4 start ++ le 4 n) ++ post)) fixedEnd pre.length =
      window truncated (pre ++ ((le 4 start ++ le 4 n) ++ post)) (fixedEnd + start % 2 ^ 32)
        (fixedEnd + start % 2 ^ 32 + n) := by
  have hmod : n % 2 ^ 32 = n := Nat.mod_eq_of_lt (by omega)
  rw [decodeBody, window_slot truncated (by simp)]
  simp only [bind, Except.bind, pointer_le, hmod]

theorem decodeText_le {s : String} (hs : (utf8 s.toList).length ≤ 2 ^ 32 - 1) :
    decodeText (pre ++ ((le 4 start ++ le 4 (utf8 s.toList).length) ++ post)) fixedEnd pre.length =
      .ok s ↔
      window truncated (pre ++ ((le 4 start ++ le 4 (utf8 s.toList).length) ++ post))
        (fixedEnd + start % 2 ^ 32) (fixedEnd + start % 2 ^ 32 + (utf8 s.toList).length) =
          .ok (utf8 s.toList) := by
  rw [decodeText, bind_eq_ok, decodeBody_le hs]
  constructor
  · rintro ⟨bytes, hbytes, h⟩
    split at h
    · rename_i t ht
      cases h
      rw [hbytes, fromUTF8?_eq_some.1 ht]
    · cases h
  · intro h
    exact ⟨_, h, by rw [fromUTF8?_eq_some.2 rfl]; rfl⟩

/-- A payload is decoded to its value exactly when it leads to its body. -/
theorem decodeAs_iff {v : Value} {ty : ColumnType} (hty : v.columnType = some ty)
    (hlen : v.varLen ≤ 2 ^ 32 - 1) :
    decodeAs (pre ++ (payload start v ++ post)) fixedEnd ty pre.length = .ok v ↔
      Leads (pre ++ (payload start v ++ post)) fixedEnd start v := by
  cases v <;> cases hty <;> simp only [Leads, body, payload, decodeAs, reduceCtorEq, false_imp_iff,
    implies_true, iff_true, Option.some.injEq, forall_eq', bind, Except.bind, decodeInteger_le,
    pure, Except.pure]
  case float x =>
    have hx : x.bits.toNat % 256 ^ 8 = x.bits.toNat := Nat.mod_eq_of_lt x.bits.toNat_lt
    simp only [window_slot truncated (length_le ..), word_le, hx, UInt64.ofNat_toNat]
  case bool x =>
    have hget : get truncated (pre ++ ([x.toUInt8] ++ post)) pre.length = .ok x.toUInt8 := by
      rw [get_of_lt (by simp)]
      simp
    simp only [hget]
    cases x <;> rfl
  case text s | numeric s =>
    rw [← decodeText_le hlen]
    rcases decodeText _ _ _ with e | t <;> simp
  case blob b =>
    have hb : b.length ≤ 2 ^ 32 - 1 := hlen
    rw [← decodeBody_le hb]
    rcases decodeBody _ _ _ with e | t <;> simp

theorem fromTag_tag (ty : ColumnType) : ColumnType.fromTag ty.tag = some ty := by cases ty <;> rfl

/-- A slot is decoded to its value exactly when it leads to its body. -/
theorem decodeSlot_iff {v : Value} {ty : ColumnType} (hfit : v.fits ty = true)
    (hnull : v.isNull = false)
    (hlen : v.varLen ≤ 2 ^ 32 - 1) :
    decodeSlot (pre ++ (slot start v ty ++ post)) fixedEnd ty pre.length = .ok v ↔
      Leads (pre ++ (slot start v ty ++ post)) fixedEnd start v := by
  simp only [slot, hnull, Bool.false_eq_true, if_false]
  split_ifs with hany
  · subst hany
    obtain ⟨t, ht⟩ : ∃ t, v.columnType = some t := by cases v <;> simp_all [columnType, isNull]
    have hne : t ≠ .any := by cases v <;> cases ht <;> nofun
    have htag : anyTag v = t.tag := by rw [anyTag, ht]
    have hget : get truncated (pre ++ ([anyTag v] ++ (payload start v ++
        List.replicate (8 - (payload start v).length) 0) ++ post)) pre.length = .ok t.tag := by
      rw [get_of_lt (by simp), ← htag]
      simp
    have hmove :
        pre ++ ([anyTag v] ++ (payload start v ++ List.replicate (8 - (payload start v).length) 0)
          ++
        post) = (pre ++ [anyTag v]) ++
          (payload start v ++ (List.replicate (8 - (payload start v).length) 0 ++
          post)) := by
      simp
    rw [decodeSlot, hget]
    simp only [bind, Except.bind, fromTag_tag, Option.filter_some, hne, ne_eq, not_false_eq_true,
      decide_true, if_true]
    rw [hmove, ← decodeAs_iff ht hlen, length_append, length_singleton]
  · rw [decodeSlot, if_neg hany]
    exact decodeAs_iff (columnType_of_fits hfit hnull hany) hlen

end Slot

/-! ## Reading a column -/

/-- Where the body of a column begins in the variable section. -/
def bodyStart (values : Row) (col : ℕ) : ℕ := varSum (values.take col)

theorem bodyStart_succ (v : Value) (values : Row) (col : ℕ) :
    bodyStart (v :: values) (col + 1) = v.varLen + bodyStart values col := rfl

section Column

variable {values : Row} {types : List ColumnType} {col : ℕ} {v : Value} {ty : ColumnType}

theorem slots_split (hfit : Fits values types) (hv : values[col]? = some v)
    (hty : types[col]? = some ty)
    (start : ℕ) : ∃ pre post, slots start values types =
      pre ++ (slot (start + bodyStart values col) v ty ++ post) ∧ pre.length = fixedTotal
      (types.take col) := by
  induction hfit generalizing col start with
  | nil => cases hv
  | @cons w tw values types hw _ ih =>
    cases col with
    | zero =>
      cases hv
      cases hty
      exact ⟨[], _, rfl, rfl⟩
    | succ col =>
      obtain ⟨pre, post, heq, hpre⟩ := ih hv hty (start + w.varLen)
      refine ⟨slot start w tw ++ pre, post, ?_, ?_⟩
      · rw [slots, heq, bodyStart_succ, ← add_assoc, append_assoc]
      · rw [length_append, length_slot hw, hpre, take_succ_cons, fixedTotal_cons]

theorem image_split (hfit : Fits values types) (hv : values[col]? = some v)
    (hty : types[col]? = some ty) :
    ∃ pre post, image values types = pre ++ (slot (bodyStart values col) v ty ++ post) ∧
      pre.length = bitmapLen types.length + fixedTotal (types.take col) := by
  obtain ⟨pre, post, heq, hpre⟩ := slots_split hfit hv hty 0
  refine ⟨bitmap values ++ pre, post ++ bodies values, ?_, ?_⟩
  · rw [image, heq]
    simp
  · rw [length_append, length_bitmap, hpre, hfit.length_eq]

theorem slice_take (hcol : col ≤ types.length) :
    (slice types 0 col : Res (List ColumnType)) = .ok (types.take col) := by
  rw [slice, if_pos ⟨Nat.zero_le _, hcol⟩, drop_zero, Nat.sub_zero]

theorem decodeColumn_of_lt (buf : List UInt8) (hty : types[col]? = some ty) :
    decodeColumn buf types col = (do
      let bmByte ← get truncated buf (col / 8)
      if nullBit bmByte col then return .null
      else decodeSlot buf (headLen types) ty (bitmapLen types.length + fixedTotal
        (types.take col))) := by
  obtain ⟨hcol, rfl⟩ := List.getElem?_eq_some_iff.1 hty
  rw [decodeColumn, if_neg (not_le.2 hcol), slice_take hcol.le, index_of_lt hcol]
  rfl

theorem exists_type (hfit : Fits values types) (hv : values[col]? = some v) :
    ∃ ty, types[col]? = some ty ∧ v.fits ty = true := by
  obtain ⟨hcol, rfl⟩ := List.getElem?_eq_some_iff.1 hv
  have hcol' : col < types.length := by rw [← hfit.length_eq]; exact hcol
  exact ⟨types[col], List.getElem?_eq_getElem hcol', (forall₂_iff_get.1 hfit).2 col hcol hcol'⟩

theorem decodeColumn_image (hfit : Fits values types) (hv : values[col]? = some v)
    (hlen : v.varLen ≤ 2 ^ 32 - 1) :
    decodeColumn (image values types) types col = .ok v ↔
      Leads (image values types) (headLen types) (bodyStart values col) v := by
  obtain ⟨ty, hty, hf⟩ := exists_type hfit hv
  obtain ⟨byte, hbyte, hbit⟩ := nullBit_bitmap hv (slots 0 values types ++ bodies values) truncated
  rw [decodeColumn_of_lt _ hty]
  change get truncated (image values types) (col / 8) = _ at hbyte
  simp only [hbyte, bind, Except.bind, hbit]
  by_cases hnull : v.isNull = true
  · obtain rfl := isNull_iff.1 hnull
    exact ⟨fun _ b hb => (by cases hb), fun _ => rfl⟩
  · obtain ⟨pre, post, heq, hpre⟩ := image_split hfit hv hty
    rw [if_neg hnull, ← hpre, heq]
    exact decodeSlot_iff hf (by simpa using hnull) hlen

/-- A head that reaches the end of the slots is enough to find a body. -/
theorem varlenWindow_image {head : List UInt8} (hfit : Fits values types)
    (hv : values[col]? = some v)
    (hty : types[col]? = some ty) (hvar : ty = .text ∨ ty = .blob) (hlen : v.varLen ≤ 2 ^ 32 - 1)
    (hhead : head <+: image values types) (hroom : headLen types ≤ head.length) :
    varlenWindow head types col = .ok ((body v).map fun b =>
      (headLen types + bodyStart values col % 2 ^ 32, b.length)) := by
  obtain ⟨hcol, htype⟩ := List.getElem?_eq_some_iff.1 hty
  have hrigid : ¬(ty ≠ .text ∧ ty ≠ .blob) := by rcases hvar with rfl | rfl <;> simp
  have hf : v.fits ty = true := by
    obtain ⟨ty', hty', hf⟩ := exists_type hfit hv
    rwa [Option.some.inj (hty.symm.trans hty')]
  obtain ⟨byte, hbyte, hbit⟩ := nullBit_bitmap hv (slots 0 values types ++ bodies values)
    (.corrupt "truncated row head")
  change get _ (image values types) (col / 8) = _ at hbyte
  rw [← get_of_isPrefix hhead (by rw [headLen, bitmapLen] at hroom; omega)] at hbyte
  rw [varlenWindow, get_of_lt hcol, htype]
  simp only [bind, Except.bind, if_neg hrigid, hbyte, hbit]
  by_cases hnull : v.isNull = true
  · obtain rfl := isNull_iff.1 hnull
    rfl
  · have hn : v.isNull = false := by simpa using hnull
    have hany : ty ≠ .any := by rcases hvar with rfl | rfl <;> nofun
    have hct := columnType_of_fits hf hn hany
    obtain ⟨b, hb⟩ : ∃ b, body v = some b := by
      rcases hvar with rfl | rfl <;> cases v <;> simp_all [columnType, body]
    have hpay : slot (bodyStart values col) v ty = le 4 (bodyStart values col) ++
        le 4 b.length := by
      rw [slot, if_neg hany]
      cases v <;> cases hb <;> rfl
    have hblen : b.length % 2 ^ 32 = b.length := by
      rw [varLen_eq, hb] at hlen
      exact Nat.mod_eq_of_lt (by simp at hlen; omega)
    obtain ⟨pre, post, heq, hpre⟩ := image_split hfit hv hty
    have hend : pre.length + 8 ≤ headLen types := by
      rw [headLen, ← length_slots hfit 0]
      obtain ⟨pre', post', heq', hpre'⟩ := slots_split hfit hv hty 0
      rw [zero_add, hpay] at heq'
      rw [heq']
      simp only [length_append, length_le]
      omega
    rw [if_neg hnull, slice_take hcol.le]
    simp only [← hpre]
    rw [window_of_isPrefix hhead (hend.trans hroom), heq, hpay, window_slot _ (by simp)]
    simp only [pointer_le, hblen, hb, Option.map_some, pure, Except.pure]

end Column

/-! ## Any bytes -/

theorem safe_word {w : ℕ} {raw : List UInt8} (h : raw.length = w) : Safe (word w raw) := by
  rw [word, if_pos h]
  exact safe_ok _

theorem safe_pointer {raw : List UInt8} (h : raw.length = 8) : Safe (pointer raw) := by
  have h1 : (slice raw 0 4 : Res _) = .ok (raw.take 4) := by
    rw [slice, if_pos ⟨by omega, by omega⟩, drop_zero]
  have h2 : (slice raw 4 8 : Res _) = .ok ((raw.drop 4).take 4) := by
    rw [slice, if_pos ⟨by omega, by omega⟩]
  rw [pointer, h1, h2]
  refine (safe_word (by simp; omega)).bind fun _ _ => ?_
  exact (safe_word (by simp; omega)).bind fun _ _ => safe_pure _

section Safety

variable (buf : List UInt8) (fixedEnd off : ℕ) (types : List ColumnType) (col : ℕ)

theorem safe_decodeInteger : Safe (decodeInteger buf off) :=
  (safe_window ..).bind fun raw hraw =>
    (safe_word (by rw [length_of_window hraw]; omega)).bind fun _ _ => safe_pure _

theorem safe_decodeBody : Safe (decodeBody buf fixedEnd off) :=
  (safe_window ..).bind fun raw hraw =>
    (safe_pointer (by rw [length_of_window hraw]; omega)).bind fun _ _ => safe_window ..

theorem safe_decodeText : Safe (decodeText buf fixedEnd off) := by
  refine (safe_decodeBody ..).bind fun bytes _ => ?_
  split
  · exact safe_pure _
  · exact safe_fail _

theorem safe_decodeAs (ty : ColumnType) : Safe (decodeAs buf fixedEnd ty off) := by
  cases ty with
  | any => exact safe_fail _
  | bool =>
    refine (safe_get ..).bind fun byte _ => ?_
    split
    · exact safe_pure _
    · exact safe_pure _
    · exact safe_fail _
  | float64 =>
    exact (safe_window ..).bind fun raw hraw =>
      (safe_word (by rw [length_of_window hraw]; omega)).bind fun _ _ => safe_pure _
  | blob => exact (safe_decodeBody ..).bind fun _ _ => safe_pure _
  | text | numeric => exact (safe_decodeText ..).bind fun _ _ => safe_pure _
  | int64 | timestamp | date | time => exact (safe_decodeInteger ..).bind fun _ _ => safe_pure _

theorem safe_decodeSlot (ty : ColumnType) : Safe (decodeSlot buf fixedEnd ty off) := by
  unfold decodeSlot
  split_ifs
  · refine (safe_get ..).bind fun tag _ => ?_
    split
    · exact safe_decodeAs ..
    · exact safe_fail _
  · exact safe_decodeAs ..

theorem safe_decodeColumn : Safe (decodeColumn buf types col) := by
  rcases hty : types[col]? with _ | ty
  · rw [decodeColumn, if_pos (by simpa using hty)]
    exact safe_fail _
  · rw [decodeColumn_of_lt buf hty]
    refine (safe_get ..).bind fun byte _ => ?_
    split_ifs
    · exact safe_pure _
    · exact safe_decodeSlot ..

theorem safe_varlenWindow : Safe (varlenWindow buf types col) := by
  refine (safe_get ..).bind fun ty hty => ?_
  have hcol : col < types.length := by
    by_contra h
    rw [Checked.get, List.getElem?_eq_none (by omega)] at hty
    cases hty
  split_ifs
  · exact safe_fail _
  · refine (safe_get ..).bind fun byte _ => ?_
    split_ifs
    · exact safe_pure _
    · rw [slice_take hcol.le]
      exact (safe_window ..).bind fun raw hraw =>
        (safe_pointer (by rw [length_of_window hraw]; omega)).bind fun _ _ => safe_pure _

/-- What the masked reader gives for a column. -/
def readColumn (keep : Option (List Bool)) (i : ℕ) : Res Value := do
  let kept ← keeps keep i
  if kept then decodeColumn buf types i else return .null

theorem decodeColumns_eq (keep : Option (List Bool)) : ∀ (rest before tail : List ColumnType),
    types = before ++ (rest ++ tail) →
    decodeColumns buf (headLen types) keep before.length
    (bitmapLen types.length + fixedTotal before) rest =
      (List.range' before.length rest.length).mapM (readColumn buf types keep)
  | [], before, tail, _ => rfl
  | ty :: rest, before, tail, h => by
    have hty : types[before.length]? = some ty := by simp [h]
    have hbefore : types.take before.length = before := by simp [h]
    have hoff : bitmapLen types.length + fixedTotal before + fixedWidth ty =
        bitmapLen types.length + fixedTotal (before ++ [ty]) := by
      simp [fixedTotal, add_assoc]
    have ih := decodeColumns_eq keep rest (before ++ [ty]) tail (by simp [h])
    rw [length_append, length_singleton] at ih
    rw [decodeColumns, hoff, ih, length_cons, List.range'_succ, mapM_cons, readColumn,
      decodeColumn_of_lt buf hty, hbefore]
    simp

theorem decodeRowMasked_eq (keep : Option (List Bool)) : decodeRowMasked buf types keep =
    (List.range (keptLen types keep)).mapM (readColumn buf types keep) := by
  have hlen : (types.take (keptLen types keep)).length = keptLen types keep := by
    cases keep <;> simp [keptLen]
  have h := decodeColumns_eq buf types keep (types.take (keptLen types keep)) []
    (types.drop (keptLen types keep)) (by simp)
  rw [hlen] at h
  rw [range_eq_range']
  exact h

theorem safe_decodeRowMasked (keep : Option (List Bool)) :
    Safe (decodeRowMasked buf types keep) := by
  rw [decodeRowMasked_eq]
  refine safe_mapM fun i hi => ?_
  rw [mem_range] at hi
  refine Safe.bind ?_ fun kept _ => ?_
  · cases keep with
    | none => exact safe_ok _
    | some k =>
      have hk : i < k.length := lt_of_lt_of_le hi (min_le_left ..)
      exact safe_index hk
  · split_ifs
    · exact safe_decodeColumn ..
    · exact safe_pure _

end Safety

/-! ## The round trip -/

/-- The row with the columns that are not kept as NULL. -/
def masked (values : Row) : Option (List Bool) → Row
  | none => values
  | some k => List.zipWith (fun v b => if b then v else .null) values k

/-- `buf` is the encoding of the row, and each reader gives back what was put in. -/
structure ReadsRow (values : Row) (types : List ColumnType) (buf : List UInt8) : Prop where
  encoded : encodeRow (values.map .scalar) types = .ok buf
  length : buf.length = encodedLen (values.map .scalar) types
  parts : ∃ head parts, encodeRowParts (values.map .scalar) types = .ok (head, parts) ∧
    head ++ parts.flatten = buf
  masked : ∀ keep, decodeRowMasked buf types keep = .ok (masked values keep)
  column : ∀ col v, values[col]? = some v → decodeColumn buf types col = .ok v
  window : ∀ col v ty head, values[col]? = some v → types[col]? = some ty →
    ty = .text ∨ ty = .blob →
    head <+: buf → headLen types ≤ head.length → varlenWindow head types col =
      .ok ((body v).map fun b => (headLen types + bodyStart values col, b.length))
  bytes : ∀ col v b, values[col]? = some v → body v = some b →
    (buf.drop (headLen types + bodyStart values col)).take b.length = b

/-- The values are read back as they were put in. -/
def ReadsBack (values : List Datum) (types : List ColumnType) : Prop :=
  ∃ row buf, row.map .scalar = values ∧ ReadsRow row types buf

/-- Every body is below 4 GiB, and the low 32 bits of its place lead to its bytes; for a text or
blob column they are its place. -/
def Addressable (values : Row) (types : List ColumnType) : Prop :=
  ∀ col v ty b, values[col]? = some v → types[col]? = some ty → body v = some b →
    b.length ≤ 2 ^ 32 - 1 ∧ ((bodies values).drop (bodyStart values col % 2 ^ 32)).take b.length =
      b ∧
      (ty = .text ∨ ty = .blob → bodyStart values col < 2 ^ 32)

section RoundTrip

variable {values : Row} {types : List ColumnType} {col : ℕ} {v : Value} {b : List UInt8}

theorem bodies_split (hv : values[col]? = some v) (hb : body v = some b) :
    ∃ pre post, bodies values = pre ++ (b ++ post) ∧ pre.length = bodyStart values col := by
  induction values generalizing col with
  | nil => cases hv
  | cons w values ih =>
    cases col with
    | zero =>
      cases hv
      exact ⟨[], bodies values, by simp [bodies, hb], rfl⟩
    | succ col =>
      obtain ⟨pre, post, heq, hpre⟩ := ih hv
      refine ⟨(body w).getD [] ++ pre, post, ?_, ?_⟩
      · rw [append_assoc, ← heq]
        cases hw : body w <;> simp [bodies, hw]
      · rw [length_append, hpre, bodyStart_succ, varLen_eq]

theorem take_bodyStart (hv : values[col]? = some v) (hb : body v = some b) :
    ((bodies values).drop (bodyStart values col)).take b.length = b := by
  obtain ⟨pre, post, heq, hpre⟩ := bodies_split hv hb
  rw [heq, ← hpre]
  simp

theorem head_append (values : Row) (types : List ColumnType) :
    image values types = (bitmap values ++ slots 0 values types) ++ bodies values :=
  (append_assoc ..).symm

section

variable (hfit : Fits values types)

include hfit

theorem length_head :
    (bitmap values ++ slots 0 values types).length = headLen types := by
  rw [length_append, length_bitmap, length_slots hfit, hfit.length_eq, headLen]

theorem leads_iff (hv : values[col]? = some v) :
    Leads (image values types) (headLen types) (bodyStart values col) v ↔ ∀ b, body v = some b →
      ((bodies values).drop (bodyStart values col % 2 ^ 32)).take b.length = b := by
  refine forall_congr' fun b => forall_congr' fun hb => ?_
  obtain ⟨pre, post, heq, hpre⟩ := bodies_split hv hb
  have hin : bodyStart values col + b.length ≤ (bodies values).length := by
    rw [heq, ← hpre]
    simp
  rw [Checked.window, if_pos, head_append, ← length_head hfit, Nat.add_sub_cancel_left,
    drop_append, drop_eq_nil_of_le (by omega), Nat.add_sub_cancel_left]
  · exact ⟨Except.ok.inj, congrArg _⟩
  · rw [head_append, length_append, length_head hfit]
    exact ⟨by omega, by omega⟩

theorem masked_of_column {buf : List UInt8}
    (h : ∀ col v, values[col]? = some v → decodeColumn buf types col = .ok v)
    (keep : Option (List Bool)) :
    decodeRowMasked buf types keep = .ok (masked values keep) := by
  rw [decodeRowMasked_eq, mapM_eq_ok, forall₂_iff_get]
  have hlen : (masked values keep).length = keptLen types keep := by
    cases keep <;> simp [masked, keptLen, hfit.length_eq, Nat.min_comm]
  refine ⟨by simpa using hlen.symm, fun i h1 h2 => ?_⟩
  simp only [get_eq_getElem, getElem_range]
  cases keep with
  | none => exact h i _ (List.getElem?_eq_getElem h2)
  | some k =>
    have hi : i < min values.length k.length := by simpa [masked] using h2
    have hk : (keeps (some k) i) = .ok k[i] := index_of_lt (by omega)
    simp only [readColumn, hk, bind, Except.bind, masked, getElem_zipWith]
    split_ifs
    · exact h i _ (List.getElem?_eq_getElem (by omega))
    · rfl

theorem addressable_of_readsRow {buf : List UInt8}
    (h : ReadsRow values types buf) : Addressable values types := by
  intro col v ty b hv hty hb
  have hmem : v ∈ values := mem_of_getElem? hv
  have hlen := varLen_le_of_encodeRow hfit h.encoded v hmem
  obtain rfl : buf = image values types :=
    Except.ok.inj (h.encoded.symm.trans (encodeRow_eq hfit (varLen_le_of_encodeRow hfit h.encoded)))
  have hb' : b.length ≤ 2 ^ 32 - 1 := by simpa [varLen_eq, hb] using hlen
  refine ⟨hb', (leads_iff hfit hv).1 ((decodeColumn_image hfit hv hlen).1 (h.column col v hv)) b hb,
    ?_⟩
  intro hvar
  have hroom : headLen types ≤ (image values types).length := by
    rw [head_append, length_append, length_head hfit]
    omega
  have hw := h.window col v ty _ hv hty hvar prefix_rfl hroom
  rw [varlenWindow_image hfit hv hty hvar hlen prefix_rfl hroom, hb] at hw
  simp only [Option.map_some, Except.ok.injEq, Option.some.injEq, Prod.mk.injEq] at hw
  omega

/-- An addressable row is read back in every way. -/
theorem readsRow_of_addressable (h : Addressable values types) :
    ReadsRow values types (image values types) := by
  have hlen : ∀ v ∈ values, v.varLen ≤ 2 ^ 32 - 1 := by
    intro v hv
    obtain ⟨col, hcol⟩ := mem_iff_getElem?.1 hv
    obtain ⟨ty, hty, -⟩ := exists_type hfit hcol
    rw [varLen_eq]
    cases hb : body v with
    | none => simp
    | some b => exact (h col v ty b hcol hty hb).1
  have hcolumn : ∀ col v, values[col]? = some v →
      decodeColumn (image values types) types col = .ok v := by
    intro col v hv
    obtain ⟨ty, hty, -⟩ := exists_type hfit hv
    rw [decodeColumn_image hfit hv (hlen v (mem_of_getElem? hv)), leads_iff hfit hv]
    exact fun b hb => (h col v ty b hv hty hb).2.1
  refine ⟨encodeRow_eq hfit hlen, length_image hfit, ⟨_, _, encodeRowParts_eq hfit hlen, ?_⟩,
    masked_of_column hfit hcolumn, hcolumn, ?_, ?_⟩
  · rw [head_append, bodies]
  · intro col v ty head hv hty hvar hhead hroom
    rw [varlenWindow_image hfit hv hty hvar (hlen v (mem_of_getElem? hv)) hhead hroom]
    cases hb : body v with
    | none => rfl
    | some b => rw [Nat.mod_eq_of_lt ((h col v ty b hv hty hb).2.2 hvar)]
  · intro col v b hv hb
    rw [head_append, ← length_head hfit, drop_append, drop_eq_nil_of_le (by omega),
      Nat.add_sub_cancel_left]
    exact take_bodyStart hv hb

end

theorem bodyStart_add_le (hv : values[col]? = some v) (hb : body v = some b) :
    bodyStart values col + b.length ≤ varSum values := by
  obtain ⟨pre, post, heq, hpre⟩ := bodies_split hv hb
  rw [← length_bodies, heq, ← hpre]
  simp

theorem addressable_of_varSum_lt (types : List ColumnType) (h : varSum values < 2 ^ 32) :
    Addressable values types := by
  intro col v ty b hv _ hb
  have hle := bodyStart_add_le hv hb
  have hstart : bodyStart values col < 2 ^ 32 := by omega
  exact ⟨by omega, by rw [Nat.mod_eq_of_lt hstart, take_bodyStart hv hb], fun _ => hstart⟩

end RoundTrip

/-- Every value fits its column. -/
abbrev FitsData (values : List Datum) (types : List ColumnType) : Prop :=
  List.Forall₂ (fun d ty => d.fits ty = true) values types

theorem map_filterMap_value {values : List Datum} (h : ∀ d ∈ values, d.value?.isSome) :
    (values.filterMap Datum.value?).map .scalar = values := by
  induction values with
  | nil => rfl
  | cons d values ih =>
    obtain ⟨hd, hvalues⟩ := forall_mem_cons.1 h
    cases d with
    | scalar v => simpa [Datum.value?] using ih hvalues
    | list items => cases hd

theorem fits_of_fitsData {types : List ColumnType}
    (h : FitsData (values.map .scalar) types) : Fits values types := by
  simpa [FitsData, Fits, forall₂_map_left_iff, Datum.fits] using h

/-- A row of values that fit is encoded and read back by every reader exactly when it holds no list
and its bodies are addressable, and no bytes make a reader panic. -/
theorem row_round_trip {values : List Datum} {types : List ColumnType}
    (hfit : FitsData values types) :
    (ReadsBack values types ↔ (∀ d ∈ values, d.value?.isSome) ∧
      Addressable (values.filterMap Datum.value?) types) ∧
      ∀ (buf : List UInt8) (types : List ColumnType) (keep : Option (List Bool)) (col : ℕ),
        Safe (decodeRowMasked buf types keep) ∧ Safe (decodeColumn buf types col) ∧
          Safe (varlenWindow buf types col) := by
  refine ⟨⟨?_, ?_⟩, fun buf types keep col =>
    ⟨safe_decodeRowMasked buf types keep, safe_decodeColumn buf types col,
      safe_varlenWindow buf types col⟩⟩
  · rintro ⟨row, buf, rfl, h⟩
    have hrow : (row.map Datum.scalar).filterMap Datum.value? = row := by
      rw [filterMap_map]
      exact filterMap_some
    rw [hrow]
    exact ⟨by simp [Datum.value?], addressable_of_readsRow (fits_of_fitsData hfit) h⟩
  · rintro ⟨hscalar, h⟩
    rw [← map_filterMap_value hscalar] at hfit
    exact ⟨_, _, map_filterMap_value hscalar, readsRow_of_addressable (fits_of_fitsData hfit) h⟩

theorem row_round_trip_mixed :
    let values : List Datum := [.scalar .null, .scalar (.int (-5)), .scalar (.text "æ"),
      .scalar (.blob [1, 2]), .scalar (.bool true), .scalar (.numeric "1.50")]
    let types : List ColumnType := [.text, .any, .text, .any, .bool, .numeric]
    FitsData values types ∧ ReadsBack values types := by
  intro values types
  have hfit : FitsData values types :=
    .cons rfl (.cons rfl (.cons rfl (.cons rfl (.cons rfl (.cons rfl .nil)))))
  exact ⟨hfit, (row_round_trip hfit).1.2 ⟨by simp [values, Datum.value?],
    addressable_of_varSum_lt types (by decide)⟩⟩

/-- A third blob that begins at 4 GiB is looked for at the start of the first one. -/
theorem third_blob_wraps {x : List UInt8} (hx : x.length = 2 ^ 32 - 1) (hhead : x.take 1 = [0]) :
    let values : Row := [.blob x, .blob [0], .blob [1]]
    let types : List ColumnType := [.blob, .blob, .blob]
    Fits values types ∧ ∃ buf, encodeRow (values.map .scalar) types = .ok buf ∧
      decodeColumn buf types 2 ≠ .ok (.blob [1]) ∧
      varlenWindow buf types 2 = .ok (some (25, 1)) ∧ headLen types + bodyStart values 2 =
        25 + 2 ^ 32 := by
  intro values types
  have hfit : Fits values types := .cons rfl (.cons rfl (.cons rfl .nil))
  have hlen : ∀ v ∈ values, v.varLen ≤ 2 ^ 32 - 1 := by
    simp only [values, forall_mem_cons, Value.varLen, hx]
    exact ⟨le_rfl, by decide, by decide, forall_mem_nil _⟩
  have hstart : bodyStart values 2 = 2 ^ 32 := by
    simp [values, bodyStart, varSum, Value.varLen, hx]
  have hsize : headLen types = 25 := by decide
  have hv : values[2]? = some (.blob [1]) := rfl
  refine ⟨hfit, image values types, encodeRow_eq hfit hlen, ?_, ?_, ?_⟩
  · rw [Ne, decodeColumn_image hfit hv (by decide), leads_iff hfit hv, hstart]
    intro h
    have hbytes := h [1] rfl
    rw [Nat.mod_self, drop_zero] at hbytes
    have hfirst : (bodies values).take 1 = x.take 1 := by
      rw [show bodies values = x ++ ([0] ++ [1]) from rfl, take_append_of_le_length (by omega)]
    rw [length_singleton, hfirst, hhead] at hbytes
    cases hbytes
  · have hroom : headLen types ≤ (image values types).length := by
      rw [head_append, length_append, length_head hfit]
      omega
    rw [varlenWindow_image hfit hv rfl (.inr rfl) (by decide) prefix_rfl hroom, hstart, hsize]
    rfl
  · rw [hstart, hsize]

/-- Three blobs of which the third begins at 4 GiB: the row is encoded, and its third column is not
read back. -/
theorem encodeRow_wraps_offset :
    let values : Row := [.blob (List.replicate (2 ^ 32 - 1) 0), .blob [0], .blob [1]]
    let types : List ColumnType := [.blob, .blob, .blob]
    Fits values types ∧ ∃ buf, encodeRow (values.map .scalar) types = .ok buf ∧
      decodeColumn buf types 2 ≠ .ok (.blob [1]) ∧
      varlenWindow buf types 2 = .ok
      (some (25, 1)) ∧ headLen types + bodyStart values 2 = 25 + 2 ^ 32 :=
  third_blob_wraps length_replicate (by rw [take_replicate]; rfl)

end Mpedb.RowCodec
