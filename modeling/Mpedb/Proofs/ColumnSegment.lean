import Mathlib.Data.List.Dedup
import Mpedb.ColumnSegment
import Mpedb.Lib.ByteReader
import Mpedb.Lib.Outcome
import Mpedb.Table

/-!
# A block decodes to the values it was built from

The readers of the record are put together along its layout: `Reads r bytes a` says that `r` takes
exactly these bytes and gives `a`, whatever follows. Each payload is read back to a codec that
streams the block's values, where the packer's word has room for the packed distances.
-/

namespace Mpedb

open Block BitPack

open List hiding beq_eq_decide

open Bytes
open ByteReader (Reads)

section Reads

variable {α : Type} {r : Reader α} {x : List UInt8}

theorem reads_takeBytes (n : ℕ) (h : x.length = n) : Reads (takeBytes n) x x := by
  intro rest
  subst h
  unfold takeBytes
  rw [if_pos (by simp), take_left, drop_left]

theorem reads_takeLe {n v : ℕ} (h : v < 256 ^ n) : Reads (takeLe n) (le n v) v := by
  have := (reads_takeBytes (x := le n v) n (length_le n v)).map ofLe
  rwa [ofLe_le, Nat.mod_eq_of_lt h] at this

theorem reads_takeU64 (v : UInt64) : Reads takeU64 (le 8 v.toNat) v := by
  have := (reads_takeLe (n := 8) v.toNat_lt).map UInt64.ofNat
  rwa [UInt64.ofNat_toNat] at this

theorem reads_takeByte (v : UInt8) : Reads takeByte [v] v :=
  (reads_takeBytes (x := [v]) 1 rfl).map (List.headD · 0)

theorem reads_takeLp {b : List UInt8} (h : b.length < 2 ^ 32) : Reads takeLp (putLp b) b :=
  (reads_takeLe h).bind (reads_takeBytes b.length rfl)

theorem reads_times {enc : α → List UInt8} : ∀ {l : List α}, (∀ a ∈ l, Reads r (enc a) a) →
    Reads (times r l.length) (l.flatMap enc) l
  | [], _ => Reads.pure []
  | a :: l, h => by
    exact (h a (by simp)).bind ((reads_times fun a ha => h a (by simp [ha])).map (a :: ·))

/-- Exceptions are stored in ascending order, which the reader checks. -/
theorem reads_takeExceptions {n : ℕ} (hn : n ≤ 2 ^ 32) :
    ∀ {exc : List (ℕ × UInt64)} {prev : Option ℕ},
    (exc.map Prod.fst).Pairwise (· < ·) → (∀ e ∈ exc, e.1 < n ∧ ∀ p ∈ prev, p < e.1) →
    Reads (takeExceptions n exc.length prev) (exc.flatMap fun e => le 4 e.1 ++ le 8 e.2.toNat) exc
  | [], prev, _, _ => Reads.pure []
  | (idx, v) :: exc, prev, hsorted, hexc => by
    obtain ⟨hidx, hprev⟩ := hexc (idx, v) (by simp)
    rw [map_cons, pairwise_cons] at hsorted
    have hgood : ¬(n ≤ idx ∨ prev.any (idx ≤ ·) = true) := by
      rintro (h | h)
      · exact absurd hidx (by simpa using h)
      · rcases prev with _ | p
        · cases h
        · exact absurd (hprev p rfl) (by simpa using h)
    have hbehind : ∀ e ∈ exc, e.1 < n ∧ ∀ p ∈ some idx, p < e.1 := fun e he =>
      ⟨(hexc e (by simp [he])).1, fun p hp => by
        cases hp
        exact hsorted.1 e.1 (mem_map_of_mem he)⟩
    have hrest := reads_takeExceptions hn hsorted.2 hbehind
    refine (reads_takeLe (by omega)).bind ((reads_takeU64 v).bind ?_)
    simp only [hgood]
    exact hrest.map ((idx, v) :: ·)

end Reads

section Widths

theorem lt_two_pow_bitsFor {v range : ℕ} (h : v ≤ range) : v < 2 ^ bitsFor range := by
  unfold bitsFor
  split_ifs with h0
  · omega
  · exact h.trans_lt Nat.lt_log2_self

theorem bitsFor_le {range w : ℕ} (h : range < 2 ^ w) : bitsFor range ≤ w := by
  unfold bitsFor
  split_ifs with h0
  · omega
  · exact (Nat.log2_lt h0).2 h

theorem unpackAt_codes {α : Type} [BEq α] [LawfulBEq α] {dict vals : List α}
    (hlen : dict.length ≤ blockRows)
    (hmem : ∀ v ∈ vals, v ∈ dict) {k : ℕ} (hk : k < vals.length) :
    dict[unpackAt (pack (bitsFor (dict.length - 1)) (vals.map dict.idxOf)) k
      (bitsFor (dict.length - 1))]? = some vals[k] := by
  have hwidth : bitsFor (dict.length - 1) ≤ 16 := bitsFor_le (by unfold blockRows at hlen; omega)
  have hcodes : ∀ c ∈ vals.map dict.idxOf, c < 2 ^ bitsFor (dict.length - 1) := by
    intro c hc
    obtain ⟨v, hv, rfl⟩ := mem_map.1 hc
    have := idxOf_lt_length_of_mem (hmem v hv)
    exact lt_two_pow_bitsFor (by omega)
  have hpos : dict.idxOf vals[k] < dict.length := idxOf_lt_length_of_mem (hmem _ (getElem_mem hk))
  rw [unpackAt_pack (wordFits_iff.2 (by omega)) hcodes,
    getD_eq_getElem _ _ (by simpa using hk), getElem_map, List.getElem?_eq_getElem hpos,
    getElem_idxOf hpos]

end Widths

section Streams

variable {b : Block} {c : Block.Cursor}

/-- From `c` on the codec gives these values. -/
def Block.Streams (b : Block) : Block.Cursor → List Value → Prop
  | _, [] => True
  | c, v :: vals => ∃ c', b.next c = .ok (v, c') ∧ c'.k = c.k + 1 ∧ b.Streams c' vals

theorem Block.streams_of_forall {exc : List (ℕ × UInt64)} : ∀ {vals : List Value} {j : ℕ},
    (∀ k (h : k < vals.length), b.next ⟨j + k, exc⟩ = .ok (vals[k], ⟨j + k + 1, exc⟩)) →
    b.Streams ⟨j, exc⟩ vals
  | [], _, _ => trivial
  | v :: vals, j, h => by
    refine ⟨⟨j + 1, exc⟩, h 0 (by simp), rfl, streams_of_forall fun k hk => ?_⟩
    have := h (k + 1) (by simpa using hk)
    rw [show j + 1 + k = j + (k + 1) by omega]
    exact this

variable {σ : Type} {push : σ → Value → Except Error σ}

/-- A block goes over its rows, NULLs from the bitmap and the others from the stream. -/
theorem Block.forEachFrom_eq : ∀ {vals : List Value} {i : ℕ} {c : Block.Cursor} {s : σ},
    (∀ j (h : j < vals.length), b.isNullAt (i + j) = vals[j].isNull) →
    b.Streams c (vals.filter fun v => !v.isNull) →
    c.k + (vals.filter fun v => !v.isNull).length = b.nNonnull →
    b.forEachFrom push vals.length i c s = vals.foldlM push s
  | [], i, c, s, _, _, hk => by
    have : c.k = b.nNonnull := by simpa using hk
    simp only [length_nil, forEachFrom, this, ne_eq]
    rfl
  | v :: vals, i, c, s, hnull, hstream, hk => by
    have hhead : b.isNullAt i = v.isNull := hnull 0 (by simp)
    have htail : ∀ j (h : j < vals.length), b.isNullAt (i + 1 + j) = vals[j].isNull := by
      intro j hj
      have := hnull (j + 1) (by simpa using hj)
      rw [show i + 1 + j = i + (j + 1) by omega]
      exact this
    rw [length_cons, forEachFrom, hhead]
    by_cases hv : v.isNull = true
    · have hnil : v = .null := by
        cases v <;> first | rfl | cases hv
      subst hnil
      refine bind_congr fun s' => ?_
      exact forEachFrom_eq htail hstream hk
    · rw [if_neg hv]
      have hkeep : ((v :: vals).filter fun v => !v.isNull) = v :: vals.filter
          fun v => !v.isNull := by
        rw [filter_cons_of_pos (by simpa using hv)]
      rw [hkeep] at hstream hk
      obtain ⟨c', hnext, hk', hstream'⟩ := hstream
      rw [length_cons] at hk
      rw [if_neg (by omega), hnext]
      show (push s v >>= fun s => b.forEachFrom push vals.length (i + 1) c' s) = _
      refine bind_congr fun s' => ?_
      exact forEachFrom_eq htail hstream' (by omega)

end Streams

section Codecs

variable {b : Block} {raw : List UInt64} {txt : List (List UInt8)}

theorem drop_flatMap_const {α : Type} {f : α → List UInt8} {n : ℕ} (hf : ∀ a, (f a).length = n) :
    ∀ (l : List α) (k : ℕ), (l.flatMap f).drop (k * n) = (l.drop k).flatMap f
  | l, 0 => by simp
  | [], k + 1 => by simp
  | a :: l, k + 1 => by
    rw [flatMap_cons, drop_succ_cons, Nat.succ_mul, add_comm, ← drop_drop,
      ← hf a, drop_left, hf a, drop_flatMap_const hf l k]

theorem streams_raw64 (hc : b.codec = .raw64 (raw64Payload raw).bytes) :
    b.Streams ⟨0, []⟩ (raw.map b.numeric) := by
  refine streams_of_forall fun k hk => ?_
  rw [length_map] at hk
  have hbody : (((raw64Payload raw).bytes).drop (k * 8)).take 8 = le 8 raw[k].toNat := by
    rw [raw64Payload, drop_flatMap_const (fun _ => length_le 8 _), drop_eq_getElem_cons hk,
      flatMap_cons, take_append_of_le_length (by simp), take_of_length_le (by simp)]
  have hnum : UInt64.ofNat (ofLe (le 8 raw[k].toNat)) = raw[k] := by
    rw [ofLe_le, Nat.mod_eq_of_lt (by simpa using raw[k].toNat_lt), UInt64.ofNat_toNat]
  simp only [Block.next, hc, zero_add, hbody, length_le, lt_irrefl, if_false, hnum, getElem_map]

theorem toNat_sub_of_le {v lo : Int64} (h : lo ≤ v) :
    ((v - lo).toUInt64.toNat : ℤ) = v.toInt - lo.toInt := by
  have hle := Int64.le_iff_toInt_le.1 h
  have hint (x : Int64) : x.toInt = x.toUInt64.toNat ∨ x.toInt = x.toUInt64.toNat - 2 ^ 64 := by
    rw [← Int64.toInt_toBitVec, BitVec.toInt_eq_toNat_cond]
    split_ifs
    · exact .inl rfl
    · exact .inr (by norm_num; rfl)
  have hv := hint v
  have hlo := hint lo
  have := lo.toUInt64.toNat_lt
  have := Int64.toInt_lt v
  have := Int64.le_toInt lo
  rw [Int64.toUInt64_sub, UInt64.toNat_sub]
  omega

/-- The distance from the lower bound fits the width, so adding it back gives the value. -/
theorem streams_frame {lo hi : Int64} (hlo : ∀ v ∈ raw, lo ≤ v.toInt64)
    (hhi : ∀ v ∈ raw, v.toInt64 ≤ hi)
    (hw : BitPack.WordFits (forPayload raw lo hi).width)
    (hc : b.codec = .frame lo (forPayload raw lo hi).width (forPayload raw lo hi).bytes) :
    b.Streams ⟨0, []⟩ (raw.map b.numeric) := by
  refine streams_of_forall fun k hk => ?_
  rw [length_map] at hk
  -- a distance is at most the range
  have hdelta : ∀ d ∈ raw.map (fun v => (v.toInt64 - lo).toUInt64.toNat),
      d < 2 ^ (forPayload raw lo hi).width := by
    intro d hd
    obtain ⟨v, hv, rfl⟩ := mem_map.1 hd
    refine lt_two_pow_bitsFor ?_
    have h2 := Int64.le_iff_toInt_le.1 (hhi v hv)
    have hsub := toNat_sub_of_le (hlo v hv)
    omega
  have hval : lo + (UInt64.ofNat (raw[k].toInt64 - lo).toUInt64.toNat).toInt64 =
      raw[k].toInt64 := by
    rw [UInt64.ofNat_toNat, Int64.toInt64_toUInt64, Int64.add_comm, Int64.sub_add_cancel]
  have hget := unpackAt_pack hw hdelta k
  rw [getD_eq_getElem _ _ (by simpa using hk), getElem_map] at hget
  simp only [Block.next, hc, zero_add]
  rw [show (forPayload raw lo hi).bytes = pack (forPayload raw lo hi).width
    (raw.map fun v => (v.toInt64 - lo).toUInt64.toNat) from rfl, hget, hval]
  simp

/-- The values from the place `j` on that are not the default, with their places. -/
def excFrom (default : UInt64) (j : ℕ) (raw : List UInt64) : List (ℕ × UInt64) :=
  ((raw.zipIdx j).filter fun e => e.1 ≠ default).map fun e => (e.2, e.1)

theorem excFrom_ge {default : UInt64} {j : ℕ} {e : ℕ × UInt64} (h : e ∈ excFrom default j raw) :
    j ≤ e.1 ∧ e.1 < j + raw.length := by
  obtain ⟨e', he', rfl⟩ := mem_map.1 h
  have := mem_zipIdx (mem_of_mem_filter he')
  exact ⟨this.1, this.2.1⟩

/-- The exceptions still to come are those from this place on. -/
theorem streams_runDefault {default : UInt64} {exc : List (ℕ × UInt64)}
    (hc : b.codec = .runDefault default exc) : ∀ (raw : List UInt64) (j : ℕ),
    b.Streams ⟨j, excFrom default j raw⟩ (raw.map b.numeric)
  | [], _ => trivial
  | v :: raw, j => by
    refine ⟨⟨j + 1, excFrom default (j + 1) raw⟩, ?_, rfl, streams_runDefault hc raw (j + 1)⟩
    by_cases hv : v = default
    · -- the next exception stands further on
      have hexc : excFrom default j (v :: raw) = excFrom default (j + 1) raw := by
        simp [excFrom, zipIdx_cons, hv]
      rw [hexc]
      simp only [Block.next, hc, hv]
      rcases hrest : excFrom default (j + 1) raw with _ | ⟨⟨idx, w⟩, rest⟩
      · rfl
      · have := excFrom_ge (hrest ▸ mem_cons_self : (idx, w) ∈ excFrom default (j + 1) raw)
        simp [show ¬idx = j by omega]
    · have hexc : excFrom default j (v :: raw) = (j, v) :: excFrom default (j + 1) raw := by
        simp [excFrom, zipIdx_cons, hv]
      rw [hexc]
      simp only [Block.next, hc, if_true]

theorem streams_dictNum {dict : List UInt64} (hlen : dict.length ≤ blockRows)
    (hmem : ∀ v ∈ raw, v ∈ dict)
    (hc : b.codec = .dictNum dict (bitsFor (dict.length - 1))
      (pack (bitsFor (dict.length - 1)) (raw.map dict.idxOf))) :
    b.Streams ⟨0, []⟩ (raw.map b.numeric) := by
  refine streams_of_forall fun k hk => ?_
  rw [length_map] at hk
  simp only [Block.next, hc, zero_add, unpackAt_codes hlen hmem hk, getElem_map]

variable {vals : List Value}

theorem streams_dictText {dict : List (List UInt8)} (hlen : dict.length ≤ blockRows)
    (hmem : ∀ v ∈ txt, v ∈ dict)
    (htxt : List.Forall₂ (fun bytes v => b.text bytes = .ok v) txt vals)
    (hc : b.codec = .dictText dict (bitsFor (dict.length - 1))
      (pack (bitsFor (dict.length - 1)) (txt.map dict.idxOf))) :
    b.Streams ⟨0, []⟩ vals := by
  refine streams_of_forall fun k hk => ?_
  have hk' : k < txt.length := htxt.length_eq ▸ hk
  have hv := htxt.get hk' hk
  simp only [Block.next, hc, zero_add, unpackAt_codes hlen hmem hk']
  rw [show b.text txt[k] = .ok vals[k] from hv]
  rfl

theorem streams_rawText (htxt : List.Forall₂ (fun bytes v => b.text bytes = .ok v) txt vals)
    (hc : b.codec = .rawText txt) : b.Streams ⟨0, []⟩ vals := by
  refine streams_of_forall fun k hk => ?_
  have hk' : k < txt.length := htxt.length_eq ▸ hk
  have hv := htxt.get hk' hk
  simp only [Block.next, hc, zero_add, List.getElem?_eq_getElem hk']
  rw [show b.text txt[k] = .ok vals[k] from hv]
  rfl

end Codecs

section Payloads

variable {order : HashOrder} {ty : ColumnType} {raw : List UInt64} {txt : List
  (List UInt8)} {zmin : UInt64}

/-- The payload is read back to a codec that gives these values in a block of the type. -/
def Payload.Holds (p : Payload) (ty : ColumnType) (n : ℕ) (zmin : UInt64) (vals : List Value) :
    Prop :=
  p.width ≤ 64 ∧ ∃ codec, Reads (takeCodec (some p.enc) (ty = .text || ty = .blob) n p.width zmin)
  p.bytes
      (some codec) ∧ ∀ b : Block, b.ty = ty → b.codec = codec → b.Streams b.start vals

theorem Payload.better_cases (p q : Payload) : p.better q = p ∨ p.better q = q := by
  unfold better
  split_ifs
  · exact .inr rfl
  · exact .inl rfl

theorem textCol_of_numeric (h : isNumeric ty = true) : (ty = .text || ty = .blob) = false := by
  cases ty <;> first | rfl | cases h

theorem textCol_of_not_numeric (hseg : segmentable ty = true) (h : isNumeric ty = false) :
    (ty = .text || ty = .blob) = true := by
  cases ty <;> first | rfl | exact absurd h (by decide) | exact absurd hseg (by decide)

variable {vals : List Value}

theorem holds_raw64 (hty : isNumeric ty = true)
    (hvals : ∀ b : Block, b.ty = ty → raw.map b.numeric = vals) :
    (raw64Payload raw).Holds ty raw.length zmin vals := by
  refine ⟨by simp [raw64Payload], .raw64 (raw64Payload raw).bytes, ?_, fun b hb hc => ?_⟩
  · have hlen : (raw64Payload raw).bytes.length = raw.length * 8 := by
      simp [raw64Payload, length_flatMap]
    rw [textCol_of_numeric hty]
    exact (reads_takeBytes _ hlen).map fun p => some (Codec.raw64 p)
  · rw [← hvals b hb, start, hc]
    exact streams_raw64 hc

theorem holds_for (hty : isNumeric ty = true) {hi : Int64}
    (hvals : ∀ b : Block, b.ty = ty → raw.map b.numeric = vals)
    (hlo : ∀ v ∈ raw, zmin.toInt64 ≤ v.toInt64) (hhi : ∀ v ∈ raw, v.toInt64 ≤ hi)
    (hw : BitPack.WordFits (forPayload raw zmin.toInt64 hi).width) :
    (forPayload raw zmin.toInt64 hi).Holds ty raw.length zmin vals := by
  refine ⟨?_, .frame zmin.toInt64 (forPayload raw zmin.toInt64 hi).width
    (forPayload raw zmin.toInt64 hi).bytes, ?_, fun b hb hc => ?_⟩
  · rcases wordFits_iff.1 hw with h | h | h <;> omega
  · have hlen : (forPayload raw zmin.toInt64 hi).bytes.length =
        packedLen raw.length (forPayload raw zmin.toInt64 hi).width := by
      simp [forPayload, length_pack, packedLen]
    rw [textCol_of_numeric hty]
    exact (reads_takeBytes _ hlen).map fun p => some (Codec.frame zmin.toInt64 _ p)
  · rw [← hvals b hb, start, hc]
    exact streams_frame hlo hhi hw hc

theorem pairwise_excFrom (default : UInt64) : ∀ (raw : List UInt64) (j : ℕ),
    ((excFrom default j raw).map Prod.fst).Pairwise (· < ·)
  | [], _ => .nil
  | v :: raw, j => by
    by_cases hv : v = default
    · have : excFrom default j (v :: raw) = excFrom default (j + 1) raw := by
        simp [excFrom, zipIdx_cons, hv]
      rw [this]
      exact pairwise_excFrom default raw (j + 1)
    · have : excFrom default j (v :: raw) = (j, v) :: excFrom default (j + 1) raw := by
        simp [excFrom, zipIdx_cons, hv]
      rw [this, map_cons, pairwise_cons]
      refine ⟨fun i hi => ?_, pairwise_excFrom default raw (j + 1)⟩
      obtain ⟨e, he, rfl⟩ := mem_map.1 hi
      exact (excFrom_ge he).1

theorem length_excFrom (default : UInt64) (raw : List UInt64) :
    (excFrom default 0 raw).length = raw.length - raw.count default := by
  have hcount : ((raw.zipIdx).filter fun e => e.1 ≠ default).length =
      (raw.filter fun v => v ≠ default).length := by
    have : raw.filter (fun v => v ≠ default) =
        ((raw.zipIdx).filter fun e => e.1 ≠ default).map Prod.fst := by
      conv_lhs => rw [← zipIdx_map_fst 0 raw]
      rw [filter_map]
      rfl
    rw [this, length_map]
  have hsplit := length_eq_length_filter_add (l := raw) (fun v => v ≠ default)
  have hrest : (raw.filter fun v => !decide (v ≠ default)).length = raw.count default := by
    rw [List.count, countP_eq_length_filter]
    congr 1
    refine filter_congr fun v _ => ?_
    simp [beq_eq_decide]
  rw [excFrom, length_map]
  omega

/-- Every value is the default or an exception. -/
theorem holds_runDefault (hty : isNumeric ty = true) (hlen : raw.length ≤ blockRows)
    {default : UInt64} (hvals : ∀ b : Block, b.ty = ty → raw.map b.numeric = vals) :
    (runDefaultPayload raw default).Holds ty raw.length zmin vals := by
  have h32 : blockRows < 2 ^ 32 := by decide
  refine ⟨by simp [runDefaultPayload], .runDefault default (excFrom default 0 raw), ?_,
    fun b hb hc => ?_⟩
  · have hbytes : (runDefaultPayload raw default).bytes = le 8 default.toNat ++
        (le 4 (excFrom default 0 raw).length ++
          (excFrom default 0 raw).flatMap fun e => le 4 e.1 ++ le 8 e.2.toNat) := by
      rw [length_excFrom, excFrom, flatMap_map]
      simp [runDefaultPayload, append_assoc]
    have hle : (excFrom default 0 raw).length ≤ raw.length := by
      rw [length_excFrom]
      omega
    rw [hbytes, textCol_of_numeric hty]
    refine (reads_takeU64 default).bind ((reads_takeLe (by omega)).bind ?_)
    simp only [show ¬raw.length < (excFrom default 0 raw).length by omega]
    refine Reads.map (fun exc => some (Codec.runDefault default exc)) ?_
    refine reads_takeExceptions (by omega) (pairwise_excFrom default raw 0) fun e he => ⟨?_, ?_⟩
    · have := excFrom_ge he
      omega
    · rintro p ⟨⟩
  · rw [← hvals b hb, start, hc]
    exact streams_runDefault hc raw 0

/-- Every value is an entry of the dictionary. -/
theorem holds_dict (hty : isNumeric ty = true) (hlen : raw.length ≤ blockRows) (hne : raw ≠ [])
    (hvals : ∀ b : Block, b.ty = ty → raw.map b.numeric = vals) :
    (dictPayload raw).Holds ty raw.length zmin vals := by
  set dict := raw.dedup.insertionSort (· ≤ ·) with hdict
  have hmem : ∀ v, v ∈ dict ↔ v ∈ raw := fun v => by rw [mem_insertionSort, mem_dedup]
  have hdlen : dict.length ≤ raw.length := by
    rw [length_insertionSort]
    exact (dedup_sublist raw).length_le
  have hpos : dict.length ≠ 0 := by
    obtain ⟨v, hv⟩ := exists_mem_of_ne_nil raw hne
    exact (length_pos_of_mem ((hmem v).2 hv)).ne'
  have hb : blockRows < 2 ^ 32 := by decide
  have hwidth : (dictPayload raw).width = bitsFor (dict.length - 1) := rfl
  refine ⟨?_, .dictNum dict (bitsFor (dict.length - 1))
    (pack (bitsFor (dict.length - 1)) (raw.map dict.idxOf)), ?_, fun b hb hc => ?_⟩
  · rw [hwidth]
    have : bitsFor (dict.length - 1) ≤ 32 := bitsFor_le (by omega)
    omega
  · have hbytes : (dictPayload raw).bytes = le 4 dict.length ++
        (dict.flatMap (fun d => le 8 d.toNat) ++
        pack (bitsFor (dict.length - 1)) (raw.map dict.idxOf)) := by
      rfl
    have hcodes : (pack (bitsFor (dict.length - 1)) (raw.map dict.idxOf)).length =
        packedLen raw.length (bitsFor (dict.length - 1)) := by
      rw [length_pack, length_map, packedLen]
    rw [hbytes, textCol_of_numeric hty, hwidth]
    refine (reads_takeLe (by omega)).bind ((reads_times fun d _ => reads_takeU64 d).bind ?_)
    have := (reads_takeBytes _ hcodes).map fun codes =>
      some (Codec.dictNum dict (bitsFor (dict.length - 1)) codes)
    simpa only [hpos, false_and, if_false] using this
  · rw [← hvals b hb, start, hc]
    exact streams_dictNum (hdlen.trans hlen) (fun v hv => (hmem v).2 hv) hc

theorem mem_dedup_reverse {α : Type} [DecidableEq α] (l : List α) (a : α) :
    a ∈ l.reverse.dedup.reverse ↔ a ∈ l := by
  rw [mem_reverse, mem_dedup, mem_reverse]

/-- The texts, raw or by a dictionary, are read back. -/
theorem holds_text (hty : (ty = .text || ty = .blob) = true) (hlen : txt.length ≤ blockRows)
    (hsmall : ∀ t ∈ txt, t.length < 2 ^ 32)
    (hvals : ∀ b : Block, b.ty = ty → List.Forall₂ (fun bytes v => b.text bytes = .ok v) txt vals) :
    (bestText txt).Holds ty txt.length zmin vals := by
  have hraw : (⟨.rawText, 0, txt.flatMap putLp⟩ : Payload).Holds ty txt.length zmin vals := by
    refine ⟨by simp, .rawText txt, ?_, fun b hb hc => ?_⟩
    · rw [hty]
      exact (reads_times fun t ht => reads_takeLp (hsmall t ht)).map fun offs => some
        (Codec.rawText offs)
    · rw [start, hc]
      exact streams_rawText (hvals b hb) hc
  unfold bestText
  split_ifs with hempty
  · rw [isEmpty_iff.1 hempty] at hraw
    rw [isEmpty_iff.1 hempty]
    exact hraw
  · set dict := txt.reverse.dedup.reverse with hdict
    have hmem : ∀ v, v ∈ dict ↔ v ∈ txt := mem_dedup_reverse txt
    have hdlen : dict.length ≤ txt.length := by
      rw [length_reverse]
      exact (dedup_sublist _).length_le.trans_eq length_reverse
    have hpos : dict.length ≠ 0 := by
      obtain ⟨v, hv⟩ := exists_mem_of_ne_nil txt (by simpa using hempty)
      exact (length_pos_of_mem ((hmem v).2 hv)).ne'
    have hb : blockRows < 2 ^ 32 := by decide
    rcases Payload.better_cases ⟨.rawText, 0, txt.flatMap putLp⟩ ⟨.dict, bitsFor (dict.length - 1),
      le 4 dict.length ++ dict.flatMap putLp ++
        pack (bitsFor (dict.length - 1)) (txt.map fun b => dict.idxOf b)⟩ with h | h
    · simp only [h]
      exact hraw
    · simp only [h]
      refine ⟨?_, .dictText dict (bitsFor (dict.length - 1))
        (pack (bitsFor (dict.length - 1)) (txt.map dict.idxOf)), ?_, fun b hb hc => ?_⟩
      · have : bitsFor (dict.length - 1) ≤ 32 := bitsFor_le (by omega)
        show bitsFor (dict.length - 1) ≤ 64
        omega
      · have hcodes : (pack (bitsFor (dict.length - 1)) (txt.map dict.idxOf)).length =
            packedLen txt.length (bitsFor (dict.length - 1)) := by
          rw [length_pack, length_map, packedLen]
        rw [hty]
        refine (reads_takeLe (by omega)).bind ((reads_times fun d hd =>
          reads_takeLp (hsmall d ((hmem d).1 hd))).bind ?_)
        have := (reads_takeBytes _ hcodes).map fun codes =>
          some (Codec.dictText dict (bitsFor (dict.length - 1)) codes)
        simpa only [hpos, false_and, if_false] using this
      · rw [start, hc]
        exact streams_dictText (hdlen.trans hlen) (fun v hv => (hmem v).2 hv) (hvals b hb) hc

/-- The encodings that the writer chooses among. -/
theorem bestNumeric_cases (order : HashOrder) (ty : ColumnType) (hne : raw ≠ []) (zmin : UInt64) :
    bestNumeric order ty raw zmin = raw64Payload raw ∨
      (ty ≠ .float64 ∧ bestNumeric order ty raw zmin = forPayload raw zmin.toInt64 (bestHi raw)) ∨
      (∃ d, bestNumeric order ty raw zmin = runDefaultPayload raw d) ∨
      bestNumeric order ty raw zmin = dictPayload raw := by
  -- the best of the first two, and then of three
  obtain ⟨p, hp, hbest⟩ : ∃ p, (p = raw64Payload raw ∨
      (ty ≠ .float64 ∧ p = forPayload raw zmin.toInt64 (bestHi raw))) ∧
      (if ty ≠ .float64 then (raw64Payload raw).better (forPayload raw zmin.toInt64 (bestHi raw))
        else raw64Payload raw) = p := by
    split_ifs with hty
    · rcases Payload.better_cases (raw64Payload raw)
        (forPayload raw zmin.toInt64 (bestHi raw)) with h | h
      · exact ⟨_, .inl h, rfl⟩
      · exact ⟨_, .inr ⟨hty, h⟩, rfl⟩
    · exact ⟨_, .inl rfl, rfl⟩
  obtain ⟨q, hq, hbest'⟩ : ∃ q, (q = p ∨ ∃ d, q = runDefaultPayload raw d) ∧
      ((mostFrequent raw (order.walk raw)).elim p fun d => p.better (runDefaultPayload raw d)) =
        q := by
    rcases mostFrequent raw (order.walk raw) with _ | d
    · exact ⟨p, .inl rfl, rfl⟩
    · rcases Payload.better_cases p (runDefaultPayload raw d) with h | h
      · exact ⟨_, .inl h, rfl⟩
      · exact ⟨_, .inr ⟨d, h⟩, rfl⟩
  have hall : bestNumeric order ty raw zmin = q.better (dictPayload raw) := by
    subst hbest'
    subst hbest
    rw [bestNumeric, if_neg (by simpa using hne)]
    cases mostFrequent raw (order.walk raw) <;> rfl
  rw [hall]
  rcases Payload.better_cases q (dictPayload raw) with h | h <;> rw [h]
  · rcases hq with rfl | hd
    · rcases hp with h' | h'
      · exact .inl h'
      · exact .inr (.inl h')
    · exact .inr (.inr (.inl hd))
  · exact .inr (.inr (.inr rfl))

theorem foldl_extreme {α β : Type} {R : β → β → Prop} (hrefl : ∀ x, R x x)
    (htrans : ∀ x y z, R x y → R y z → R x z) {f : β → α → β} {g : α → β}
    (hf : ∀ m x, R (f m x) m ∧ R (f m x) (g x)) : ∀ (l : List α) (m : β),
    R (l.foldl f m) m ∧ ∀ x ∈ l, R (l.foldl f m) (g x)
  | [], m => ⟨hrefl m, by simp⟩
  | y :: l, m => by
    have ih := foldl_extreme hrefl htrans hf l (f m y)
    refine ⟨htrans _ _ _ ih.1 (hf m y).1, fun x hx => ?_⟩
    rcases mem_cons.1 hx with rfl | hx
    · exact htrans _ _ _ ih.1 (hf m x).2
    · exact ih.2 x hx

theorem le_bestHi : ∀ v ∈ raw, v.toInt64 ≤ bestHi raw := by
  have hmax (m x : Int64) : m ≤ max m x ∧ x ≤ max m x := by
    show m ≤ (if m ≤ x then x else m) ∧ x ≤ (if m ≤ x then x else m)
    split_ifs with h
    · exact ⟨h, Int64.le_refl x⟩
    · exact ⟨Int64.le_refl m, Int64.le_of_lt (Int64.not_le.1 h)⟩
  have := foldl_extreme (R := fun a b : Int64 => b ≤ a) Int64.le_refl
    (fun _ _ _ h h' => Int64.le_trans h' h) (f := max) (g := id) hmax
    (raw.map UInt64.toInt64) Int64.minValue
  exact fun v hv => this.2 _ (mem_map_of_mem hv)

/-- The zone of a block bounds its values in the order of signed integers. -/
theorem zoneOf_bounds (hty : isNumeric ty = true) (hf : ty ≠ .float64) : ∀ v ∈ raw,
    (zoneOf ty raw).1.toInt64 ≤ v.toInt64 ∧ v.toInt64 ≤ (zoneOf ty raw).2.toInt64 := by
  have hzone : zoneOf ty raw =
      ((raw.foldl (fun lo b => if b.toInt64 < lo then b.toInt64 else lo) Int64.maxValue).toUInt64,
        (raw.foldl (fun hi b => if hi < b.toInt64 then b.toInt64 else hi)
          Int64.minValue).toUInt64) := by
    unfold zoneOf
    rw [if_pos (by simp [hty, hf])]
  have hlo := foldl_extreme (R := fun a b : Int64 => a ≤ b) Int64.le_refl
    (fun _ _ _ => Int64.le_trans)
    (f := fun lo b => if b.toInt64 < lo then b.toInt64 else lo) (g := UInt64.toInt64)
    (fun m x => by
      split_ifs with h
      · exact ⟨Int64.le_of_lt h, Int64.le_refl _⟩
      · exact ⟨Int64.le_refl _, Int64.not_lt.1 h⟩) raw Int64.maxValue
  have hhi := foldl_extreme (R := fun a b : Int64 => b ≤ a) Int64.le_refl
    (fun _ _ _ h h' => Int64.le_trans h' h)
    (f := fun hi b => if hi < b.toInt64 then b.toInt64 else hi) (g := UInt64.toInt64)
    (fun m x => by
      split_ifs with h
      · exact ⟨Int64.le_of_lt h, Int64.le_refl _⟩
      · exact ⟨Int64.le_refl _, Int64.not_lt.1 h⟩) raw Int64.minValue
  intro v hv
  rw [hzone]
  exact ⟨hlo.2 v hv, hhi.2 v hv⟩

/-- The numeric payload, if a packed distance is not among those the packer loses bits of. -/
theorem holds_numeric (hty : isNumeric ty = true) (hlen : raw.length ≤ blockRows)
    (hvals : ∀ b : Block, b.ty = ty → raw.map b.numeric = vals)
    (hlo : ty ≠ .float64 → ∀ v ∈ raw, zmin.toInt64 ≤ v.toInt64)
    (hw : (bestNumeric order ty raw zmin).enc = .forBitpack →
      BitPack.WordFits (bestNumeric order ty raw zmin).width) :
    (bestNumeric order ty raw zmin).Holds ty raw.length zmin vals := by
  by_cases hne : raw = []
  · subst hne
    exact holds_raw64 hty hvals
  · rcases bestNumeric_cases order ty hne zmin with h | ⟨hf, h⟩ | ⟨d, h⟩ | h
    · rw [h]
      exact holds_raw64 hty hvals
    · rw [h] at hw ⊢
      exact holds_for hty hvals (hlo hf) le_bestHi (hw rfl)
    · rw [h]
      exact holds_runDefault hty hlen hvals
    · rw [h]
      exact holds_dict hty hlen hne hvals

end Payloads

section Values

variable {ty : ColumnType} {v : Value} {vals : List Value} {raw : List UInt64} {txt
  : List (List UInt8)}

theorem nonNull_cons {r : List UInt64 × List (List UInt8)} (h : nonNull ty (v :: vals) = .ok r) :
    ∃ a b, nonNullOf ty v = .ok a ∧ nonNull ty vals = .ok b ∧ r = (a.1 ++ b.1, a.2 ++ b.2) := by
  obtain ⟨a, ha, h⟩ := Outcome.bind_eq_ok.1 h
  obtain ⟨b, hb, h⟩ := Outcome.bind_eq_ok.1 h
  exact ⟨a, b, ha, hb, (Except.ok.inj h).symm⟩

theorem nonNullOf_length {r : List UInt64 × List (List UInt8)} (h : nonNullOf ty v = .ok r) :
    (if isNumeric ty then r.1.length else r.2.length) = if v.isNull then 0 else 1 := by
  unfold nonNullOf nonNullOf.bad at h
  cases v with
  | null =>
    cases h
    simp [Value.isNull]
  | int x | timestamp x | float x =>
    simp only at h
    split_ifs at h with hty
    · cases h
      simp [hty, Value.isNull]
  | text x | blob x =>
    simp only at h
    split_ifs at h with hty
    · cases h
      subst hty
      rfl
  | bool x | date x | time x | numeric x => cases h

theorem nonNull_length : ∀ {vals : List Value} {r : List UInt64 × List (List UInt8)},
    nonNull ty vals = .ok r →
    (if isNumeric ty then r.1.length else r.2.length) = (vals.filter fun v => !v.isNull).length
  | [], r, h => by
    cases h
    simp
  | v :: vals, r, h => by
    obtain ⟨a, b, ha, hb, rfl⟩ := nonNull_cons h
    have h1 := nonNullOf_length ha
    have h2 := nonNull_length hb
    cases hv : v.isNull <;> cases hn : isNumeric ty <;> simp_all <;> omega

/-- A stored value is at most as long as a row can hold. -/
def Value.small (v : Value) : Prop := v.varLen < 2 ^ 32

theorem utf8_toList (s : String) : utf8 s.toList = s.toByteArray.data.toList := by
  rw [utf8, ← String.utf8Encode_toList, List.utf8Encode]
  simp

theorem text_toByteArray {b : Block} (hb : b.ty = .text) (s : String) :
    b.text s.toByteArray.data.toList = .ok (.text s) := by
  have : String.fromUTF8? ⟨s.toByteArray.data.toList.toArray⟩ = some s := by
    rw [String.fromUTF8?,
      dif_pos s.isValidUTF8]
    rfl
  simp only [text, hb, if_true, this]

/-- A value that fits its column is stored as bits or as bytes, from which it is read back. -/
theorem nonNullOf_fits (hseg : segmentable ty = true) (hfit : v.fits ty = true)
    (hv : v.isNull = false) :
    (isNumeric ty = true ∧ ∃ bits, nonNullOf ty v = .ok ([bits], []) ∧
      ∀ b : Block, b.ty = ty → b.numeric bits = v) ∨
    (isNumeric ty = false ∧ ∃ bytes, nonNullOf ty v = .ok ([], [bytes]) ∧ bytes.length = v.varLen ∧
      ∀ b : Block, b.ty = ty → b.text bytes = .ok v) := by
  unfold Value.fits at hfit
  have hany : ty ≠ .any := by
    rintro rfl
    cases hseg
  rw [if_neg hany] at hfit
  cases v with
  | null => cases hv
  | int x =>
    obtain rfl : ColumnType.int64 = ty := by simpa [Value.columnType] using hfit
    exact .inl ⟨rfl, x.toUInt64, rfl, fun b hb => by simp [numeric, hb]⟩
  | float x =>
    obtain rfl : ColumnType.float64 = ty := by simpa [Value.columnType] using hfit
    exact .inl ⟨rfl, x.bits, rfl, fun b hb => by simp [numeric, hb]⟩
  | timestamp x =>
    obtain rfl : ColumnType.timestamp = ty := by simpa [Value.columnType] using hfit
    exact .inl ⟨rfl, x.toUInt64, rfl, fun b hb => by simp [numeric, hb]⟩
  | text s =>
    obtain rfl : ColumnType.text = ty := by simpa [Value.columnType] using hfit
    exact .inr ⟨rfl, s.toByteArray.data.toList, rfl, by rw [Value.varLen, utf8_toList],
      fun b hb => text_toByteArray hb s⟩
  | blob x =>
    obtain rfl : ColumnType.blob = ty := by simpa [Value.columnType] using hfit
    exact .inr ⟨rfl, x, rfl, rfl, fun b hb => by simp [text, hb]⟩
  | bool x | date x | time x | numeric x =>
    simp only [Value.columnType, decide_eq_true_eq] at hfit
    subst hfit
    cases hseg

/-- The values of a block that are not NULL, as they are stored. -/
theorem nonNull_fits (hseg : segmentable ty = true) : ∀ {vals : List Value},
    (∀ v ∈ vals, v.fits ty = true ∧ v.small) →
    ∃ raw txt, nonNull ty vals = .ok (raw, txt) ∧
      (isNumeric ty = true → ∀ b : Block, b.ty = ty → raw.map b.numeric = vals.filter
        fun v => !v.isNull) ∧
      (isNumeric ty = false → (∀ t ∈ txt, t.length < 2 ^ 32) ∧ ∀ b : Block, b.ty = ty →
        List.Forall₂ (fun bytes v => b.text bytes = .ok v) txt (vals.filter fun v => !v.isNull))
  | [], _ => ⟨[], [], rfl, by simp, by simp⟩
  | v :: vals, h => by
    have hvals : ∀ w ∈ vals, w.fits ty = true ∧ w.small := fun w hw => h w (by simp [hw])
    obtain ⟨raw, txt, hrest, hnum, htxt⟩ := nonNull_fits hseg hvals
    obtain ⟨hfit, hsmall⟩ := h v (by simp)
    cases hv : v.isNull with
    | true =>
      obtain rfl : v = .null := by
        cases v <;> first | rfl | cases hv
      refine ⟨raw, txt, ?_, by simpa [Value.isNull] using hnum, by simpa [Value.isNull] using htxt⟩
      rw [nonNull, hrest]
      rfl
    | false =>
      have hfilter : ((v :: vals).filter fun v => !v.isNull) = v :: vals.filter
          fun v => !v.isNull := by
        rw [filter_cons_of_pos (by simp [hv])]
      rw [hfilter]
      rcases nonNullOf_fits hseg hfit hv with ⟨hty, bits, hone, hbits⟩ | ⟨hty, bytes,
        hone, hlen, hbytes⟩
      · refine ⟨bits :: raw, txt, ?_, fun _ b hb => ?_, fun h => by simp [hty] at h⟩
        · rw [nonNull, hone, hrest]
          rfl
        · rw [map_cons, hbits b hb, hnum hty b hb]
      · refine ⟨raw, bytes :: txt, ?_, fun h => by simp [hty] at h,
          fun _ => ⟨fun t ht => ?_, fun b hb => ?_⟩⟩
        · rw [nonNull, hone, hrest]
          rfl
        · rcases mem_cons.1 ht with rfl | ht
          · rw [hlen]
            exact hsmall
          · exact (htxt hty).1 t ht
        · exact .cons (hbytes b hb) ((htxt hty).2 b hb)

end Values

section Blocks

variable {order : HashOrder} {g : ℕ} {ty : ColumnType} {vals : List Value} {bytes : List UInt8}

/-- What a block that stands for these values answers. -/
structure Block.Of (b : Block) (ty : ColumnType) (vals : List Value) : Prop where
  type : b.ty = ty
  rows : b.nRows = vals.length
  nonnull : b.nNonnull = (vals.filter fun v => !v.isNull).length
  each : ∀ {σ : Type} (push : σ → Value → Except Error σ) (s : σ), b.forEach push s =
    vals.foldlM push s
  bounds : ty = .int64 ∨ ty = .timestamp → ∀ v ∈ vals, ∀ x, v = .int x ∨ v = .timestamp x →
    b.zmin.toInt64 ≤ x ∧ x ≤ b.zmax.toInt64

/-- The width of the packed distances, if the block's values are packed so. -/
def forWidth (order : HashOrder) (ty : ColumnType) (vals : List Value) : Option ℕ :=
  match nonNull ty vals with
  | .ok (raw, _) =>
    let p := bestNumeric order ty raw (zoneOf ty raw).1
    if isNumeric ty ∧ p.enc = .forBitpack then some p.width else none
  | .error _ => none

/-- Nothing is lost of the packed distances. -/
def Lossless (order : HashOrder) (ty : ColumnType) (vals : List Value) : Prop :=
  ∀ w ∈ forWidth order ty vals, w ∉ [59, 61, 62, 63]

instance : Decidable (Lossless order ty vals) :=
  decidable_of_iff (∀ w ∈ (forWidth order ty vals).toList, w ∉ [59, 61, 62, 63])
  (by simp [Lossless])

variable {ty' : ColumnType}

theorem tag_inj {ty : ColumnType} (h : ty.tag = ty'.tag) : ty = ty' := by
  cases ty <;> cases ty' <;> first | rfl | (revert h; decide)

theorem ofTag_tag (e : Encoding) : Encoding.ofTag e.tag = some e := by
  cases e <;> rfl

theorem encodeBlock_eq (h : encodeBlock order g ty vals = .ok bytes) : ∃ raw txt payload,
    nonNull ty vals = .ok (raw, txt) ∧
    payload = (if isNumeric ty then bestNumeric order ty raw (zoneOf ty raw).1 else bestText txt) ∧
    bytes = colsegMagic ++ (le 2 colsegFormat ++ (le 8 g ++ (le 4 vals.length ++
      (le 4 (vals.filter fun v => !v.isNull).length ++ ([ty.tag] ++ ([payload.enc.tag] ++
      ([UInt8.ofNat payload.width] ++
        ([if (vals.filter fun v => !v.isNull).length ≠ vals.length then 1 else 0] ++
      (le 8 (zoneOf ty raw).1.toNat ++ (le 8 (zoneOf ty raw).2.toNat ++
      ((if (vals.filter fun v => !v.isNull).length ≠ vals.length then
        (BitMask.ofList 8 (vals.map Value.isNull)).map UInt8.ofNat else []) ++
          payload.bytes))))))))))) := by
  obtain ⟨⟨raw, txt⟩, hnn, h⟩ := Outcome.bind_eq_ok.1 h
  refine ⟨raw, txt, _, hnn, rfl, ?_⟩
  have hlen := nonNull_length hnn
  simp only [hlen] at h
  rw [← Except.ok.inj h]
  simp [nil_append]

theorem decodeBlock_head {g' : ℕ} {rest : List UInt8} (hg : g < 2 ^ 64) :
    decodeBlock (colsegMagic ++ (le 2 colsegFormat ++ (le 8 g ++ rest))) g' ty' =
      if g ≠ g' then .ok none else StateT.run' (takeBody ty') rest := by
  unfold decodeBlock StateT.run'
  rw [(reads_takeBytes (x := colsegMagic) 4 rfl).bind_run]
  simp only [ne_eq, not_true, if_false]
  rw [(reads_takeLe (n := 2) (v := colsegFormat) (by decide)).bind_run]
  simp only [not_true, if_false]
  rw [(reads_takeLe (n := 8) (by simpa using hg)).bind_run]
  split_ifs <;> rfl

variable {n m : ℕ}

theorem takeBody_other {tag : UInt8} {rest : List UInt8} (hn : n ≤ blockRows) (hm : m ≤ n)
    (htag : tag ≠ ty.tag) :
    StateT.run' (takeBody ty) (le 4 n ++ (le 4 m ++ ([tag] ++ rest))) = .ok none := by
  have hb : blockRows < 256 ^ 4 := by decide
  unfold StateT.run' takeBody
  rw [(reads_takeLe (by omega)).bind_run, (reads_takeLe (by omega)).bind_run]
  simp only [show ¬(blockRows < n ∨ n < m) by omega, if_false]
  rw [(reads_takeByte tag).bind_run]
  simp only [ne_eq, htag]
  rfl

theorem reads_takeNulls {bitmap : List UInt8} (hlen : bitmap.length = (n + 7) / 8) :
    Reads (takeNulls (m ≠ n) n m) (if m ≠ n then bitmap else [])
    (if m ≠ n then some bitmap else none) := by
  unfold takeNulls
  by_cases h : m = n
  · simp only [h, ne_eq]
    exact Reads.pure none
  · simp only [h, ne_eq]
    exact (reads_takeBytes _ hlen).map some

/-- The header of a block is read back, and with it the payload. -/
theorem takeBody_same {p : Payload} {zmin zmax : UInt64} {bitmap : List UInt8} {codec : Codec}
    (hn : n ≤ blockRows) (hm : m ≤ n) (hw : p.width ≤ 64) (hlen : bitmap.length = (n + 7) / 8)
    (hcodec : Reads (takeCodec (some p.enc) (ty = .text || ty = .blob) m p.width zmin)
      p.bytes (some codec)) :
    StateT.run' (takeBody ty)
    (le 4 n ++ (le 4 m ++ ([ty.tag] ++ ([p.enc.tag] ++ ([UInt8.ofNat p.width] ++
      ([if m ≠ n then 1 else 0] ++ (le 8 zmin.toNat ++ (le 8 zmax.toNat ++
      ((if m ≠ n then bitmap else []) ++ p.bytes))))))))) =
    .ok (some ⟨n, m, ty, zmin, zmax, if m ≠ n then some bitmap else none, codec⟩) := by
  have hb : blockRows < 256 ^ 4 := by decide
  have hwidth : (UInt8.ofNat p.width).toNat = p.width := by
    exact Nat.mod_eq_of_lt (by omega)
  have hflag : ¬((1 : UInt8) < if m ≠ n then 1 else 0) := by split_ifs <;> decide
  have hnulls : (decide ((if m ≠ n then 1 else 0 : UInt8) = 1)) = decide (m ≠ n) := by
    split_ifs with h
    · simp [h]
    · simp [h]
  unfold StateT.run' takeBody
  rw [(reads_takeLe (by omega)).bind_run, (reads_takeLe (by omega)).bind_run]
  simp only [show ¬(blockRows < n ∨ n < m) by omega, if_false]
  rw [(reads_takeByte ty.tag).bind_run]
  simp only [ne_eq, not_true, if_false]
  rw [(reads_takeByte p.enc.tag).bind_run, (reads_takeByte (UInt8.ofNat p.width)).bind_run]
  simp only [hwidth, show ¬64 < p.width by omega, if_false]
  rw [(reads_takeByte _).bind_run]
  simp only [hflag, if_false, hnulls]
  rw [(reads_takeU64 zmin).bind_run, (reads_takeU64 zmax).bind_run]
  have hbit := reads_takeNulls (m := m) hlen
  rw [hbit.bind_run, ofTag_tag]
  rw [← append_nil p.bytes, hcodec.bind_run]
  rfl

theorem bitmap_null (vals : List Value) {i : ℕ} (hi : i < vals.length) :
    BitMask.get 8 (((BitMask.ofList 8 (vals.map Value.isNull)).map UInt8.ofNat).map UInt8.toNat) i =
      vals[i].isNull := by
  have hbytes : ((BitMask.ofList 8 (vals.map Value.isNull)).map UInt8.ofNat).map UInt8.toNat =
      BitMask.ofList 8 (vals.map Value.isNull) := by
    rw [map_map]
    refine (map_congr_left fun x hx => ?_).trans (map_id _)
    have : x < 256 := BitMask.lt_of_mem_ofList (by decide) hx
    simp [Nat.mod_eq_of_lt this]
  rw [hbytes, BitMask.get_ofList (by decide), getD_eq_getElem _ _ (by simpa using hi), getElem_map]

/-- Where nothing is lost the packed words can be read in one piece. -/
theorem wordFits_of_lossless {raw : List UInt64} {txt : List (List UInt8)}
    (hloss : Lossless order ty vals) (hnn : nonNull ty vals = .ok (raw, txt))
    (hty : isNumeric ty = true)
    (henc : (bestNumeric order ty raw (zoneOf ty raw).1).enc = .forBitpack) :
    BitPack.WordFits (bestNumeric order ty raw (zoneOf ty raw).1).width := by
  have hnot := hloss (bestNumeric order ty raw (zoneOf ty raw).1).width (by
    simp [forWidth, hnn, hty, henc])
  have hle : (bestNumeric order ty raw (zoneOf ty raw).1).width ≤ 64 := by
    by_cases hne : raw = []
    · simp [bestNumeric, hne]
    · rcases bestNumeric_cases order ty hne (zoneOf ty raw).1 with h | ⟨-, h⟩ | ⟨d, h⟩ | h <;>
        rw [h] at henc ⊢
      · cases henc
      · refine bitsFor_le ?_
        have h1 := Int64.toInt_lt (bestHi raw)
        have h2 := Int64.le_toInt (zoneOf ty raw).1.toInt64
        omega
      · cases henc
      · cases henc
  simp only [mem_cons] at hnot
  exact wordFits_iff.2 (by omega)

/-- A block is decoded to the values it was made from. -/
theorem encodeBlock_blockOf (h : encodeBlock order g ty vals = .ok bytes) (hg : g < 2 ^ 64)
    (hlen : vals.length ≤ blockRows) (hseg : segmentable ty = true)
    (hvals : ∀ v ∈ vals, v.fits ty = true ∧ v.small) (hloss : Lossless order ty vals) :
    ∃ b, decodeBlock bytes g ty = .ok (some b) ∧ b.Of ty vals := by
  obtain ⟨raw, txt, payload, hnn, hpay, rfl⟩ := encodeBlock_eq h
  have hcount : (vals.filter fun v => !v.isNull).length ≤ vals.length := length_filter_le ..
  have hbitmap : ((BitMask.ofList 8 (vals.map Value.isNull)).map UInt8.ofNat).length =
      (vals.length + 7) / 8 := by
    rw [length_map, BitMask.length_ofList, length_map]
    rfl
  obtain ⟨raw', txt', hnn', hnum, htxt⟩ := nonNull_fits hseg hvals
  rw [hnn] at hnn'
  cases hnn'
  have hn := nonNull_length hnn
  -- the payload holds the values that are not NULL
  have hholds : payload.Holds ty (vals.filter fun v => !v.isNull).length (zoneOf ty raw).1
      (vals.filter fun v => !v.isNull) := by
    rw [← hn] at hcount ⊢
    rw [hpay]
    cases hty : isNumeric ty with
    | true =>
      simp only [hty] at hcount ⊢
      exact holds_numeric hty (hcount.trans hlen) (hnum hty)
        (fun hf v hv => (zoneOf_bounds hty hf v hv).1) (wordFits_of_lossless hloss hnn hty)
    | false =>
      simp only [hty] at hcount ⊢
      exact holds_text (textCol_of_not_numeric hseg hty) (hcount.trans hlen)
        (htxt hty).1 (htxt hty).2
  obtain ⟨hw, codec, hreads, hstream⟩ := hholds
  refine ⟨⟨vals.length, (vals.filter fun v => !v.isNull).length, ty, (zoneOf ty raw).1,
    (zoneOf ty raw).2, if (vals.filter fun v => !v.isNull).length ≠ vals.length then
      some ((BitMask.ofList 8 (vals.map Value.isNull)).map UInt8.ofNat) else none, codec⟩, ?_, ?_⟩
  · rw [decodeBlock_head hg, if_neg (by simp), takeBody_same hlen hcount hw hbitmap hreads]
  · refine ⟨rfl, rfl, rfl, fun push s => ?_, fun hint v hv x hx => ?_⟩
    · refine forEachFrom_eq (fun i hi => ?_) (hstream _ rfl rfl) (by simp [start])
      rw [zero_add]
      by_cases hfull : (vals.filter fun v => !v.isNull).length = vals.length
      · -- no NULL among them
        have := length_filter_eq_length_iff.1 hfull vals[i] (getElem_mem hi)
        simp only [isNullAt, hfull]
        simpa using this
      · simp only [hfull, ne_eq]
        exact bitmap_null vals hi
    · have hty : isNumeric ty = true := by rcases hint with rfl | rfl <;> rfl
      have hf : ty ≠ .float64 := by rcases hint with rfl | rfl <;> decide
      have hmem : v ∈ vals.filter fun v => !v.isNull := by
        rw [mem_filter]
        rcases hx with rfl | rfl <;> exact ⟨hv, rfl⟩
      rw [← hnum hty ⟨0, 0, ty, 0, 0, none, codec⟩ rfl] at hmem
      obtain ⟨bits, hbits, rfl⟩ := mem_map.1 hmem
      have hxeq : bits.toInt64 = x := by
        rcases hint with rfl | rfl <;> rcases hx with h | h <;> simp [numeric] at h <;> exact h
      rw [← hxeq]
      exact zoneOf_bounds hty hf bits hbits

theorem encodeBlock_other (h : encodeBlock order g ty vals = .ok bytes) (hg : g < 2 ^ 64)
    (hlen : vals.length ≤ blockRows) {g' : ℕ} (hne : g' ≠ g ∨ ty' ≠ ty) :
    decodeBlock bytes g' ty' = .ok none := by
  obtain ⟨raw, txt, payload, -, -, rfl⟩ := encodeBlock_eq h
  rw [decodeBlock_head hg]
  by_cases hgg : g = g'
  · rw [if_neg (by simp [hgg])]
    exact takeBody_other hlen (length_filter_le ..) fun h =>
      (hne.resolve_left (by simp [hgg])) (tag_inj h).symm
  · rw [if_pos hgg]

end Blocks

end Mpedb
