import Mpedb.Compaction
import Mpedb.Lib.Outcome

/-!
# Compaction moves the records it lists and leaves the others

New ids only go down and no two tables get one id, so both passes over the catalog rename its keys:
a directory entry or a listed record is found under the new id of its table, and every other record
where it was. A reader is then right after a compaction just if its family is listed, or if the
record under the new id reads as the one under the old id did.
-/

namespace Mpedb

open Bytes SortedMap Outcome List

section Ids

variable {tables : List TableSlot} {base next o o₁ o₂ n : ℕ}

namespace IdSchema

section

variable (hd : ∀ (i : ℕ) (t : TableSlot), tables[i]? = some t → t.id = base + i)

include hd

/-- New ids are not above the old ones. -/
theorem idMap_bounds
    (hle : next ≤ base) (h : (idMap next tables).lookup o = some n) :
    next ≤ n ∧ n ≤ o ∧ base ≤ o ∧ o < base + tables.length := by
  induction tables generalizing base next with
  | nil => cases h
  | cons t tables ih =>
    have ht : t.id = base := hd 0 t rfl
    have hd' : ∀ (i : ℕ) (t : TableSlot), tables[i]? = some t → t.id = base + 1 + i := by
      intro i t' hi
      have := hd (i + 1) t' (by simpa using hi)
      omega
    unfold idMap at h
    rw [length_cons]
    split_ifs at h
    · have := ih hd' (by omega) h
      omega
    · rw [lookup_cons] at h
      split at h
      · rename_i heq
        cases h
        have : o = t.id := by simpa using heq
        omega
      · have := ih hd' (by omega) h
        omega

/-- No two tables get one id. -/
theorem idMap_inj
    (hle : next ≤ base) (h₁ : (idMap next tables).lookup o₁ = some n)
    (h₂ : (idMap next tables).lookup o₂ = some n) : o₁ = o₂ := by
  induction tables generalizing base next with
  | nil => cases h₁
  | cons t tables ih =>
    have hd' : ∀ (i : ℕ) (t : TableSlot), tables[i]? = some t → t.id = base + 1 + i := by
      intro i t' hi
      have := hd (i + 1) t' (by simpa using hi)
      omega
    unfold idMap at h₁ h₂
    split_ifs at h₁ h₂
    · exact ih hd' (by omega) h₁ h₂
    · rw [lookup_cons] at h₁ h₂
      -- the ids behind the first are above its new id
      split at h₁ <;> split at h₂
      · rename_i _ h _ h'
        have e₁ : o₁ = t.id := by simpa using h
        have e₂ : o₂ = t.id := by simpa using h'
        exact e₁.trans e₂.symm
      · cases h₁
        have := (idMap_bounds hd' (by omega) h₂).1
        omega
      · cases h₂
        have := (idMap_bounds hd' (by omega) h₁).1
        omega
      · exact ih hd' (by omega) h₁ h₂

end

/-- The new id of a table. -/
def renumber (s : IdSchema) (o : ℕ) : Option ℕ := s.compacted.2.lookup o

variable {s : IdSchema}

theorem renumber_le (h : s.renumber o = some n) : n ≤ o ∧ o < 2 ^ 32 := by
  have hd : ∀ (i : ℕ) (t : TableSlot), s.tables[i]? = some t → t.id = 0 + i := by
    simpa using s.dense
  have := idMap_bounds hd le_rfl h
  have := s.small
  omega

theorem renumber_inj (h₁ : s.renumber o₁ = some n) (h₂ : s.renumber o₂ = some n) : o₁ = o₂ := by
  have hd : ∀ (i : ℕ) (t : TableSlot), s.tables[i]? = some t → t.id = 0 + i := by
    simpa using s.dense
  exact idMap_inj hd le_rfl h₁ h₂

end IdSchema

end Ids

section Keys

variable {k : Key} {pos n : ℕ} {spec : IdKey}

theorem idKeys_lead : ∀ a ∈ idKeys, ∀ b ∈ idKeys, a.lead <+: b.lead → a = b := by decide

/-- Where the id stands in a key of the catalog. -/
theorem idOffset_eq : idOffset k = some (pos, spec) ↔ spec ∈ idKeys ∧ spec.lead <+: k ∧
    pos = spec.lead.length + spec.idAt ∧ pos + 4 ≤ k.length := by
  constructor
  · intro h
    obtain ⟨spec', hfind, heq⟩ := Option.map_eq_some_iff.1 h
    cases heq
    have hp := List.find?_some hfind
    simp only [Bool.and_eq_true, List.isPrefixOf_iff_prefix, decide_eq_true_eq] at hp
    exact ⟨mem_of_find?_eq_some hfind, hp.1, rfl, hp.2⟩
  · rintro ⟨hmem, hlead, rfl, hlen⟩
    have hsome : (idKeys.find? fun k' => k'.lead.isPrefixOf k &&
        k'.lead.length + k'.idAt + 4 ≤ k.length).isSome := by
      rw [List.find?_isSome]
      exact ⟨spec, hmem, by simp [List.isPrefixOf_iff_prefix.2 hlead, hlen]⟩
    obtain ⟨spec', hfind⟩ := Option.isSome_iff_exists.1 hsome
    have hp := List.find?_some hfind
    simp only [Bool.and_eq_true, List.isPrefixOf_iff_prefix] at hp
    have hmem' := mem_of_find?_eq_some hfind
    -- two beginnings of one key are one beginning of the other
    have : spec' = spec := by
      rcases prefix_or_prefix_of_prefix hp.1 hlead with h | h
      · exact idKeys_lead _ hmem' _ hmem h
      · exact (idKeys_lead _ hmem _ hmem' h).symm
    subst this
    exact Option.map_eq_some_iff.2 ⟨spec', hfind, rfl⟩

theorem length_rewriteKey (h : pos + 4 ≤ k.length) : (rewriteKey k pos n).length = k.length := by
  simp only [rewriteKey, length_append, length_take, length_drop, length_be]
  omega

theorem idOffset_rewriteKey (h : idOffset k = some (pos, spec)) :
    idOffset (rewriteKey k pos n) = some (pos, spec) := by
  obtain ⟨hmem, hlead, hpos, hlen⟩ := idOffset_eq.1 h
  refine idOffset_eq.2 ⟨hmem, ?_, hpos, by rwa [length_rewriteKey hlen]⟩
  have htake : spec.lead <+: k.take pos := by
    rw [prefix_take_iff]
    exact ⟨hlead, by omega⟩
  exact htake.trans (by rw [rewriteKey, append_assoc]; exact prefix_append ..)

theorem readId_rewriteKey {pos : ℕ} (h : pos + 4 ≤ k.length) (hn : n < 2 ^ 32) :
    readId (rewriteKey k pos n) pos = n := by
  have htake : (k.take pos).length = pos := by
    rw [length_take]
    omega
  rw [readId, rewriteKey, append_assoc, drop_append_of_le_length htake.ge,
    drop_eq_nil_of_le htake.le, nil_append, take_append_of_le_length (by simp),
    take_of_length_le (by simp), ofBe_be]
  exact Nat.mod_eq_of_lt hn

theorem readId_lt : readId k pos < 2 ^ 32 := by
  refine (ofBe_lt _).trans_le ?_
  calc 256 ^ ((k.drop pos).take 4).length ≤ 256 ^ 4 :=
        Nat.pow_le_pow_right (by decide) (length_take_le ..)
    _ = 2 ^ 32 := by decide

theorem rewriteKey_readId (h : pos + 4 ≤ k.length) : rewriteKey k pos (readId k pos) = k := by
  have hlen : ((k.drop pos).take 4).length = 4 := by
    rw [length_take, length_drop]
    omega
  have hbe : be 4 (readId k pos) = (k.drop pos).take 4 := by
    have := be_ofBe ((k.drop pos).take 4)
    rwa [hlen] at this
  rw [rewriteKey, hbe, append_assoc, ← drop_drop, take_append_drop,
    take_append_drop]

theorem rewriteKey_rewriteKey (h : pos + 4 ≤ k.length) (m : ℕ) :
    rewriteKey (rewriteKey k pos n) pos m = rewriteKey k pos m := by
  have htake : (k.take pos).length = pos := by
    rw [length_take]
    omega
  have h1 : (rewriteKey k pos n).take pos = k.take pos := by
    rw [rewriteKey, append_assoc, take_append_of_le_length htake.ge,
      take_of_length_le htake.le]
  have h2 : (rewriteKey k pos n).drop (pos + 4) = k.drop (pos + 4) := by
    have hlen : (k.take pos ++ be 4 n).length = pos + 4 := by
      rw [length_append, htake, length_be]
    rw [rewriteKey, drop_append_of_le_length hlen.ge, drop_eq_nil_of_le hlen.le,
      nil_append]
  rw [rewriteKey, h1, h2, ← rewriteKey]

theorem rewriteKey_le (h : pos + 4 ≤ k.length) (hn : n ≤ readId k pos) :
    rewriteKey k pos n ≤ k := by
  rcases hn.lt_or_eq with hlt | rfl
  · refine le_of_lt ?_
    conv_rhs => rw [← rewriteKey_readId h]
    rw [rewriteKey, rewriteKey, append_assoc, append_assoc]
    exact append_left_lt (be_append_lt _ _ 4 hlt (readId_lt.trans_le (by decide)))
  · rw [rewriteKey_readId h]

end Keys

section Moves

variable {s : IdSchema} {k k' : Key} {n : ℕ} {cat cat' : Catalog}

/-- Keys that differ in their ids alone move down with them. -/
theorem movesDown_of_ids (s : IdSchema) {f : Key → Move Key} (idPos : Key → Option ℕ)
    (hpos : ∀ k pos, idPos k = some pos → pos + 4 ≤ k.length ∧
      ∀ n, idPos (rewriteKey k pos n) = some pos)
    (hf : ∀ k k', (f k).dest k = some k' → (idPos k = none ∧ k' = k) ∨ ∃ pos n,
      idPos k = some pos ∧ s.renumber (readId k pos) = some n ∧ k' = rewriteKey k pos n) :
    MovesDown f := by
  constructor
  · intro k k' h
    rcases hf k k' h with ⟨-, rfl⟩ | ⟨pos, n, hk, hn, rfl⟩
    · exact le_rfl
    · exact rewriteKey_le (hpos k pos hk).1 (IdSchema.renumber_le hn).1
  · intro k₁ k₂ k' h₁ h₂
    rcases hf k₁ k' h₁ with ⟨e₁, rfl⟩ | ⟨p₁, n₁, e₁, hn₁, rfl⟩ <;>
      rcases hf k₂ _ h₂ with ⟨e₂, he⟩ | ⟨p₂, n₂, e₂, hn₂, he⟩
    · exact he
    · rw [he, (hpos k₂ p₂ e₂).2] at e₁
      cases e₁
    · rw [← he, (hpos k₁ p₁ e₁).2] at e₂
      cases e₂
    · -- the position is that of the new key, and so is the id, and with it the old id
      have hp : p₁ = p₂ := by
        have := (hpos k₁ p₁ e₁).2 n₁
        rw [he, (hpos k₂ p₂ e₂).2] at this
        exact (Option.some.inj this).symm
      subst hp
      have hlt {o n : ℕ} (h : s.renumber o = some n) : n < 2 ^ 32 :=
        (IdSchema.renumber_le h).1.trans_lt (IdSchema.renumber_le h).2
      have hn : n₁ = n₂ := by
        rw [← readId_rewriteKey (hpos k₁ p₁ e₁).1 (hlt hn₁), he,
          readId_rewriteKey (hpos k₂ p₁ e₂).1 (hlt hn₂)]
      subst hn
      have hold : readId k₁ p₁ = readId k₂ p₁ := IdSchema.renumber_inj hn₁ hn₂
      rw [← rewriteKey_readId (hpos k₁ p₁ e₁).1, ← rewriteKey_readId (hpos k₂ p₁ e₂).1, ← hold,
        ← rewriteKey_rewriteKey (hpos k₁ p₁ e₁).1, he, rewriteKey_rewriteKey (hpos k₂ p₁ e₂).1]

/-- Where a directory key holds the id. -/
def dirPos (k : Key) : Option ℕ := if k.length = 9 ∧ k.head? = some 0x01 then some 1 else none

/-- What becomes of a directory key. -/
def dirMove (map : List (ℕ × ℕ)) (k : Key) : Move Key :=
  match dirPos k with
  | none => .keep
  | some pos => match map.lookup (readId k pos) with
    | none => .drop
    | some new => if new = readId k pos then .keep else .to (rewriteKey k pos new)

/-- Where the key of a listed system record holds the id. -/
def sysPos (k : Key) : Option ℕ :=
  if k.head? = some sysPrefixByte then (idOffset k.tail).map (·.1 + 1) else none

/-- The key of a published plan or of their count. -/
def isPlan (k : Key) : Bool := (sysKey (ascii "plan/")).isPrefixOf k || k =
    sysKey (ascii "plancount")

/-- What becomes of a system key. -/
def sysMove (map : List (ℕ × ℕ)) (k : Key) : Move Key :=
  if isPlan k then .drop
  else match sysPos k with
    | none => .keep
    | some pos => match map.lookup (readId k pos) with
      | none => .drop
      | some new => .to (rewriteKey k pos new)

variable {pos : ℕ}

theorem dirPos_eq : dirPos k = some pos ↔ k.length = 9 ∧ k.head? = some 0x01 ∧ pos = 1 := by
  unfold dirPos
  split_ifs with h
  · simp [h, eq_comm]
  · simpa using fun h1 h2 => absurd ⟨h1, h2⟩ h

theorem sysPos_eq : sysPos k = some pos ↔ ∃ sub p spec, k = sysKey sub ∧
    idOffset sub = some (p, spec) ∧ pos = p + 1 := by
  unfold sysPos
  cases k with
  | nil => simp [sysKey]
  | cons b sub =>
    simp only [List.head?_cons, Option.some.injEq, sysKey]
    split_ifs with hb
    · simp [hb, eq_comm]
    · simp [hb]

theorem rewriteKey_cons (b : UInt8) (k : Key) (pos n : ℕ) :
    rewriteKey (b :: k) (pos + 1) n = b :: rewriteKey k pos n := by
  rfl

/-- The directory moves down. -/
theorem movesDown_dir : MovesDown (dirMove s.compacted.2) := by
  refine movesDown_of_ids s dirPos (fun k pos h => ?_) fun k k' h => ?_
  · obtain ⟨hlen, hhead, rfl⟩ := dirPos_eq.1 h
    refine ⟨by omega, fun n => dirPos_eq.2 ⟨?_, ?_, rfl⟩⟩
    · rw [length_rewriteKey (by omega), hlen]
    · obtain ⟨b, rest, rfl⟩ := exists_cons_of_length_eq_add_one hlen
      exact hhead
  · unfold dirMove at h
    split at h
    · cases h
      exact .inl ⟨‹_›, rfl⟩
    · rename_i pos hpos
      obtain ⟨hlen, -, rfl⟩ := dirPos_eq.1 hpos
      split at h
      · cases h
      · rename_i new hnew
        refine .inr ⟨1, new, hpos, hnew, ?_⟩
        split_ifs at h with heq
        · cases h
          rw [heq, rewriteKey_readId (by omega)]
        · cases h
          rfl

theorem sysPos_bound (h : sysPos k = some pos) : pos + 4 ≤ k.length := by
  obtain ⟨sub, p, spec, rfl, hp, rfl⟩ := sysPos_eq.1 h
  have := (idOffset_eq.1 hp).2.2.2
  simp only [sysKey, length_cons]
  omega

theorem movesDown_sys : MovesDown (sysMove s.compacted.2) := by
  refine movesDown_of_ids s sysPos (fun k pos h => ⟨sysPos_bound h, fun n => ?_⟩)
    fun k k' h => ?_
  · obtain ⟨sub, p, spec, rfl, hp, rfl⟩ := sysPos_eq.1 h
    exact sysPos_eq.2 ⟨_, p, spec, rewriteKey_cons .., idOffset_rewriteKey hp, rfl⟩
  · unfold sysMove at h
    split_ifs at h
    · cases h
    · split at h
      · cases h
        exact .inl ⟨‹_›, rfl⟩
      · rename_i pos hpos
        split at h
        · cases h
        · cases h
          exact .inr ⟨pos, _, hpos, ‹_›, rfl⟩

/-- A range of keys from one byte to the next is that of the keys that begin with it. -/
theorem mem_byte_range {b : UInt8} (hb : b.toNat < 255) (k : Key) :
    [b] ≤ k ∧ k < [b + 1] ↔ k.head? = some b := by
  cases k with
  | nil => simp
  | cons x sub =>
    have h1 : [b] ≤ x :: sub ↔ b ≤ x := by
      rw [← not_lt, cons_lt_cons_iff]
      simp
    have h2 : x :: sub < [b + 1] ↔ x < b + 1 := by
      rw [cons_lt_cons_iff]
      simp
    have hsucc : (b + 1).toNat = b.toNat + 1 := by
      exact Nat.mod_eq_of_lt (Nat.succ_lt_succ hb)
    rw [h1, h2, List.head?_cons, Option.some.injEq, UInt8.le_iff_toNat_le, UInt8.lt_iff_toNat_lt,
      ← UInt8.toNat_inj]
    omega

/-- A record of the system range moves as its key does. -/
theorem rewriteRecord_eq {map : List (ℕ × ℕ)} (e : Key × List UInt8) :
    (if [sysPrefixByte] ≤ e.1 && e.1 < [sysPrefixByte + 1] then rewriteRecord map cat e else cat) =
      cat.move (sysMove map e.1) e := by
  obtain ⟨k, v⟩ := e
  have hrange := mem_byte_range (b := sysPrefixByte) (by decide) k
  simp only [Bool.and_eq_true, decide_eq_true_eq, hrange]
  split_ifs with hk
  · obtain ⟨sub, rfl⟩ : ∃ sub, k = sysKey sub := by
      cases k with
      | nil => cases hk
      | cons b sub =>
        cases hk
        exact ⟨sub, rfl⟩
    have hplan : (sysKey (ascii "plan/")).isPrefixOf (sysKey sub) =
        (ascii "plan/").isPrefixOf sub := by
      simp [sysKey]
    have hcount : (sysKey sub = sysKey (ascii "plancount")) = (sub = ascii "plancount") := by
      simp [sysKey]
    have htail : (sysKey sub).tail = sub := rfl
    simp only [rewriteRecord, sysMove, isPlan, htail, hplan, hcount, Bool.or_eq_true,
      decide_eq_true_eq]
    by_cases h1 : (ascii "plan/").isPrefixOf sub = true
    · simp [h1, SortedMap.move]
    by_cases h2 : sub = ascii "plancount"
    · simp [h2, SortedMap.move]
    have hpos : sysPos (sysKey sub) = (idOffset sub).map (·.1 + 1) := by simp [sysPos, sysKey]
    simp only [h1, h2, if_false, Bool.false_eq_true, or_self, hpos]
    rcases idOffset sub with _ | ⟨pos, spec⟩
    · rfl
    · have hread : readId (sysKey sub) (pos + 1) = readId sub pos := rfl
      simp only [Option.map_some, hread]
      rcases map.lookup (readId sub pos) with _ | new
      · rfl
      · simp only [SortedMap.move, sysKey, rewriteKey_cons]
  · have hplan : isPlan k = false := by
      cases k with
      | nil => rfl
      | cons b sub =>
        have hb : ¬sysPrefixByte = b := fun h => hk (by simp [h])
        simp [isPlan, sysKey, List.isPrefixOf, hb, Ne.symm hb]
    have hpos : sysPos k = none := by simp [sysPos, hk]
    simp [sysMove, hplan, hpos, SortedMap.move]

theorem rewriteSys_eq (map : List (ℕ × ℕ)) (cat : Catalog) :
    rewriteSys map cat = cat.rekey (sysMove map) := by
  rw [rewriteSys, foldl_filter]
  congr 1
  funext m e
  exact rewriteRecord_eq e

theorem catTreeKey_parts (hlen : k.length = 9) (hhead : k.head? = some 0x01) (new : ℕ) :
    catTreeKey new (ofBe ((k.drop 5).take 4)) = rewriteKey k 1 new := by
  have hdrop : (k.drop 5).length = 4 := by
    rw [length_drop]
    omega
  have hino : be 4 (ofBe ((k.drop 5).take 4)) = k.drop 5 := by
    rw [take_of_length_le hdrop.le]
    have := be_ofBe (k.drop 5)
    rwa [hdrop] at this
  obtain ⟨b, rest, rfl⟩ := exists_cons_of_length_eq_add_one hlen
  cases hhead
  rw [catTreeKey, hino]
  rfl

/-- An entry of the directory is rewritten before those after it are read. -/
theorem rewriteEntry_eq {pre post : List (Key × List UInt8)} {e : Key × List UInt8}
    {p : ℕ × ℕ × List UInt8} (hcat : cat.entries = pre ++ e :: post) (hhead : e.1.head? = some 0x01)
    (hp : parseEntry e = .ok p) :
    rewriteEntry s.compacted.2 (moveAll (dirMove s.compacted.2) cat pre) p =
      .ok ((moveAll (dirMove s.compacted.2) cat pre).move (dirMove s.compacted.2 e.1) e) := by
  unfold parseEntry at hp
  split_ifs at hp with hlen
  rw [not_not] at hlen
  cases hp
  have hpos : dirPos e.1 = some 1 := dirPos_eq.2 ⟨hlen, hhead, rfl⟩
  have hself : catTreeKey (readId e.1 1) (ofBe ((e.1.drop 5).take 4)) = e.1 := by
    rw [catTreeKey_parts hlen hhead]
    exact rewriteKey_readId (by omega)
  have hmove : dirMove s.compacted.2 e.1 = match s.renumber (readId e.1 1) with
      | none => .drop
      | some new => if new = readId e.1 1 then .keep else .to (rewriteKey e.1 1 new) := by
    simp only [dirMove, hpos, IdSchema.renumber]
  have hread : ofBe ((e.1.drop 1).take 4) = readId e.1 1 := rfl
  have hlookup (o : ℕ) : s.compacted.2.lookup o = s.renumber o := rfl
  simp only [rewriteEntry, hlookup, hread, hself]
  rcases hnew : s.renumber (readId e.1 1) with _ | new
  · simp only [hmove, hnew, SortedMap.move]
  · simp only [hnew] at hmove
    by_cases heq : new = readId e.1 1
    · simp only [hmove, heq, if_true, SortedMap.move]
    · simp only [heq] at hmove
      have hfree : ((moveAll (dirMove s.compacted.2) cat pre).erase e.1).lookup
          (rewriteKey e.1 1 new) =
          none := by
        refine lookup_dest_free movesDown_dir hcat (by rw [hmove]; rfl) fun h => heq ?_
        have hlt := IdSchema.renumber_le hnew
        have hlen : 1 + 4 ≤ e.1.length := by omega
        rw [← readId_rewriteKey hlen (hlt.1.trans_lt hlt.2), h]
      have hkey := catTreeKey_parts hlen hhead new
      simp only [hmove, heq, if_false, hkey, hfree, ne_eq, not_true, SortedMap.move]

/-- The loop over the directory is a rekeying of the catalog. -/
theorem rewriteCatalog_eq (h : rewriteCatalog s.compacted.2 cat = .ok cat') :
    cat' = cat.rekey (dirMove s.compacted.2) := by
  -- by induction on the entries that are left
  have key : ∀ (post pre : List (Key × List UInt8)), cat.entries = pre ++ post → ∀ parsed,
      (post.filter fun e => [0x01] ≤ e.1 && e.1 < [0x02]).mapM parseEntry = .ok parsed →
      parsed.foldlM (rewriteEntry s.compacted.2) (moveAll (dirMove s.compacted.2) cat pre) =
        .ok (moveAll (dirMove s.compacted.2) cat (pre ++ post)) := by
    intro post
    induction post with
    | nil =>
      intro pre hcat parsed hp
      cases hp
      rw [append_nil]
      rfl
    | cons e post ih =>
      intro pre hcat parsed hp
      have hstep : moveAll (dirMove s.compacted.2) cat (pre ++ [e]) =
          (moveAll (dirMove s.compacted.2) cat pre).move (dirMove s.compacted.2 e.1) e := by
        rw [moveAll, foldl_append]
        rfl
      have hrange := mem_byte_range (b := 0x01) (by decide) e.1
      have hcat' : cat.entries = (pre ++ [e]) ++ post := by rw [hcat, append_assoc]; rfl
      rw [filter_cons] at hp
      rw [append_cons]
      split_ifs at hp with hin
      · have hhead : e.1.head? = some 0x01 := by
          rw [← hrange]
          simpa using hin
        rw [mapM_eq_ok] at hp
        cases hp with
        | cons hpe hps =>
          rw [foldlM_cons, rewriteEntry_eq hcat hhead hpe, ← hstep]
          exact ih _ hcat' _ (mapM_eq_ok.2 hps)
      · have hkeep : dirMove s.compacted.2 e.1 = .keep := by
          have hhead : e.1.head? ≠ some 0x01 := by
            rw [ne_eq, ← hrange]
            simpa using hin
          simp [dirMove, dirPos, hhead]
        rw [hkeep] at hstep
        have := ih _ hcat' parsed hp
        rwa [hstep] at this
  obtain ⟨parsed, hp, hfold⟩ := bind_eq_ok.1 h
  have := key cat.entries [] rfl parsed hp
  exact (Except.ok.inj (this.symm.trans hfold)).symm

end Moves

section Readers

variable {codec : SchemaCodec} {s s' : CatalogState} {o n : ℕ}

theorem compactTableIds_eq (h : compactTableIds codec s = .ok s') :
    s'.schema = s.schema.compacted.1 ∧ (s'.rowsAt = s.rowsAt ∧ s'.maxRowid = s.maxRowid) ∧
      s'.catalog = ((s.catalog.rekey (dirMove s.schema.compacted.2)).rekey
        (sysMove s.schema.compacted.2)).insert catSchemaKey (codec.canonicalBytes s'.schema) := by
  obtain ⟨-, -, h⟩ := bind_eq_ok.1 h
  obtain ⟨cat, hcat, h⟩ := bind_eq_ok.1 h
  have hdir := rewriteCatalog_eq (s := s.schema) hcat
  cases h
  refine ⟨rfl, ⟨rfl, rfl⟩, ?_⟩
  rw [← hdir, ← rewriteSys_eq]
  rfl

variable {k : Key}

theorem lookup_compacted {k₁ k₂ : Key} (h : compactTableIds codec s = .ok s')
    (h₁ : (dirMove s.schema.compacted.2 k).dest k = some k₁)
    (h₂ : (sysMove s.schema.compacted.2 k₁).dest k₁ = some k₂) (hk : k₂ ≠ catSchemaKey) :
    s'.catalog.lookup k₂ = s.catalog.lookup k := by
  rw [(compactTableIds_eq h).2.2, lookup_insert, if_neg hk, lookup_rekey movesDown_sys h₂,
    lookup_rekey movesDown_dir h₁]

variable {map : List (ℕ × ℕ)}

theorem dest_dirMove {pos new : ℕ} (hpos : dirPos k = some pos)
    (hnew : map.lookup (readId k pos) = some new) :
    (dirMove map k).dest k = some (rewriteKey k pos new) := by
  obtain ⟨hlen, -, rfl⟩ := dirPos_eq.1 hpos
  simp only [dirMove, hpos, hnew]
  split_ifs with heq
  · rw [heq, rewriteKey_readId (by omega)]
    rfl
  · rfl

theorem dest_sysMove {pos new : ℕ} (hplan : isPlan k = false)
    (hpos : sysPos k = some pos) (hnew : map.lookup (readId k pos) = some new) :
    (sysMove map k).dest k = some (rewriteKey k pos new) := by
  simp only [sysMove, hplan, hpos, hnew]
  rfl

theorem dest_sysMove_keep (hplan : isPlan k = false)
    (hpos : sysPos k = none) : (sysMove map k).dest k = some k := by
  simp only [sysMove, hplan, hpos]
  rfl

theorem readId_catTreeKey (ho : o < 2 ^ 32) (ino : ℕ) : readId (catTreeKey o ino) 1 = o := by
  have h : (be 4 o ++ be 4 ino).take 4 = be 4 o := by
    rw [take_append_of_le_length (by simp), take_of_length_le (by simp)]
  rw [readId, catTreeKey, drop_succ_cons, drop_zero, h, ofBe_be]
  exact Nat.mod_eq_of_lt ho

theorem directory_compacted (h : compactTableIds codec s = .ok s')
    (hn : s.schema.renumber o = some n) (ino : ℕ) :
    s'.catalog.lookup (catTreeKey n ino) = s.catalog.lookup (catTreeKey o ino) := by
  have hread := readId_catTreeKey (IdSchema.renumber_le hn).2 ino
  have hpos : dirPos (catTreeKey o ino) = some 1 := dirPos_eq.2 ⟨by simp [catTreeKey], rfl, rfl⟩
  have hdir : (dirMove s.schema.compacted.2 (catTreeKey o ino)).dest (catTreeKey o ino) =
      some (catTreeKey n ino) := by
    exact dest_dirMove hpos (by rw [hread]; exact hn)
  have hplan : isPlan (catTreeKey n ino) = false := by
    simp [isPlan, sysKey, catTreeKey, sysPrefixByte, List.isPrefixOf]
  have hsys : sysPos (catTreeKey n ino) = none := by simp [sysPos, catTreeKey, sysPrefixByte]
  exact lookup_compacted h hdir (dest_sysMove_keep hplan hsys) (by simp [catTreeKey, catSchemaKey])

theorem dirMove_sysKey (map : List (ℕ × ℕ)) (sub : Key) : dirMove map (sysKey sub) = .keep := by
  have : dirPos (sysKey sub) = none := by simp [dirPos, sysKey, sysPrefixByte]
  simp only [dirMove, this]

/-- Beginnings of which neither continues the other. -/
def Apart (a b : Key) : Prop := ¬a <+: b ∧ ¬b <+: a

instance (a b : Key) : Decidable (Apart a b) := inferInstanceAs (Decidable (_ ∧ _))

theorem Apart.not_isPrefix {a b rest : Key} (h : Apart a b) : ¬a <+: b ++ rest := by
  intro hp
  rcases prefix_or_prefix_of_prefix hp (prefix_append b rest) with h' | h'
  · exact h.1 h'
  · exact h.2 h'

theorem isPlan_sysKey {lead : Key} (rest : Key) (h₁ : Apart (ascii "plan/") lead)
    (h₂ : Apart lead (ascii "plancount")) : isPlan (sysKey (lead ++ rest)) = false := by
  have h1 : (sysKey (ascii "plan/")).isPrefixOf (sysKey (lead ++ rest)) = false := by
    rw [Bool.eq_false_iff, ne_eq, List.isPrefixOf_iff_prefix, sysKey, sysKey,
      prefix_cons_inj]
    exact h₁.not_isPrefix
  have h2 : sysKey (lead ++ rest) ≠ sysKey (ascii "plancount") := by
    intro h
    have : lead ++ rest = ascii "plancount" := tail_eq_of_cons_eq h
    exact h₂.1 (this ▸ prefix_append ..)
  simp [isPlan, h1, h2]

theorem idKeys_not_plan : ∀ spec ∈ idKeys, Apart (ascii "plan/") spec.lead ∧
    Apart spec.lead (ascii "plancount") := by decide

/-- The records of a table are found under its new id. -/
theorem record_compacted (h : compactTableIds codec s = .ok s') (hn : s.schema.renumber o = some n)
    {spec : IdKey} (hspec : spec ∈ idKeys) {mid : Key}
    (hmid : mid.length = spec.idAt) (rest : Key) :
    sysGet s'.catalog (spec.lead ++ mid ++ be 4 n ++ rest) =
      sysGet s.catalog (spec.lead ++ mid ++ be 4 o ++ rest) := by
  have hlen : (spec.lead ++ mid).length = spec.lead.length + spec.idAt := by
    rw [length_append, hmid]
  have hpos : idOffset (spec.lead ++ mid ++ be 4 o ++ rest) =
      some (spec.lead.length + spec.idAt, spec) := by
    refine idOffset_eq.2 ⟨hspec, ?_, rfl, ?_⟩
    · rw [append_assoc, append_assoc]
      exact prefix_append ..
    · simp only [length_append, length_be]
      omega
  have hdrop : (spec.lead ++ mid ++ be 4 o ++ rest).drop (spec.lead.length + spec.idAt) =
      be 4 o ++ rest := by
    rw [append_assoc, ← hlen, drop_left]
  have hread : readId (spec.lead ++ mid ++ be 4 o ++ rest) (spec.lead.length + spec.idAt) = o := by
    rw [readId, hdrop, take_append_of_le_length (by simp), take_of_length_le (by simp), ofBe_be]
    exact Nat.mod_eq_of_lt (IdSchema.renumber_le hn).2
  have hkey : rewriteKey (spec.lead ++ mid ++ be 4 o ++ rest) (spec.lead.length + spec.idAt) n =
      spec.lead ++ mid ++ be 4 n ++ rest := by
    have htake : (spec.lead ++ mid ++ be 4 o ++ rest).take (spec.lead.length + spec.idAt) =
        spec.lead ++ mid := by
      rw [append_assoc, ← hlen, take_left]
    rw [rewriteKey, htake, ← drop_drop, hdrop, drop_append_of_le_length (by simp),
      drop_eq_nil_of_le (by simp), nil_append]
  have hplan : isPlan (sysKey (spec.lead ++ mid ++ be 4 o ++ rest)) = false := by
    rw [append_assoc, append_assoc]
    exact isPlan_sysKey _ (idKeys_not_plan spec hspec).1 (idKeys_not_plan spec hspec).2
  refine lookup_compacted h (by rw [dirMove_sysKey]; rfl) ?_
    (by simp [sysKey, catSchemaKey, sysPrefixByte])
  have hsys : sysPos (sysKey (spec.lead ++ mid ++ be 4 o ++ rest)) =
      some (spec.lead.length + spec.idAt + 1) := sysPos_eq.2 ⟨_, _, spec, rfl, hpos, rfl⟩
  have hread' : readId (sysKey (spec.lead ++ mid ++ be 4 o ++ rest))
      (spec.lead.length + spec.idAt + 1) = o := hread
  rw [dest_sysMove hplan hsys (by rw [hread']; exact hn), sysKey, rewriteKey_cons, hkey]
  rfl

/-- No listed family begins as these records do, and they are not plans. -/
def Unlisted (lead : Key) : Prop :=
  (∀ spec ∈ idKeys, Apart spec.lead lead) ∧ Apart (ascii "plan/") lead ∧
  Apart lead (ascii "plancount")

instance (lead : Key) : Decidable (Unlisted lead) := inferInstanceAs (Decidable (_ ∧ _))

theorem record_kept (h : compactTableIds codec s = .ok s') (lead : Key) (hl : Unlisted lead)
    (rest : Key) : sysGet s'.catalog (lead ++ rest) = sysGet s.catalog (lead ++ rest) := by
  have hpos : idOffset (lead ++ rest) = none := by
    rcases hp : idOffset (lead ++ rest) with _ | ⟨pos, spec⟩
    · rfl
    · obtain ⟨hspec, hlead, -⟩ := idOffset_eq.1 hp
      exact absurd hlead (hl.1 spec hspec).not_isPrefix
  have hplan := isPlan_sysKey rest hl.2.1 hl.2.2
  have hsys : sysPos (sysKey (lead ++ rest)) = none := by simp [sysPos, sysKey, hpos]
  exact lookup_compacted h (by rw [dirMove_sysKey]; rfl) (dest_sysMove_keep hplan hsys)
    (by simp [sysKey, catSchemaKey, sysPrefixByte])

end Readers

end Mpedb
