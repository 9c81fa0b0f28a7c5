/-
  Ds/Formats.lean --- what the scans of `internal/ds` read, in any payload.

  A payload need not be one that `internal/ds` has made: values carry no type, so that a hash
  call may meet the bytes of a plain SET.  Whatever the bytes are, a payload is a count, the
  records that are read, and the rest, where there is no further record or none is asked for.
  Lookups and listings depend on the records only.
-/
import Horreum.Foundation.Formats
import Horreum.Ds.Payload

set_option autoImplicit false

namespace Horreum.Ds

open Foundation

variable {raw : Bytes} {off : Nat}

/-- The records of a set. -/
def members : Format Bytes := prefixed 2

/-- The records of a hash. -/
def pairs : Format (Bytes × Bytes) := (prefixed 2).pair (prefixed 4)

/-- The record of a pair. -/
def pairRecord (f : Bytes × Bytes) : Bytes := fieldRecord f.1 f.2

theorem write_members : members.write = memberRecord := rfl

theorem write_pairs : pairs.write = pairRecord := by
  funext f
  simp only [pairs, Format.pair, prefixed, pairRecord, fieldRecord, List.append_assoc]

theorem length_elemRecord (x : Bytes) : (elemRecord x).length = 4 + x.length := by
  simp [elemRecord]

theorem length_memberRecord (m : Bytes) : (memberRecord m).length = 2 + m.length := by
  simp [memberRecord]

theorem length_pairRecord (f : Bytes × Bytes) :
    (pairRecord f).length = 6 + f.1.length + f.2.length := by
  simp only [pairRecord, fieldRecord, List.length_append, leBytes_length]
  omega

/-! ## One record at an offset -/

theorem memberAt_none (hoff : off ≤ raw.length)
    (h : members.read (raw.drop off) = none) : memberAt raw off = none := by
  rw [members, read_drop_prefixed 2 hoff] at h
  simp only [memberAt]
  by_cases hshort : off + 2 > raw.length
  · rw [if_pos hshort]
  · rw [if_neg hshort] at h ⊢
    split_ifs at h ⊢
    rfl

theorem memberAt_some {m rest : Bytes} (hoff : off ≤ raw.length)
    (h : members.read (raw.drop off) = some (m, rest)) :
    memberAt raw off = some m.length ∧ slice raw (off + 2) (off + 2 + m.length) = m ∧
      raw.drop (off + 2 + m.length) = rest ∧ off + 2 + m.length ≤ raw.length := by
  rw [members, read_drop_prefixed 2 hoff] at h
  split_ifs at h with hshort hlong
  cases h
  have hlen : (slice raw (off + 2) (off + 2 + wordAt raw off 2)).length = wordAt raw off 2 := by
    rw [slice_length (Nat.le_add_right _ _) (Nat.le_of_not_lt hlong), Nat.add_sub_cancel_left]
  simp only [memberAt, hlen, if_neg hshort, if_neg hlong]
  exact ⟨trivial, trivial, trivial, Nat.le_of_not_lt hlong⟩

theorem fieldAt_none (hoff : off ≤ raw.length)
    (h : pairs.read (raw.drop off) = none) : fieldAt raw off = none := by
  simp only [pairs, Format.pair, read_drop_prefixed 2 hoff] at h
  simp only [fieldAt]
  by_cases hshort : off + 2 > raw.length
  · rw [if_pos hshort]
  · rw [if_neg hshort] at h ⊢
    by_cases hlong : off + 2 + wordAt raw off 2 > raw.length
    · rw [if_pos hlong]
    · rw [if_neg hlong] at h ⊢
      rw [Option.bind_some, Option.map_eq_none_iff, read_drop_prefixed 4 (Nat.le_of_not_lt hlong)] at h
      split_ifs at h ⊢
      · rfl
      · rfl

theorem fieldAt_some {p : Bytes × Bytes} {rest : Bytes} (hoff : off ≤ raw.length)
    (h : pairs.read (raw.drop off) = some (p, rest)) :
    fieldAt raw off = some ⟨off, p.1.length, p.2.length⟩ ∧
      slice raw (off + 2) (off + 2 + p.1.length) = p.1 ∧
      slice raw (off + 2 + p.1.length + 4) (off + 2 + p.1.length + 4 + p.2.length) = p.2 ∧
      raw.drop (off + 2 + p.1.length + 4 + p.2.length) = rest ∧
      off + 2 + p.1.length + 4 + p.2.length ≤ raw.length := by
  simp only [pairs, Format.pair, read_drop_prefixed 2 hoff] at h
  split_ifs at h with hshort hlong
  · cases h
  · cases h
  · rw [Option.bind_some, read_drop_prefixed 4 (Nat.le_of_not_lt hlong)] at h
    split_ifs at h with hshort' hlong'
    · cases h
    · cases h
    · cases h
      have hflen : (slice raw (off + 2) (off + 2 + wordAt raw off 2)).length = wordAt raw off 2 := by
        rw [slice_length (Nat.le_add_right _ _) (Nat.le_of_not_lt hlong), Nat.add_sub_cancel_left]
      have hvlen := slice_length (Nat.le_add_right _ _) (Nat.le_of_not_lt hlong')
      rw [Nat.add_sub_cancel_left] at hvlen
      simp only [fieldAt, hflen, hvlen, if_neg hshort, if_neg hlong, if_neg hshort', if_neg hlong']
      exact ⟨trivial, trivial, trivial, trivial, Nat.le_of_not_lt hlong'⟩

/-! ## Scans -/

theorem findMember_eq (member : Bytes) (n : Nat) : ∀ {off : Nat}, off ≤ raw.length →
    findMember raw member n off =
      (members.locate (fun m => decide (m = member)) n (raw.drop off)).map fun found =>
        (off + found.1, found.2.length) := by
  induction n with
  | zero => intros; rfl
  | succ n ih =>
    intro off hoff
    cases hread : members.read (raw.drop off) with
    | none =>
      rw [members.locate_none hread, findMember, memberAt_none hoff hread]
      rfl
    | some found =>
      obtain ⟨m, rest⟩ := found
      obtain ⟨hat, hslice, hdrop, hle⟩ := memberAt_some hoff hread
      obtain ⟨hfits, hbytes⟩ := members.read_iff.mp hread
      rw [findMember, hat, hbytes]
      simp only [hslice]
      by_cases hm : m = member
      · rw [members.locate_hit hfits (by simpa using hm), if_pos hm]
        rfl
      · rw [members.locate_skip hfits (by simpa using hm), if_neg hm, ih hle, hdrop,
          Option.map_map, write_members]
        congr 1
        funext found
        simp only [Function.comp_apply, length_memberRecord]
        congr 1
        omega

theorem findField_eq (field : Bytes) (n : Nat) : ∀ {off : Nat}, off ≤ raw.length →
    findField raw field n off =
      (pairs.locate (fun p => decide (p.1 = field)) n (raw.drop off)).map fun found =>
        ⟨off + found.1, found.2.1.length, found.2.2.length⟩ := by
  induction n with
  | zero => intros; rfl
  | succ n ih =>
    intro off hoff
    cases hread : pairs.read (raw.drop off) with
    | none =>
      rw [pairs.locate_none hread, findField, fieldAt_none hoff hread]
      rfl
    | some found =>
      obtain ⟨p, rest⟩ := found
      obtain ⟨hat, hslice, _, hdrop, hle⟩ := fieldAt_some hoff hread
      obtain ⟨hfits, hbytes⟩ := pairs.read_iff.mp hread
      rw [findField, hat, hbytes]
      simp only [FieldSpan.fieldOff, FieldSpan.stop, FieldSpan.valOff, hslice]
      by_cases hp : p.1 = field
      · rw [pairs.locate_hit hfits (by simpa using hp), if_pos hp]
        rfl
      · rw [pairs.locate_skip hfits (by simpa using hp), if_neg hp, ih hle, hdrop,
          Option.map_map, write_pairs]
        congr 1
        funext found
        simp only [Function.comp_apply, length_pairRecord]
        congr 1
        omega

theorem sMembersFrom_eq (n : Nat) : ∀ {off : Nat}, off ≤ raw.length →
    sMembersFrom raw n off = (members.scan n (raw.drop off)).1 := by
  induction n with
  | zero => intros; rfl
  | succ n ih =>
    intro off hoff
    cases hread : members.read (raw.drop off) with
    | none => rw [members.scan_none hread, sMembersFrom, memberAt_none hoff hread]
    | some found =>
      obtain ⟨m, rest⟩ := found
      obtain ⟨hat, hslice, hdrop, hle⟩ := memberAt_some hoff hread
      obtain ⟨hfits, hbytes⟩ := members.read_iff.mp hread
      rw [sMembersFrom, hat, hbytes, members.scan_succ hfits]
      simp only [hslice, ih hle, hdrop]

theorem hGetAllFrom_eq (n : Nat) : ∀ {off : Nat}, off ≤ raw.length →
    hGetAllFrom raw n off = (pairs.scan n (raw.drop off)).1 := by
  induction n with
  | zero => intros; rfl
  | succ n ih =>
    intro off hoff
    cases hread : pairs.read (raw.drop off) with
    | none => rw [pairs.scan_none hread, hGetAllFrom, fieldAt_none hoff hread]
    | some found =>
      obtain ⟨p, rest⟩ := found
      obtain ⟨hat, hfield, hvalue, hdrop, hle⟩ := fieldAt_some hoff hread
      obtain ⟨hfits, hbytes⟩ := pairs.read_iff.mp hread
      rw [hGetAllFrom, hat, hbytes, pairs.scan_succ hfits]
      simp only [FieldSpan.fieldOff, FieldSpan.stop, FieldSpan.valOff, hfield, hvalue, ih hle,
        hdrop]

/-! ## Payloads -/

section Payloads

variable {ρ : Type} {F : Format ρ} {before behind : List ρ} {r : ρ} {tail : Bytes} {count : Nat}

/-- The records that are read. -/
def records (F : Format ρ) (raw : Bytes) : List ρ := (F.scan (payloadCount raw) (raw.drop 4)).1

/-- The bytes behind them. -/
def unread (F : Format ρ) (raw : Bytes) : Bytes := (F.scan (payloadCount raw) (raw.drop 4)).2

/-- A count and records. -/
def packed (F : Format ρ) (rs : List ρ) : Bytes := leBytes 4 rs.length ++ rs.flatMap F.write

theorem records_of_short (hread : F.read [] = none) (h : raw.length < 4) : records F raw = [] := by
  rw [records, List.drop_eq_nil_of_le (by omega), F.scan_none hread]

theorem payloadCount_leBytes (h : count < 2 ^ 32) (rest : Bytes) :
    payloadCount (leBytes 4 count ++ rest) = count := by
  rw [payloadCount, wordAt_zero]
  exact Nat.mod_eq_of_lt h

/-- A count that does not fit comes round to zero. -/
theorem payloadCount_wrapped (rest : Bytes) : payloadCount (leBytes 4 (2 ^ 32) ++ rest) = 0 := by
  rw [payloadCount, wordAt_zero]
  decide

theorem payloadCount_lt (raw : Bytes) : payloadCount raw < 2 ^ 32 := wordAt_lt raw 0 4

theorem scan_leBytes (h : count < 2 ^ 32) (rest : Bytes) :
    F.scan (payloadCount (leBytes 4 count ++ rest)) ((leBytes 4 count ++ rest).drop 4) =
      F.scan count rest := by
  rw [payloadCount_leBytes h, List.drop_left' (leBytes_length 4 _)]

theorem payload_eq (h : 4 ≤ raw.length) : raw = leBytes 4 (payloadCount raw) ++ raw.drop 4 := by
  have hword : slice raw 0 (0 + 4) = raw.take 4 := by simp [slice]
  rw [payloadCount, wordAt, hword, leBytes_leNat (by rw [List.length_take]; omega),
    List.take_append_drop]

theorem records_packed {rs : List ρ} (hfew : rs.length < 2 ^ 32) (hfits : ∀ r ∈ rs, F.Fits r) :
    records F (packed F rs) = rs := by
  rw [records, packed, scan_leBytes hfew, F.scan_all hfits]

/-- A payload with this record behind those. -/
structure Split (F : Format ρ) (raw : Bytes) (count : Nat) (before : List ρ) (r : ρ) (tail : Bytes) :
    Prop where
  bytes : raw = leBytes 4 count ++ (before.flatMap F.write ++ (F.write r ++ tail))
  count_lt : count < 2 ^ 32
  room : before.length < count
  fits : ∀ x ∈ before, F.Fits x
  fits_self : F.Fits r

theorem split_of_records (hlen : 4 ≤ raw.length) (h : records F raw = before ++ r :: behind) :
    Split F raw (payloadCount raw) before r (behind.flatMap F.write ++ unread F raw) := by
  obtain ⟨hbytes, hfits, hle, _⟩ := F.scan_spec (payloadCount raw) (raw.drop 4)
  rw [← records] at hbytes hfits hle
  rw [h] at hbytes hfits hle
  refine ⟨?_, payloadCount_lt raw, ?_, fun x hx => hfits x (by simp [hx]), hfits r (by simp)⟩
  · rw [List.flatMap_append, List.flatMap_cons, List.append_assoc, List.append_assoc] at hbytes
    rw [unread, ← hbytes]
    exact payload_eq hlen
  · rw [List.length_append, List.length_cons] at hle
    omega

theorem Split.records_eq (h : Split F raw count before r tail) :
    records F raw = before ++ r :: (F.scan (count - before.length - 1) tail).1 := by
  obtain ⟨k, hk⟩ : ∃ k, count = before.length + (k + 1) := ⟨count - before.length - 1, by
    have := h.room
    omega⟩
  rw [records, h.bytes, scan_leBytes h.count_lt, hk, F.scan_write h.fits, F.scan_succ h.fits_self,
    show before.length + (k + 1) - before.length - 1 = k by omega]

theorem Split.payloadCount_eq (h : Split F raw count before r tail) : payloadCount raw = count := by
  rw [h.bytes, payloadCount_leBytes h.count_lt]

theorem Split.four_le (h : Split F raw count before r tail) : 4 ≤ raw.length := by
  rw [h.bytes, List.length_append, leBytes_length]
  omega

theorem Split.front (h : Split F raw count before r tail) :
    raw.take (4 + (before.flatMap F.write).length) = leBytes 4 count ++ before.flatMap F.write := by
  rw [h.bytes, ← List.append_assoc]
  exact List.take_left' (by rw [List.length_append, leBytes_length])

theorem Split.put (h : Split F raw count before r tail) {r' : ρ} (hr : F.Fits r') :
    Split F (leBytes 4 count ++ (before.flatMap F.write ++ (F.write r' ++ tail))) count before r' tail :=
  ⟨rfl, h.count_lt, h.room, h.fits, hr⟩

/-- A record behind the payload is read once the rest has been. -/
theorem records_append (hfew : payloadCount raw + 1 < 2 ^ 32) (r : ρ) :
    records F (withCount raw (payloadCount raw + 1) ++ F.write r) =
      records F raw ++
        (F.scan (payloadCount raw + 1 - (records F raw).length) (unread F raw ++ F.write r)).1 := by
  obtain ⟨hbytes, hfits, hle, _⟩ := F.scan_spec (payloadCount raw) (raw.drop 4)
  have hscan := F.scan_write hfits (payloadCount raw + 1 - (records F raw).length)
    (unread F raw ++ F.write r)
  rw [← records] at hle hscan
  rw [Nat.add_sub_of_le (by omega), ← List.append_assoc, unread, records, ← hbytes] at hscan
  rw [records, withCount, List.append_assoc, scan_leBytes hfew, hscan]
  rfl

end Payloads

/-! ## Lookups and listings of any payload -/

theorem read_members_nil : members.read [] = none := rfl

theorem read_pairs_nil : pairs.read [] = none := rfl

theorem sMembers_eq (raw : Bytes) : sMembers raw = records members raw := by
  rw [sMembers]
  split
  · rename_i hshort
    rw [records_of_short read_members_nil hshort]
  · exact sMembersFrom_eq _ (by omega)

theorem hGetAll_eq (raw : Bytes) : hGetAll raw = records pairs raw := by
  rw [hGetAll]
  split
  · rename_i hshort
    rw [records_of_short read_pairs_nil hshort]
  · exact hGetAllFrom_eq _ (by omega)

theorem findMember_none {member : Bytes} (hlen : 4 ≤ raw.length) (h : member ∉ records members raw) :
    findMember raw member (payloadCount raw) 4 = none := by
  rw [findMember_eq member _ hlen, Option.map_eq_none_iff, Format.locate_eq_none]
  intro m hm
  exact decide_eq_false fun heq => h (heq ▸ hm)

theorem Split.findMember {before : List Bytes} {member tail : Bytes} {count : Nat}
    (h : Split members raw count before member tail) (hnot : member ∉ before) :
    findMember raw member (payloadCount raw) 4 =
      some (4 + (before.flatMap memberRecord).length, member.length) := by
  have hpassed : ∀ m ∈ before, decide (m = member) = false :=
    fun m hm => decide_eq_false fun heq => hnot (heq ▸ hm)
  have hscan := h.records_eq
  rw [records] at hscan
  rw [findMember_eq member _ h.four_le, members.locate_of_scan hscan hpassed (decide_eq_true rfl),
    write_members]
  rfl

theorem sIsMember_eq (raw member : Bytes) :
    sIsMember raw member = decide (member ∈ records members raw) := by
  rw [sIsMember]
  split
  · rename_i hshort
    rw [records_of_short read_members_nil hshort]
    rfl
  · rename_i hlen
    by_cases hmem : member ∈ records members raw
    · obtain ⟨before, behind, hsplit, hnot⟩ := List.eq_append_cons_of_mem hmem
      rw [(split_of_records (by omega) hsplit).findMember hnot]
      simp [hmem]
    · rw [findMember_none (by omega) hmem]
      simp [hmem]

theorem findField_none {field : Bytes} (hlen : 4 ≤ raw.length)
    (h : (records pairs raw).lookup field = none) :
    findField raw field (payloadCount raw) 4 = none := by
  rw [findField_eq field _ hlen, Option.map_eq_none_iff, Format.locate_eq_none]
  intro p hp
  have hne : field ≠ p.1 := by simpa using List.lookup_eq_none_iff.mp h p hp
  exact decide_eq_false (Ne.symm hne)

section Found

variable {before : List (Bytes × Bytes)} {field value tail : Bytes} {count : Nat}

theorem Split.findField (h : Split pairs raw count before (field, value) tail)
    (hnot : field ∉ before.map Prod.fst) :
    findField raw field (payloadCount raw) 4 =
      some ⟨4 + (before.flatMap pairRecord).length, field.length, value.length⟩ := by
  have hpassed : ∀ p ∈ before, decide (p.1 = field) = false :=
    fun p hp => decide_eq_false fun heq => hnot (heq ▸ List.mem_map_of_mem hp)
  have hscan := h.records_eq
  rw [records] at hscan
  rw [findField_eq field _ h.four_le, pairs.locate_of_scan hscan hpassed (decide_eq_true rfl),
    write_pairs]
  rfl

/-- The payload around the value of a record. -/
theorem Split.around (h : Split pairs raw count before (field, value) tail) :
    raw = (leBytes 4 count ++ (before.flatMap pairRecord ++ (leBytes 2 field.length ++ field))) ++
        (leBytes 4 value.length ++ (value ++ tail)) ∧
      (leBytes 4 count ++ (before.flatMap pairRecord ++ (leBytes 2 field.length ++ field))).length =
        4 + (before.flatMap pairRecord).length + 2 + field.length := by
  constructor
  · rw [h.bytes, write_pairs, pairRecord, fieldRecord]
    simp only [List.append_assoc]
  · simp only [List.length_append, leBytes_length]
    omega

theorem Split.lookup (h : Split pairs raw count before (field, value) tail)
    (hnot : field ∉ before.map Prod.fst) : (records pairs raw).lookup field = some value := by
  rw [h.records_eq, List.lookup_append, List.lookup_cons_self]
  have hnone : before.lookup field = none :=
    List.lookup_eq_none_iff.mpr fun p hp => by
      have hne : field ≠ p.1 := fun heq => hnot (heq ▸ List.mem_map_of_mem hp)
      simpa using hne
  rw [hnone]
  rfl

end Found

/-- The first record of a field that is there. -/
theorem split_of_lookup {field value : Bytes} (hlen : 4 ≤ raw.length)
    (h : (records pairs raw).lookup field = some value) :
    ∃ before tail, Split pairs raw (payloadCount raw) before (field, value) tail ∧
      field ∉ before.map Prod.fst := by
  obtain ⟨before, behind, hsplit, hnot⟩ := List.lookup_eq_some_iff.mp h
  refine ⟨before, _, split_of_records hlen hsplit, fun hin => ?_⟩
  obtain ⟨p, hp, rfl⟩ := List.mem_map.mp hin
  simpa using hnot p hp

theorem hGet_eq (raw field : Bytes) : hGet raw field = (records pairs raw).lookup field := by
  rw [hGet]
  split
  · rename_i hshort
    rw [records_of_short read_pairs_nil hshort]
    rfl
  · rename_i hlen
    cases hlook : (records pairs raw).lookup field with
    | none =>
      rw [findField_none (by omega) hlook]
      rfl
    | some value =>
      obtain ⟨before, tail, hsplit, hnot⟩ := split_of_lookup (by omega) hlook
      obtain ⟨hraw, hoff⟩ := hsplit.around
      rw [hsplit.findField hnot, Option.map_some]
      simp only [FieldSpan.stop, FieldSpan.valOff]
      rw [hraw, ← List.append_assoc]
      exact congrArg some (slice_append (by rw [List.length_append, hoff, leBytes_length]) rfl)

end Horreum.Ds
