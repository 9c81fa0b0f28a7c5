/-
  Ds/Records.lean --- what the payload functions do on well-formed payloads.

  A well-formed payload is a count and as many records, with lengths that fit their fields.  On
  those, pushes and pops are the operations of a list and `SRem` is the removal from a set.
  `HDel` is not the removal from a hash: it cuts out the head of a record and leaves the bytes of
  the value, which are from then on read as records.
-/
import Horreum.Ds.Formats

set_option autoImplicit false

namespace Horreum.Ds

open Foundation

variable {raw field value member x : Bytes} {xs : List Bytes}

/-! ## What `HSet`, `HDel`, `SAdd` and `SRem` make of any payload -/

section Found

variable {before : List (Bytes × Bytes)} {old tail : Bytes} {count : Nat}

theorem hSet_of_short (h : raw.length < 4) :
    hSet raw field value = ⟨leBytes 4 1 ++ pairRecord (field, value), true, none⟩ := by
  rw [hSet, if_pos h]
  rfl

/-- A field that is not there goes behind everything. -/
theorem hSet_new (hlen : 4 ≤ raw.length) (h : (records pairs raw).lookup field = none) :
    hSet raw field value =
      ⟨withCount raw (payloadCount raw + 1) ++ pairRecord (field, value), true, none⟩ := by
  rw [hSet, if_neg (by omega)]
  simp only [findField_none hlen h]
  rfl

/-- A field that is there gets the value; only where its length stays the same is it written into
the old payload. -/
theorem Split.hSet (h : Split pairs raw count before (field, old) tail)
    (hnot : field ∉ before.map Prod.fst) :
    hSet raw field value =
      ⟨leBytes 4 count ++ (before.flatMap pairRecord ++ (pairRecord (field, value) ++ tail)), false,
        if old.length = value.length then
          some (4 + (before.flatMap pairRecord).length + 2 + field.length + 4) else none⟩ := by
  have hfind := h.findField hnot
  obtain ⟨hraw, hoff⟩ := h.around
  have hnew : leBytes 4 count ++ (before.flatMap pairRecord ++ (pairRecord (field, value) ++ tail)) =
      (leBytes 4 count ++ (before.flatMap pairRecord ++ (leBytes 2 field.length ++ field))) ++
        (leBytes 4 value.length ++ (value ++ tail)) := by
    simp only [pairRecord, fieldRecord, List.append_assoc]
  have hdrop : raw.drop (4 + (before.flatMap pairRecord).length + 2 + field.length + 4 + old.length) =
      tail := by
    rw [hraw, ← List.append_assoc, ← List.append_assoc]
    refine List.drop_left' ?_
    rw [List.length_append, List.length_append, hoff, leBytes_length]
  rw [Ds.hSet, if_neg (Nat.not_lt.mpr h.four_le), hnew]
  simp only [hfind, FieldSpan.valOff, hdrop]
  by_cases hlen : old.length = value.length
  · have htake : raw.take (4 + (before.flatMap pairRecord).length + 2 + field.length + 4) =
        (leBytes 4 count ++ (before.flatMap pairRecord ++ (leBytes 2 field.length ++ field))) ++
          leBytes 4 value.length := by
      rw [hraw, hlen, ← List.append_assoc]
      exact List.take_left' (by rw [List.length_append, hoff, leBytes_length])
    simp only [hlen, if_true, htake, List.append_assoc]
  · have htake : raw.take (4 + (before.flatMap pairRecord).length + 2 + field.length + 4 - 4) =
        leBytes 4 count ++ (before.flatMap pairRecord ++ (leBytes 2 field.length ++ field)) := by
      rw [Nat.add_sub_cancel, hraw]
      exact List.take_left' hoff
    simp only [hlen, if_false, htake, List.append_assoc]

/-- Where `HSet` writes into the payload it was given. -/
theorem hSet_inPlace {off : Nat} (h : (hSet raw field value).inPlace = some off) :
    off + value.length ≤ raw.length ∧
      (hSet raw field value).newRaw = raw.take off ++ value ++ raw.drop (off + value.length) := by
  by_cases hshort : raw.length < 4
  · rw [hSet_of_short hshort] at h
    cases h
  · cases hlook : (records pairs raw).lookup field with
    | none =>
      rw [hSet_new (by omega) hlook] at h
      cases h
    | some old =>
      obtain ⟨before, tail, hsplit, hnot⟩ := split_of_lookup (by omega) hlook
      obtain ⟨hraw, hoff⟩ := hsplit.around
      have hfind := hsplit.findField hnot
      rw [hsplit.hSet hnot] at h
      dsimp only at h
      split at h
      · rename_i hlen
        cases h
        constructor
        · rw [hraw, List.length_append, hoff, List.length_append, List.length_append,
            leBytes_length, hlen]
          omega
        · rw [Ds.hSet, if_neg hshort]
          simp only [hfind, hlen, if_true, FieldSpan.valOff]
      · cases h

/-- What is left of the record is the value. -/
theorem Split.hDel (h : Split pairs raw count before (field, old) tail)
    (hnot : field ∉ before.map Prod.fst) :
    hDel raw field = some (if count = 1 then [] else
      leBytes 4 (count - 1) ++ (before.flatMap pairRecord ++ (old ++ tail))) := by
  obtain ⟨hraw, hoff⟩ := h.around
  have hfront := h.front
  rw [write_pairs] at hfront
  have hdrop : raw.drop (4 + (before.flatMap pairRecord).length + 2 + field.length + 4) =
      old ++ tail := by
    rw [hraw, ← List.append_assoc]
    exact List.drop_left' (by rw [List.length_append, hoff, leBytes_length])
  have hfind := h.findField hnot
  rw [h.payloadCount_eq] at hfind
  rw [Ds.hDel, if_neg (Nat.not_lt.mpr h.four_le)]
  simp only [hfind, h.payloadCount_eq, Option.map_some, FieldSpan.valOff, hfront, hdrop,
    withCount, List.append_assoc, List.drop_left' (leBytes_length 4 count)]

end Found

theorem sAdd_of_short (h : raw.length < 4) :
    sAdd raw member = (leBytes 4 1 ++ memberRecord member, true) := by
  rw [sAdd, if_pos h]

theorem sAdd_new (hlen : 4 ≤ raw.length) (h : member ∉ records members raw) :
    sAdd raw member = (withCount raw (payloadCount raw + 1) ++ memberRecord member, true) := by
  rw [sAdd, if_neg (by omega)]
  simp only [findMember_none hlen h]

theorem sAdd_mem (hlen : 4 ≤ raw.length) (h : member ∈ records members raw) :
    sAdd raw member = (raw, false) := by
  obtain ⟨before, behind, hsplit, hnot⟩ := List.eq_append_cons_of_mem h
  rw [sAdd, if_neg (by omega)]
  simp only [(split_of_records hlen hsplit).findMember hnot]

/-- A member that was added stands at the end. -/
theorem sAdd_added (h : (sAdd raw member).2 = true) :
    ∃ front, (sAdd raw member).1 = front ++ memberRecord member := by
  by_cases hshort : raw.length < 4
  · exact ⟨_, by rw [sAdd_of_short hshort]⟩
  · have hlen := Nat.le_of_not_lt hshort
    by_cases hmem : member ∈ records members raw
    · rw [sAdd_mem hlen hmem] at h
      cases h
    · exact ⟨_, by rw [sAdd_new hlen hmem]⟩

theorem Split.sRem {before : List Bytes} {member tail : Bytes} {count : Nat}
    (h : Split members raw count before member tail) (hnot : member ∉ before) :
    sRem raw member = some (if count = 1 then [] else
      leBytes 4 (count - 1) ++ (before.flatMap memberRecord ++ tail)) := by
  have hfront := h.front
  rw [write_members] at hfront
  have hdrop : raw.drop (4 + (before.flatMap memberRecord).length + 2 + member.length) = tail := by
    rw [h.bytes, write_members, ← List.append_assoc, ← List.append_assoc]
    refine List.drop_left' ?_
    rw [List.length_append, List.length_append, leBytes_length, length_memberRecord]
    omega
  have hfind := h.findMember hnot
  rw [h.payloadCount_eq] at hfind
  rw [Ds.sRem, if_neg (Nat.not_lt.mpr h.four_le)]
  simp only [hfind, h.payloadCount_eq, Option.map_some, hfront, hdrop, withCount,
    List.append_assoc, List.drop_left' (leBytes_length 4 count)]

/-! ## Lists -/

/-- The payload of a list. -/
def listBytes (xs : List Bytes) : Bytes := leBytes 4 xs.length ++ xs.flatMap elemRecord

/-- The payload of a list. -/
structure IsList (raw : Bytes) (xs : List Bytes) : Prop where
  bytes : raw = listBytes xs
  few : xs.length < 2 ^ 32
  short : ∀ x ∈ xs, x.length < 2 ^ 32

theorem four_le_length_listBytes (xs : List Bytes) : 4 ≤ (listBytes xs).length := by
  simp [listBytes]

theorem length_le_flatMap_elemRecord (xs : List Bytes) :
    xs.length ≤ (xs.flatMap elemRecord).length ∧
      ∀ x ∈ xs, x.length ≤ (xs.flatMap elemRecord).length := by
  induction xs with
  | nil => simp
  | cons y ys ih =>
    rw [List.flatMap_cons, List.length_append, length_elemRecord, List.length_cons]
    refine ⟨by omega, fun x hx => ?_⟩
    rcases List.mem_cons.mp hx with rfl | hx
    · omega
    · have := ih.2 x hx
      omega

/-- What fits a word has counts and lengths that do. -/
theorem isList_of_length (h : (listBytes xs).length < 2 ^ 32) : IsList (listBytes xs) xs := by
  obtain ⟨hfew, hshort⟩ := length_le_flatMap_elemRecord xs
  rw [listBytes, List.length_append, leBytes_length] at h
  refine ⟨rfl, by omega, fun x hx => ?_⟩
  have := hshort x hx
  omega

theorem IsList.count (h : IsList raw xs) : payloadCount raw = xs.length := by
  have hfew : xs.length < 256 ^ 4 := h.few
  rw [payloadCount, h.bytes, listBytes, wordAt_zero, Nat.mod_eq_of_lt hfew]

theorem drop_listBytes (xs : List Bytes) : (listBytes xs).drop 4 = xs.flatMap elemRecord := by
  rw [listBytes, List.drop_left' (leBytes_length 4 _)]

theorem withCount_listBytes (xs : List Bytes) (n : Nat) :
    withCount (listBytes xs) n = leBytes 4 n ++ xs.flatMap elemRecord := by
  rw [withCount, drop_listBytes]

theorem IsList.lPush (h : IsList raw xs) (x : Bytes) : lPush raw x = listBytes (x :: xs) := by
  have hlen : 4 ≤ raw.length := h.bytes ▸ four_le_length_listBytes xs
  simp only [Ds.lPush, hlen, if_true, h.count]
  rw [h.bytes, drop_listBytes, listBytes, List.flatMap_cons, List.length_cons, List.append_assoc]

theorem lPush_nil (x : Bytes) : lPush [] x = listBytes [x] := by
  simp [lPush, listBytes]

theorem IsList.rPush (h : IsList raw xs) (x : Bytes) :
    rPush raw x = some (listBytes (xs ++ [x])) := by
  have hlen : 4 ≤ raw.length := h.bytes ▸ four_le_length_listBytes xs
  simp only [Ds.rPush, hlen, if_true, h.count]
  rw [h.bytes, withCount_listBytes]
  simp [listBytes]

/-- What is left of a list after a pop: nothing at all when it was the last element. -/
def leftover (xs : List Bytes) : Bytes := if xs = [] then [] else listBytes xs

/-- The element is where the pop says it is, and the rest is stored. -/
structure Pops (raw : Bytes) (x : Bytes) (xs : List Bytes) (p : Popped) : Prop where
  newRaw : p.newRaw = leftover xs
  elem : p.elem = x
  at_ : slice raw p.off (p.off + x.length) = x

theorem slice_front (count : Nat) (x rest : Bytes) :
    slice (leBytes 4 count ++ elemRecord x ++ rest) 8 (8 + x.length) = x := by
  have hpre : leBytes 4 count ++ elemRecord x ++ rest =
      (leBytes 4 count ++ leBytes 4 x.length) ++ (x ++ rest) := by
    simp only [elemRecord, List.append_assoc]
  rw [hpre]
  exact slice_append (by simp) rfl

/-- A pop of an element that stands in front of any bytes. -/
theorem lPop_front {count : Nat} (hpos : 0 < count) (hcount : count < 2 ^ 32)
    (hx : x.length < 2 ^ 32) (rest : Bytes) :
    lPop (leBytes 4 count ++ elemRecord x ++ rest) =
      some ⟨if count = 1 then [] else leBytes 4 (count - 1) ++ rest, 8, x⟩ := by
  have hlen : (leBytes 4 count ++ elemRecord x ++ rest).length = 8 + x.length + rest.length := by
    simp only [List.length_append, leBytes_length, length_elemRecord]
    omega
  have hword : payloadCount (leBytes 4 count ++ elemRecord x ++ rest) = count := by
    rw [List.append_assoc]
    exact payloadCount_leBytes hcount _
  have hfirst : wordAt (leBytes 4 count ++ elemRecord x ++ rest) 4 4 = x.length := by
    rw [List.append_assoc, elemRecord, List.append_assoc, wordAt_append 4 _ (leBytes_length 4 _)]
    exact Nat.mod_eq_of_lt hx
  have hdrop : (leBytes 4 count ++ elemRecord x ++ rest).drop (8 + x.length) = rest := by
    refine List.drop_left' ?_
    rw [List.length_append, leBytes_length, length_elemRecord]
    omega
  rw [lPop, if_neg (by omega)]
  simp only [hword, hfirst, slice_front, hdrop]
  rw [if_neg (by omega), if_neg (by omega)]
  split
  · rfl
  · rfl

theorem IsList.lPop_cons (h : IsList raw (x :: xs)) : ∃ p, lPop raw = some p ∧ Pops raw x xs p := by
  have hraw : raw = leBytes 4 (xs.length + 1) ++ elemRecord x ++ xs.flatMap elemRecord := by
    rw [h.bytes, listBytes, List.flatMap_cons, List.length_cons, List.append_assoc]
  have hpop := lPop_front (Nat.succ_pos xs.length) h.few (h.short x List.mem_cons_self)
    (xs.flatMap elemRecord)
  rw [← hraw] at hpop
  refine ⟨_, hpop, ?_, rfl, hraw ▸ slice_front _ x _⟩
  cases xs <;> simp [leftover, listBytes]

theorem IsList.pop_nil (h : IsList raw []) : lPop raw = none ∧ rPop raw = none := by
  have hlen : raw.length < 8 := by
    rw [h.bytes]
    simp [listBytes]
  simp only [lPop, rPop, hlen, if_true, and_self]

theorem lastElem_flatMap : ∀ (xs : List Bytes) (x : Bytes) (pre rest : Bytes) (last : Nat × Nat),
    (∀ y ∈ xs ++ [x], y.length < 2 ^ 32) →
    lastElem (pre ++ ((xs ++ [x]).flatMap elemRecord ++ rest)) (xs.length + 1) pre.length last =
      some (pre.length + (xs.flatMap elemRecord).length, x.length)
  | [], x, pre, rest, last, h => by
    have hx : x.length < 256 ^ 4 := h x (by simp)
    have hword : wordAt (pre ++ (elemRecord x ++ rest)) pre.length 4 = x.length := by
      rw [elemRecord, List.append_assoc, wordAt_append 4 _ rfl, Nat.mod_eq_of_lt hx]
    have hlen := length_elemRecord x
    simp only [List.nil_append, List.flatMap_cons, List.flatMap_nil, List.append_nil,
      List.length_nil, lastElem, hword, List.length_append, hlen, Nat.add_zero]
    rw [if_neg (by omega), if_neg (by omega)]
  | y :: ys, x, pre, rest, last, h => by
    have hy : y.length < 256 ^ 4 := h y (by simp)
    have hword : wordAt (pre ++ ((y :: ys ++ [x]).flatMap elemRecord ++ rest)) pre.length 4 =
        y.length := by
      rw [List.cons_append, List.flatMap_cons, elemRecord]
      simp only [List.append_assoc]
      rw [wordAt_append 4 _ rfl, Nat.mod_eq_of_lt hy]
    have hstep := lastElem_flatMap ys x (pre ++ elemRecord y) rest (pre.length, y.length)
      (fun z hz => h z (List.mem_cons_of_mem y hz))
    have hsame : pre ++ elemRecord y ++ ((ys ++ [x]).flatMap elemRecord ++ rest) =
        pre ++ ((y :: ys ++ [x]).flatMap elemRecord ++ rest) := by
      simp only [List.cons_append, List.flatMap_cons, List.append_assoc]
    rw [hsame] at hstep
    have hlen := length_elemRecord y
    have htot : (pre ++ ((y :: ys ++ [x]).flatMap elemRecord ++ rest)).length =
        pre.length + (4 + y.length) + ((ys ++ [x]).flatMap elemRecord ++ rest).length := by
      rw [← hsame]
      simp only [List.length_append, hlen]
    rw [List.length_cons, lastElem, hword, htot, if_neg (by omega), if_neg (by omega)]
    rw [List.length_append, hlen] at hstep
    rw [Nat.add_assoc pre.length 4 y.length, hstep, List.flatMap_cons, List.length_append, hlen,
      Nat.add_assoc]

theorem IsList.rPop_concat (h : IsList raw (xs ++ [x])) :
    ∃ p, rPop raw = some p ∧ Pops raw x xs p := by
  have hcount := h.count
  rw [List.length_append, List.length_singleton] at hcount
  have hwalk := lastElem_flatMap xs x (leBytes 4 (xs ++ [x]).length) [] (0, 0) h.short
  rw [List.append_nil, ← listBytes, ← h.bytes, leBytes_length] at hwalk
  have hraw : raw = (leBytes 4 (xs ++ [x]).length ++ (xs.flatMap elemRecord ++ leBytes 4 x.length)) ++
      (x ++ []) := by
    rw [h.bytes, listBytes]
    simp [elemRecord]
  have hlen : raw.length = 4 + (xs.flatMap elemRecord).length + 4 + x.length := by
    rw [hraw]
    simp only [List.length_append, leBytes_length, List.length_nil]
    omega
  have hslice : slice raw (4 + (xs.flatMap elemRecord).length + 4)
      (4 + (xs.flatMap elemRecord).length + 4 + x.length) = x := by
    rw [hraw]
    refine slice_append ?_ rfl
    simp only [List.length_append, leBytes_length]
    omega
  have htake : withCount (raw.take (4 + (xs.flatMap elemRecord).length)) xs.length =
      listBytes xs := by
    have hfront : raw = leBytes 4 (xs ++ [x]).length ++ xs.flatMap elemRecord ++
        (leBytes 4 x.length ++ x) := by
      rw [hraw]
      simp only [List.append_assoc, List.append_nil]
    rw [hfront, List.take_left' (by simp), withCount, List.drop_left' (leBytes_length 4 _), listBytes]
  unfold Ds.rPop
  rw [if_neg (by omega), hcount]
  simp only [Nat.add_one_ne_zero, if_false, hwalk, hslice, Nat.add_sub_cancel, htake]
  refine ⟨⟨leftover xs, 4 + (xs.flatMap elemRecord).length + 4, x⟩, ?_, rfl, rfl, hslice⟩
  cases xs <;> simp [leftover]

/-! ## Sets -/

/-- The payload of a set. -/
def setBytes (ms : List Bytes) : Bytes := leBytes 4 ms.length ++ ms.flatMap memberRecord

/-- The payload of a set. -/
structure IsSet (raw : Bytes) (ms : List Bytes) : Prop where
  bytes : raw = setBytes ms
  few : ms.length < 2 ^ 32
  short : ∀ m ∈ ms, m.length < 2 ^ 16
  nodup : ms.Nodup

section Members

variable {m : Bytes} {ms a b : List Bytes}

theorem IsSet.records_eq (h : IsSet raw ms) : records members raw = ms := by
  rw [h.bytes]
  exact records_packed h.few h.short

theorem IsSet.four_le_length (h : IsSet raw ms) : ¬ raw.length < 4 := by
  rw [h.bytes, setBytes, List.length_append, leBytes_length]
  omega

theorem IsSet.split (h : IsSet raw (a ++ m :: b)) :
    Split members raw (a ++ m :: b).length a m (b.flatMap memberRecord) := by
  refine ⟨?_, h.few, ?_, fun x hx => h.short x (by simp [hx]), h.short m (by simp)⟩
  · rw [h.bytes, setBytes, List.flatMap_append, List.flatMap_cons, write_members]
  · rw [List.length_append, List.length_cons]
    omega

theorem IsSet.not_mem_front (h : IsSet raw (a ++ m :: b)) : m ∉ a := fun hin =>
  (List.nodup_append.mp h.nodup).2.2 m hin m List.mem_cons_self rfl

theorem IsSet.find_none (h : IsSet raw ms) (hmem : m ∉ ms) :
    findMember raw m (payloadCount raw) 4 = none :=
  findMember_none (Nat.le_of_not_lt h.four_le_length) (h.records_eq.symm ▸ hmem)

theorem IsSet.sIsMember (h : IsSet raw ms) (m : Bytes) : sIsMember raw m = decide (m ∈ ms) := by
  rw [sIsMember_eq, h.records_eq]

theorem IsSet.erase (h : IsSet raw (a ++ m :: b)) : IsSet (setBytes (a ++ b)) (a ++ b) := by
  have hsub : List.Sublist (a ++ b) (a ++ m :: b) :=
    List.Sublist.append_left (List.sublist_cons_self m b) a
  exact ⟨rfl, Nat.lt_of_le_of_lt hsub.length_le h.few, fun y hy => h.short y (hsub.mem hy),
    h.nodup.sublist hsub⟩

theorem IsSet.sRem (h : IsSet raw (a ++ m :: b)) :
    sRem raw m = some (if a ++ b = [] then [] else setBytes (a ++ b)) := by
  have hlen : (a ++ m :: b).length = (a ++ b).length + 1 := by
    simp only [List.length_append, List.length_cons]
    omega
  rw [h.split.sRem h.not_mem_front, hlen, Nat.add_sub_cancel, setBytes, List.flatMap_append]
  simp only [Nat.add_eq_right, List.length_eq_zero_iff]

end Members

/-! ## Hashes -/

/-- The payload of a hash. -/
def hashBytes (fs : List (Bytes × Bytes)) : Bytes := leBytes 4 fs.length ++ fs.flatMap pairRecord

/-- The payload of a hash. -/
structure IsHash (raw : Bytes) (fs : List (Bytes × Bytes)) : Prop where
  bytes : raw = hashBytes fs
  few : fs.length < 2 ^ 32
  short : ∀ f ∈ fs, f.1.length < 2 ^ 16 ∧ f.2.length < 2 ^ 32
  nodup : (fs.map Prod.fst).Nodup

section Fields

variable {fs a b : List (Bytes × Bytes)}

theorem packed_pairs (fs : List (Bytes × Bytes)) : packed pairs fs = hashBytes fs := by
  rw [packed, write_pairs, hashBytes]

theorem IsHash.records_eq (h : IsHash raw fs) : records pairs raw = fs := by
  rw [h.bytes, ← packed_pairs]
  exact records_packed h.few h.short

theorem IsHash.four_le_length (h : IsHash raw fs) : ¬ raw.length < 4 := by
  rw [h.bytes, hashBytes, List.length_append, leBytes_length]
  omega

theorem IsHash.not_mem_front (h : IsHash raw (a ++ (field, value) :: b)) :
    field ∉ a.map Prod.fst := by
  have hnd := h.nodup
  rw [List.map_append, List.map_cons] at hnd
  exact fun hin => (List.nodup_append.mp hnd).2.2 field hin field List.mem_cons_self rfl

/-- A field has one record. -/
theorem IsHash.split_unique {value' : Bytes} {a' b' : List (Bytes × Bytes)}
    (h : IsHash raw (a ++ (field, value) :: b))
    (heq : a ++ (field, value) :: b = a' ++ (field, value') :: b') :
    a = a' ∧ value = value' ∧ b = b' := by
  have hfront := h.not_mem_front
  have hfront' := IsHash.not_mem_front (heq ▸ h)
  rcases List.append_eq_append_iff.mp heq with ⟨c, hc, hrest⟩ | ⟨c, hc, hrest⟩
  · cases c with
    | nil => simp_all
    | cons g gs =>
      simp only [List.cons_append, List.cons.injEq] at hrest
      exact absurd (by simp [hc, ← hrest.1]) hfront'
  · cases c with
    | nil => simp_all
    | cons g gs =>
      simp only [List.cons_append, List.cons.injEq] at hrest
      exact absurd (by simp [hc, ← hrest.1]) hfront

/-- The record of a field is the only one with its name. -/
theorem IsHash.forall_split {p : List (Bytes × Bytes) → Bytes → List (Bytes × Bytes) → Prop}
    (h : IsHash raw (a ++ (field, value) :: b)) :
    (∀ a' value' b', a ++ (field, value) :: b = a' ++ (field, value') :: b' → p a' value' b') ↔
      p a value b := by
  constructor
  · exact fun hall => hall a value b rfl
  · intro hone a' value' b' heq
    obtain ⟨rfl, rfl, rfl⟩ := h.split_unique heq
    exact hone

theorem IsHash.split (h : IsHash raw (a ++ (field, value) :: b)) :
    Split pairs raw (a ++ (field, value) :: b).length a (field, value) (b.flatMap pairRecord) := by
  refine ⟨?_, h.few, ?_, fun x hx => h.short x (by simp [hx]), h.short _ (by simp)⟩
  · rw [h.bytes, hashBytes, List.flatMap_append, List.flatMap_cons, write_pairs]
  · rw [List.length_append, List.length_cons]
    omega

theorem lookup_eq_none_of_not_mem (hmem : field ∉ fs.map Prod.fst) : fs.lookup field = none :=
  List.lookup_eq_none_iff.mpr fun p hp => by
    have hne : field ≠ p.1 := fun heq => hmem (heq ▸ List.mem_map_of_mem hp)
    simpa using hne

theorem IsHash.find_none (h : IsHash raw fs) (hmem : field ∉ fs.map Prod.fst) :
    findField raw field (payloadCount raw) 4 = none := by
  refine findField_none (Nat.le_of_not_lt h.four_le_length) ?_
  rw [h.records_eq]
  exact lookup_eq_none_of_not_mem hmem

/-- What `HDel` makes of the payload: the value of the field is still there. -/
def cutBytes (a : List (Bytes × Bytes)) (value : Bytes) (b : List (Bytes × Bytes)) : Bytes :=
  leBytes 4 (a ++ b).length ++ (a.flatMap pairRecord ++ (value ++ b.flatMap pairRecord))

theorem IsHash.hDel (h : IsHash raw (a ++ (field, value) :: b)) :
    hDel raw field = some (if a ++ b = [] then [] else cutBytes a value b) := by
  have hlen : (a ++ (field, value) :: b).length = (a ++ b).length + 1 := by
    simp only [List.length_append, List.length_cons]
    omega
  rw [h.split.hDel h.not_mem_front, hlen, Nat.add_sub_cancel, cutBytes]
  simp only [Nat.add_eq_right, List.length_eq_zero_iff]

theorem isSome_findField (raw field : Bytes) (n : Nat) {off : Nat} (hoff : off ≤ raw.length) :
    (findField raw field n off).isSome = ((pairs.scan n (raw.drop off)).1.lookup field).isSome := by
  rw [findField_eq field n hoff, Option.isSome_map, Format.locate, Option.isSome_map, Bool.eq_iff_iff,
    List.find?_isSome, List.lookup_isSome_iff]
  refine exists_congr fun p => and_congr_right fun _ => ?_
  rw [decide_eq_true_eq, beq_iff_eq]
  exact eq_comm

/-- Whether the field is found again: only if the bytes of the value, read as records, name it. -/
theorem IsHash.hGet_cut (h : IsHash raw (a ++ (field, value) :: b)) :
    (hGet (cutBytes a value b) field).isSome =
      (findField (value ++ b.flatMap pairRecord) field b.length 0).isSome := by
  have hfew : (a ++ b).length < 2 ^ 32 := by
    have hlt := h.few
    simp only [List.length_append, List.length_cons] at hlt ⊢
    omega
  have hscan := pairs.scan_write (fun x hx => h.short x (List.mem_append_left _ hx)) b.length
    (value ++ b.flatMap pairRecord)
  rw [write_pairs] at hscan
  rw [hGet_eq, records, cutBytes, scan_leBytes hfew, List.length_append, hscan, List.lookup_append,
    lookup_eq_none_of_not_mem h.not_mem_front, Option.none_or, isSome_findField _ _ _ (Nat.zero_le _),
    List.drop_zero]

theorem IsHash.hGet (h : IsHash raw fs) (field : Bytes) :
    (hGet raw field).isSome = decide (field ∈ fs.map Prod.fst) := by
  rw [hGet_eq, h.records_eq, Bool.eq_iff_iff, List.lookup_isSome_iff, decide_eq_true_eq, List.mem_map]
  refine exists_congr fun p => and_congr_right fun _ => ?_
  rw [beq_iff_eq]
  exact eq_comm

end Fields

end Horreum.Ds
