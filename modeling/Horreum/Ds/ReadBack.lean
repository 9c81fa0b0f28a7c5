/-
  Ds/ReadBack.lean --- what is found of a write, in any payload.

  `HSet` and `SAdd` put a new record behind all bytes, and the lookups read from the front: in a
  payload that `internal/ds` has not made they stop before the record or read it out of step.
  `LPop` finds what `LPush` has put in front as long as the count has not come round to zero.
-/
import Horreum.Ds.Records

set_option autoImplicit false

namespace Horreum.Ds

open Foundation

variable {raw field value member elem : Bytes}

/-- The records that are read behind those of the payload, once `r` stands at its end and is
counted. -/
def reached {ρ : Type} (F : Format ρ) (raw : Bytes) (r : ρ) : List ρ :=
  (F.scan (payloadCount raw + 1 - (records F raw).length) (unread F raw ++ F.write r)).1

/-- With a count that has come round to zero no record is read. -/
theorem records_of_wrapped {ρ : Type} (F : Format ρ) (hmany : ¬ payloadCount raw + 1 < 2 ^ 32)
    (rest : Bytes) : records F (withCount raw (payloadCount raw + 1) ++ rest) = [] := by
  have hcount : payloadCount raw + 1 = 2 ^ 32 := by
    have := payloadCount_lt raw
    omega
  have hzero : payloadCount (withCount raw (payloadCount raw + 1) ++ rest) = 0 := by
    rw [withCount, List.append_assoc, hcount, payloadCount_wrapped]
  rw [records, hzero, F.scan_zero]

/-! ## Hashes -/

/-- The payload is one behind which `HGet` finds the pair that `HSet` puts there. -/
def TakesField (raw field value : Bytes) : Prop :=
  raw.length < 4 ∨ (hGet raw field).isSome = true ∨
    payloadCount raw + 1 < 2 ^ 32 ∧
      (reached pairs raw (field, value)).lookup field = some value

instance (raw field value : Bytes) : Decidable (TakesField raw field value) :=
  inferInstanceAs (Decidable (_ ∨ _ ∨ _))

theorem hGet_hSet_iff (hfield : field.length ≤ 65535) (hvalue : value.length < 2 ^ 32) :
    hGet (hSet raw field value).newRaw field = some value ↔ TakesField raw field value := by
  have hfits : pairs.Fits (field, value) := ⟨Nat.lt_succ_of_le hfield, hvalue⟩
  rw [TakesField, hGet_eq raw]
  by_cases hshort : raw.length < 4
  · refine iff_of_true ?_ (.inl hshort)
    have hone : records pairs (packed pairs [(field, value)]) = [(field, value)] :=
      records_packed (by simp) (by simpa using hfits)
    have hpayload : packed pairs [(field, value)] = leBytes 4 1 ++ pairRecord (field, value) := by
      rw [packed, write_pairs, List.flatMap_singleton, List.length_singleton]
    rw [hSet_of_short hshort, hGet_eq, ← hpayload, hone, List.lookup_cons_self]
  · have hlen := Nat.le_of_not_lt hshort
    simp only [hshort, false_or]
    cases hlook : (records pairs raw).lookup field with
    | some old =>
      -- the record of the field is rewritten where it is
      refine iff_of_true ?_ (.inl rfl)
      obtain ⟨before, tail, hsplit, hnot⟩ := split_of_lookup hlen hlook
      have hput := (hsplit.put hfits).lookup hnot
      rw [write_pairs] at hput
      rw [hsplit.hSet hnot, hGet_eq, hput]
    | none =>
      rw [hSet_new hlen hlook, hGet_eq, ← write_pairs]
      by_cases hfew : payloadCount raw + 1 < 2 ^ 32
      · rw [records_append hfew, List.lookup_append, hlook, ← reached]
        simp only [hfew, Option.none_or, Option.isSome_none, reduceCtorEq, false_or, true_and]
      · rw [records_of_wrapped pairs hfew]
        simp only [hfew, List.lookup_nil, Option.isSome_none, reduceCtorEq, false_or, false_and]

theorem length_value_le (raw field value : Bytes) :
    value.length ≤ (hSet raw field value).newRaw.length := by
  have hrec := length_pairRecord (field, value)
  dsimp only at hrec
  by_cases hshort : raw.length < 4
  · rw [hSet_of_short hshort, List.length_append, hrec]
    omega
  · cases hlook : (records pairs raw).lookup field with
    | none =>
      rw [hSet_new (Nat.le_of_not_lt hshort) hlook, List.length_append, hrec]
      omega
    | some old =>
      obtain ⟨before, tail, hsplit, hnot⟩ := split_of_lookup (Nat.le_of_not_lt hshort) hlook
      rw [hsplit.hSet hnot]
      simp only [List.length_append, hrec]
      omega

/-! ## Sets -/

/-- The payload is one behind which `SIsMember` finds the member that `SAdd` puts there. -/
def TakesMember (raw member : Bytes) : Prop :=
  raw.length < 4 ∨ sIsMember raw member = true ∨
    payloadCount raw + 1 < 2 ^ 32 ∧ member ∈ reached members raw member

instance (raw member : Bytes) : Decidable (TakesMember raw member) :=
  inferInstanceAs (Decidable (_ ∨ _ ∨ _))

theorem sIsMember_sAdd_iff (hmember : member.length ≤ 65535) :
    sIsMember (sAdd raw member).1 member = true ↔ TakesMember raw member := by
  have hfits : members.Fits member := Nat.lt_succ_of_le hmember
  rw [TakesMember, sIsMember_eq raw, decide_eq_true_eq]
  by_cases hshort : raw.length < 4
  · refine iff_of_true ?_ (.inl hshort)
    have hone : records members (packed members [member]) = [member] :=
      records_packed (by simp) (by simpa using hfits)
    have hpayload : packed members [member] = leBytes 4 1 ++ memberRecord member := by
      rw [packed, write_members, List.flatMap_singleton, List.length_singleton]
    rw [sAdd_of_short hshort, sIsMember_eq, ← hpayload, hone]
    simp
  · have hlen := Nat.le_of_not_lt hshort
    simp only [hshort, false_or]
    by_cases hmem : member ∈ records members raw
    · refine iff_of_true ?_ (.inl hmem)
      rw [sAdd_mem hlen hmem, sIsMember_eq]
      exact decide_eq_true hmem
    · rw [sAdd_new hlen hmem, sIsMember_eq, decide_eq_true_eq, ← write_members]
      by_cases hfew : payloadCount raw + 1 < 2 ^ 32
      · rw [records_append hfew, List.mem_append, ← reached]
        simp only [hmem, hfew, false_or, true_and]
      · rw [records_of_wrapped members hfew]
        simp only [hmem, hfew, List.not_mem_nil, false_or, false_and]

/-! ## Lists -/

/-- The payload has room in its count for one element more. -/
def TakesElem (raw : Bytes) : Prop := raw.length < 4 ∨ payloadCount raw + 1 < 2 ^ 32

instance (raw : Bytes) : Decidable (TakesElem raw) := inferInstanceAs (Decidable (_ ∨ _))

/-- What is left of a list when the element that was pushed last is popped: the list before it. -/
def beforePush (raw : Bytes) : Bytes := if raw.length < 4 ∨ payloadCount raw = 0 then [] else raw

theorem lPush_of_short (h : raw.length < 4) : lPush raw elem = leBytes 4 1 ++ elemRecord elem ++ [] := by
  simp only [lPush, if_neg (Nat.not_le.mpr h), Nat.zero_add]

theorem lPush_of_count (h : 4 ≤ raw.length) :
    lPush raw elem = leBytes 4 (payloadCount raw + 1) ++ elemRecord elem ++ raw.drop 4 := by
  simp only [lPush, ge_iff_le, if_pos h]

/-- `LPop` undoes `LPush`. -/
theorem lPop_lPush (helem : elem.length < 2 ^ 32) (h : TakesElem raw) :
    lPop (lPush raw elem) = some ⟨beforePush raw, 8, elem⟩ := by
  by_cases hshort : raw.length < 4
  · rw [lPush_of_short hshort, lPop_front (by decide) (by decide) helem, beforePush,
      if_pos rfl, if_pos (.inl hshort)]
  · have hlen := Nat.le_of_not_lt hshort
    rw [lPush_of_count hlen, lPop_front (Nat.zero_lt_succ _) (h.resolve_left hshort) helem,
      beforePush]
    by_cases hzero : payloadCount raw = 0
    · rw [if_pos (by rw [hzero]), if_pos (.inr hzero)]
    · rw [if_neg (by omega), if_neg (by simp [hshort, hzero]), Nat.succ_sub_one,
        ← payload_eq hlen]

theorem lPop_lPush_none (h : ¬ TakesElem raw) : lPop (lPush raw elem) = none := by
  obtain ⟨hlen, hmany⟩ := not_or.mp h
  have hcount : payloadCount raw + 1 = 2 ^ 32 := by
    have := payloadCount_lt raw
    omega
  have hzero : payloadCount (lPush raw elem) = 0 := by
    rw [lPush_of_count (Nat.le_of_not_lt hlen), hcount, List.append_assoc, payloadCount_wrapped]
  rw [lPop]
  simp only [hzero, if_true, ite_self]

theorem length_elem_le (raw elem : Bytes) : elem.length ≤ (lPush raw elem).length := by
  simp only [lPush, List.length_append, length_elemRecord]
  omega

theorem slice_lPush (raw elem : Bytes) : slice (lPush raw elem) 8 (8 + elem.length) = elem :=
  slice_front _ elem _

end Horreum.Ds
