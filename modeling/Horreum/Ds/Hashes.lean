/-
  Ds/Hashes.lean --- a hash as an ordered map.

  From the empty payload, `HSet` builds the list of the fields in the order of their first use,
  each with its last value, as long as the fields can be counted: the count has 32 bits, and with
  the 2^32nd field it is zero again.  `HDel` takes a field out of the list where that leaves no
  trace, which is where the value of the field is empty or no other field is left.
-/
import Horreum.Ds.Records
import Horreum.Foundation.LastWriter
import Mathlib.Data.List.Induction
import Mathlib.Data.List.Nodup

set_option autoImplicit false

namespace Horreum.Ds

open Foundation

variable {raw field value : Bytes} {fs a b calls : List (Bytes × Bytes)} {n : Nat}

/-- A hash without fields has no payload. -/
def hashPayload (fs : List (Bytes × Bytes)) : Bytes := if fs = [] then [] else hashBytes fs

/-- A payload that encodes this list; one without a count encodes the empty one. -/
def EncodesHash (raw : Bytes) (fs : List (Bytes × Bytes)) : Prop :=
  IsHash raw fs ∨ raw.length < 4 ∧ fs = []

theorem EncodesHash.records_eq (h : EncodesHash raw fs) : records pairs raw = fs := by
  rcases h with h | ⟨hshort, rfl⟩
  · exact h.records_eq
  · exact records_of_short read_pairs_nil hshort

/-! ## Setting fields -/

theorem IsHash.set (h : IsHash raw (a ++ (field, value) :: b)) (value' : Bytes) :
    (hSet raw field value').newRaw = hashBytes (a ++ (field, value') :: b) ∧
      (hSet raw field value').updated = false := by
  rw [h.split.hSet h.not_mem_front]
  refine ⟨?_, rfl⟩
  rw [hashBytes, List.length_append, List.length_append, List.length_cons, List.length_cons,
    List.flatMap_append, List.flatMap_cons]

theorem EncodesHash.add (h : EncodesHash raw fs) (hnot : field ∉ fs.map Prod.fst) (value : Bytes) :
    (hSet raw field value).newRaw = hashBytes (fs ++ [(field, value)]) ∧
      (hSet raw field value).updated = true := by
  have hlook := lookup_eq_none_of_not_mem hnot
  rw [← h.records_eq] at hlook
  rcases h with h | ⟨hshort, rfl⟩
  · have hlen := Nat.le_of_not_lt h.four_le_length
    have hcount : payloadCount raw = fs.length := by
      rw [h.bytes, hashBytes, payloadCount_leBytes h.few]
    rw [hSet_new hlen hlook, hcount]
    refine ⟨?_, rfl⟩
    rw [h.bytes, hashBytes, withCount, List.drop_left' (leBytes_length 4 _), hashBytes,
      List.flatMap_append, List.length_append, List.append_assoc]
    simp
  · rw [hSet_of_short hshort]
    exact ⟨by simp [hashBytes], rfl⟩

theorem EncodesHash.short (h : EncodesHash raw fs) :
    ∀ f ∈ fs, f.1.length < 2 ^ 16 ∧ f.2.length < 2 ^ 32 := by
  rcases h with h | ⟨_, rfl⟩
  · exact h.short
  · simp

theorem IsHash.set_isHash {value' : Bytes} (h : IsHash raw (a ++ (field, value) :: b))
    (hvalue : value'.length < 2 ^ 32) :
    IsHash (hSet raw field value').newRaw (a ++ (field, value') :: b) := by
  have hfield := (h.short (field, value) (by simp)).1
  have hkeys : (a ++ (field, value') :: b).map Prod.fst = (a ++ (field, value) :: b).map Prod.fst := by
    simp
  refine ⟨(h.set value').1, by simpa using h.few, fun g hg => ?_, hkeys ▸ h.nodup⟩
  rcases List.mem_append.mp hg with hg | hg
  · exact h.short g (List.mem_append_left _ hg)
  · rcases List.mem_cons.mp hg with rfl | hg
    · exact ⟨hfield, hvalue⟩
    · exact h.short g (by simp [hg])

/-- The payload after these calls of `HSet`, each on what the one before it returned. -/
def hashAfter (calls : List (Bytes × Bytes)) : Bytes :=
  calls.foldl (fun raw c => (hSet raw c.1 c.2).newRaw) []

theorem hashAfter_concat (calls : List (Bytes × Bytes)) (c : Bytes × Bytes) :
    hashAfter (calls ++ [c]) = (hSet (hashAfter calls) c.1 c.2).newRaw := by
  rw [hashAfter, List.foldl_append]
  rfl

/-- The last value that was set for each field. -/
def lastSet (calls : List (Bytes × Bytes)) : Bytes → Option Bytes :=
  lastWriter Prod.fst (fun c => some c.2) (fun _ => none) calls

theorem lastSet_concat (calls : List (Bytes × Bytes)) (c : Bytes × Bytes) :
    lastSet (calls ++ [c]) = Function.update (lastSet calls) c.1 (some c.2) :=
  lastWriter_append _ calls [c]

/-- The fields in the order of their first use, each with its last value. -/
structure InOrder (calls fs : List (Bytes × Bytes)) : Prop where
  fields : fs.map Prod.fst = (calls.map Prod.fst).eraseDups
  values : ∀ field, fs.lookup field = lastSet calls field
  nodup : (fs.map Prod.fst).Nodup

theorem InOrder.mem_iff (h : InOrder calls fs) :
    field ∈ fs.map Prod.fst ↔ field ∈ calls.map Prod.fst := by
  rw [h.fields, List.mem_eraseDups]

theorem eraseDups_concat_of_mem {α : Type} [BEq α] [LawfulBEq α] {xs : List α} {x : α} (h : x ∈ xs) :
    (xs ++ [x]).eraseDups = xs.eraseDups := by
  simp [List.eraseDups_append, List.cons_removeAll, h]

theorem eraseDups_concat_of_not_mem {α : Type} [BEq α] [LawfulBEq α] {xs : List α} {x : α} (h : x ∉ xs) :
    (xs ++ [x]).eraseDups = xs.eraseDups ++ [x] := by
  simp [List.eraseDups_append, List.cons_removeAll, h, List.eraseDups_cons]

theorem length_eraseDups_concat_le {α : Type} [BEq α] [LawfulBEq α] (xs : List α) (x : α) :
    xs.eraseDups.length ≤ (xs ++ [x]).eraseDups.length := by
  rw [List.eraseDups_append, List.length_append]
  exact Nat.le_add_right _ _

/-- A field that is set again keeps its place. -/
theorem InOrder.set (h : InOrder calls (a ++ (field, value) :: b)) (value' : Bytes) :
    InOrder (calls ++ [(field, value')]) (a ++ (field, value') :: b) := by
  have hmem : field ∈ calls.map Prod.fst := h.mem_iff.mp (by simp)
  have hnd := h.nodup
  rw [List.map_append, List.map_cons] at hnd
  have hfront : field ∉ a.map Prod.fst :=
    fun hin => (List.nodup_append.mp hnd).2.2 field hin field List.mem_cons_self rfl
  have hkeys : (a ++ (field, value') :: b).map Prod.fst = (a ++ (field, value) :: b).map Prod.fst := by
    simp
  refine ⟨?_, fun g => ?_, hkeys ▸ h.nodup⟩
  · rw [hkeys, h.fields, List.map_append]
    exact (eraseDups_concat_of_mem hmem).symm
  · rw [lastSet_concat]
    have hold := h.values g
    rw [List.lookup_append] at hold ⊢
    by_cases hg : g = field
    · subst hg
      rw [lookup_eq_none_of_not_mem hfront, List.lookup_cons_self, Function.update_self]
      rfl
    · have hne : (g == field) = false := by simpa using hg
      rw [Function.update_of_ne hg, ← hold]
      simp only [List.lookup_cons, hne]

/-- A new field is the last one. -/
theorem InOrder.add (h : InOrder calls fs) (hnot : field ∉ fs.map Prod.fst) (value : Bytes) :
    InOrder (calls ++ [(field, value)]) (fs ++ [(field, value)]) := by
  have hmem : field ∉ calls.map Prod.fst := fun hin => hnot (h.mem_iff.mpr hin)
  refine ⟨?_, fun g => ?_, ?_⟩
  · rw [List.map_append, List.map_append, h.fields]
    exact (eraseDups_concat_of_not_mem hmem).symm
  · rw [lastSet_concat, List.lookup_append, h.values g]
    by_cases hg : g = field
    · subst hg
      rw [← h.values g, lookup_eq_none_of_not_mem hnot, Function.update_self]
      simp
    · rw [Function.update_of_ne hg]
      simp [hg]
  · rw [List.map_append]
    exact List.Nodup.append h.nodup (List.nodup_singleton field) (by simpa using hnot)

/-- The fields of a run of calls, with what bounds their lengths. -/
theorem hashAfter_encodes
    (hshort : ∀ c ∈ calls, c.1.length ≤ 65535 ∧ c.2.length < 2 ^ 32)
    (hfew : (calls.map Prod.fst).eraseDups.length < 2 ^ 32) :
    ∃ fs, hashAfter calls = hashPayload fs ∧ EncodesHash (hashAfter calls) fs ∧ InOrder calls fs := by
  induction calls using List.reverseRecOn with
  | nil => exact ⟨[], rfl, .inr ⟨by decide, rfl⟩, ⟨rfl, fun _ => rfl, List.nodup_nil⟩⟩
  | append_singleton calls c ih =>
    obtain ⟨field, value⟩ := c
    rw [List.map_append] at hfew
    have hlen := length_eraseDups_concat_le (calls.map Prod.fst) field
    obtain ⟨fs, hraw, henc, hord⟩ := ih (fun c hc => hshort c (List.mem_append_left _ hc))
      (Nat.lt_of_le_of_lt hlen hfew)
    have hc := hshort (field, value) (by simp)
    rw [hashAfter_concat]
    by_cases hmem : field ∈ fs.map Prod.fst
    · -- the record of the field is rewritten where it is
      obtain ⟨⟨f, old⟩, hin, rfl⟩ := List.mem_map.mp hmem
      obtain ⟨a, b, rfl⟩ := List.append_of_mem hin
      rcases henc with hhash | ⟨_, hnil⟩
      · have hset := hhash.set_isHash hc.2
        refine ⟨a ++ (f, value) :: b, ?_, .inl hset, hord.set value⟩
        rw [hset.bytes, hashPayload, if_neg (by simp)]
      · simp at hnil
    · -- a record is added behind the others
      have hnew := hord.add hmem value
      have hcount : (fs ++ [(field, value)]).length < 2 ^ 32 := by
        have hfields := congrArg List.length hnew.fields
        rw [List.length_map, List.map_append] at hfields
        rw [hfields]
        exact hfew
      have hadd := (henc.add hmem value).1
      refine ⟨fs ++ [(field, value)], ?_, .inl ⟨hadd, hcount, ?_, hnew.nodup⟩, hnew⟩
      · rw [hadd, hashPayload, if_neg (by simp)]
      · intro g hg
        rcases List.mem_append.mp hg with hg | hg
        · exact henc.short g hg
        · obtain rfl := List.mem_singleton.mp hg
          exact ⟨Nat.lt_succ_of_le hc.1, hc.2⟩

theorem EncodesHash.updated (h : EncodesHash raw fs) (field value : Bytes) :
    (hSet raw field value).updated = decide (field ∉ fs.map Prod.fst) := by
  by_cases hmem : field ∈ fs.map Prod.fst
  · obtain ⟨⟨f, old⟩, hin, rfl⟩ := List.mem_map.mp hmem
    obtain ⟨a, b, rfl⟩ := List.append_of_mem hin
    rcases h with h | ⟨_, hnil⟩
    · rw [(h.set value).2, decide_eq_false (not_not_intro hmem)]
    · simp at hnil
  · rw [(h.add hmem value).2, decide_eq_true hmem]

/-- What makes the payload after these calls the ordered map of the calls. -/
def OrderedMap (calls : List (Bytes × Bytes)) : Prop :=
  ∃ fs, hashAfter calls = hashPayload fs ∧ InOrder calls fs ∧
    (∀ field value, (hSet (hashAfter calls) field value).updated =
      decide (field ∉ calls.map Prod.fst)) ∧
    (∀ field, hGet (hashAfter calls) field = lastSet calls field) ∧
    hGetAll (hashAfter calls) = fs

theorem ordered_map {calls : List (Bytes × Bytes)}
    (hshort : ∀ c ∈ calls, c.1.length ≤ 65535 ∧ c.2.length < 2 ^ 32)
    (hfew : (calls.map Prod.fst).eraseDups.length < 2 ^ 32) : OrderedMap calls := by
  obtain ⟨fs, hraw, henc, hord⟩ := hashAfter_encodes hshort hfew
  refine ⟨fs, hraw, hord, fun field value => ?_, fun field => ?_, ?_⟩
  · rw [henc.updated, decide_eq_decide, not_iff_not]
    exact hord.mem_iff
  · rw [hGet_eq, henc.records_eq, hord.values]
  · rw [hGetAll_eq, henc.records_eq]

theorem ordered_map_reset : OrderedMap [([1], [7]), ([2], []), ([1], [8, 9])] :=
  ordered_map (by decide) (by decide)

/-! ## More fields than the count can hold -/

/-- So many calls, each with a field of its own. -/
def manyFields (n : Nat) : List (Bytes × Bytes) := (List.range n).map fun i => (leBytes 4 i, [])

theorem manyFields_succ (n : Nat) : manyFields (n + 1) = manyFields n ++ [(leBytes 4 n, [])] := by
  rw [manyFields, List.range_succ, List.map_append]
  rfl

theorem short_of_mem_manyFields {c : Bytes × Bytes} (hc : c ∈ manyFields n) :
    c.1.length ≤ 65535 ∧ c.2.length < 2 ^ 32 := by
  obtain ⟨i, _, rfl⟩ := List.mem_map.mp hc
  rw [leBytes_length]
  exact ⟨by decide, Nat.two_pow_pos 32⟩

theorem not_mem_manyFields (hn : n < 2 ^ 32) : leBytes 4 n ∉ (manyFields n).map Prod.fst := by
  rw [manyFields, List.map_map]
  exact leBytes_not_mem_range hn

theorem length_fields_manyFields (hn : n ≤ 2 ^ 32) :
    ((manyFields n).map Prod.fst).eraseDups.length = n := by
  induction n with
  | zero => rfl
  | succ n ih =>
    rw [manyFields_succ, List.map_append]
    have hconcat := eraseDups_concat_of_not_mem (not_mem_manyFields (Nat.lt_of_succ_le hn))
    have hlen := congrArg List.length hconcat
    rw [List.length_append, ih (Nat.le_of_succ_le hn)] at hlen
    exact hlen

/-- A payload with that many fields has the count zero, and nothing in it is found. -/
theorem hGetAll_full (hfull : fs.length = 2 ^ 32) : hGetAll (hashPayload fs) = [] := by
  have hne : fs ≠ [] := by
    rintro rfl
    cases hfull
  have hcount : payloadCount (hashBytes fs) = 0 := by
    rw [hashBytes, hfull, payloadCount_wrapped]
  rw [hashPayload, if_neg hne, hGetAll_eq, records, hcount, pairs.scan_zero]

theorem not_orderedMap_manyFields (hn : n = 2 ^ 32) : ¬ OrderedMap (manyFields n) := by
  rintro ⟨fs, hraw, hord, _, _, hall⟩
  have hlen : fs.length = 2 ^ 32 := by
    rw [← hn, ← length_fields_manyFields (Nat.le_of_eq hn), ← hord.fields, List.length_map]
  rw [hraw, hGetAll_full hlen] at hall
  rw [← hall] at hlen
  cases hlen

theorem ordered_map_overflows :
    (∀ c ∈ manyFields (2 ^ 32), c.1.length ≤ 65535 ∧ c.2.length < 2 ^ 32) ∧
      ¬ OrderedMap (manyFields (2 ^ 32)) :=
  ⟨fun _ hc => short_of_mem_manyFields hc, not_orderedMap_manyFields rfl⟩

/-! ## Removing a field -/

/-- What `HDel` should do with the payload of a list: take the field out, or leave the payload
alone and say that it is not there, which is `none`. -/
def RemovesField (raw : Bytes) (fs : List (Bytes × Bytes)) (field : Bytes) : Prop :=
  if field ∈ fs.map Prod.fst then
    ∃ newRaw, hDel raw field = some newRaw ∧
      newRaw = hashPayload (fs.filter fun p => p.1 ≠ field) ∧
      (∀ g, g ≠ field → hGet newRaw g = hGet raw g) ∧
      hGetAll newRaw = fs.filter fun p => p.1 ≠ field
  else hDel raw field = none

theorem filter_split (h : IsHash raw (a ++ (field, value) :: b)) :
    ((a ++ (field, value) :: b).filter fun p => p.1 ≠ field) = a ++ b := by
  have hnd := h.nodup
  rw [List.map_append, List.map_cons, List.nodup_append, List.nodup_cons] at hnd
  have hne : ∀ p ∈ a ++ b, p.1 ≠ field := by
    intro p hp heq
    rcases List.mem_append.mp hp with hp | hp
    · exact hnd.2.2 _ (List.mem_map_of_mem hp) field List.mem_cons_self heq
    · have hin := List.mem_map_of_mem (f := Prod.fst) hp
      rw [heq] at hin
      exact hnd.2.1.1 hin
  rw [List.filter_append, List.filter_cons_of_neg (by simp), ← List.filter_append,
    List.filter_eq_self.mpr fun p hp => by simpa using hne p hp]

theorem cutBytes_eq_iff : cutBytes a value b = hashBytes (a ++ b) ↔ value = [] := by
  constructor
  · intro h
    have hlen := congrArg List.length h
    simp only [cutBytes, hashBytes, List.flatMap_append, List.length_append, leBytes_length] at hlen
    exact List.eq_nil_of_length_eq_zero (by omega)
  · rintro rfl
    rw [cutBytes, hashBytes, List.nil_append, List.flatMap_append]

theorem lookup_of_ne {g : Bytes} (hg : g ≠ field) :
    (a ++ (field, value) :: b).lookup g = (a ++ b).lookup g := by
  have hne : (g == field) = false := by simpa using hg
  rw [List.lookup_append, List.lookup_append, List.lookup_cons, hne]

theorem encodesHash_payload (h : IsHash raw (a ++ (field, value) :: b)) :
    EncodesHash (hashPayload (a ++ b)) (a ++ b) := by
  rw [hashPayload]
  split
  · rename_i hnil
    exact .inr ⟨by decide, hnil⟩
  · have hsub : List.Sublist (a ++ b) (a ++ (field, value) :: b) :=
      List.Sublist.append_left (List.sublist_cons_self _ b) a
    exact .inl ⟨rfl, Nat.lt_of_le_of_lt hsub.length_le h.few, fun p hp => h.short p (hsub.mem hp),
      h.nodup.sublist (hsub.map _)⟩

/-- The condition on every value of the field is one on the value that it has. -/
theorem IsHash.values_iff (h : IsHash raw (a ++ (field, value) :: b)) :
    (∀ value', (field, value') ∈ a ++ (field, value) :: b →
      value' = [] ∨ (a ++ (field, value) :: b).length = 1) ↔ value = [] ∨ a ++ b = [] := by
  have hlen : (a ++ (field, value) :: b).length = 1 ↔ a ++ b = [] := by
    simp only [List.length_append, List.length_cons, ← List.length_eq_zero_iff]
    omega
  rw [hlen]
  constructor
  · exact fun hall => hall value (by simp)
  · intro hcond value' hin'
    obtain ⟨a', b', heq⟩ := List.append_of_mem hin'
    obtain ⟨_, rfl, _⟩ := h.split_unique heq
    exact hcond

theorem EncodesHash.hDel_none (h : EncodesHash raw fs) (hnot : field ∉ fs.map Prod.fst) :
    hDel raw field = none := by
  rw [hDel]
  split
  · rfl
  · rename_i hlen
    have hlook := lookup_eq_none_of_not_mem hnot
    rw [← h.records_eq] at hlook
    simp only [findField_none (Nat.le_of_not_lt hlen) hlook, Option.map_none]

theorem removes_field_iff (h : EncodesHash raw fs) (field : Bytes) :
    RemovesField raw fs field ↔ ∀ value, (field, value) ∈ fs → value = [] ∨ fs.length = 1 := by
  by_cases hmem : field ∈ fs.map Prod.fst
  · obtain ⟨⟨field, value⟩, hin, rfl⟩ := List.mem_map.mp hmem
    obtain ⟨a, b, rfl⟩ := List.append_of_mem hin
    rcases h with h | ⟨_, hnil⟩
    · rw [h.values_iff, RemovesField, if_pos hmem, h.hDel, filter_split h]
      constructor
      · rintro ⟨newRaw, hdel, hbytes, _, _⟩
        cases hdel
        by_cases hnil : a ++ b = []
        · exact .inr hnil
        · rw [if_neg hnil, hashPayload, if_neg hnil] at hbytes
          exact .inl (cutBytes_eq_iff.mp hbytes)
      · intro hcond
        have hnew : (if a ++ b = [] then [] else cutBytes a value b) = hashPayload (a ++ b) := by
          rw [hashPayload]
          split
          · rfl
          · rename_i hnil
            exact cutBytes_eq_iff.mpr (hcond.resolve_right hnil)
        have hrec := (encodesHash_payload h).records_eq
        refine ⟨_, rfl, hnew, fun g hg => ?_, ?_⟩
        · rw [hnew, hGet_eq, hGet_eq, hrec, h.records_eq, lookup_of_ne hg]
        · rw [hnew, hGetAll_eq, hrec]
    · simp at hnil
  · rw [RemovesField, if_neg hmem]
    exact iff_of_true (h.hDel_none hmem) fun value hin => absurd (List.mem_map_of_mem hin) hmem

theorem removes_field_iff_empty :
    RemovesField (hashBytes [([1], []), ([2], [8])]) [([1], []), ([2], [8])] [1] :=
  (removes_field_iff (.inl ⟨rfl, by decide, by decide, by decide⟩) [1]).mpr (by simp)

/-- The 7 stays and is read as the length of a field. -/
theorem hDel_leaves_value :
    EncodesHash (hashBytes [([1], [7]), ([2], [8])]) [([1], [7]), ([2], [8])] ∧
      ¬ RemovesField (hashBytes [([1], [7]), ([2], [8])]) [([1], [7]), ([2], [8])] [1] := by
  refine ⟨.inl ⟨rfl, by decide, by decide, by decide⟩, fun h => ?_⟩
  rw [RemovesField, if_pos (by decide)] at h
  obtain ⟨newRaw, hdel, hbytes, _⟩ := h
  rw [hbytes] at hdel
  revert hdel
  decide

end Horreum.Ds
