/-
  Ds/Sets.lean --- a payload as a set.

  From the empty payload, `SAdd` and `SRem` keep the list of the members in the order in which
  they were added, as long as the members can be counted: the count has 32 bits, and with the
  2^32nd member it is zero again.
-/
import Horreum.Ds.Records
import Horreum.Foundation.Runs
import Mathlib.Data.List.Induction
import Mathlib.Data.List.Nodup

set_option autoImplicit false

namespace Horreum.Ds

open Foundation

variable {raw m : Bytes} {ms : List Bytes} {n : Nat}

/-- A set without members has no payload. -/
def setPayload (ms : List Bytes) : Bytes := if ms = [] then [] else setBytes ms

/-- What a set of this size can hold. -/
structure StoresSet (raw : Bytes) (ms : List Bytes) : Prop where
  bytes : raw = setPayload ms
  short : ∀ m ∈ ms, m.length < 2 ^ 16
  nodup : ms.Nodup

theorem StoresSet.cases (h : StoresSet raw ms) (hfew : ms.length < 2 ^ 32) :
    IsSet raw ms ∨ raw = [] ∧ ms = [] := by
  by_cases hnil : ms = []
  · exact .inr ⟨by rw [h.bytes, setPayload, if_pos hnil], hnil⟩
  · exact .inl ⟨by rw [h.bytes, setPayload, if_neg hnil], hfew, h.short, h.nodup⟩

theorem StoresSet.records_eq (h : StoresSet raw ms) (hfew : ms.length < 2 ^ 32) :
    records members raw = ms := by
  rcases h.cases hfew with hset | ⟨rfl, rfl⟩
  · exact hset.records_eq
  · rfl

theorem StoresSet.add_new (h : StoresSet raw ms) (hfew : ms.length < 2 ^ 32) (hnot : m ∉ ms) :
    sAdd raw m = (setBytes (ms ++ [m]), true) := by
  rcases h.cases hfew with hset | ⟨rfl, rfl⟩
  · have hcount : payloadCount raw = ms.length := by
      rw [hset.bytes, setBytes, payloadCount_leBytes hfew]
    rw [sAdd_new (Nat.le_of_not_lt hset.four_le_length) (hset.records_eq.symm ▸ hnot), hcount,
      hset.bytes, withCount, setBytes, List.drop_left' (leBytes_length 4 _), setBytes,
      List.flatMap_append, List.length_append, List.append_assoc]
    simp
  · rw [sAdd_of_short (by decide)]
    simp [setBytes]

theorem StoresSet.add_mem (h : StoresSet raw ms) (hfew : ms.length < 2 ^ 32) (hmem : m ∈ ms) :
    sAdd raw m = (raw, false) := by
  rcases h.cases hfew with hset | ⟨_, rfl⟩
  · exact sAdd_mem (Nat.le_of_not_lt hset.four_le_length) (hset.records_eq.symm ▸ hmem)
  · cases hmem

theorem StoresSet.rem_mem (h : StoresSet raw ms) (hfew : ms.length < 2 ^ 32) (hmem : m ∈ ms) :
    sRem raw m = some (setPayload (ms.erase m)) := by
  obtain ⟨a, b, rfl⟩ := List.append_of_mem hmem
  rcases h.cases hfew with hset | ⟨_, hnil⟩
  · rw [hset.sRem, setPayload, List.erase_append_right _ hset.not_mem_front, List.erase_cons_head]
  · simp at hnil

theorem StoresSet.rem_not_mem (h : StoresSet raw ms) (hfew : ms.length < 2 ^ 32) (hnot : m ∉ ms) :
    sRem raw m = none := by
  rcases h.cases hfew with hset | ⟨rfl, _⟩
  · simp only [Ds.sRem, if_neg hset.four_le_length, hset.find_none hnot, Option.map_none]
  · rfl

/-! ## Runs -/

/-- The calls that change a set. -/
inductive SetCall where
  | sAdd (member : Bytes)
  | sRem (member : Bytes)
  deriving DecidableEq, Repr

/-- `SRem` returns the payload it was given where there is nothing to remove. -/
def setStep (raw : Bytes) : SetCall → Bool × Bytes
  | .sAdd member => ((sAdd raw member).2, (sAdd raw member).1)
  | .sRem member =>
    match sRem raw member with
    | none => (false, raw)
    | some newRaw => (true, newRaw)

/-- The same on the list of the members. -/
def setSpec (ms : List Bytes) : SetCall → Bool × List Bytes
  | .sAdd member => (!ms.contains member, if ms.contains member then ms else ms ++ [member])
  | .sRem member => (ms.contains member, ms.erase member)

theorem setSpec_sAdd (ms : List Bytes) (member : Bytes) : setSpec ms (.sAdd member) =
    (decide (member ∉ ms), if member ∈ ms then ms else ms ++ [member]) := by
  simp [setSpec]

theorem setSpec_sRem (ms : List Bytes) (member : Bytes) :
    setSpec ms (.sRem member) = (decide (member ∈ ms), ms.erase member) := by
  simp [setSpec]

/-- A member that a record can hold. -/
def SetCall.Fits (call : SetCall) : Prop := ∀ member, call = .sAdd member → member.length ≤ 65535

theorem StoresSet.step (raw : Bytes) (ms : List Bytes) (call : SetCall) (h : StoresSet raw ms)
    (hfew : ms.length < 2 ^ 32) (_ : (setSpec ms call).2.length < 2 ^ 32) (hcall : call.Fits) :
    (setStep raw call).1 = (setSpec ms call).1 ∧
      StoresSet (setStep raw call).2 (setSpec ms call).2 := by
  cases call with
  | sAdd member =>
    by_cases hmem : member ∈ ms
    · simp only [setStep, setSpec_sAdd, h.add_mem hfew hmem, hmem, not_true_eq_false, decide_false,
        if_true, true_and]
      exact h
    · simp only [setStep, setSpec_sAdd, h.add_new hfew hmem, hmem, not_false_eq_true, decide_true,
        if_false, true_and]
      refine ⟨by rw [setPayload, if_neg (by simp)], fun m hm => ?_, ?_⟩
      · rcases List.mem_append.mp hm with hm | hm
        · exact h.short m hm
        · exact List.mem_singleton.mp hm ▸ Nat.lt_succ_of_le (hcall member rfl)
      · exact List.Nodup.append h.nodup (List.nodup_singleton member) (by simpa using hmem)
  | sRem member =>
    by_cases hmem : member ∈ ms
    · simp only [setStep, setSpec_sRem, h.rem_mem hfew hmem, hmem, decide_true, true_and]
      exact ⟨rfl, fun m hm => h.short m (List.mem_of_mem_erase hm), h.nodup.erase member⟩
    · simp only [setStep, setSpec_sRem, h.rem_not_mem hfew hmem, hmem, decide_false, true_and,
        List.erase_of_not_mem hmem]
      exact h

/-- Added, and not removed since. -/
def Current (calls : List SetCall) (m : Bytes) : Prop :=
  ∃ before since, calls = before ++ .sAdd m :: since ∧ .sRem m ∉ since

theorem nodup_setSpec (hnd : ms.Nodup) (call : SetCall) : (setSpec ms call).2.Nodup := by
  cases call with
  | sAdd member =>
    simp only [setSpec_sAdd]
    split
    · exact hnd
    · rename_i hmem
      exact List.Nodup.append hnd (List.nodup_singleton member) (by simpa using hmem)
  | sRem member => exact hnd.erase member

theorem mem_setSpec_iff (hnd : ms.Nodup) (call : SetCall) :
    m ∈ (setSpec ms call).2 ↔ call = .sAdd m ∨ m ∈ ms ∧ call ≠ .sRem m := by
  cases call with
  | sAdd member =>
    have hiff : m ∈ (setSpec ms (.sAdd member)).2 ↔ m = member ∨ m ∈ ms := by
      simp only [setSpec_sAdd]
      split
      · rename_i hmem
        exact ⟨.inr, fun h => h.elim (fun heq => heq ▸ hmem) id⟩
      · simp [or_comm]
    rw [hiff]
    simp [eq_comm]
  | sRem member =>
    rw [setSpec_sRem, hnd.mem_erase_iff]
    simp [and_comm, eq_comm]

/-- The members are those that were there and have not been removed, and those that were added. -/
theorem mem_expected_iff (calls : List SetCall) : ∀ {ms : List Bytes}, ms.Nodup →
    (m ∈ (expected setSpec ms calls).2 ↔ m ∈ ms ∧ .sRem m ∉ calls ∨ Current calls m) := by
  induction calls with
  | nil =>
    intro ms _
    simp [expected, Current]
  | cons call calls ih =>
    intro ms hnd
    have hcons : Current (call :: calls) m ↔
        call = .sAdd m ∧ .sRem m ∉ calls ∨ Current calls m := by
      constructor
      · rintro ⟨before, since, heq, hnot⟩
        cases before with
        | nil =>
          cases heq
          exact .inl ⟨rfl, hnot⟩
        | cons c before =>
          cases heq
          exact .inr ⟨before, since, rfl, hnot⟩
      · rintro (⟨rfl, hnot⟩ | ⟨before, since, rfl, hnot⟩)
        · exact ⟨[], calls, rfl, hnot⟩
        · exact ⟨call :: before, since, rfl, hnot⟩
    have hrest : m ∈ (expected setSpec ms (call :: calls)).2 ↔
        m ∈ (setSpec ms call).2 ∧ .sRem m ∉ calls ∨ Current calls m := ih (nodup_setSpec hnd call)
    rw [hrest, mem_setSpec_iff hnd, hcons, List.mem_cons, not_or, ne_comm, ne_eq]
    tauto

/-- What makes the payload after these calls the set of the calls: the answers so far, the payload,
the listing, the lookups and the answers to any further call. -/
structure FiniteSet (calls : List SetCall) : Prop where
  answers : (expected setStep [] calls).1 = (expected setSpec [] calls).1
  payload : (expected setStep [] calls).2 = setPayload (expected setSpec [] calls).2
  listing : sMembers (expected setStep [] calls).2 = (expected setSpec [] calls).2
  nodup : (sMembers (expected setStep [] calls).2).Nodup
  isMember : ∀ m, sIsMember (expected setStep [] calls).2 m = true ↔ Current calls m
  added : ∀ m, (sAdd (expected setStep [] calls).2 m).2 = true ↔ ¬ Current calls m
  unchanged : ∀ m, Current calls m →
    (sAdd (expected setStep [] calls).2 m).1 = (expected setStep [] calls).2
  removed : ∀ m, (sRem (expected setStep [] calls).2 m).isSome = true ↔ Current calls m

theorem current_iff (calls : List SetCall) : m ∈ (expected setSpec [] calls).2 ↔ Current calls m := by
  rw [mem_expected_iff calls List.nodup_nil]
  simp

theorem finite_set (calls : List SetCall)
    (hshort : ∀ member, .sAdd member ∈ calls → member.length ≤ 65535)
    (hfew : ∀ n, (expected setSpec [] (calls.take n)).2.length < 2 ^ 32) : FiniteSet calls := by
  have hend := hfew calls.length
  rw [List.take_length] at hend
  obtain ⟨hanswers, hset⟩ := expected_refines StoresSet.step calls [] [] ⟨rfl, by simp, List.nodup_nil⟩
    (fun call hin member heq => hshort member (heq ▸ hin)) hfew
  have hrec := hset.records_eq hend
  refine ⟨hanswers, hset.bytes, ?_, ?_, fun m => ?_, fun m => ?_, fun m hm => ?_, fun m => ?_⟩
  · rw [sMembers_eq, hrec]
  · rw [sMembers_eq, hrec]
    exact hset.nodup
  · rw [sIsMember_eq, hrec, decide_eq_true_eq, current_iff]
  · rw [← current_iff]
    by_cases hmem : m ∈ (expected setSpec [] calls).2
    · simp [hset.add_mem hend hmem, hmem]
    · simp [hset.add_new hend hmem, hmem]
  · rw [hset.add_mem hend ((current_iff calls).mpr hm)]
  · rw [← current_iff]
    by_cases hmem : m ∈ (expected setSpec [] calls).2
    · simp [hset.rem_mem hend hmem, hmem]
    · simp [hset.rem_not_mem hend hmem, hmem]

theorem length_setSpec_le (calls : List SetCall) (ms : List Bytes) :
    (expected setSpec ms calls).2.length ≤ ms.length + calls.length := by
  induction calls generalizing ms with
  | nil => exact Nat.le_refl _
  | cons call calls ih =>
    have hstep : (setSpec ms call).2.length ≤ ms.length + 1 := by
      cases call with
      | sAdd member =>
        simp only [setSpec_sAdd]
        split
        · omega
        · exact Nat.le_of_eq List.length_append
      | sRem member => exact (List.length_erase_le).trans (Nat.le_succ _)
    have hrest := ih (setSpec ms call).2
    rw [List.length_cons]
    exact hrest.trans (by omega)

theorem finite_set_added_again :
    FiniteSet [.sAdd [1], .sAdd [], .sRem [1], .sAdd [1], .sRem [], .sRem [1]] :=
  finite_set _ (by simp) fun n => Nat.lt_of_le_of_lt (length_setSpec_le _ []) (by
    rw [List.length_take]
    exact Nat.lt_of_le_of_lt (Nat.add_le_add_left (Nat.min_le_right _ _) _) (by decide))

/-! ## More members than the count can hold -/

/-- So many calls, each with a member of its own. -/
def manyMembers (n : Nat) : List SetCall := (List.range n).map fun i => .sAdd (leBytes 4 i)

theorem manyMembers_succ (n : Nat) : manyMembers (n + 1) = manyMembers n ++ [.sAdd (leBytes 4 n)] := by
  rw [manyMembers, List.range_succ, List.map_append]
  rfl

theorem short_of_mem_manyMembers {member : Bytes} (h : .sAdd member ∈ manyMembers n) :
    member.length ≤ 65535 := by
  obtain ⟨i, _, heq⟩ := List.mem_map.mp h
  cases heq
  rw [leBytes_length]
  decide

theorem expected_manyMembers (hn : n ≤ 2 ^ 32) :
    (expected setSpec [] (manyMembers n)).2 = (List.range n).map (leBytes 4) := by
  induction n with
  | zero => rfl
  | succ n ih =>
    have hnot := leBytes_not_mem_range (w := 4) (Nat.lt_of_succ_le hn)
    rw [manyMembers_succ, expected_concat, ih (Nat.le_of_succ_le hn), setSpec_sAdd]
    simp only [hnot, if_false, List.range_succ, List.map_append, List.map_cons, List.map_nil]

/-- A payload with that many members has the count zero, and nothing in it is found. -/
theorem sMembers_full (hfull : ms.length = 2 ^ 32) : sMembers (setPayload ms) = [] := by
  have hne : ms ≠ [] := by
    rintro rfl
    cases hfull
  have hcount : payloadCount (setBytes ms) = 0 := by
    rw [setBytes, hfull, payloadCount_wrapped]
  rw [setPayload, if_neg hne, sMembers_eq, records, hcount, members.scan_zero]

theorem not_finiteSet_manyMembers (hn : n = 2 ^ 32) : ¬ FiniteSet (manyMembers n) := by
  intro h
  have hlen : (expected setSpec [] (manyMembers n)).2.length = 2 ^ 32 := by
    rw [expected_manyMembers (Nat.le_of_eq hn), List.length_map, List.length_range, hn]
  have hlisting := h.listing
  rw [h.payload, sMembers_full hlen] at hlisting
  rw [← hlisting] at hlen
  cases hlen

theorem finite_set_overflows :
    (∀ member, .sAdd member ∈ manyMembers (2 ^ 32) → member.length ≤ 65535) ∧
      ¬ FiniteSet (manyMembers (2 ^ 32)) :=
  ⟨fun _ h => short_of_mem_manyMembers h, not_finiteSet_manyMembers rfl⟩

end Horreum.Ds
