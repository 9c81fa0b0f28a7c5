/-
  Foundation/ProbingMap.lean --- the keys of a table, and tables whose entries are relabelled.

  The number of taken slots is the number of keys.

  Searching and removing look at an entry only through the test of the search and the home of
  the entry.  So they do the same on a table and on its image under any map of the entries, as
  long as test and home agree through the map.
-/
import Horreum.Foundation.ProbingErase
import Mathlib.Data.Set.Card

set_option autoImplicit false

namespace Horreum.Foundation.Probing

/-! ## The number of keys -/

theorem Wf.occupied_eq_ncard {κ σ : Type} [DecidableEq κ] {key : σ → κ} {hash : κ → Nat} {mask : Nat}
    {slots : List (Option σ)} (h : Wf key hash mask slots) :
    occupied slots = { k | lookup key slots k ≠ none }.ncard := by
  have hkeys : { k | lookup key slots k ≠ none } = ((entries slots).map key).toFinset := by
    ext k
    rw [Set.mem_ofPred_eq, Option.ne_none_iff_exists', List.coe_toFinset]
    constructor
    · rintro ⟨e, he⟩
      obtain ⟨hcell, hkey⟩ := h.lookup_eq_some.mp he
      exact List.mem_map.mpr ⟨e, mem_entries.mpr hcell, hkey⟩
    · intro hk
      obtain ⟨e, he, hkey⟩ := List.mem_map.mp hk
      exact ⟨e, h.lookup_eq_some.mpr ⟨mem_entries.mp he, hkey⟩⟩
  rw [hkeys, Set.ncard_coe_finset, List.toFinset_card_of_nodup h.nodup_keys, List.length_map,
    occupied_eq_length_entries]

/-! ## Relabelling -/

variable {α β : Type}

/-- The table with every entry relabelled. -/
def relabel (f : α → β) (slots : List (Option α)) : List (Option β) := slots.map (Option.map f)

@[simp] theorem length_relabel (f : α → β) (slots : List (Option α)) :
    (relabel f slots).length = slots.length := List.length_map _

@[simp] theorem cell_relabel (f : α → β) (slots : List (Option α)) (i : Nat) :
    cell (relabel f slots) i = (cell slots i).map f := by
  simp only [cell, relabel, List.getD_eq_getElem?_getD, List.getElem?_map]
  cases slots[i]? <;> rfl

@[simp] theorem relabel_set (f : α → β) (slots : List (Option α)) (i : Nat) (x : Option α) :
    relabel f (slots.set i x) = (relabel f slots).set i (x.map f) := List.map_set

@[simp] theorem relabel_blank (f : α → β) (n : Nat) : relabel f (blank n) = blank n := by
  simp [relabel, blank]

@[simp] theorem entries_relabel (f : α → β) (slots : List (Option α)) :
    entries (relabel f slots) = (entries slots).map f := by
  induction slots with
  | nil => rfl
  | cons x slots ih =>
    cases x with
    | none => exact ih
    | some e => exact congrArg (f e :: ·) ih

theorem probe_relabel (f : α → β) (slots : List (Option α)) (mask : Nat) (hit : β → Bool) :
    ∀ fuel i, probe (relabel f slots) mask hit fuel i = probe slots mask (fun e => hit (f e)) fuel i
  | 0, _ => rfl
  | fuel + 1, i => by
    rw [probe, probe, cell_relabel]
    cases cell slots i with
    | none => rfl
    | some e =>
      simp only [Option.map_some]
      rw [probe_relabel f slots mask hit fuel]

theorem shift_relabel (f : α → β) (desired : β → Nat) (mask : Nat) :
    ∀ (fuel : Nat) (slots : List (Option α)) (gap curr : Nat),
      shift desired mask fuel (relabel f slots) gap curr =
        (shift (fun e => desired (f e)) mask fuel slots gap curr).map (relabel f)
  | 0, _, _, _ => rfl
  | fuel + 1, slots, gap, curr => by
    rw [shift, shift, cell_relabel]
    cases cell slots curr with
    | none => rfl
    | some e =>
      simp only [Option.map_some]
      split
      · have hset : ((relabel f slots).set gap (some (f e))).set curr none =
            relabel f ((slots.set gap (some e)).set curr none) := by simp
        rw [hset, shift_relabel f desired mask fuel]
      · rw [shift_relabel f desired mask fuel]

theorem deleteAt_relabel (f : α → β) (desired : β → Nat) (mask : Nat) (slots : List (Option α))
    (i : Nat) : deleteAt desired mask (relabel f slots) i =
      (deleteAt (fun e => desired (f e)) mask slots i).map (relabel f) := by
  have hset : (relabel f slots).set i none = relabel f (slots.set i none) := by simp
  rw [deleteAt, deleteAt, length_relabel, hset, shift_relabel]

/-- An entry that a search stops at is one it looks for. -/
theorem hit_of_probe {slots : List (Option α)} {mask : Nat} {hit : α → Bool} {e : α} :
    ∀ {fuel i r : Nat}, probe slots mask hit fuel i = some r → cell slots r = some e → hit e = true
  | fuel + 1, i, r, h, he => by
    rw [probe] at h
    cases hc : cell slots i with
    | none =>
      rw [hc] at h
      cases h
      cases hc.symm.trans he
    | some e' =>
      rw [hc] at h
      simp only at h
      split at h
      · rename_i hhit
        cases h
        cases hc.symm.trans he
        exact hhit
      · exact hit_of_probe h he

end Horreum.Foundation.Probing
