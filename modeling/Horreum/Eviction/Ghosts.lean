/-
  Eviction/Ghosts.lean --- the ghost index against a set of fingerprints.

  `Represents`: the table holds exactly this set and every walk reaches what it looks for.  A removal
  keeps it unless the bucket it clears lies on the walk to another fingerprint, which is then stored
  and no longer found.
-/
import Horreum.Eviction.Queue
import Horreum.Foundation.ProbingClear
import Horreum.Foundation.Runs
import Mathlib.Data.Finset.Card

set_option autoImplicit false

namespace Horreum.S3Fifo

open Foundation
open Foundation.Probing (cell dist lookup Crosses Stopped)

/-- What a bucket holds. -/
def Bucket.entry (b : Bucket) : Option UInt32 := if b.alive then some b.fp else none

theorem Bucket.alive_of_entry {b : Bucket} {e : UInt32} (h : b.entry = some e) :
    b.alive = true := by
  unfold Bucket.entry at h
  split at h
  · assumption
  · cases h

theorem Bucket.dead_of_entry {b : Bucket} (h : b.entry = none) : b.alive = false := by
  unfold Bucket.entry at h
  split at h
  · cases h
  · exact Bool.eq_false_iff.mpr ‹_›

namespace GhostIndex

variable {g : GhostIndex} {present : Finset UInt32} {fp : UInt32}

theorem insertReports_fst (g : GhostIndex) (fp : UInt32) : (g.insertReports fp).1 = g.look fp := by
  unfold insertReports look
  cases g.walk fp g.cap (g.probe fp) with
  | none => rfl
  | some i => cases halive : (g.bucket i).alive <;> simp [halive]

theorem removeReports_fst (g : GhostIndex) (fp : UInt32) : (g.removeReports fp).1 = g.look fp := by
  unfold removeReports look
  cases g.walk fp g.cap (g.probe fp) with
  | none => rfl
  | some i => cases halive : (g.bucket i).alive <;> simp [halive]

/-! ## The buckets as a probing table -/

/-- The fingerprints in their slots. -/
def slots (g : GhostIndex) : List (Option UInt32) := g.tabs.map Bucket.entry

theorem length_slots (g : GhostIndex) : g.slots.length = g.cap := by
  rw [slots, List.length_map, g.length_tabs]

theorem and_and_mask (g : GhostIndex) (i : Nat) : i &&& g.mask &&& g.mask = i &&& g.mask := by
  rw [Nat.and_assoc, Nat.and_self]

theorem cell_slots (g : GhostIndex) (i : Nat) :
    cell g.slots (i &&& g.mask) = (g.bucket i).entry := by
  have hlt : i &&& g.mask < g.tabs.length := by rw [g.length_tabs]; exact g.masked.and_lt i
  simp [cell, slots, bucket, List.getElem?_map, List.getElem?_eq_getElem hlt]

theorem slots_setBucket (g : GhostIndex) (i : Nat) (b : Bucket) :
    (g.setBucket i b).slots = g.slots.set (i &&& g.mask) b.entry := by
  simp only [slots, setBucket, List.map_set]

/-- The walk counts on past the end of the table, the search of the library wraps. -/
theorem walk_eq_probe (g : GhostIndex) (fp : UInt32) :
    ∀ fuel i, (g.walk fp fuel i).map (· &&& g.mask) =
      Probing.probe g.slots g.mask (· == fp) fuel (i &&& g.mask) := by
  intro fuel
  induction fuel with
  | zero => exact fun _ => rfl
  | succ fuel ih =>
    intro i
    have hnext : Probing.next g.mask (i &&& g.mask) = (i + 1) &&& g.mask := by
      rw [Probing.next, g.masked.and_eq_mod, g.masked.and_eq_mod,
        g.masked.and_eq_mod, Nat.mod_add_mod]
    rw [walk, Probing.probe, g.cell_slots, hnext, ← ih, Bucket.entry]
    cases halive : (g.bucket i).alive with
    | false => simp
    | true => cases hfp : (g.bucket i).fp == fp <;> simp [hfp]

/-! ## The table as a set -/

/-- The table holds the fingerprints of the set, each where its walk leads. -/
structure Represents (g : GhostIndex) (present : Finset UInt32) : Prop where
  wf : Probing.Wf id UInt32.toNat g.mask g.slots
  mem : ∀ fp, fp ∈ present ↔ lookup id g.slots fp = some fp

theorem represents_newGhostIndex {capacity : Nat} (hnew : newGhostIndex capacity = some g) :
    g.Represents ∅ := by
  have hblank : g.slots = Probing.blank g.cap := by
    unfold newGhostIndex at hnew
    split at hnew
    · cases hnew
    · cases hnew
      rw [slots, List.map_replicate]
      rfl
  have hwf : Probing.Wf id UInt32.toNat g.mask g.slots := by
    rw [hblank]
    exact Probing.wf_blank g.masked
  refine ⟨hwf, fun fp => ?_⟩
  rw [hwf.lookup_eq_some, hblank]
  simp [Probing.cell_blank]

theorem Represents.lookup_eq_none (hr : g.Represents present) :
    lookup id g.slots fp = none ↔ fp ∉ present := by
  rw [hr.mem]
  cases hlook : lookup id g.slots fp with
  | none => simp
  | some e =>
    obtain ⟨_, rfl⟩ := hr.wf.lookup_eq_some.mp hlook
    simp

/-- Without a free bucket the set fills the table. -/
theorem Represents.card_of_full (hr : g.Represents present)
    (hfull : ∀ i, i < g.slots.length → cell g.slots i ≠ none) : g.cap ≤ present.card := by
  have hmem : (Probing.entries g.slots).toFinset ⊆ present := by
    intro fp hfp
    rw [List.mem_toFinset, Probing.mem_entries] at hfp
    exact (hr.mem fp).mpr (hr.wf.lookup_eq_some.mpr ⟨hfp, rfl⟩)
  have hnodup : (Probing.entries g.slots).Nodup := by
    simpa using hr.wf.nodup_keys
  have hcount : ¬ Probing.occupied g.slots < g.slots.length := by
    intro hlt
    obtain ⟨i, hi, hfree⟩ := Probing.exists_free_of_occupied_lt hlt
    exact hfull i hi hfree
  rw [Probing.occupied_eq_length_entries, length_slots] at hcount
  have hcard := Finset.card_le_card hmem
  rw [List.toFinset_card_of_nodup hnodup] at hcard
  omega

/-- What the walk for `fp` comes to. -/
theorem Represents.walk (hr : g.Represents present) (fp : UInt32) :
    (g.walk fp g.cap (g.probe fp) = none ∧ fp ∉ present ∧ g.cap ≤ present.card) ∨
      ∃ w, g.walk fp g.cap (g.probe fp) = some w ∧
        Stopped g.slots (· == fp) (fp.toNat &&& g.mask) (w &&& g.mask) ∧
        (g.bucket w).entry = lookup id g.slots fp := by
  have heq := g.walk_eq_probe fp g.cap (g.probe fp)
  rw [probe, and_and_mask, ← length_slots] at heq
  rw [probe, ← length_slots]
  rcases hr.wf.search_full (k := fp) (· == fp) (by simp) with
    ⟨hnone, hlook, hfull⟩ | ⟨r, hsome, hstop, hcell⟩
  · rw [hnone, Option.map_eq_none_iff] at heq
    exact .inl ⟨heq, hr.lookup_eq_none.mp hlook, by rw [length_slots]; exact hr.card_of_full hfull⟩
  · rw [hsome, Option.map_eq_some_iff] at heq
    obtain ⟨w, hw, rfl⟩ := heq
    exact .inr ⟨w, hw, hstop, by rw [← cell_slots]; exact hcell⟩

/-- A fingerprint of the set is met alive. -/
theorem Represents.walk_of_mem (hr : g.Represents present) (hmem : fp ∈ present) :
    ∃ w, g.walk fp g.cap (g.probe fp) = some w ∧ (g.bucket w).alive = true ∧
      cell g.slots (w &&& g.mask) = some fp := by
  rcases hr.walk fp with ⟨_, hnot, _⟩ | ⟨w, hw, _, hentry⟩
  · exact absurd hmem hnot
  · rw [(hr.mem fp).mp hmem] at hentry
    exact ⟨w, hw, Bucket.alive_of_entry hentry, by rw [cell_slots]; exact hentry⟩

/-- Any other ends at a dead bucket, or nowhere in a full table. -/
theorem Represents.walk_of_not_mem (hr : g.Represents present) (hmem : fp ∉ present) :
    (g.walk fp g.cap (g.probe fp) = none ∧ g.cap ≤ present.card) ∨
      ∃ w, g.walk fp g.cap (g.probe fp) = some w ∧ (g.bucket w).alive = false ∧
        Stopped g.slots (· == fp) (fp.toNat &&& g.mask) (w &&& g.mask) ∧
        cell g.slots (w &&& g.mask) = lookup id g.slots fp := by
  rcases hr.walk fp with ⟨hnone, _, hcard⟩ | ⟨w, hw, hstop, hentry⟩
  · exact .inl ⟨hnone, hcard⟩
  · have hnone := hentry.trans (hr.lookup_eq_none.mpr hmem)
    exact .inr ⟨w, hw, Bucket.dead_of_entry hnone, hstop, by rw [cell_slots]; exact hentry⟩

theorem Represents.look (hr : g.Represents present) (fp : UInt32) :
    g.look fp = true ↔ fp ∈ present := by
  unfold GhostIndex.look
  by_cases hmem : fp ∈ present
  · obtain ⟨w, hw, halive, _⟩ := hr.walk_of_mem hmem
    simp [hw, halive, hmem]
  · rcases hr.walk_of_not_mem hmem with ⟨hnone, _⟩ | ⟨w, hw, hdead, _⟩
    · simp [hnone, hmem]
    · simp [hw, hdead, hmem]

theorem Represents.insert (hr : g.Represents present)
    (hroom : (Insert.insert fp present).card ≤ g.cap) :
    (g.insert fp).Represents (Insert.insert fp present) := by
  unfold GhostIndex.insert insertReports
  by_cases hmem : fp ∈ present
  · obtain ⟨w, hw, halive, _⟩ := hr.walk_of_mem hmem
    rw [Finset.insert_eq_of_mem hmem]
    simpa [hw, halive] using hr
  · rcases hr.walk_of_not_mem hmem with ⟨_, hfull⟩ | ⟨w, hw, hdead, hstop, hcell⟩
    · rw [Finset.card_insert_of_notMem hmem] at hroom
      omega
    · have hentry : (⟨fp, true⟩ : Bucket).entry = some fp := rfl
      obtain ⟨hwf, hlook⟩ := hr.wf.store (e := fp) hstop hcell
      rw [← hentry, ← slots_setBucket] at hwf hlook
      simp only [hw, hdead, Bool.false_eq_true, if_false]
      refine ⟨hwf, fun fp' => ?_⟩
      rw [hlook, Finset.mem_insert]
      by_cases heq : fp' = fp
      · simp [heq, hentry]
      · rw [Function.update_of_ne (by simpa using heq), ← hr.mem]
        simp [heq]

/-! ## Removal -/

/-- The bucket of `fp` lies on the walk to another fingerprint of the table. -/
def CutsOff (g : GhostIndex) (fp : UInt32) : Prop :=
  ∃ i, i < g.cap ∧ cell g.slots i = some fp ∧ ∃ j, j < g.cap ∧
    (cell g.slots j).any (fun fp' =>
      decide (dist g.cap (fp'.toNat &&& g.mask) i < dist g.cap (fp'.toNat &&& g.mask) j)) = true

instance (g : GhostIndex) (fp : UInt32) : Decidable (g.CutsOff fp) := by
  unfold CutsOff
  infer_instance

theorem cutsOff_iff : g.CutsOff fp ↔ ∃ i j fp', cell g.slots i = some fp ∧
    Crosses id UInt32.toNat g.mask g.slots i j fp' := by
  constructor
  · rintro ⟨i, _, hi, j, _, hany⟩
    obtain ⟨fp', hj, hover⟩ := (Option.any_eq_true _ _).mp hany
    exact ⟨i, j, fp', hi, hj, by rw [length_slots]; exact of_decide_eq_true hover⟩
  · rintro ⟨i, j, fp', hi, hj, hover⟩
    rw [length_slots] at hover
    have hlt := fun {k e} (h : cell g.slots k = some e) =>
      g.length_slots ▸ Probing.lt_of_cell_eq_some h
    exact ⟨i, hlt hi, hi, j, hlt hj, (Option.any_eq_true _ _).mpr ⟨fp', hj, decide_eq_true hover⟩⟩

theorem Represents.remove_of_not_mem (hr : g.Represents present) (hmem : fp ∉ present) :
    g.remove fp = g := by
  unfold GhostIndex.remove removeReports
  rcases hr.walk_of_not_mem hmem with ⟨hnone, _⟩ | ⟨w, hw, hdead, _⟩
  · simp [hnone]
  · simp [hw, hdead]

theorem Represents.remove_of_mem (hr : g.Represents present) (hmem : fp ∈ present) :
    ∃ i, cell g.slots i = some fp ∧ (g.remove fp).slots = g.slots.set i none ∧
      (g.remove fp).mask = g.mask ∧ (g.remove fp).cap = g.cap := by
  obtain ⟨w, hw, halive, hcell⟩ := hr.walk_of_mem hmem
  have heq : g.remove fp = g.setBucket w ⟨fp, false⟩ := by
    simp [GhostIndex.remove, removeReports, hw, halive]
  exact ⟨w &&& g.mask, hcell, by rw [heq, slots_setBucket]; rfl, by rw [heq]; rfl, by rw [heq]; rfl⟩

theorem Represents.remove (hr : g.Represents present) (hcut : ¬ g.CutsOff fp) :
    (g.remove fp).Represents (present.erase fp) := by
  by_cases hmem : fp ∈ present
  · obtain ⟨i, hi, hslots, hmask, _⟩ := hr.remove_of_mem hmem
    obtain ⟨hwf, hlook⟩ := hr.wf.clear hi fun j fp' hcross =>
      hcut (cutsOff_iff.mpr ⟨i, j, fp', hi, hcross⟩)
    refine ⟨by rw [hslots, hmask]; exact hwf, fun fp' => ?_⟩
    rw [hslots, hlook, Finset.mem_erase]
    by_cases heq : fp' = fp
    · simp [heq]
    · rw [Function.update_of_ne (by simpa using heq), ← hr.mem]
      simp [heq]
  · rw [hr.remove_of_not_mem hmem, Finset.erase_eq_of_notMem hmem]
    exact hr

/-- A fingerprint behind the cleared bucket is still in the set and no longer found. -/
theorem Represents.look_of_cutsOff (hr : g.Represents present) (hcut : g.CutsOff fp) :
    ∃ fp' ∈ present.erase fp, (g.remove fp).look fp' = false := by
  obtain ⟨i, j, fp', hi, hcross⟩ := cutsOff_iff.mp hcut
  have hpresent : ∀ {k e}, cell g.slots k = some e → e ∈ present := fun hk =>
    (hr.mem _).mpr (hr.wf.lookup_eq_some.mpr ⟨⟨_, hk⟩, rfl⟩)
  obtain ⟨i', hi', hslots, hmask, hcap⟩ := hr.remove_of_mem (hpresent hi)
  obtain rfl : i = i' := hr.wf.unique i i' fp fp hi hi' rfl
  have hne : fp' ≠ fp := by
    rintro rfl
    obtain rfl := hr.wf.unique j i fp' fp' hcross.1 hi rfl
    exact Nat.lt_irrefl _ hcross.2
  refine ⟨fp', Finset.mem_erase.mpr ⟨hne, hpresent hcross.1⟩, ?_⟩
  obtain ⟨r, hprobe, hfree⟩ := hr.wf.lost_of_clear (· == fp') (by simp)
    (Probing.lt_of_cell_eq_some hi) hcross
  have heq := (g.remove fp).walk_eq_probe fp' g.cap (fp'.toNat &&& g.mask)
  rw [hslots, hmask, and_and_mask, ← g.length_slots] at heq
  rw [id, hprobe] at *
  obtain ⟨w, hw, rfl⟩ := Option.map_eq_some_iff.mp heq
  have hdead : ((g.remove fp).bucket w).entry = none := by
    rw [← cell_slots, hslots, hmask]
    exact hfree
  rw [GhostIndex.look, GhostIndex.probe, hcap, hmask, ← g.length_slots, hw]
  exact Bucket.dead_of_entry hdead

end GhostIndex

/-! ## Runs -/

/-- The calls that change the ghost index. -/
inductive GhostCall where
  | insert (fp : UInt32)
  | remove (fp : UInt32)
  deriving DecidableEq, Repr

/-- A table with the fingerprints whose last operation was an insertion. -/
structure Recorded where
  g : GhostIndex
  present : Finset UInt32

/-- One operation.  More fingerprints than the table has buckets are not considered. -/
def Recorded.step (s : Recorded) : GhostCall → Option Recorded
  | .insert fp =>
    if (insert fp s.present).card ≤ s.g.cap then some ⟨s.g.insert fp, insert fp s.present⟩
    else none
  | .remove fp => some ⟨s.g.remove fp, s.present.erase fp⟩

/-- What the three operations say of every fingerprint is right. -/
structure Recorded.IsSet (s : Recorded) : Prop where
  look : ∀ fp, s.g.look fp = true ↔ fp ∈ s.present
  insert : ∀ fp, (s.g.insertReports fp).1 = true ↔ fp ∈ s.present
  remove : ∀ fp, (s.g.removeReports fp).1 = true ↔ fp ∈ s.present

/-- A removal clears no bucket that another fingerprint's walk needs. -/
def CutsNothingOff (s : Recorded) : GhostCall → Prop
  | .insert _ => True
  | .remove fp => ¬ s.g.CutsOff fp

instance (s : Recorded) (c : GhostCall) : Decidable (CutsNothingOff s c) := by
  cases c <;> (unfold CutsNothingOff; infer_instance)

theorem isSet_of_represents {s : Recorded} (hr : s.g.Represents s.present) : s.IsSet := by
  refine ⟨hr.look, fun fp => ?_, fun fp => ?_⟩
  · rw [GhostIndex.insertReports_fst]
    exact hr.look fp
  · rw [GhostIndex.removeReports_fst]
    exact hr.look fp

theorem represents_step {s s' : Recorded} {c : GhostCall} (hr : s.g.Represents s.present)
    (hok : CutsNothingOff s c) (hstep : s.step c = some s') : s'.g.Represents s'.present := by
  cases c with
  | insert fp =>
    simp only [Recorded.step] at hstep
    split at hstep
    · cases hstep
      exact hr.insert ‹_›
    · cases hstep
  | remove fp =>
    cases hstep
    exact hr.remove hok

theorem not_isSet_of_cutsOff {s s' : Recorded} {c : GhostCall} (hr : s.g.Represents s.present)
    (hcut : ¬ CutsNothingOff s c) (hstep : s.step c = some s') : ¬ s'.IsSet := by
  cases c with
  | insert fp => exact absurd trivial hcut
  | remove fp =>
    cases hstep
    obtain ⟨fp', hmem, hlost⟩ := hr.look_of_cutsOff (not_not.mp hcut)
    intro hset
    rw [(hset.look fp').mpr hmem] at hlost
    cases hlost

/-- The table is a set along a run exactly when no removal of the run cuts a walk. -/
theorem ghost_is_set_iff (capacity : Nat) (g : GhostIndex) (hnew : newGhostIndex capacity = some g)
    (calls : List GhostCall) (last : Recorded)
    (hrun : run Recorded.step ⟨g, ∅⟩ calls = some last) :
    (∀ n s, run Recorded.step ⟨g, ∅⟩ (calls.take n) = some s → s.IsSet) ↔
      Guarded Recorded.step CutsNothingOff ⟨g, ∅⟩ calls :=
  always_iff_guarded (fun s => s.g.Represents s.present) (fun _ => isSet_of_represents)
    (fun _ _ _ => represents_step) (fun _ _ _ => not_isSet_of_cutsOff) calls ⟨g, ∅⟩ last
    (GhostIndex.represents_newGhostIndex hnew) hrun

/-- Two buckets: 0 and 1 have their own, so removing 0 leaves 1 where it is found. -/
theorem ghost_is_set_iff_removes : ∃ g last, newGhostIndex 2 = some g ∧
    run Recorded.step ⟨g, ∅⟩ [.insert 0, .insert 1, .remove 0] = some last ∧
    ∀ n s, run Recorded.step ⟨g, ∅⟩ ([.insert 0, .insert 1, .remove 0].take n) = some s →
      s.IsSet :=
  ⟨_, _, rfl, rfl, (ghost_is_set_iff 2 _ rfl _ _ rfl).mpr (by decide)⟩

/-- Two buckets: 0 and 2 share a home, and removing 0 hides 2. -/
theorem fingerprint_cut_off : ∃ g s, newGhostIndex 2 = some g ∧
    run Recorded.step ⟨g, ∅⟩ [.insert 0, .insert 2, .remove 0] = some s ∧
    2 ∈ s.present ∧ s.g.look 2 = false ∧ (s.g.insertReports 2).1 = false ∧
      (s.g.removeReports 2).1 = false :=
  ⟨_, _, rfl, rfl, by decide, by decide, by decide, by decide⟩

end Horreum.S3Fifo
