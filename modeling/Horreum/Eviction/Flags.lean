/-
  Eviction/Flags.lean --- the codec flags of live handles while the policy runs.

  The policy keeps its counters and tags in the words that hold the codec flags, and leaves the flags
  alone (`SameStore`).  Live handles have words of their own, so the flags of each are those that were
  set after its own `Put`.
-/
import Horreum.Eviction.S3Fifo
import Horreum.Foundation.Runs

set_option autoImplicit false

namespace Horreum.S3Fifo

open Foundation (Bytes Cells run run_keeps)
open Arena (Handle Manager Error compressedFlag encryptedFlag newManager openFileManager)
open Arena.Manager (SameStore flagMask)

/-- The flags that a cache sets. -/
inductive Flag where
  | compressed
  | encrypted
  deriving DecidableEq, Repr

/-- The bit of a flag. -/
def Flag.bit : Flag → UInt16
  | .compressed => compressedFlag
  | .encrypted => encryptedFlag

theorem Flag.bit_and (flag : Flag) : flag.bit &&& flagMask = flag.bit := by
  cases flag <;> decide

/-- The calls that can touch a meta word. -/
inductive FlagCall where
  | put (value : Bytes) (mmapOk : Bool)
  | orFlag (flag : Flag)
  | free (h : Handle)
  | add (key : Bytes) (h : Handle)
  | touch (h : Handle)
  | delete (key : Bytes) (h : Handle)
  | remove (h : Handle)

/-- The policy and the arena with the live handles, each with the flags set after its `Put`, and
the handle of a `Put` that was just made. -/
structure Flagged where
  e : Eviction
  mgr : Manager
  live : List (Handle × UInt16)
  last : Option Handle

namespace Flagged

/-- `OrMetaBits` of a flag, noted for the handle. -/
def mark (h : Handle) (flag : Flag) (p : Handle × UInt16) : Handle × UInt16 :=
  if p.1 = h then (p.1, p.2 ||| flag.bit) else p

/-- One call.  Flags are set right after a `Put`, and live handles are freed; the policy is called
with any handles. -/
def step (fingerprintOf : Bytes → UInt32) (s : Flagged) : FlagCall → Option Flagged
  | .put value mmapOk =>
    match s.mgr.put value mmapOk with
    | none => none
    | some (.ok h, mgr) => some ⟨s.e, mgr, (h, 0) :: s.live, some h⟩
    | some (.error _, mgr) => some ⟨s.e, mgr, s.live, none⟩
  | .orFlag flag =>
    s.last.map fun h =>
      { s with mgr := s.mgr.orMetaBits h flag.bit, live := s.live.map (mark h flag) }
  | .free h =>
    if (s.live.map Prod.fst).contains h then
      some ⟨s.e, (s.mgr.free h).2, s.live.filter (fun p => p.1 ≠ h), none⟩
    else none
  | .add key h =>
    some ⟨(s.e.add fingerprintOf s.mgr key h).2.1, (s.e.add fingerprintOf s.mgr key h).2.2,
      s.live, none⟩
  | .touch h => some ⟨s.e, s.e.touch s.mgr h, s.live, none⟩
  | .delete key h =>
    some ⟨(s.e.delete fingerprintOf s.mgr key h).1, (s.e.delete fingerprintOf s.mgr key h).2,
      s.live, none⟩
  | .remove h => some ⟨(s.e.remove s.mgr h).1, (s.e.remove s.mgr h).2, s.live, none⟩

/-- The handles of the list. -/
def handles (live : List (Handle × UInt16)) : Set Handle := { h | ∃ flags, (h, flags) ∈ live }

/-- The arena owns the live handles, and their words have the flags that were set. -/
structure Inv (s : Flagged) : Prop where
  owns : s.mgr.Owns (handles s.live)
  flags : ∀ p ∈ s.live, s.mgr.getMeta p.1 &&& flagMask = p.2
  last : ∀ h, s.last = some h → h ∈ handles s.live

variable {s s' : Flagged} {h : Handle} {mgr : Manager}

/-- What leaves blocks and flags alone keeps the invariant. -/
theorem Inv.sameStore (hi : s.Inv) (e : Eviction) (hs : SameStore s.mgr mgr) :
    Inv ⟨e, mgr, s.live, none⟩ :=
  ⟨hs.owns hi.owns, fun p hp => (hs.flags p.1).trans (hi.flags p hp), fun _ h => nomatch h⟩

theorem Inv.put_error {value : Bytes} {mmapOk : Bool} {e : Error} (hi : s.Inv)
    (hput : s.mgr.put value mmapOk = some (.error e, mgr)) : Inv ⟨s.e, mgr, s.live, none⟩ := by
  obtain ⟨howns, hframe, _⟩ := Manager.kept_of_put hi.owns hput
  exact ⟨howns, fun p hp => (hframe p.1 ⟨p.2, hp⟩).2.trans (hi.flags p hp), fun _ h => nomatch h⟩

theorem Inv.put_ok {value : Bytes} {mmapOk : Bool} (hi : s.Inv)
    (hput : s.mgr.put value mmapOk = some (.ok h, mgr)) :
    Inv ⟨s.e, mgr, (h, 0) :: s.live, some h⟩ := by
  have hst := Manager.stored_of_put hi.owns hput
  refine ⟨hst.owns.mono ?_, fun p hp => ?_, fun g hg => ?_⟩
  · rintro g ⟨flags, hg⟩
    rcases List.mem_cons.mp hg with heq | hg
    · exact .inl (congrArg Prod.fst heq)
    · exact .inr ⟨flags, hg⟩
  · rcases List.mem_cons.mp hp with rfl | hp
    · rw [hst.getMeta]
      rfl
    · exact (hst.frame p.1 ⟨p.2, hp⟩).2.trans (hi.flags p hp)
  · cases hg
    exact ⟨0, List.mem_cons_self⟩

theorem handles_mark (h : Handle) (flag : Flag) (live : List (Handle × UInt16)) :
    handles (live.map (mark h flag)) = handles live := by
  have hfst : ∀ p : Handle × UInt16, (mark h flag p).1 = p.1 := by
    intro p
    unfold mark
    split <;> rfl
  ext g
  constructor
  · rintro ⟨flags, hg⟩
    obtain ⟨p, hp, heq⟩ := List.mem_map.mp hg
    have hgp : g = p.1 := by rw [← hfst p, heq]
    exact ⟨p.2, hgp ▸ hp⟩
  · rintro ⟨flags, hg⟩
    have hpair : (g, (mark h flag (g, flags)).2) = mark h flag (g, flags) :=
      Prod.ext (hfst (g, flags)).symm rfl
    refine ⟨(mark h flag (g, flags)).2, ?_⟩
    rw [hpair]
    exact List.mem_map_of_mem hg

/-- The flag goes into the word of the handle and into no other live one. -/
theorem Inv.orFlag (hi : s.Inv) (hlast : s.last = some h) (flag : Flag) :
    Inv { s with mgr := s.mgr.orMetaBits h flag.bit, live := s.live.map (mark h flag) } := by
  have hh := hi.last h hlast
  refine ⟨?_, fun q hq => ?_, fun g hg => ?_⟩
  · dsimp only
    rw [handles_mark]
    exact (Manager.sameBlocks_modifyMeta s.mgr h _).owns hi.owns
  · obtain ⟨p, hp, rfl⟩ := List.mem_map.mp hq
    have hword := hi.owns.getMeta_modifyMeta hh ⟨p.2, hp⟩ fun current => current ||| flag.bit
    have hflags := hi.flags p hp
    by_cases heq : p.1 = h
    · rw [if_pos heq, ← heq] at hword
      rw [mark, if_pos heq]
      dsimp only
      rw [Manager.orMetaBits, ← heq, hword, Manager.word_or_and, hflags, flag.bit_and]
    · rw [if_neg heq] at hword
      rw [mark, if_neg heq]
      dsimp only
      rw [Manager.orMetaBits, hword, hflags]
  · dsimp only at hg ⊢
    rw [handles_mark]
    exact hi.last g hg

theorem Inv.free (hi : s.Inv) (hh : h ∈ handles s.live) :
    Inv ⟨s.e, (s.mgr.free h).2, s.live.filter (fun p => p.1 ≠ h), none⟩ := by
  refine ⟨(Manager.free_spec hi.owns hh).2.1.mono ?_, fun p hp => ?_, fun _ h => nomatch h⟩
  · rintro g ⟨flags, hg⟩
    obtain ⟨hg, hne⟩ := List.mem_filter.mp hg
    exact ⟨⟨flags, hg⟩, of_decide_eq_true hne⟩
  · rw [Manager.getMeta_free]
    exact hi.flags p (List.mem_filter.mp hp).1

theorem inv_step {fingerprintOf : Bytes → UInt32} {call : FlagCall} (hi : s.Inv)
    (hstep : s.step fingerprintOf call = some s') : s'.Inv := by
  cases call with
  | put value mmapOk =>
    simp only [step] at hstep
    split at hstep
    · cases hstep
    · rename_i hput
      cases hstep
      exact hi.put_ok hput
    · rename_i hput
      cases hstep
      exact hi.put_error hput
  | orFlag flag =>
    obtain ⟨h, hlast, rfl⟩ := Option.map_eq_some_iff.mp hstep
    exact hi.orFlag hlast flag
  | free h =>
    simp only [step] at hstep
    split at hstep
    · rename_i hmem
      cases hstep
      obtain ⟨p, hp, rfl⟩ := List.mem_map.mp (List.contains_iff_mem.mp hmem)
      exact hi.free ⟨p.2, hp⟩
    · cases hstep
  | add key h =>
    cases hstep
    exact hi.sameStore _ (Eviction.sameStore_add fingerprintOf s.e s.mgr key h)
  | touch h =>
    cases hstep
    exact hi.sameStore _ (Eviction.sameStore_touch s.e s.mgr h)
  | delete key h =>
    cases hstep
    exact hi.sameStore _ (Eviction.sameStore_delete fingerprintOf s.e s.mgr key h)
  | remove h =>
    cases hstep
    exact hi.sameStore _ (Eviction.sameStore_remove s.e s.mgr h)

end Flagged

/-- Over any run of the arena and the policy, the flags of a live handle are those that were set
after its own `Put`, and no operation on the word of one live handle changes that of another. -/
theorem live_flags_own (fingerprintOf : Bytes → UInt32) (regionSize : Nat) {m : Manager}
    (hnew : m = newManager regionSize ∨
      ∃ data, Cells.size data = regionSize ∧ m = openFileManager regionSize data)
    (e : Eviction) (calls : List FlagCall) {s : Flagged}
    (hrun : run (Flagged.step fingerprintOf) ⟨e, m, [], none⟩ calls = some s) :
    (∀ h flags, (h, flags) ∈ s.live →
      s.mgr.getMeta h &&& (compressedFlag ||| encryptedFlag) = flags) ∧
    ∀ h flags g flags', (h, flags) ∈ s.live → (g, flags') ∈ s.live → g ≠ h →
      (s.mgr.incFreq h).getMeta g = s.mgr.getMeta g ∧
      ∀ word, (s.mgr.setFreq h word).getMeta g = s.mgr.getMeta g ∧
        (s.mgr.orMetaBits h word).getMeta g = s.mgr.getMeta g ∧
        (s.mgr.clearMetaBits h word).getMeta g = s.mgr.getMeta g := by
  have howns : m.Owns ∅ := by
    rcases hnew with rfl | ⟨data, hdata, rfl⟩
    · exact Manager.owns_newManager regionSize
    · exact Manager.owns_openFileManager hdata
  have hstart : Flagged.Inv ⟨e, m, [], none⟩ :=
    ⟨howns.mono (by simp [Flagged.handles]), by simp, by simp⟩
  have hi := run_keeps Flagged.Inv (fun _ _ _ hi hstep => Flagged.inv_step hi hstep) calls _ s
    hstart hrun
  refine ⟨fun h flags hh => hi.flags (h, flags) hh, fun h flags g flags' hh hg hne => ?_⟩
  have hother : ∀ f, (s.mgr.modifyMeta h f).getMeta g = s.mgr.getMeta g := by
    intro f
    rw [hi.owns.getMeta_modifyMeta ⟨flags, hh⟩ ⟨flags', hg⟩, if_neg hne]
  exact ⟨hother _, fun word => ⟨hother _, hother _, hother _⟩⟩

/-- One value is stored compressed and encrypted and another one plain, and both handles are queued
and hit. -/
theorem live_flags_own_queued :
    ∃ e s, new 20 = some e ∧
      run (Flagged.step fingerprintOf) ⟨e, newManager 64, [], none⟩ [.put [1] true,
        .orFlag .compressed, .orFlag .encrypted, .add [97] ⟨0, 1, 0, 0⟩, .put [2] true,
        .add [98] ⟨8, 1, 0, 0⟩, .touch ⟨0, 1, 0, 0⟩, .touch ⟨8, 1, 0, 0⟩] = some s ∧
      s.live = [(⟨8, 1, 0, 0⟩, 0), (⟨0, 1, 0, 0⟩, 0x30)] ∧
      s.mgr.getMeta ⟨0, 1, 0, 0⟩ &&& (compressedFlag ||| encryptedFlag) = 0x30 ∧
      (s.mgr.incFreq ⟨0, 1, 0, 0⟩).getMeta ⟨8, 1, 0, 0⟩ = s.mgr.getMeta ⟨8, 1, 0, 0⟩ := by
  obtain ⟨e, hnew, s, hrun, hlive⟩ : ∃ e, new 20 = some e ∧ ∃ s,
      run (Flagged.step fingerprintOf) ⟨e, newManager 64, [], none⟩ [.put [1] true,
        .orFlag .compressed, .orFlag .encrypted, .add [97] ⟨0, 1, 0, 0⟩, .put [2] true,
        .add [98] ⟨8, 1, 0, 0⟩, .touch ⟨0, 1, 0, 0⟩, .touch ⟨8, 1, 0, 0⟩] = some s ∧
      s.live = [(⟨8, 1, 0, 0⟩, 0), (⟨0, 1, 0, 0⟩, 0x30)] := by
    decide +kernel
  obtain ⟨hflags, hwords⟩ := live_flags_own fingerprintOf 64 (.inl rfl) e _ hrun
  rw [hlive] at hflags hwords
  exact ⟨e, s, hnew, hrun, hlive, hflags _ _ (by simp),
    (hwords ⟨0, 1, 0, 0⟩ 0x30 ⟨8, 1, 0, 0⟩ 0 (by simp) (by simp) (by decide)).1⟩

end Horreum.S3Fifo
