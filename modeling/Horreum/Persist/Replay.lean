/-
  Persist/Replay.lean --- the index that a replay leaves, with its expiries and its counter.

  `ReplayTo` should give the map of the checkpoint with, at every key of the log, what the last record
  for it says, and should change nothing the second time.  So it does as long as no record sets the
  empty key where there is an entry for it.
-/
import Horreum.Index.Sparse
import Horreum.Foundation.ProbingMap
import Horreum.Persist.IdleRestart

set_option autoImplicit false

namespace Horreum.Persist

open Foundation
open Arena (Handle)
open Index (HashIndex Entry)

/-! ## Maps with expiries -/

/-- Keys to handles and expiries. -/
abbrev ExpiryMap : Type := Bytes → Option (Handle × UInt32)

/-- What the index holds, expired or not. -/
def held (idx : HashIndex) : ExpiryMap := fun key =>
  (idx.lookup key).map fun e => (e.handle, e.expiresAt)

/-- What a checkpoint lists; the keys of a saved index are different from each other. -/
def listing (es : List Entry) : ExpiryMap := fun key =>
  (HashIndex.firstOf es key).map fun e => (e.handle, e.expiresAt)

/-- What a logged call leaves at its key: SET stores a key that does not expire. -/
def WAL.Append.entry (a : WAL.Append) : Option (Handle × UInt32) :=
  match a with
  | .set .. => some (a.record.handle, 0)
  | .setEx _ _ _ expiresAt => some (a.record.handle, expiresAt)
  | .del _ => none

/-- The calls applied to a map in order. -/
def applied (M : ExpiryMap) (as : List WAL.Append) : ExpiryMap :=
  lastWriter WAL.Append.key WAL.Append.entry M as

/-- The index holds this map and nothing else, and `Count` is its size. -/
structure Tabulates (idx : HashIndex) (M : ExpiryMap) : Prop where
  held_eq : held idx = M
  count_eq : idx.count = { k | M k ≠ none }.ncard

/-- An append that is not refused. -/
def appended (w : WAL) (a : WAL.Append) : Option WAL :=
  match w.append a none with
  | (.ok _, w) => some w
  | (.error _, _) => none

/-- The log of a new server after these calls. -/
def written (regionSize : Nat) (as : List WAL.Append) : Option WAL :=
  run appended (WAL.openWAL [] (walMaxLen regionSize)) as

/-- Over this index, the log gives what it should up to every one of its records. -/
def ReplaysExactly (regionSize : Nat) (as : List WAL.Append) (idx : HashIndex) (M : ExpiryMap) :
    Prop :=
  ∀ n idx', ((written regionSize (as.take n)).bind fun w => replayTo w idx) = some idx' →
    Tabulates idx' (applied M (as.take n))

variable {idx idx' : HashIndex} {M : ExpiryMap} {a : WAL.Append} {as : List WAL.Append}
  {regionSize n : Nat} {w : WAL}

/-! ## The log -/

theorem written_logs (hkeys : ∀ a ∈ as, a.key.length ≤ 65535) (h : written regionSize as = some w) :
    w.Logs as ∧ w.maxOff = walMaxLen regionSize ∧ ∀ a ∈ as, a.Fits := by
  induction as using List.reverseRecOn generalizing w with
  | nil =>
    cases h
    exact ⟨WAL.openWAL_logs _ (fun a ha => absurd ha List.not_mem_nil) rfl, rfl,
      fun a ha => absurd ha List.not_mem_nil⟩
  | append_singleton as a ih =>
    rw [written, run_append] at h
    obtain ⟨v, hv, hlast⟩ := Option.bind_eq_some_iff.mp h
    obtain ⟨hlogs, hmax, hfits⟩ := ih (fun b hb => hkeys b (List.mem_append_left _ hb)) hv
    obtain ⟨w', happ, hw'⟩ := Option.bind_eq_some_iff.mp hlast
    cases hw'
    unfold appended at happ
    split at happ
    · rename_i off w' hok
      cases happ
      obtain ⟨hlogs', hmax'⟩ := hlogs.append hok
      have hlen := (append_ok hok).2
      have hsmall := walMaxLen_le regionSize
      refine ⟨hlogs', hmax'.trans hmax, fun b hb => ?_⟩
      rcases List.mem_append.mp hb with hb | hb
      · exact hfits b hb
      · cases List.mem_singleton.mp hb
        rw [WAL.length_bytes] at hlen
        have hkey := hkeys a (List.mem_append_right _ hb)
        exact ⟨by omega, by omega⟩
    · cases happ

theorem replayTo_written (hkeys : ∀ a ∈ as, a.key.length ≤ 65535)
    (h : written regionSize as = some w) (idx : HashIndex) :
    replayTo w idx = (as.map WAL.Append.record).foldlM applyRecord idx := by
  obtain ⟨hlogs, _, hfits⟩ := written_logs hkeys h
  rw [replayTo, hlogs.iterate hfits]
  rfl

theorem written_take (h : written regionSize as = some w) (n : Nat) :
    ∃ v, written regionSize (as.take n) = some v := by
  rw [← List.take_append_drop n as, written, run_append] at h
  obtain ⟨v, hv, _⟩ := Option.bind_eq_some_iff.mp h
  exact ⟨v, hv⟩

/-! ## One record -/

theorem tabulates_held (h : idx.Wf) : Tabulates idx (held idx) := by
  refine ⟨rfl, ?_⟩
  have hkeys : { k | held idx k ≠ none } = { k | idx.lookup k ≠ none } :=
    Set.ext fun k => not_congr Option.map_eq_none_iff
  rw [hkeys, h.count_eq]
  exact h.probing.occupied_eq_ncard

theorem held_put {key : Slice} {hd : Handle} {expiresAt : UInt32} (h : idx.Roomy)
    (hnil : key = none → idx.handles [] = none) :
    ∃ idx', (idx.put key hd expiresAt).map Prod.snd = some idx' ∧ idx'.Roomy ∧
      held idx' = Function.update (held idx) key.bytes (some (hd, expiresAt)) := by
  obtain ⟨t, hput, hwf, hlen, hspare, hlook⟩ :=
    h.wf.put key hd expiresAt fun hn => Option.map_eq_none_iff.mp (hnil hn)
  refine ⟨t, by rw [hput]; rfl, ⟨⟨hwf, hspare⟩, h.large.trans hlen⟩, funext fun k => ?_⟩
  by_cases hk : k = key.bytes <;> simp [held, hlook, hk]

theorem held_delete {key : Bytes} (h : idx.Roomy) :
    ∃ idx', (idx.delete key).map Prod.snd = some idx' ∧ idx'.Roomy ∧
      held idx' = Function.update (held idx) key none := by
  obtain ⟨t, hdel, hwf, hlen, hcount, hlook⟩ := h.wf.delete (h.spare h.large) key
  have hspare := h.spare h.large
  refine ⟨t, by rw [hdel]; rfl, ⟨⟨hwf, fun _ => by omega⟩, hlen ▸ h.large⟩, funext fun k => ?_⟩
  by_cases hk : k = key <;> simp [held, hlook, hk]

theorem op_eq_del_iff (a : WAL.Append) : a.record.op = .del ↔ a.entry = none := by
  cases a <;> simp [WAL.Append.record, WAL.Append.op, WAL.Append.entry]

theorem applyRecord_none (idx : HashIndex) (h : a.entry = none) :
    applyRecord idx a.record = (idx.delete a.key).map Prod.snd := by
  rw [applyRecord, (op_eq_del_iff a).mpr h, WAL.Append.record, Slice.bytes_ofRead]

theorem applyRecord_some (idx : HashIndex) {hd : Handle} {expiresAt : UInt32}
    (h : a.entry = some (hd, expiresAt)) :
    applyRecord idx a.record = (idx.put (Slice.ofRead a.key) hd expiresAt).map Prod.snd := by
  cases a with
  | set => cases h; rfl
  | setEx => cases h; rfl
  | del => cases h

theorem applyRecord_held (h : idx.Roomy) (hnil : a.record.NilSafe idx.handles) :
    ∃ idx', applyRecord idx a.record = some idx' ∧ idx'.Roomy ∧
      held idx' = Function.update (held idx) a.key a.entry := by
  cases hentry : a.entry with
  | none =>
    rw [applyRecord_none idx hentry]
    exact held_delete h
  | some e =>
    have hop : a.record.op ≠ .del := fun hdel => by simp [(op_eq_del_iff a).mp hdel] at hentry
    obtain ⟨idx', hput, hroomy, hheld⟩ := held_put h (hnil hop)
    exact ⟨idx', (applyRecord_some idx hentry).trans hput, hroomy, Slice.bytes_ofRead a.key ▸ hheld⟩

/-- A record that sets the empty key over an entry removes it. -/
theorem applyRecord_nil (h : idx.Wf) (hnil : ¬ a.record.NilSafe idx.handles)
    (happ : applyRecord idx a.record = some idx') :
    a.key = [] ∧ a.record.op ≠ .del ∧ idx'.lookup [] = none := by
  obtain ⟨hop, hkey, hold⟩ :
      a.record.op ≠ .del ∧ a.record.key = none ∧ ¬ idx.handles [] = none := by
    simpa only [WALRecord.NilSafe, Classical.not_imp] using hnil
  obtain ⟨⟨hd, expiresAt⟩, hentry⟩ := Option.ne_none_iff_exists'.mp ((op_eq_del_iff a).not.mp hop)
  have hlook : idx.lookup [] ≠ none := fun hn => hold (Option.map_eq_none_iff.mpr hn)
  have hbytes : a.key = [] := by
    rw [← Slice.bytes_ofRead a.key]
    exact congrArg Slice.bytes hkey
  obtain ⟨b, t, hput, hnone⟩ := h.put_nil hlook hd expiresAt
  rw [applyRecord_some idx hentry, show Slice.ofRead a.key = none from hkey, hput] at happ
  cases happ
  exact ⟨hbytes, hop, hnone⟩

theorem applyRecord_spoils (h : idx.Wf) (hnil : ¬ a.record.NilSafe idx.handles)
    (happ : applyRecord idx a.record = some idx') :
    held idx' ≠ Function.update (held idx) a.key a.entry := by
  obtain ⟨hbytes, hop, hnone⟩ := applyRecord_nil h hnil happ
  intro heq
  have hgone := congrFun heq []
  rw [hbytes, Function.update_self, held, hnone] at hgone
  exact hop ((op_eq_del_iff a).mpr hgone.symm)

/-! ## Whole replays -/

/-- A replay next to the map that it should give. -/
structure Replaying where
  idx : HashIndex
  expected : ExpiryMap

/-- One record on the index and on the map. -/
def Replaying.step (s : Replaying) (a : WAL.Append) : Option Replaying :=
  (applyRecord s.idx a.record).map fun idx =>
    ⟨idx, Function.update s.expected a.key a.entry⟩

/-- So far it has. -/
structure Replaying.Exact (s : Replaying) : Prop where
  roomy : s.idx.Roomy
  held_eq : held s.idx = s.expected

theorem Replaying.Exact.tabulates {s : Replaying} (h : s.Exact) : Tabulates s.idx s.expected :=
  h.held_eq ▸ tabulates_held h.roomy.wf

theorem Replaying.Exact.step {s s' : Replaying} (h : s.Exact)
    (hnil : a.record.NilSafe s.idx.handles) (hstep : s.step a = some s') : s'.Exact := by
  obtain ⟨mid, happ, hroomy, hheld⟩ := applyRecord_held h.roomy hnil
  rw [Replaying.step, happ] at hstep
  cases hstep
  exact ⟨hroomy, by rw [hheld, h.held_eq]⟩

theorem Replaying.Exact.spoiled {s s' : Replaying} (h : s.Exact)
    (hnil : ¬ a.record.NilSafe s.idx.handles) (hstep : s.step a = some s') :
    ¬ Tabulates s'.idx s'.expected := by
  obtain ⟨mid, happ, rfl⟩ := Option.map_eq_some_iff.mp hstep
  intro htab
  refine applyRecord_spoils h.roomy.wf hnil happ ?_
  rw [h.held_eq]
  exact htab.held_eq

theorem run_step (as : List WAL.Append) (s : Replaying) :
    run Replaying.step s as = ((as.map WAL.Append.record).foldlM applyRecord s.idx).map fun idx =>
      ⟨idx, applied s.expected as⟩ := by
  induction as generalizing s with
  | nil => rfl
  | cons a as ih =>
    rw [run, Replaying.step, List.map_cons, List.foldlM_cons]
    cases happ : applyRecord s.idx a.record with
    | none => rfl
    | some idx => exact ih ⟨idx, _⟩

theorem guarded_iff_nilSafe (as : List WAL.Append) (h : idx.Roomy) (M : ExpiryMap) :
    Guarded Replaying.step (fun s a => a.record.NilSafe s.idx.handles) ⟨idx, M⟩ as ↔
      NilSafe idx.handles (as.map WAL.Append.record) := by
  induction as generalizing idx M with
  | nil => exact Iff.rfl
  | cons a as ih =>
    refine and_congr_right fun hnil => ?_
    obtain ⟨mid, happ, hmid, hhandles⟩ := applyRecord_spec h hnil
    rw [← hhandles, ← ih hmid (Function.update M a.key a.entry)]
    simp [Replaying.step, happ]

theorem replaysExactly_iff (h : idx.Roomy) (hkeys : ∀ a ∈ as, a.key.length ≤ 65535)
    (hw : written regionSize as = some w) :
    ReplaysExactly regionSize as idx (held idx) ↔
      NilSafe idx.handles (as.map WAL.Append.record) := by
  obtain ⟨last, hlast, _⟩ := foldlM_applyRecord_total (h.toLoose.sparse h.large) h.large
    (as.map WAL.Append.record)
  have halways := always_iff_guarded Replaying.Exact (fun _ => Replaying.Exact.tabulates)
    (fun _ _ _ => Replaying.Exact.step) (fun _ _ _ => Replaying.Exact.spoiled) as
    ⟨idx, held idx⟩ ⟨last, _⟩ ⟨h, rfl⟩ (by rw [run_step, hlast]; rfl)
  rw [← guarded_iff_nilSafe as h (held idx), ← halways]
  -- a prefix of the log is replayed as a prefix of the run
  have hrun : ∀ n, run Replaying.step ⟨idx, held idx⟩ (as.take n) =
      ((written regionSize (as.take n)).bind fun w => replayTo w idx).map fun idx' =>
        ⟨idx', applied (held idx) (as.take n)⟩ := by
    intro n
    obtain ⟨v, hv⟩ := written_take hw n
    rw [run_step, hv, Option.bind_some,
      replayTo_written (fun a ha => hkeys a (List.mem_of_mem_take ha)) hv]
  constructor
  · intro hexact n s' hs'
    rw [hrun] at hs'
    obtain ⟨idx', hidx', rfl⟩ := Option.map_eq_some_iff.mp hs'
    exact hexact n idx' hidx'
  · intro hall n idx' hidx'
    exact hall n ⟨idx', _⟩ (by rw [hrun, hidx']; rfl)

theorem ReplaysExactly.last (h : ReplaysExactly regionSize as idx M)
    (hw : written regionSize as = some w) (hreplay : replayTo w idx = some idx') :
    Tabulates idx' (applied M as) := by
  have hall := h as.length idx'
  rw [List.take_length, hw] at hall
  exact hall hreplay

/-- Loading a checkpoint and replaying a log over it, once and once more: both return.  The first
replay gives the checkpoint with the log applied, up to every record, exactly when no record sets
the empty key over an entry for it; both replays do so exactly when that holds for the log
followed by itself, and then the second one has changed nothing. -/
theorem replays_exactly_iff (C : List Entry) (R : List WAL.Append) (hroom : C.length + 4 ≤ n)
    (hn : n ≤ 2 ^ 64) (hkeys : ∀ a ∈ R, a.key.length ≤ 65535)
    (hw : written regionSize R = some w) :
    ∃ idx₀ idx₁ idx₂, addEntries C (Index.new n) = some idx₀ ∧ replayTo w idx₀ = some idx₁ ∧
      replayTo w idx₁ = some idx₂ ∧
      (ReplaysExactly regionSize R idx₀ (listing C) ↔
        NilSafe (listed C) (R.map WAL.Append.record)) ∧
      (ReplaysExactly regionSize R idx₀ (listing C) ∧
          ReplaysExactly regionSize R idx₁ (applied (listing C) R) ↔
        NilSafe (listed C) ((R ++ R).map WAL.Append.record)) ∧
      (NilSafe (listed C) (R.map WAL.Append.record) → Tabulates idx₁ (applied (listing C) R)) ∧
      (NilSafe (listed C) ((R ++ R).map WAL.Append.record) →
        Tabulates idx₂ (applied (listing C) R)) := by
  obtain ⟨idx₀, hadd, h₀, hlook⟩ := addEntries_lookup hroom hn
  have hlisting : held idx₀ = listing C := funext fun k => by rw [held, hlook, listing]
  have hlisted : idx₀.handles = listed C := funext fun k => by rw [HashIndex.handles, hlook, listed]
  obtain ⟨idx₁, hfold₁, hsparse, hlarge⟩ :=
    foldlM_applyRecord_total (h₀.toLoose.sparse h₀.large) h₀.large (R.map WAL.Append.record)
  obtain ⟨idx₂, hfold₂, _⟩ := foldlM_applyRecord_total hsparse hlarge (R.map WAL.Append.record)
  have hreplay₁ := (replayTo_written hkeys hw idx₀).trans hfold₁
  have hreplay₂ := (replayTo_written hkeys hw idx₁).trans hfold₂
  have hfirst := replaysExactly_iff h₀ hkeys hw
  rw [hlisting, hlisted] at hfirst
  have htab₁ : NilSafe (listed C) (R.map WAL.Append.record) →
      Tabulates idx₁ (applied (listing C) R) := fun hnil => (hfirst.mpr hnil).last hw hreplay₁
  have hsecond : NilSafe (listed C) (R.map WAL.Append.record) →
      (ReplaysExactly regionSize R idx₁ (applied (listing C) R) ↔
        NilSafe (replayed (listed C) (R.map WAL.Append.record)) (R.map WAL.Append.record)) := by
    intro hnil
    obtain ⟨idx₁', hfold₁', h₁, hhandles⟩ := foldlM_applyRecord _ h₀ (hlisted ▸ hnil)
    cases hfold₁.symm.trans hfold₁'
    rw [← (htab₁ hnil).held_eq, ← hlisted, ← hhandles]
    exact replaysExactly_iff h₁ hkeys hw
  rw [List.map_append, nilSafe_append]
  refine ⟨idx₀, idx₁, idx₂, hadd, hreplay₁, hreplay₂, hfirst, ?_, htab₁, fun hnil => ?_⟩
  · rw [hfirst]
    exact and_congr_right hsecond
  · have hlast := ((hsecond hnil.1).mpr hnil.2).last hw hreplay₂
    rwa [applied, applied, lastWriter_again] at hlast

/-- A log that deletes the empty key before it sets it again can be replayed twice. -/
theorem replays_exactly_iff_deleted : ∃ w idx₀ idx₁ idx₂,
    written 4096 [.del [], .set [] [1] ⟨8192, 1, 0⟩, .setEx [97] [2] ⟨8200, 1, 0⟩ 9] = some w ∧
    addEntries [⟨[97], ⟨8208, 1, 0, 0⟩, 5⟩] (Index.new 8) = some idx₀ ∧
    replayTo w idx₀ = some idx₁ ∧ replayTo w idx₁ = some idx₂ ∧
    Tabulates idx₂ (applied (listing [⟨[97], ⟨8208, 1, 0, 0⟩, 5⟩])
      [.del [], .set [] [1] ⟨8192, 1, 0⟩, .setEx [97] [2] ⟨8200, 1, 0⟩ 9]) := by
  obtain ⟨w, hw⟩ : ∃ w, written 4096
      [.del [], .set [] [1] ⟨8192, 1, 0⟩, .setEx [97] [2] ⟨8200, 1, 0⟩ 9] = some w :=
    Option.isSome_iff_exists.mp (by decide +kernel)
  obtain ⟨idx₀, idx₁, idx₂, hadd, hreplay₁, hreplay₂, _, _, _, htwice⟩ :=
    replays_exactly_iff (n := 8) [⟨[97], ⟨8208, 1, 0, 0⟩, 5⟩]
      [.del [], .set [] [1] ⟨8192, 1, 0⟩, .setEx [97] [2] ⟨8200, 1, 0⟩ 9] (by decide) (by decide)
      (by decide) hw
  exact ⟨w, idx₀, idx₁, idx₂, hw, hadd, hreplay₁, hreplay₂, htwice (by decide +kernel)⟩

/-- The checkpoint has the empty key, and the log sets it: after the replay it is gone, and
`Count` still says one. -/
theorem replay_loses_empty_key : ∃ w idx₀ idx₁,
    written 4096 [.set [] [1] ⟨8192, 1, 0⟩] = some w ∧
    addEntries [⟨[], ⟨8208, 1, 0, 0⟩, 0⟩] (Index.new 8) = some idx₀ ∧
    replayTo w idx₀ = some idx₁ ∧ held idx₁ [] = none ∧ idx₁.count = 1 ∧
    applied (listing [⟨[], ⟨8208, 1, 0, 0⟩, 0⟩]) [.set [] [1] ⟨8192, 1, 0⟩] [] =
      some (⟨8192, 1, 0, 0⟩, 0) := by
  simp only [exists_and_left]
  decide +kernel

end Horreum.Persist
