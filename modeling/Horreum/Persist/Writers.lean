/-
  Persist/Writers.lean --- checkpoints among concurrent writers.

  A writer stores its value through the manager and then enters the handle into the index it
  shares with the other writers.  Each of the two is atomic, and so is a checkpoint, but a
  checkpoint can come between them: it saves an index without the key and then truncates the
  log with the record of it.
-/
import Horreum.Foundation.Runs
import Horreum.Persist.Intact

set_option autoImplicit false

namespace Horreum.Persist

open Foundation
open Arena (Manager Handle)
open Index (HashIndex Entry)

/-- A writer between its two steps. -/
structure Pending where
  writer : Nat
  key : Bytes
  handle : Handle
  deriving DecidableEq, Repr

/-- Writers that store first and enter the handle into the index later. -/
structure Writers where
  pm : PersistentManager
  idx : HashIndex
  pending : List Pending
  /-- The keys of the writers that have made both steps. -/
  completed : List Bytes

namespace Writers

/-- The steps of writers and of a checkpoint. -/
inductive Step where
  | put (writer : Nat) (key value : Bytes)
  | enter (writer : Nat)
  | checkpoint
  deriving DecidableEq, Repr

/-- A new manager without writers. -/
def start (regionSize : Nat) (durable : Bool) (buckets : Nat) : Option Writers :=
  match PersistentManager.new ⟨none, []⟩ regionSize durable with
  | .ok pm => some ⟨pm, Index.new buckets, [], []⟩
  | .error _ => none

/-- A writer whose `Put` fails has nothing to enter.  Steps that a writer cannot make now are
undefined. -/
def step (s : Writers) : Step → Option Writers
  | .put writer key value =>
    if s.pending.any fun p => p.writer == writer then none
    else
      match s.pm.put .fine key value with
      | some (.ok (h, _), pm) =>
        some { s with pm := pm, pending := ⟨writer, key, h⟩ :: s.pending }
      | some (.error _, pm) => some { s with pm := pm }
      | none => none
  | .enter writer =>
    match s.pending.find? fun p => p.writer == writer with
    | some p => (s.idx.put (some p.key) p.handle 0).map fun (_, idx) =>
      { s with
        idx := idx
        pending := s.pending.erase p
        completed := p.key :: s.completed }
    | none => none
  | .checkpoint => some { s with pm := (s.pm.checkpoint .fine s.idx).2 }

/-- The next value does not go into the checkpoint area. -/
def landsClear (pm : PersistentManager) (value : Bytes) : Bool :=
  match pm.mgr.put value true with
  | some (.ok h, _) => h.region != 0 || areaEnd pm.regionSize ≤ h.offset.toNat
  | _ => true

/-- At a checkpoint every key that is stored but not entered yet has an older entry. -/
def Safe (s : Writers) : Step → Prop
  | .put _ key value => s.pm.wal.KeyFits .set key value ∧
      (key = [] → s.idx.handles [] = none ∧ ∀ p ∈ s.pending, p.key ≠ []) ∧
      landsClear s.pm value = true
  | .enter _ => True
  | .checkpoint => ∀ p ∈ s.pending, s.idx.handles p.key ≠ none

instance : ∀ (s : Writers) (a : Step), Decidable (s.Safe a)
  | s, .put _ key value => inferInstanceAs (Decidable (s.pm.wal.KeyFits .set key value ∧
      (key = [] → s.idx.handles [] = none ∧ ∀ p ∈ s.pending, p.key ≠ []) ∧
      landsClear s.pm value = true))
  | _, .enter _ => isTrue trivial
  | s, .checkpoint => inferInstanceAs (Decidable (∀ p ∈ s.pending, s.idx.handles p.key ≠ none))

/-! ## The invariant -/

/-- The map that a restart would rebuild. -/
def onDisk (es : List Entry) (as : List WAL.Append) : Bytes → Option Handle :=
  replayed (listed es) (as.map WAL.Append.record)

/-- What is stored is on disk, and what is on disk was stored by a writer. -/
structure Covered (s : Writers) (es : List Entry) (as : List WAL.Append) : Prop where
  intact : Intact s.pm es as
  owns : s.pm.mgr.Owns ∅
  nilSafe : NilSafe (listed es) (as.map WAL.Append.record)
  loose : s.idx.Loose
  known : ∀ k, onDisk es as k ≠ none → s.idx.handles k ≠ none ∨ ∃ p ∈ s.pending, p.key = k
  pending : ∀ p ∈ s.pending, onDisk es as p.key ≠ none
  indexed : ∀ k, s.idx.handles k ≠ none → onDisk es as k ≠ none
  completed : ∀ k ∈ s.completed, s.idx.handles k ≠ none

variable {s s' : Writers} {es : List Entry} {as : List WAL.Append}

theorem covered_start {regionSize buckets : Nat} {durable : Bool} (hlarge : 8192 ≤ regionSize)
    (hbuckets : buckets ≤ 2 ^ 64) (h : start regionSize durable buckets = some s) :
    Covered s [] [] ∧ s.pm.regionSize = regionSize ∧ s.pm.durable = durable := by
  unfold start at h
  split at h
  · rename_i pm hnew
    cases h
    obtain ⟨hintact, hown, hrs, hdur⟩ := intact_new hlarge hnew
    refine ⟨⟨hintact, hown, trivial, HashIndex.loose_new hbuckets, fun k hk => absurd rfl hk,
      nofun, fun k hk => ?_, nofun⟩, hrs, hdur⟩
    exact absurd (HashIndex.handles_new buckets k) hk
  · cases h

theorem clear_of_landsClear {pm : PersistentManager} {value : Bytes}
    (h : landsClear pm value = true) (hd : Handle) (mgr : Manager)
    (hput : pm.mgr.put value true = some (.ok hd, mgr)) (hzero : hd.region = 0) :
    areaEnd pm.regionSize ≤ hd.offset.toNat := by
  simpa [landsClear, hput, hzero] using h

theorem Covered.put (h : Covered s es as) {writer : Nat} {key value : Bytes}
    (hsafe : s.Safe (.put writer key value)) (hstep : s.step (.put writer key value) = some s') :
    (∃ as', Covered s' es as') ∧ s'.pm.regionSize = s.pm.regionSize ∧
      s'.pm.durable = s.pm.durable := by
  obtain ⟨hshort, hempty, hlands⟩ := hsafe
  have hclear := clear_of_landsClear hlands
  simp only [Writers.step] at hstep
  split at hstep
  · cases hstep
  · split at hstep
    · rename_i hd view pm hput
      cases hstep
      obtain ⟨mgr, _, _, hmgr, _, _⟩ := putWith_ok hput
      obtain ⟨hintact, hstored, hrs, hdur⟩ := h.intact.putWith h.owns hput (fun _ => hshort)
        (fun _ => rfl) (hclear hd mgr hmgr)
      have hdisk : onDisk es (as ++ [.set key value (logged hd)]) =
          Function.update (onDisk es as) key (some _) := replayed_snoc _ _ _
      have hgrows : ∀ k, onDisk es as k ≠ none →
          onDisk es (as ++ [.set key value (logged hd)]) k ≠ none := by
        intro k hk
        by_cases hkk : k = key <;> simp [hdisk, hkk, hk]
      refine ⟨⟨_, hintact, hstored.owns.mono (Set.empty_subset _), ?_, h.loose, ?_, ?_, ?_,
        h.completed⟩, hrs, hdur⟩
      · refine nilSafe_snoc h.nilSafe fun _ hnil => ?_
        obtain ⟨hidx, hpend⟩ := hempty hnil
        by_contra hdisk
        rcases h.known [] hdisk with hk | ⟨p, hp, hpk⟩
        · exact hk hidx
        · exact hpend p hp hpk
      · intro k hk
        by_cases hkk : k = key
        · exact .inr ⟨_, List.mem_cons_self, hkk.symm⟩
        · rw [hdisk, Function.update_of_ne hkk] at hk
          exact (h.known k hk).imp_right fun ⟨p, hp, hpk⟩ => ⟨p, List.mem_cons_of_mem _ hp, hpk⟩
      · intro p hp
        rcases List.mem_cons.mp hp with rfl | hp
        · simp [hdisk]
        · exact hgrows _ (h.pending p hp)
      · exact fun k hk => hgrows k (h.indexed k hk)
    · rename_i e pm hput
      cases hstep
      obtain ⟨hintact, hown, hrs, hdur⟩ := h.intact.putWith_error h.owns hput hclear
      exact ⟨⟨as, hintact, hown, h.nilSafe, h.loose, h.known, h.pending, h.indexed, h.completed⟩,
        hrs, hdur⟩
    · cases hstep

theorem Covered.enter (h : Covered s es as) {writer : Nat}
    (hstep : s.step (.enter writer) = some s') : Covered s' es as ∧ s'.pm = s.pm := by
  simp only [Writers.step] at hstep
  split at hstep
  · rename_i p hfind
    obtain ⟨⟨b, idx⟩, hidx, heq⟩ := Option.map_eq_some_iff.mp hstep
    cases heq
    have hmem := List.mem_of_find?_eq_some hfind
    obtain ⟨hloose, hhandles⟩ := h.loose.put hidx fun hnil => nomatch hnil
    simp only [Slice.bytes_some] at hhandles
    have hgrows : ∀ k, s.idx.handles k ≠ none → idx.handles k ≠ none := by
      intro k hk
      by_cases hkk : k = p.key <;> simp [hhandles, hkk, hk]
    refine ⟨⟨h.intact, h.owns, h.nilSafe, hloose, ?_, ?_, ?_, ?_⟩, rfl⟩
    · intro k hk
      by_cases hkk : k = p.key
      · exact .inl (by simp [hhandles, hkk])
      · refine (h.known k hk).imp (hgrows k) fun ⟨q, hq, hqk⟩ => ⟨q, ?_, hqk⟩
        have hne : q ≠ p := by
          rintro rfl
          exact hkk hqk.symm
        exact (List.mem_erase_of_ne hne).mpr hq
    · exact fun q hq => h.pending q (List.mem_of_mem_erase hq)
    · intro k hk
      by_cases hkk : k = p.key
      · exact hkk ▸ h.pending p hmem
      · rw [hhandles, Function.update_of_ne hkk] at hk
        exact h.indexed k hk
    · intro k hk
      rcases List.mem_cons.mp hk with rfl | hk
      · simp [hhandles]
      · exact hgrows k (h.completed k hk)
  · cases hstep

theorem listed_snapshot_eq_none {idx : HashIndex} (hwf : idx.Wf) (k : Bytes) :
    listed (idx.snapshot.map saved) k = none ↔ idx.handles k = none := by
  rw [listed_map_saved, hwf.snapshot]
  simp only [Option.map_eq_none_iff, HashIndex.handles]
  rfl

theorem Covered.checkpoint (h : Covered s es as) (hsafe : s.Safe .checkpoint)
    (hstep : s.step .checkpoint = some s') :
    (∃ es' as', Covered s' es' as') ∧ s'.pm.regionSize = s.pm.regionSize ∧
      s'.pm.durable = s.pm.durable := by
  cases hstep
  cases hck : s.pm.checkpoint .fine s.idx with
  | mk res pm =>
    cases res with
    | error e =>
      obtain rfl := h.intact.checkpoint_error hck
      exact ⟨⟨es, as, h⟩, rfl, rfl⟩
    | ok u =>
      obtain ⟨hintact, hdone, hrs, hdur⟩ := h.intact.checkpoint_ok hck
      have hsame := listed_snapshot_eq_none h.loose.wf
      refine ⟨⟨_, _, hintact, hdone.owns _ h.owns, trivial, h.loose, ?_, ?_, ?_, h.completed⟩,
        hrs, hdur⟩
      · exact fun k hk => .inl fun hnone => hk ((hsame k).mpr hnone)
      · exact fun p hp hnone => hsafe p hp ((hsame p.key).mp hnone)
      · exact fun k hk hnone => hk ((hsame k).mp hnone)

theorem covered_step {a : Step} (h : ∃ es as, Covered s es as) (hsafe : s.Safe a)
    (hstep : s.step a = some s') :
    (∃ es as, Covered s' es as) ∧ s'.pm.regionSize = s.pm.regionSize ∧
      s'.pm.durable = s.pm.durable := by
  obtain ⟨es, as, h⟩ := h
  cases a with
  | put writer key value =>
    obtain ⟨hs, hsame⟩ := h.put hsafe hstep
    exact ⟨⟨es, hs⟩, hsame⟩
  | enter writer =>
    obtain ⟨hs, hpm⟩ := h.enter hstep
    exact ⟨⟨es, as, hs⟩, by rw [hpm], by rw [hpm]⟩
  | checkpoint => exact h.checkpoint hsafe hstep

theorem Covered.restart (h : Covered s es as) {n : Nat} (hroom : es.length + 4 ≤ n)
    (hn : n ≤ 2 ^ 64) :
    ∃ idx pm, PersistentManager.restart s.pm.disk s.pm.regionSize s.pm.durable n =
        some (.ok (idx, pm)) ∧ ∀ k ∈ s.completed, ∃ hd, idx.get k 0 = some (some hd) := by
  obtain ⟨idx, pm, hrestart, hroomy, hhandles, _⟩ :=
    h.intact.openable.restart h.intact.checkpoint h.nilSafe hroom hn
  refine ⟨idx, pm, hrestart, fun k hk => ?_⟩
  obtain ⟨hd, hhd⟩ := Option.ne_none_iff_exists'.mp (h.indexed k (h.completed k hk))
  exact ⟨hd, by rw [hroomy.get_zero, hhandles]; exact congrArg some hhd⟩

/-- Where no checkpoint comes between the two steps of the first writer of a key, every key
whose writer made both steps is found after a crash. -/
theorem restart_contains_completed (regionSize buckets : Nat) (durable : Bool) {s₀ : Writers}
    (hlarge : 8192 ≤ regionSize) (hbuckets : buckets ≤ 2 ^ 63)
    (hstart : start regionSize durable buckets = some s₀) (steps : List Step)
    (hsafe : Guarded step Safe s₀ steps) (hrun : run step s₀ steps = some s) :
    ∃ N, N ≤ 2 ^ 16 ∧ ∀ n, N ≤ n → n ≤ 2 ^ 63 → ∃ idx pm,
      PersistentManager.restart s.pm.disk regionSize durable n = some (.ok (idx, pm)) ∧
      ∀ k ∈ s.completed, ∃ h, idx.get k 0 = some (some h) := by
  obtain ⟨h₀, hrs₀, hdur₀⟩ := covered_start hlarge (by omega) hstart
  have hinv := run_invariant
    (fun s => (∃ es as, Covered s es as) ∧ s.pm.regionSize = regionSize ∧ s.pm.durable = durable)
    (fun s a s' hs hok hstep => by
      obtain ⟨hc, hrs, hdur⟩ := covered_step hs.1 hok hstep
      exact ⟨hc, hrs.trans hs.2.1, hdur.trans hs.2.2⟩)
    steps s₀ s ⟨⟨[], [], h₀⟩, hrs₀, hdur₀⟩ hsafe hrun
  obtain ⟨⟨es, as, hs⟩, rfl, rfl⟩ := hinv
  exact ⟨es.length + 4, hs.intact.checkpoint.length_le, fun n hroom hn => hs.restart hroom (by omega)⟩

/-- Two writers interleave, and a checkpoint is taken while a third overwrites a key that has
its entry. -/
theorem restart_contains_completed_three :
    ∃ s₀ s, start 16384 true 4 = some s₀ ∧
      run step s₀ [.put 0 [97] [1], .put 1 [98] [2], .enter 1, .enter 0, .put 2 [97] [3],
        .checkpoint, .enter 2] = some s ∧
      ∃ N, N ≤ 2 ^ 16 ∧ ∀ n, N ≤ n → n ≤ 2 ^ 63 → ∃ idx pm,
        PersistentManager.restart s.pm.disk 16384 true n = some (.ok (idx, pm)) ∧
        (∃ h, idx.get [97] 0 = some (some h)) ∧ ∃ h, idx.get [98] 0 = some (some h) := by
  obtain ⟨s₀, hstart, hguard, s, hrun, hkeys⟩ : ∃ s₀, start 16384 true 4 = some s₀ ∧
      Guarded step Safe s₀ [.put 0 [97] [1], .put 1 [98] [2], .enter 1, .enter 0, .put 2 [97] [3],
        .checkpoint, .enter 2] ∧
      ∃ s, run step s₀ [.put 0 [97] [1], .put 1 [98] [2], .enter 1, .enter 0, .put 2 [97] [3],
        .checkpoint, .enter 2] = some s ∧ s.completed = [[97], [97], [98]] := by
    decide +kernel
  obtain ⟨N, hle, hN⟩ :=
    restart_contains_completed 16384 4 true (by decide) (by decide) hstart _ hguard hrun
  refine ⟨s₀, s, hstart, hrun, N, hle, fun n hroom hn => ?_⟩
  obtain ⟨idx, pm, hrestart, hcont⟩ := hN n hroom hn
  exact ⟨idx, pm, hrestart, hcont [97] (by simp [hkeys]), hcont [98] (by simp [hkeys])⟩

/-- A checkpoint between the two steps: the writer completes, and its key is gone. -/
theorem checkpoint_between_steps_loses_key :
    ∃ s idx pm, (start 16384 true 16).bind (fun s =>
        run step s [.put 0 [97] [1], .checkpoint, .enter 0]) = some s ∧
      [97] ∈ s.completed ∧
      PersistentManager.restart s.pm.disk 16384 true 16 = some (.ok (idx, pm)) ∧
      idx.get [97] 0 = some none := by
  simp only [exists_and_left]
  decide +kernel

end Writers

end Horreum.Persist
