/-
  Persist/IdleRestart.lean --- a server that is started and stopped again,
  `initPersistentStorage` in `cmd/horreum/main.go`.

  The start rebuilds the index from the log alone, with `Replay`; the checkpoint is not read.
  The stop saves that index as the new checkpoint and empties the log.  So what only the old
  checkpoint had is gone, and the next idle restart, with an empty log, loses the rest.
-/
import Horreum.Index.Sparse
import Horreum.Persist.Reopened
import Horreum.Persist.WalRepair

set_option autoImplicit false

namespace Horreum.Persist

open Foundation
open Arena (Manager Handle)
open Index (HashIndex Entry)

/-- Start and stop with no request in between.  `Sync` and `Close` write nothing that is not in
the files already, and neither does a shard set without a request.  A server that cannot open
its files exits, which is `none`. -/
def idleRestart (regionSize : Nat) (durable : Bool) (d : Disk) : Option Disk :=
  match PersistentManager.new d regionSize durable with
  | .error _ => none
  | .ok pm => (replayTo pm.wal (Index.new (2 ^ 16))).map fun idx =>
    (pm.checkpoint .fine idx).2.disk

/-- That many idle restarts. -/
def idleRestarts (regionSize : Nat) (durable : Bool) : Nat → Disk → Option Disk
  | 0, d => some d
  | k + 1, d => (idleRestart regionSize durable d).bind (idleRestarts regionSize durable k)

/-- `New`, and `LoadIndex` into a fresh index of `n` buckets, give an index in which `Get`
finds this map. -/
def Loads (regionSize : Nat) (durable : Bool) (n : Nat) (d : Disk)
    (M : Bytes → Option Handle) : Prop :=
  ∃ idx pm, PersistentManager.restart d regionSize durable n = some (.ok (idx, pm)) ∧
    ∀ k, idx.get k 0 = some (M k)

/-- The checkpoint and the log that `New` finds in the files; `none` if it fails or if
`LoadIndex` rejects the checkpoint. -/
def contents (regionSize : Nat) (durable : Bool) (d : Disk) :
    Option (List Entry × List WALRecord) :=
  match PersistentManager.new d regionSize durable with
  | .error _ => none
  | .ok pm =>
    match loadCheckpoint pm.mgr pm.regionSize with
    | .error .checkpointBadMagic => (pm.wal.iterate 0).map fun (recs, _) => ([], recs)
    | .error _ => none
    | .ok es => (pm.wal.iterate 0).map fun (recs, _) => (es, recs)

/-- The index that `LoadIndex` builds from a checkpoint and a log. -/
def rebuild (n : Nat) (es : List Entry) (recs : List WALRecord) : Option HashIndex :=
  (addEntries es (Index.new n)).bind fun idx => recs.foldlM applyRecord idx

/-- The index that the start builds from the log alone. -/
def replayIndex (recs : List WALRecord) : Option HashIndex :=
  recs.foldlM applyRecord (Index.new (2 ^ 16))

/-- The index fits into the checkpoint area. -/
def FitsArea (regionSize : Nat) (idx : HashIndex) : Prop :=
  (encodeCheckpoint (indexCheckpointMaxLen regionSize) idx.snapshot).isOk = true

instance (regionSize : Nat) (idx : HashIndex) : Decidable (FitsArea regionSize idx) :=
  inferInstanceAs (Decidable (_ = true))

variable {regionSize n : Nat} {durable : Bool} {d d' : Disk} {pm pm' : PersistentManager}
  {idx r : HashIndex} {es : List Entry} {recs : List WALRecord} {M M' : Bytes → Option Handle}

theorem Loads.unique (h : Loads regionSize durable n d M) (h' : Loads regionSize durable n d M') :
    M = M' := by
  obtain ⟨idx, pm, hrestart, hget⟩ := h
  obtain ⟨idx', pm', hrestart', hget'⟩ := h'
  cases hrestart.symm.trans hrestart'
  exact funext fun k => Option.some.inj ((hget k).symm.trans (hget' k))

/-! ## Replay returns -/

theorem applyRecord_total (h : idx.Sparse) (hlarge : 4 ≤ idx.slots.length) (r : WALRecord) :
    ∃ idx', applyRecord idx r = some idx' ∧ idx'.Sparse ∧ 4 ≤ idx'.slots.length := by
  unfold applyRecord
  cases r.op with
  | del =>
    obtain ⟨_, t, hdel, ht, hlen⟩ := h.delete r.key.bytes
    exact ⟨t, by rw [hdel]; rfl, ht, hlen.symm ▸ hlarge⟩
  | set =>
    obtain ⟨_, t, hput, ht⟩ := h.put hlarge r.key r.handle 0
    exact ⟨t, by rw [hput]; rfl, ht⟩
  | setEx =>
    obtain ⟨_, t, hput, ht⟩ := h.put hlarge r.key r.handle r.expiresAt
    exact ⟨t, by rw [hput]; rfl, ht⟩

theorem foldlM_applyRecord_total (h : idx.Sparse) (hlarge : 4 ≤ idx.slots.length)
    (recs : List WALRecord) :
    ∃ idx', recs.foldlM applyRecord idx = some idx' ∧ idx'.Sparse ∧ 4 ≤ idx'.slots.length :=
  foldlM_total (fun _ idx => idx.Sparse ∧ 4 ≤ idx.slots.length)
    (fun r _ _ ⟨hmid, hmidLarge⟩ => applyRecord_total hmid hmidLarge r) recs idx ⟨h, hlarge⟩

theorem rebuild_total (hroom : es.length + 4 ≤ n) (hn : n ≤ 2 ^ 64) (recs : List WALRecord) :
    ∃ idx, rebuild n es recs = some idx ∧ idx.Sparse := by
  obtain ⟨mid, hadd, hroomy, _⟩ := addEntries_new hroom hn
  obtain ⟨idx, hfold, hsparse, _⟩ :=
    foldlM_applyRecord_total (hroomy.toLoose.sparse hroomy.large) hroomy.large recs
  exact ⟨idx, by rw [rebuild, hadd]; exact hfold, hsparse⟩

/-! ## What the files give -/

theorem contents_inv (h : contents regionSize durable d = some (es, recs)) :
    ∃ pm, PersistentManager.new d regionSize durable = .ok pm ∧
      HasCheckpoint pm.mgr pm.regionSize es ∧ ∃ stop, pm.wal.iterate 0 = some (recs, stop) := by
  unfold contents at h
  split at h
  · cases h
  · rename_i pm hnew
    split at h
    · rename_i hbad
      obtain ⟨⟨recs', stop⟩, hiter, heq⟩ := Option.map_eq_some_iff.mp h
      cases heq
      exact ⟨pm, hnew, .inr ⟨hbad, rfl⟩, stop, hiter⟩
    · cases h
    · rename_i es' hok
      obtain ⟨⟨recs', stop⟩, hiter, heq⟩ := Option.map_eq_some_iff.mp h
      cases heq
      exact ⟨pm, hnew, .inl hok, stop, hiter⟩

theorem contents_of_new {stop : Nat × WalError}
    (hnew : PersistentManager.new d regionSize durable = .ok pm)
    (hck : HasCheckpoint pm.mgr pm.regionSize es) (hiter : pm.wal.iterate 0 = some (recs, stop)) :
    contents regionSize durable d = some (es, recs) := by
  rw [contents, hnew]
  rcases hck with hok | ⟨hbad, rfl⟩
  · simp only [hok, hiter, Option.map_some]
  · simp only [hbad, hiter, Option.map_some]

/-- A restart that succeeds has rebuilt the index from what `New` found. -/
theorem restart_iff (h : contents regionSize durable d = some (es, recs)) :
    (∃ pm, PersistentManager.restart d regionSize durable n = some (.ok (idx, pm))) ↔
      rebuild n es recs = some idx := by
  obtain ⟨pm, hnew, hck, stop, hiter⟩ := contents_inv h
  have hreplay : ∀ idx, replayTo pm.wal idx = recs.foldlM applyRecord idx := by
    intro idx
    rw [replayTo, hiter]
    rfl
  rw [PersistentManager.restart, hnew, rebuild]
  simp only [PersistentManager.loadIndex]
  rcases hck with hok | ⟨hbad, rfl⟩
  · simp only [hok]
    cases hadd : addEntries es (Index.new n) with
    | none => simp
    | some t => cases hfold : recs.foldlM applyRecord t <;> simp [hreplay, hfold, Except.map]
  · simp only [hbad]
    cases hfold : recs.foldlM applyRecord (Index.new n) <;>
      simp [hreplay, hfold, addEntries, Except.map]

/-! ## A manager that `New` has opened -/

/-- What `New` needs to open what the manager leaves. -/
structure Reopenable (pm : PersistentManager) : Prop where
  pos : 0 < pm.regionSize
  size : ∃ reg, pm.mgr.regions[0]? = some reg ∧ reg.data.size = pm.regionSize
  superblock : ∃ sb, readSuperblock pm.mgr = .ok sb

theorem reopenable_new (h : PersistentManager.new d regionSize durable = .ok pm) :
    Reopenable pm ∧ pm.regionSize = regionSize ∧ pm.durable = durable ∧
      pm.wal = WAL.openWAL d.wal (walMaxLen regionSize) := by
  obtain ⟨data, hdata, hregs⟩ := (fresh_new h).1.regions
  obtain ⟨hpos, m, harena, rfl⟩ := new_cases h
  exact ⟨⟨hpos, ⟨_, by rw [hregs]; rfl, hdata⟩, (openArena_cases harena).1⟩, rfl, rfl,
    WAL.openWAL_openWAL _ _⟩

theorem Reopenable.reopen (h : Reopenable pm) :
    ∃ pm', PersistentManager.new pm.disk pm.regionSize pm.durable = .ok pm' ∧
      pm'.regionSize = pm.regionSize ∧
      pm'.wal = WAL.openWAL pm.wal.file (walMaxLen pm.regionSize) ∧
      loadCheckpoint pm'.mgr pm'.regionSize = loadCheckpoint pm.mgr pm.regionSize := by
  obtain ⟨pm', hnew, hrs, hwal, reg, reg', hreg, hreg', hdata⟩ := new_disk h.pos h.size h.superblock
  have hagrees : HeadAgrees (areaEnd pm.regionSize) pm.mgr pm'.mgr :=
    ⟨reg, reg', hreg, hreg', by rw [hdata], fun _ _ => by rw [hdata]⟩
  exact ⟨pm', hnew, hrs, hwal.trans (WAL.openWAL_openWAL _ _),
    hrs.symm ▸ hagrees.loadCheckpoint (Nat.le_refl _)⟩

/-- What such a manager leaves, in terms of its own checkpoint area and log file. -/
theorem Reopenable.contents_disk (h : Reopenable pm) (hck : HasCheckpoint pm.mgr pm.regionSize es)
    {stop : Nat × WalError}
    (hiter : (WAL.openWAL pm.wal.file (walMaxLen pm.regionSize)).iterate 0 = some (recs, stop)) :
    contents pm.regionSize pm.durable pm.disk = some (es, recs) := by
  obtain ⟨pm', hnew, _, hwal, hload⟩ := h.reopen
  exact contents_of_new hnew (by rw [HasCheckpoint, hload]; exact hck) (hwal ▸ hiter)

/-- What a crash leaves, in terms of the checkpoint area and the complete records of the log. -/
theorem Openable.contents {as : List WAL.Append} (h : Openable pm as)
    (hck : HasCheckpoint pm.mgr pm.regionSize es) :
    contents pm.regionSize pm.durable pm.disk = some (es, as.map WAL.Append.record) := by
  obtain ⟨tail, hfile, hstop⟩ := h.log
  have hlogs := WAL.openWAL_logs (walMaxLen pm.regionSize) h.fits hstop
  rw [← hfile] at hlogs
  have hopen : Reopenable pm := ⟨h.pos, h.size, h.superblock⟩
  exact hopen.contents_disk hck (hlogs.iterate h.fits)

/-- The files of a manager that is in order, as every run of safe calls leaves them. -/
theorem Intact.contents {as : List WAL.Append} (h : Intact pm es as) :
    contents pm.regionSize pm.durable pm.disk = some (es, as.map WAL.Append.record) :=
  h.openable.contents h.checkpoint

/-! ## One restart -/

/-- A stop that saves the index empties the log. -/
theorem Reopenable.contents_checkpoint (h : Reopenable pm) (hck : HasCheckpoint pm.mgr pm.regionSize es)
    {body : Bytes}
    (henc : encodeCheckpoint (indexCheckpointMaxLen pm.regionSize) idx.snapshot = .ok body) :
    contents pm.regionSize pm.durable (pm.checkpoint .fine idx).2.disk =
      some (idx.snapshot.map saved, []) := by
  obtain ⟨reg, hreg, hsize⟩ := h.size
  obtain ⟨sb, hsb⟩ := h.superblock
  have harea := hck.area hreg
  have hdone := checkpointed hreg harea henc (version_afterCheckpoint hsb idx.snapshot)
  obtain ⟨reg', hreg', hsame⟩ := hdone.size
  rw [checkpoint_fit hreg harea hsb henc]
  have hopen : Reopenable { pm with
      mgr := (pm.mgr.poke origin superblockSize body).poke origin 0
        (encodeSuperblock (sb.afterCheckpoint idx.snapshot))
      wal := pm.wal.rotate } :=
    ⟨h.pos, ⟨reg', hreg', (hsame reg hreg).trans hsize⟩, hdone.superblock⟩
  exact hopen.contents_disk (.inl hdone.checkpoint) rfl

/-- What an idle restart does to the checkpoint and the log: the log alone becomes the new
checkpoint, if it fits. -/
theorem contents_idleRestart (h : contents regionSize durable d = some (es, recs)) :
    ∃ r d', replayIndex recs = some r ∧ idleRestart regionSize durable d = some d' ∧
      contents regionSize durable d' =
        some (if FitsArea regionSize r then (r.snapshot.map saved, []) else (es, recs)) := by
  obtain ⟨pm, hnew, hck, stop, hiter⟩ := contents_inv h
  obtain ⟨hopen, rfl, rfl, hwal⟩ := reopenable_new hnew
  have hbound : ([] : List Entry).length + 4 ≤ 2 ^ 16 := by decide
  obtain ⟨r, hr, _⟩ := rebuild_total hbound (by decide) recs
  have hreplay : replayTo pm.wal (Index.new (2 ^ 16)) = some r := by
    rw [replayTo, hiter]
    exact hr
  have hidle : idleRestart pm.regionSize pm.durable d = some (pm.checkpoint .fine r).2.disk := by
    rw [idleRestart, hnew]
    simp only [hreplay, Option.map_some]
  refine ⟨r, _, hr, hidle, ?_⟩
  cases henc : encodeCheckpoint (indexCheckpointMaxLen pm.regionSize) r.snapshot with
  | ok body =>
    have hfit : FitsArea pm.regionSize r := by rw [FitsArea, henc]; rfl
    rw [if_pos hfit]
    exact hopen.contents_checkpoint hck henc
  | error e =>
    have hfit : ¬ FitsArea pm.regionSize r := by rw [FitsArea, henc]; exact Bool.false_ne_true
    have hsame : WAL.openWAL pm.wal.file (walMaxLen pm.regionSize) = pm.wal := by
      rw [hwal, WAL.openWAL_openWAL]
    rw [if_neg hfit, checkpoint_unfit henc]
    exact hopen.contents_disk hck (hsame.symm ▸ hiter)

/-! ## What is loaded afterwards -/

/-- What is loaded depends on the checkpoint and the log only. -/
theorem loads_iff (h : contents regionSize durable d = some (es, recs)) :
    Loads regionSize durable n d M ↔
      ∃ idx, rebuild n es recs = some idx ∧ ∀ k, idx.get k 0 = some (M k) := by
  constructor
  · rintro ⟨idx, pm, hrestart, hget⟩
    exact ⟨idx, (restart_iff h).mp ⟨pm, hrestart⟩, hget⟩
  · rintro ⟨idx, hrebuild, hget⟩
    obtain ⟨pm, hrestart⟩ := (restart_iff h).mpr hrebuild
    exact ⟨idx, pm, hrestart, hget⟩

theorem length_of_contents (h : contents regionSize durable d = some (es, recs)) :
    es.length + 4 ≤ 2 ^ 16 := by
  obtain ⟨pm, _, hck, _⟩ := contents_inv h
  exact hck.length_le

/-! ## Any number of restarts -/

theorem idleRestarts_keep {P : Disk → Prop}
    (hstep : ∀ d, P d → ∃ d', idleRestart regionSize durable d = some d' ∧ P d') :
    ∀ (k : Nat) (d : Disk), P d → ∃ d', idleRestarts regionSize durable k d = some d' ∧ P d'
  | 0, d, h => ⟨d, rfl, h⟩
  | k + 1, d, h => by
    obtain ⟨mid, hidle, hmid⟩ := hstep d h
    obtain ⟨d', hrest, hd'⟩ := idleRestarts_keep hstep k mid hmid
    exact ⟨d', by rw [idleRestarts, hidle]; exact hrest, hd'⟩

theorem fitsArea_new (hfit : FitsArea regionSize r) : FitsArea regionSize (Index.new (2 ^ 16)) := by
  rw [FitsArea, encodeCheckpoint, Snapshot.encodeCheckpoint] at hfit ⊢
  split at hfit
  · cases hfit
  · rename_i hroom
    rw [if_neg hroom]
    rfl

/-- With an empty log the index is empty, and so is the checkpoint that replaces the old one. -/
theorem contents_idleRestart_nil (h : contents regionSize durable d = some (es, [])) :
    ∃ d', idleRestart regionSize durable d = some d' ∧ contents regionSize durable d' =
      some (if FitsArea regionSize (Index.new (2 ^ 16)) then [] else es, []) := by
  obtain ⟨r, d', hr, hidle, hcontents⟩ := contents_idleRestart h
  cases hr
  refine ⟨d', hidle, hcontents.trans ?_⟩
  split_ifs <;> rfl

/-- What does not fit is never saved. -/
theorem idleRestarts_unfit (k : Nat) (h : contents regionSize durable d = some (es, recs))
    (hload : Loads regionSize durable n d M) (hr : replayIndex recs = some r)
    (hfit : ¬ FitsArea regionSize r) :
    ∃ d', idleRestarts regionSize durable k d = some d' ∧ Loads regionSize durable n d' M := by
  have hstep : ∀ d, contents regionSize durable d = some (es, recs) →
      ∃ d', idleRestart regionSize durable d = some d' ∧
        contents regionSize durable d' = some (es, recs) := by
    intro d h
    obtain ⟨r', d', hr', hidle, hcontents⟩ := contents_idleRestart h
    cases hr.symm.trans hr'
    rw [if_neg hfit] at hcontents
    exact ⟨d', hidle, hcontents⟩
  obtain ⟨d', hidle, hcontents⟩ := idleRestarts_keep hstep k d h
  exact ⟨d', hidle, (loads_iff hcontents).mpr ((loads_iff h).mp hload)⟩

section Large

variable (hlarge : 2 ^ 16 ≤ n) (hn : n ≤ 2 ^ 64)

include hlarge hn

theorem exists_loads (h : contents regionSize durable d = some (es, recs)) :
    ∃ M, Loads regionSize durable n d M := by
  obtain ⟨idx, hrebuild, hsparse⟩ := rebuild_total ((length_of_contents h).trans hlarge) hn recs
  choose M hget using fun k => hsparse.get k 0
  exact ⟨M, (loads_iff h).mpr ⟨idx, hrebuild, hget⟩⟩

/-- The checkpoint with the log applied. -/
theorem loads_replayed (h : contents regionSize durable d = some (es, recs))
    (hnil : NilSafe (listed es) recs) :
    Loads regionSize durable n d (replayed (listed es) recs) := by
  obtain ⟨mid, hadd, hmid, hlisted⟩ := addEntries_new ((length_of_contents h).trans hlarge) hn
  obtain ⟨idx, hfold, hroomy, hhandles⟩ := foldlM_applyRecord recs hmid (hlisted ▸ hnil)
  refine (loads_iff h).mpr ⟨idx, by rw [rebuild, hadd]; exact hfold, fun k => ?_⟩
  rw [hroomy.get_zero, hhandles, hlisted]

/-- With an empty log nothing can go wrong with empty keys. -/
theorem loads_listed (h : contents regionSize durable d = some (es, [])) :
    Loads regionSize durable n d (listed es) :=
  loads_replayed hlarge hn h trivial

theorem loads_idleRestart (h : contents regionSize durable d = some (es, recs))
    (hload : Loads regionSize durable n d M) (hr : replayIndex recs = some r) :
    ∃ d', idleRestart regionSize durable d = some d' ∧
      Loads regionSize durable n d'
        (if FitsArea regionSize r then listed (r.snapshot.map saved) else M) := by
  obtain ⟨r', d', hr', hidle, hcontents⟩ := contents_idleRestart h
  cases hr.symm.trans hr'
  refine ⟨d', hidle, ?_⟩
  split_ifs at hcontents ⊢
  · exact loads_listed hlarge hn hcontents
  · exact (loads_iff hcontents).mpr ((loads_iff h).mp hload)

theorem idleRestart_iff (h : contents regionSize durable d = some (es, recs))
    (hload : Loads regionSize durable n d M) (hr : replayIndex recs = some r) :
    (∃ d', idleRestart regionSize durable d = some d' ∧ Loads regionSize durable n d' M) ↔
      (FitsArea regionSize r → listed (r.snapshot.map saved) = M) := by
  obtain ⟨d', hidle, hload'⟩ := loads_idleRestart hlarge hn h hload hr
  constructor
  · rintro ⟨d'', hidle', hkept⟩ hfit
    cases hidle.symm.trans hidle'
    rw [if_pos hfit] at hload'
    exact hload'.unique hkept
  · intro hsaved
    refine ⟨d', hidle, ?_⟩
    split_ifs at hload' with hfit
    · exact hsaved hfit ▸ hload'
    · exact hload'

/-- From then on nothing changes, if there was nothing in the checkpoint. -/
theorem idleRestarts_empty (k : Nat) (h : contents regionSize durable d = some (es, []))
    (hes : ∀ key, listed es key = none) : ∃ d', idleRestarts regionSize durable k d = some d' ∧
      Loads regionSize durable n d' fun _ => none := by
  have hstep : ∀ d, (∃ es, contents regionSize durable d = some (es, []) ∧
      ∀ key, listed es key = none) → ∃ d', idleRestart regionSize durable d = some d' ∧
      ∃ es, contents regionSize durable d' = some (es, []) ∧ ∀ key, listed es key = none := by
    rintro d ⟨es, h, hes⟩
    obtain ⟨d', hidle, hcontents⟩ := contents_idleRestart_nil h
    refine ⟨d', hidle, _, hcontents, fun key => ?_⟩
    split_ifs
    · rfl
    · exact hes key
  obtain ⟨d', hidle, es', hcontents, hes'⟩ := idleRestarts_keep hstep k d ⟨es, h, hes⟩
  exact ⟨d', hidle, funext hes' ▸ loads_listed hlarge hn hcontents⟩

/-- The second of two idle restarts has an empty log. -/
theorem idleRestarts_two (h : contents regionSize durable d = some (es, recs))
    (hr : replayIndex recs = some r) (hfit : FitsArea regionSize r) :
    ∃ d', idleRestarts regionSize durable 2 d = some d' ∧
      Loads regionSize durable n d' fun _ => none := by
  obtain ⟨r', mid, hr', hidle, hcontents⟩ := contents_idleRestart h
  cases hr.symm.trans hr'
  rw [if_pos hfit] at hcontents
  obtain ⟨d', hidle', hcontents'⟩ := contents_idleRestart_nil hcontents
  rw [if_pos (fitsArea_new hfit)] at hcontents'
  refine ⟨d', ?_, loads_listed hlarge hn hcontents'⟩
  rw [idleRestarts, hidle, Option.bind_some, idleRestarts, hidle']
  rfl

theorem idleRestarts_iff (h : contents regionSize durable d = some (es, recs))
    (hload : Loads regionSize durable n d M) (hr : replayIndex recs = some r) :
    (∀ k, ∃ d', idleRestarts regionSize durable k d = some d' ∧ Loads regionSize durable n d' M) ↔
      (FitsArea regionSize r → listed (r.snapshot.map saved) = M ∧ ∀ key, M key = none) := by
  constructor
  · intro hall hfit
    obtain ⟨d₁, hidle₁, hload₁⟩ := hall 1
    obtain ⟨_, hidle, heq⟩ := Option.bind_eq_some_iff.mp hidle₁
    cases heq
    have hone := (idleRestart_iff hlarge hn h hload hr).mp ⟨d₁, hidle, hload₁⟩ hfit
    obtain ⟨d₂, hidle₂, hload₂⟩ := hall 2
    obtain ⟨d₂', hidle₂', hnone⟩ := idleRestarts_two hlarge hn h hr hfit
    cases hidle₂.symm.trans hidle₂'
    exact ⟨hone, congrFun (hload₂.unique hnone)⟩
  · intro hsaved k
    by_cases hfit : FitsArea regionSize r
    · obtain ⟨hone, hnone⟩ := hsaved hfit
      cases k with
      | zero => exact ⟨d, rfl, hload⟩
      | succ k =>
        obtain ⟨r', mid, hr', hidle, hcontents⟩ := contents_idleRestart h
        cases hr.symm.trans hr'
        rw [if_pos hfit] at hcontents
        obtain ⟨d', hrest, hload'⟩ :=
          idleRestarts_empty hlarge hn k hcontents fun key => (congrFun hone key).trans (hnone key)
        refine ⟨d', by rw [idleRestarts, hidle]; exact hrest, ?_⟩
        rw [show M = fun _ => none from funext hnone]
        exact hload'
    · exact idleRestarts_unfit k h hload hr hfit

end Large

/-! ## When the log alone gives the map -/

/-- What the stop saves of the log. -/
theorem listed_replayIndex (hr : replayIndex recs = some r)
    (hnil : NilSafe (fun _ => none) recs) :
    listed (r.snapshot.map saved) = replayed (fun _ => none) recs := by
  have hroomy : (Index.new (2 ^ 16)).Roomy := HashIndex.roomy_new (by decide) (by decide)
  have hnew : (Index.new (2 ^ 16)).handles = fun _ => none :=
    funext (HashIndex.handles_new (2 ^ 16))
  obtain ⟨r', hfold, hr', hhandles⟩ := foldlM_applyRecord recs hroomy (hnew ▸ hnil)
  cases hr.symm.trans hfold
  rw [hnew] at hhandles
  have hword : ∀ k h, r.handles k = some h → h.metaWord.toNat < 256 := by
    rw [hhandles]
    exact replayed_forall (fun _ _ => (by decide : (0 : UInt16).toNat < 256)) fun _ _ hk => nomatch hk
  rw [listed_snapshot hr'.wf hword, hhandles]

/-- An idle restart keeps the map exactly if the index that the log alone gives does not fit into
the checkpoint area, so that nothing is saved, or lists the whole map already.  Any number of
them keeps it exactly if it does not fit, or there is nothing to keep.  Where the log does not
set the empty key over an entry for it, the map is that of the checkpoint with the log applied,
and the log gives all of it if it mentions every key of the checkpoint. -/
theorem idle_restarts_keep_iff (C : List Entry) (R : List WALRecord) (hlarge : 2 ^ 16 ≤ n)
    (hn : n ≤ 2 ^ 64) (hd : contents regionSize durable d = some (C, R)) :
    ∃ M r, Loads regionSize durable n d M ∧ replayIndex R = some r ∧
      ((∃ d', idleRestart regionSize durable d = some d' ∧ Loads regionSize durable n d' M) ↔
        (FitsArea regionSize r → listed (r.snapshot.map saved) = M)) ∧
      ((∀ k, ∃ d', idleRestarts regionSize durable k d = some d' ∧
          Loads regionSize durable n d' M) ↔
        (FitsArea regionSize r → listed (r.snapshot.map saved) = M ∧ ∀ key, M key = none)) ∧
      (NilSafe (listed C) R → M = replayed (listed C) R ∧
        (listed (r.snapshot.map saved) = M ↔
          ∀ key, listed C key ≠ none → ∃ rec ∈ R, rec.key.bytes = key)) := by
  obtain ⟨M, hload⟩ := exists_loads hlarge hn hd
  obtain ⟨r, _, hr, _⟩ := contents_idleRestart hd
  refine ⟨M, r, hload, hr, idleRestart_iff hlarge hn hd hload hr,
    idleRestarts_iff hlarge hn hd hload hr, fun hnil => ?_⟩
  obtain rfl : M = replayed (listed C) R := hload.unique (loads_replayed hlarge hn hd hnil)
  refine ⟨rfl, ?_⟩
  rw [listed_replayIndex hr (hnil.mono fun _ => rfl)]
  exact replayed_empty_iff

/-- A client that has stored one key, saved its index and stored the key again. -/
theorem exists_set_again : ∃ c₀ c₁ c, Client.start 16384 true 16 = some c₀ ∧
    run Client.step c₀ [.put [97] [1], .checkpoint] = some c₁ ∧
    c₁.Consistent [⟨[97], ⟨8192, 1, 0, 0⟩, 0⟩] [] ∧ c₁.pm.regionSize = 16384 ∧
    c₁.pm.durable = true ∧ c₁.StoresSafely .set [97] [2] ∧ c₁.step (.put [97] [2]) = some c ∧
    c.idx.handles [97] = some ⟨8200, 1, 0, 0⟩ := by
  obtain ⟨c₀, hstart, hguard, c, hrun, hsaved, c₁, hstep, hsafe, c₂, hput, hhandle⟩ : ∃ c₀,
      Client.start 16384 true 16 = some c₀ ∧
      Guarded Client.step Client.Safe c₀ [.put [97] [1]] ∧
      ∃ c, run Client.step c₀ [.put [97] [1]] = some c ∧
        c.idx.snapshot.map saved = [⟨[97], ⟨8192, 1, 0, 0⟩, 0⟩] ∧
        ∃ c₁, c.step .checkpoint = some c₁ ∧ c₁.StoresSafely .set [97] [2] ∧
          ∃ c₂, c₁.step (.put [97] [2]) = some c₂ ∧
            c₂.idx.handles [97] = some ⟨8200, 1, 0, 0⟩ := by
    decide +kernel
  obtain ⟨⟨es, as, h⟩, hrs, hdur⟩ := Client.consistent_run (by decide) (by decide) hstart hguard hrun
  obtain ⟨h₁, hrs₁, hdur₁⟩ := h.checkpointed hstep
  refine ⟨c₀, c₁, c₂, hstart, ?_, hsaved ▸ h₁, hrs₁.trans hrs, hdur₁.trans hdur, hsafe, hput, hhandle⟩
  rw [show [Call.put [97] [1], .checkpoint] = [.put [97] [1]] ++ [.checkpoint] from rfl, run_append,
    hrun, Option.bind_some, run, hstep]
  rfl

/-- A key that was set once more after the checkpoint. -/
theorem idle_restarts_keep_set_again :
    ∃ c₀ c d', Client.start 16384 true 16 = some c₀ ∧
      run Client.step c₀ [.put [97] [1], .checkpoint, .put [97] [2]] = some c ∧
      c.idx.handles [97] = some ⟨8200, 1, 0, 0⟩ ∧
      Loads 16384 true 65536 c.pm.disk c.idx.handles ∧
      idleRestart 16384 true c.pm.disk = some d' ∧ Loads 16384 true 65536 d' c.idx.handles := by
  obtain ⟨c₀, c₁, c, hstart, hrun, h₁, hrs₁, hdur₁, hsafe, hstep, hhandle⟩ := exists_set_again
  obtain ⟨⟨hd, h⟩, hrs, hdur⟩ :=
    h₁.entered hsafe (fun _ => ⟨rfl, rfl, rfl, rfl⟩) (by decide) hstep
  have hcontents := h.intact.contents
  rw [hrs, hrs₁, hdur, hdur₁] at hcontents
  have hlarge : 2 ^ 16 ≤ 65536 := by decide
  obtain ⟨M, r, hload, _, hone, _, hsafe⟩ :=
    idle_restarts_keep_iff _ _ hlarge (by decide) hcontents
  obtain ⟨hM, hcovers⟩ := hsafe h.nilSafe
  rw [h.replays] at hM
  subst hM
  have hmentioned : ∀ key, listed [⟨[97], ⟨8192, 1, 0, 0⟩, 0⟩] key ≠ none →
      ∃ rec ∈ ([] ++ [WAL.Append.set [97] [2] (logged hd)]).map WAL.Append.record,
        rec.key.bytes = key := by
    intro key hkey
    refine ⟨_, List.mem_singleton_self _, ?_⟩
    by_contra hne
    exact hkey (by simp [listed, HashIndex.firstOf]; exact hne)
  obtain ⟨d', hidle, hload'⟩ := hone.mpr fun _ => hcovers.mpr hmentioned
  refine ⟨c₀, c, d', hstart, ?_, hhandle, hload, hidle, hload'⟩
  rw [show [Call.put [97] [1], .checkpoint, .put [97] [2]] =
    [.put [97] [1], .checkpoint] ++ [.put [97] [2]] from rfl, run_append, hrun, Option.bind_some,
    run, hstep]
  rfl

/-- The checkpoint of one key and an empty log; the restart saves the empty index over it. -/
theorem checkpointed_key_lost :
    ∃ c₀ c d' M, Client.start 16384 true 16 = some c₀ ∧
      run Client.step c₀ [.put [97] [1], .checkpoint] = some c ∧
      Loads 16384 true 65536 c.pm.disk M ∧ M [97] = some ⟨8192, 1, 0, 0⟩ ∧
      idleRestart 16384 true c.pm.disk = some d' ∧ Loads 16384 true 65536 d' fun _ => none := by
  obtain ⟨c₀, c, _, hstart, hrun, h, hrs, hdur, _⟩ := exists_set_again
  have hcontents := h.intact.contents
  rw [hrs, hdur] at hcontents
  obtain ⟨d', hidle, hcontents'⟩ := contents_idleRestart_nil hcontents
  have hfit : FitsArea 16384 (Index.new (2 ^ 16)) := by decide +kernel
  rw [if_pos hfit] at hcontents'
  exact ⟨c₀, c, d', _, hstart, hrun, loads_listed (by decide) (by decide) hcontents, by decide,
    hidle, loads_listed (by decide) (by decide) hcontents'⟩

end Horreum.Persist
