/-
  Persist/Intact.lean --- managers whose files are in order, and the calls that keep them so.

  `Intact pm es as` says that the arena file of `pm` has its superblock and the checkpoint
  `es`, and that the log is exactly the appends `as`.  A fresh manager is intact, a stored
  value adds its record as long as it is not put into the checkpoint area, a deletion adds
  its record, and a checkpoint replaces the entries and empties the log.
-/
import Horreum.Persist.Recovery

set_option autoImplicit false

namespace Horreum.Persist

open Foundation
open Arena (Manager Handle Region openFileManager)
open Index (HashIndex Entry)

/-- The part of a handle that is logged. -/
def logged (h : Handle) : ArenaHandleLike := ⟨h.offset, h.size, h.region⟩

variable {a : WAL.Append}

theorem handle_of_logged {h : Handle} (hlike : a.handle = logged h) (hword : h.metaWord = 0) :
    a.record.handle = h := by
  simp only [WALRecord.handle, WAL.Append.record, hlike]
  rw [← hword]
  rfl

/-- The files hold a checkpoint of `es` and a log of `as`, and can be opened again. -/
structure Intact (pm : PersistentManager) (es : List Entry) (as : List WAL.Append) : Prop where
  large : 8192 ≤ pm.regionSize
  size : ∃ reg, pm.mgr.regions[0]? = some reg ∧ reg.data.size = pm.regionSize
  superblock : ∃ sb, readSuperblock pm.mgr = .ok sb
  checkpoint : HasCheckpoint pm.mgr pm.regionSize es
  fits : ∀ a ∈ as, a.Fits
  logs : pm.wal.Logs as
  maxOff : pm.wal.maxOff ≤ 2 ^ 26

variable {pm pm' : PersistentManager} {es : List Entry} {as : List WAL.Append} {L : Set Handle}
  {record : ArenaHandleLike → WAL.Append} {idx : HashIndex} {io : Io} {value : Bytes} {e : Error}

theorem Intact.openable (h : Intact pm es as) : Openable pm as := by
  have hlarge := h.large
  refine ⟨by omega, h.size, h.superblock, h.fits, [], ?_, ?_⟩
  · rw [List.append_nil, h.logs.file]
  · rw [List.append_nil]
    exact WAL.recordLen_end _

/-! ## A fresh manager -/

theorem walMaxLen_le (regionSize : Nat) : walMaxLen regionSize ≤ 2 ^ 26 := by
  simp only [walMaxLen]
  split_ifs <;> omega

theorem four_le_indexCheckpointMaxLen (regionSize : Nat) : 4 ≤ indexCheckpointMaxLen regionSize := by
  simp only [indexCheckpointMaxLen]
  split_ifs <;> omega

theorem hasCheckpoint_zeros {m : Manager} {reg : Region} {regionSize : Nat}
    (hreg : m.regions[0]? = some reg) (hsize : areaEnd regionSize ≤ reg.data.size)
    (hzeros : ∀ i, superblockSize ≤ i → reg.data.get i = 0) : HasCheckpoint m regionSize [] := by
  have hfour := four_le_indexCheckpointMaxLen regionSize
  have harea : superblockSize + indexCheckpointMaxLen regionSize ≤ reg.data.size := hsize
  have hread : reg.data.read superblockSize (indexCheckpointMaxLen regionSize) =
      List.replicate (indexCheckpointMaxLen regionSize) 0 := by
    rw [Cells.read_congr (d := Cells.fill 0 0) fun i hi _ => hzeros i hi]
    simp [Cells.read, Cells.fill, List.map_const']
  refine .inr ⟨?_, rfl⟩
  rw [loadCheckpoint, copyArenaTo_eq hreg, if_neg (by omega), hread]
  simp only [bind, Except.bind]
  rw [if_pos]
  rw [List.take_replicate, Nat.min_eq_left hfour]
  decide

theorem intact_new {regionSize : Nat} {durable : Bool} (hlarge : 8192 ≤ regionSize)
    (h : PersistentManager.new ⟨none, []⟩ regionSize durable = .ok pm) :
    Intact pm [] [] ∧ pm.mgr.Owns ∅ ∧ pm.regionSize = regionSize ∧ pm.durable = durable := by
  have harea := areaEnd_le hlarge
  have hle := superblockSize_le_areaEnd regionSize
  have hreg : (openFileManager regionSize (Cells.fill regionSize 0)).regions[0]? = some
      ⟨Cells.fill regionSize 0, _, _⟩ := rfl
  obtain ⟨_, m, harena, rfl⟩ := new_cases h
  obtain ⟨hsuper, hnone⟩ := openArena_cases harena
  obtain ⟨_, sb, rfl⟩ := hnone.resolve_right (by simp)
  have hlen := length_encodeSuperblock sb
  have hlast := poke_origin_first hreg 0 (encodeSuperblock sb)
  refine ⟨⟨hlarge, ⟨_, hlast, rfl⟩, hsuper, ?_,
    by simp, ⟨rfl, rfl⟩, walMaxLen_le regionSize⟩, ?_, rfl, rfl⟩
  · refine hasCheckpoint_zeros hlast harea fun i hi => ?_
    exact Cells.get_write_of_ge _ _ _ (by omega)
  · exact Manager.owns_poke (Manager.owns_openFileManager (Cells.size_fill regionSize 0)) origin 0
      (encodeSuperblock sb)

/-! ## Calls -/

theorem putWith_cases {res : Except Error (Handle × Bytes)}
    (h : pm.putWith io value record = some (res, pm')) :
    (∃ e mgr, pm.mgr.put value io.mmapOk = some (.error e, mgr) ∧ res = .error (.arena e) ∧
      pm' = { pm with mgr := mgr }) ∨
    ∃ hd mgr, pm.mgr.put value io.mmapOk = some (.ok hd, mgr) ∧
      ((∃ e wal, pm.wal.append (record (logged hd)) io.fault = (.error e, wal) ∧
          res = .error (.wal e) ∧ pm' = { pm with mgr := (mgr.free hd).2, wal := wal }) ∨
        ∃ off wal, pm.wal.append (record (logged hd)) io.fault = (.ok off, wal) ∧
          ((pm.durable ∧ ¬ io.syncOk) ∧ res = .error (.wal .sync) ∧
              pm' = { pm with mgr := (mgr.free hd).2, wal := wal } ∨
            ∃ seen, mgr.view hd = some seen ∧ pm' = { pm with mgr := mgr, wal := wal } ∧
              res = (seen.mapError Error.arena).map fun view => (hd, view))) := by
  unfold PersistentManager.putWith at h
  obtain ⟨⟨out, mgr⟩, hput, h⟩ := Option.bind_eq_some_iff.mp h
  cases out with
  | error e =>
    cases h
    exact .inl ⟨e, mgr, hput, rfl, rfl⟩
  | ok hd =>
    refine .inr ⟨hd, mgr, hput, ?_⟩
    cases happ : pm.wal.append (record (logged hd)) io.fault with
    | mk out wal =>
      simp only [logged] at happ
      simp only [happ] at h
      cases out with
      | error e =>
        cases h
        exact .inl ⟨e, wal, rfl, rfl, rfl⟩
      | ok off =>
        refine .inr ⟨off, wal, rfl, ?_⟩
        simp only at h
        split at h
        · rename_i hsync
          cases h
          exact .inl ⟨hsync, rfl, rfl⟩
        · obtain ⟨seen, hseen, h⟩ := Option.bind_eq_some_iff.mp h
          refine .inr ⟨seen, hseen, ?_⟩
          cases seen <;> cases h <;> exact ⟨rfl, rfl⟩

/-- What `Put` and `PutEx` do to a manager whose first region hands out nothing before `bound`. -/
structure PutAbove (bound : Nat) (pm pm' : PersistentManager) (res : Except Error (Handle × Bytes)) :
    Prop where
  owns : pm'.mgr.Owns ∅
  above : ∀ reg, pm'.mgr.regions[0]? = some reg → reg.alloc.Above bound
  head : HeadAgrees bound pm.mgr pm'.mgr
  regionSize : pm'.regionSize = pm.regionSize
  length_le : pm.mgr.regions.length ≤ pm'.mgr.regions.length
  returned : ∀ hd view, res = .ok (hd, view) →
    hd.region.toNat < pm'.mgr.regions.length ∧ (hd.region = 0 → bound ≤ hd.offset.toNat)

/-- The regions are those of the manager that has stored the value, whether or not its block is
given back. -/
theorem putWith_above {bound : Nat} {res : Except Error (Handle × Bytes)} (howns : pm.mgr.Owns ∅)
    (habove : ∀ reg, pm.mgr.regions[0]? = some reg → reg.alloc.Above bound)
    (hput : pm.putWith io value record = some (res, pm')) :
    PutAbove bound pm pm' res ∧ ∃ out mgr, pm.mgr.put value io.mmapOk = some (out, mgr) ∧
      mgr.regions.length = pm'.mgr.regions.length := by
  obtain ⟨out, mgr, hmgr, hspec⟩ := Manager.put_spec howns value io.mmapOk
  obtain ⟨habove', hlen, hplaced⟩ := above_put howns.wf habove hmgr
  have hhead : HeadAgrees bound pm.mgr mgr :=
    headAgrees_put howns.wf hmgr fun hd hres => (hplaced hd hres).2
  rcases putWith_cases hput with ⟨e, mgr', hmgr', rfl, rfl⟩ | ⟨hd, mgr', hmgr', hrest⟩
  · cases hmgr.symm.trans hmgr'
    exact ⟨⟨hspec.1, habove', hhead, rfl, hlen, fun _ _ hres => nomatch hres⟩, _, mgr, hmgr, rfl⟩
  · cases hmgr.symm.trans hmgr'
    have hstored := hspec.owns
    obtain ⟨hfreed, hsame⟩ := above_free habove' (hplaced hd rfl).2
    -- a call that fails after the value was stored gives its block back
    have hback : ∀ wal e, PutAbove bound pm { pm with mgr := (mgr.free hd).2, wal := wal }
        (.error e) := fun wal e =>
      ⟨(Manager.free_spec hstored (Set.mem_insert hd ∅)).2.1.mono (by simp), hfreed,
        hhead.trans (headAgrees_free hstored.wf hd bound), rfl, hsame.symm ▸ hlen,
        fun _ _ hres => nomatch hres⟩
    rcases hrest with ⟨e, wal, _, rfl, rfl⟩ | ⟨off, wal, _, ⟨_, rfl, rfl⟩ | ⟨seen, hseen, rfl, rfl⟩⟩
    · exact ⟨hback wal _, _, mgr, hmgr, hsame.symm⟩
    · exact ⟨hback wal _, _, mgr, hmgr, hsame.symm⟩
    · cases hseen.symm.trans hspec.view
      refine ⟨⟨hstored.mono (by simp), habove', hhead, rfl, hlen, fun hd' view hres => ?_⟩, _, mgr,
        hmgr, rfl⟩
      cases hres
      exact hplaced hd rfl

theorem putWith_ok {value view : Bytes} {hd : Handle}
    (h : pm.putWith io value record = some (.ok (hd, view), pm')) :
    ∃ mgr off wal, pm.mgr.put value io.mmapOk = some (.ok hd, mgr) ∧
      pm.wal.append (record (logged hd)) io.fault = (.ok off, wal) ∧
      pm' = { pm with mgr := mgr, wal := wal } := by
  rcases putWith_cases h with ⟨e, mgr, _, hres, _⟩ | ⟨hd', mgr, hput, hrest⟩
  · cases hres
  · rcases hrest with ⟨e, wal, _, hres, _⟩ | ⟨off, wal, happ, hrest⟩
    · cases hres
    · rcases hrest with ⟨_, hres, _⟩ | ⟨seen, _, rfl, hres⟩
      · cases hres
      · cases seen with
        | error e => cases hres
        | ok v =>
          cases hres
          exact ⟨mgr, off, wal, hput, happ, rfl⟩

/-- An append that succeeded wrote a complete record of moderate size. -/
theorem append_ok {w w' : WAL} {fault : Option Nat} {off : Nat}
    (h : w.append a fault = (.ok off, w')) :
    fault = none ∧ w.off + a.bytes.length ≤ w.maxOff := by
  rw [WAL.append_eq] at h
  split at h
  · cases h
  · cases fault with
    | some n => cases h
    | none => exact ⟨rfl, by omega⟩

theorem Intact.append (h : Intact pm es as) {fault : Option Nat} {off : Nat} {wal : WAL}
    (happ : pm.wal.append a fault = (.ok off, wal))
    (hkey : pm.wal.KeyFits a.op a.key a.value) :
    Intact { pm with wal := wal } es (as ++ [a]) ∧ a.value.length < 2 ^ 32 := by
  obtain ⟨rfl, hlen⟩ := append_ok happ
  obtain ⟨hlogs, hmax⟩ := h.logs.append happ
  have hle := h.maxOff
  have hbytes := WAL.length_bytes a
  have hvalue : a.value.length < 2 ^ 32 := by omega
  refine ⟨⟨h.large, h.size, h.superblock, h.checkpoint, ?_, hlogs, hmax ▸ hle⟩, hvalue⟩
  intro b hb
  rcases List.mem_append.mp hb with hb | hb
  · exact h.fits b hb
  · obtain rfl := List.mem_singleton.mp hb
    exact ⟨hkey.short hlen, hvalue⟩

/-- The arena may change behind the area. -/
theorem Intact.of_headAgrees (h : Intact pm es as) {mgr : Manager}
    (hagrees : HeadAgrees (areaEnd pm.regionSize) pm.mgr mgr) :
    Intact { pm with mgr := mgr } es as := by
  have hsb := hagrees.readSuperblock (superblockSize_le_areaEnd pm.regionSize)
  have hck := hagrees.loadCheckpoint (Nat.le_refl _)
  obtain ⟨reg, reg', hreg, hreg', hsize, _⟩ := hagrees
  obtain ⟨r, hr, hrs⟩ := h.size
  cases hreg.symm.trans hr
  refine ⟨h.large, ⟨reg', hreg', hsize.trans hrs⟩, ?_, ?_, h.fits, h.logs, h.maxOff⟩
  · obtain ⟨sb, hread⟩ := h.superblock
    exact ⟨sb, hsb.trans hread⟩
  · rw [HasCheckpoint, hck]
    exact h.checkpoint

/-- A value stored behind the checkpoint area. -/
theorem Intact.putWith (h : Intact pm es as) (hown : pm.mgr.Owns L) {value view : Bytes} {hd : Handle}
    (hput : pm.putWith io value record = some (.ok (hd, view), pm'))
    (hkey : ∀ l, pm.wal.KeyFits (record l).op (record l).key (record l).value)
    (hvalue : ∀ l, (record l).value = value)
    (hclear : hd.region = 0 → areaEnd pm.regionSize ≤ hd.offset.toNat) :
    Intact pm' es (as ++ [record (logged hd)]) ∧ pm.mgr.Stored L value hd pm'.mgr ∧
      pm'.regionSize = pm.regionSize ∧ pm'.durable = pm.durable := by
  obtain ⟨mgr, off, wal, hmgr, happ, rfl⟩ := putWith_ok hput
  obtain ⟨hintact, hlen⟩ := h.append happ (hkey _)
  rw [hvalue] at hlen
  have hagrees : HeadAgrees (areaEnd pm.regionSize) pm.mgr mgr := by
    refine headAgrees_put hown.wf hmgr fun hd' hok => ?_
    cases hok
    exact hclear
  refine ⟨hintact.of_headAgrees hagrees, ?_, rfl, rfl⟩
  have hst := Manager.stored_of_put hown hmgr
  rwa [Nat.mod_eq_of_lt hlen, List.take_length] at hst

/-- A call that fails for want of room in the arena or in the log. -/
theorem Intact.putWith_error (h : Intact pm es as) (hown : pm.mgr.Owns L)
    (hput : pm.putWith .fine value record = some (.error e, pm'))
    (hclear : ∀ hd mgr, pm.mgr.put value true = some (.ok hd, mgr) → hd.region = 0 →
      areaEnd pm.regionSize ≤ hd.offset.toNat) :
    Intact pm' es as ∧ pm'.mgr.Owns L ∧ pm'.regionSize = pm.regionSize ∧
      pm'.durable = pm.durable := by
  obtain ⟨res, mgr', hmgr', hspec⟩ := Manager.put_spec hown value true
  have hagrees : HeadAgrees (areaEnd pm.regionSize) pm.mgr mgr' := by
    refine headAgrees_put hown.wf hmgr' fun hd hok => ?_
    cases hok
    exact hclear hd mgr' hmgr'
  rcases putWith_cases hput with ⟨e', mgr, hmgr, _, rfl⟩ | ⟨hd, mgr, hmgr, hrest⟩
  · cases hmgr.symm.trans hmgr'
    exact ⟨h.of_headAgrees hagrees, hspec.1, rfl, rfl⟩
  · cases hmgr.symm.trans hmgr'
    rcases hrest with ⟨e', wal, happ, _, rfl⟩ | ⟨off, wal, happ, hrest⟩
    · -- without a fault an append fails only when the log is full, and leaves it as it is
      obtain rfl : pm.wal = wal := by
        rw [WAL.append_eq] at happ
        split at happ
        · exact congrArg Prod.snd happ
        · cases happ
      have hfree := (Manager.free_spec hspec.owns (Set.mem_insert hd L)).2.1
      refine ⟨h.of_headAgrees (hagrees.trans (headAgrees_free hspec.owns.wf hd _)), ?_, rfl, rfl⟩
      exact hfree.mono fun g hg => ⟨.inr hg, fun heq => hspec.fresh (heq ▸ hg)⟩
    · rcases hrest with ⟨hsync, _, _⟩ | ⟨seen, hseen, _, hres⟩
      · exact absurd rfl hsync.2
      · cases hseen.symm.trans hspec.view
        cases hres

theorem Intact.delete (h : Intact pm es as) {key : Bytes}
    (hdel : pm.delete io key = (.ok (), pm')) (hkey : pm.wal.KeyFits .del key []) :
    Intact pm' es (as ++ [.del key]) ∧ pm'.mgr = pm.mgr ∧ pm'.regionSize = pm.regionSize ∧
      pm'.durable = pm.durable := by
  unfold PersistentManager.delete at hdel
  split at hdel
  · cases hdel
  · rename_i off wal happ
    obtain rfl : { pm with wal := wal } = pm' := congrArg Prod.snd hdel
    exact ⟨(h.append happ hkey).1, rfl, rfl, rfl⟩

theorem Intact.area (h : Intact pm es as) :
    ∃ reg, pm.mgr.regions[0]? = some reg ∧ reg.data.size = pm.regionSize ∧
      areaEnd pm.regionSize ≤ reg.data.size := by
  obtain ⟨reg, hreg, hsize⟩ := h.size
  exact ⟨reg, hreg, hsize, hsize.symm ▸ areaEnd_le h.large⟩

/-- An index that does not fit into the area is not written at all. -/
theorem checkpoint_unfit
    (henc : encodeCheckpoint (indexCheckpointMaxLen pm.regionSize) idx.snapshot = .error e)
    (io : CheckpointIo) : pm.checkpoint io idx = (.error e, pm) := by
  simp only [PersistentManager.checkpoint, writeCheckpoint, henc]

/-- How far the checkpoint of an index that fits gets. -/
theorem checkpoint_fit {reg : Region} {sb : Superblock} {body : Bytes}
    (hreg : pm.mgr.regions[0]? = some reg) (harea : areaEnd pm.regionSize ≤ reg.data.size)
    (hsb : readSuperblock pm.mgr = .ok sb)
    (henc : encodeCheckpoint (indexCheckpointMaxLen pm.regionSize) idx.snapshot = .ok body)
    (io : CheckpointIo) : pm.checkpoint io idx =
      let mid := pm.mgr.poke origin superblockSize body
      let done := mid.poke origin 0 (encodeSuperblock (sb.afterCheckpoint idx.snapshot))
      if !io.syncBody then (.error .syncFailed, { pm with mgr := mid })
      else if !io.syncSuper then (.error .syncFailed, { pm with mgr := done })
      else if io.truncateOk then (.ok (), { pm with mgr := done, wal := pm.wal.rotate })
      else (.error (.wal .write), { pm with mgr := done }) := by
  unfold PersistentManager.checkpoint
  rw [writeCheckpoint_eq hreg harea hsb henc]
  cases io.syncBody <;> cases io.syncSuper <;> rfl

theorem Intact.checkpoint_eq (h : Intact pm es as) {body : Bytes}
    (henc : encodeCheckpoint (indexCheckpointMaxLen pm.regionSize) idx.snapshot = .ok body) :
    ∃ sb, sb.version = version ∧ ∀ io, pm.checkpoint io idx =
      let mid := pm.mgr.poke origin superblockSize body
      let done := mid.poke origin 0 (encodeSuperblock sb)
      if !io.syncBody then (.error .syncFailed, { pm with mgr := mid })
      else if !io.syncSuper then (.error .syncFailed, { pm with mgr := done })
      else if io.truncateOk then (.ok (), { pm with mgr := done, wal := pm.wal.rotate })
      else (.error (.wal .write), { pm with mgr := done }) := by
  obtain ⟨reg, hreg, _, harea⟩ := h.area
  obtain ⟨sb, hsb⟩ := h.superblock
  exact ⟨_, version_afterCheckpoint hsb idx.snapshot, checkpoint_fit hreg harea hsb henc⟩

/-- A checkpoint replaces the entries and empties the log. -/
theorem Intact.checkpoint_ok (h : Intact pm es as) {io : CheckpointIo}
    (hck : pm.checkpoint io idx = (.ok (), pm')) :
    Intact pm' (idx.snapshot.map saved) [] ∧
      Checkpointed pm.mgr pm'.mgr pm.regionSize idx.snapshot ∧
      pm'.regionSize = pm.regionSize ∧ pm'.durable = pm.durable := by
  obtain ⟨reg, hreg, hsize, harea⟩ := h.area
  cases henc : encodeCheckpoint (indexCheckpointMaxLen pm.regionSize) idx.snapshot with
  | error e => cases (checkpoint_unfit henc io).symm.trans hck
  | ok body =>
    obtain ⟨sb, hver, heq⟩ := h.checkpoint_eq henc
    have hdone := checkpointed hreg harea henc hver
    obtain ⟨reg', hreg', hsame⟩ := hdone.size
    rw [heq] at hck
    dsimp only at hck
    split_ifs at hck <;> cases hck
    exact ⟨⟨h.large, ⟨reg', hreg', (hsame reg hreg).trans hsize⟩, hdone.superblock,
      .inl hdone.checkpoint, by simp, ⟨rfl, rfl⟩, h.maxOff⟩, hdone, rfl, rfl⟩

/-- A checkpoint fails without touching anything, if nothing else fails. -/
theorem Intact.checkpoint_error (h : Intact pm es as)
    (hck : pm.checkpoint .fine idx = (.error e, pm')) : pm' = pm := by
  cases henc : encodeCheckpoint (indexCheckpointMaxLen pm.regionSize) idx.snapshot with
  | error e' => exact (congrArg Prod.snd ((checkpoint_unfit henc .fine).symm.trans hck)).symm
  | ok body =>
    obtain ⟨sb, _, heq⟩ := h.checkpoint_eq henc
    cases (heq .fine).symm.trans hck

end Horreum.Persist
