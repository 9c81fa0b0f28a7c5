/-
  Persist/PersistentManager.lean --- the persistent arena, `persist.go` and `recovery.go` in
  `internal/arena/persist`.

  An arena whose first region is a mapped file, and a write-ahead log.  The caller keeps the index,
  hands it to `Checkpoint`, and has it rebuilt by `LoadIndex`.  What the outside world decides is in
  `Io`.  A crash keeps the two files, which is `disk`; further regions are anonymous and go.
-/
import Horreum.Arena.Manager
import Horreum.Persist.Checkpoint

set_option autoImplicit false

namespace Horreum.Persist

open Foundation
open Arena (Manager Handle openFileManager)
open Index (HashIndex Entry)

/-- The two files of the directory. -/
structure Disk where
  arena : Option (Cells UInt8)
  wal : Bytes

/-- The arena and the log on disk. -/
structure PersistentManager where
  mgr : Manager
  wal : WAL
  regionSize : Nat
  durable : Bool

/-- Whether a further mapping is granted, how much of a log record a failing write leaves,
and whether the log can be synced. -/
structure Io where
  mmapOk : Bool
  fault : Option Nat
  syncOk : Bool
  deriving DecidableEq, Repr

/-- Nothing fails. -/
def Io.fine : Io := ⟨true, none, true⟩

/-- The syncs of the arena and the truncation of the log in a checkpoint. -/
structure CheckpointIo where
  syncBody : Bool
  syncSuper : Bool
  truncateOk : Bool
  deriving DecidableEq, Repr

/-- Nothing fails. -/
def CheckpointIo.fine : CheckpointIo := ⟨true, true, true⟩

/-! ## Starting -/

/-- Create the file with a fresh superblock, or map it and validate its superblock.  The mapping
covers `regionSize` bytes of the file. -/
def openArena (arena : Option (Cells UInt8)) (regionSize : Nat) : Except Error Manager :=
  match arena with
  | none => writeFreshSuperblock (openFileManager regionSize (Cells.fill regionSize 0)) regionSize
  | some data => do
    let m := openFileManager regionSize { data with size := regionSize }
    let _ ← readSuperblock m
    .ok m

/-- The arena and the log file after the cold start; the replay without an index only reads. -/
def coldStart (d : Disk) (regionSize : Nat) : Except Error (Manager × Bytes) := do
  let m ← openArena d.arena regionSize
  .ok (m, (WAL.openWAL d.wal (walMaxLen regionSize)).file)

/-- What a WAL record does to the index; a nil key is passed on as it is. -/
def applyRecord (idx : HashIndex) (r : WALRecord) : Option HashIndex :=
  match r.op with
  | .set => (idx.put r.key r.handle 0).map Prod.snd
  | .setEx => (idx.put r.key r.handle r.expiresAt).map Prod.snd
  | .del => (idx.delete r.key.bytes).map Prod.snd

/-- Apply the records up to the first one the iterator does not accept. -/
def replayTo (w : WAL) (idx : HashIndex) : Option HashIndex := do
  let (recs, _) ← w.iterate 0
  recs.foldlM applyRecord idx

/-- `idx.Add` for every entry of a checkpoint. -/
def addEntries (es : List Entry) (idx : HashIndex) : Option HashIndex :=
  es.foldlM (fun idx e => (idx.add (some e.key) e.handle e.expiresAt).map Prod.snd) idx

namespace PersistentManager

/-- `New` -/
def new (d : Disk) (regionSize : Nat) (durable : Bool) : Except Error PersistentManager :=
  if regionSize = 0 then .error .regionSizeZero
  else do
    let (mgr, file) ← coldStart d regionSize
    .ok ⟨mgr, WAL.openWAL file (walMaxLen regionSize), regionSize, durable⟩

/-- The live counter is the number of entries, the bump pointer is behind the sum of their
sizes. -/
def syncLiveObjects (pm : PersistentManager) (idx : HashIndex) : PersistentManager :=
  let used := (idx.snapshot.map fun e => e.handle.size.toNat).sum
  { pm with mgr := (pm.mgr.setLiveObjects idx.count).setUsedBytes used }

/-- `LoadIndex`: the checkpoint, then the log. -/
def loadIndex (pm : PersistentManager) (idx : HashIndex) :
    Option (Except Error Unit × HashIndex × PersistentManager) :=
  match loadCheckpoint pm.mgr pm.regionSize with
  | .error .checkpointBadMagic => do
    let idx ← replayTo pm.wal idx
    some (.ok (), idx, pm.syncLiveObjects idx)
  | .error e => some (.error e, idx, pm)
  | .ok entries => do
    let idx ← addEntries entries idx
    let idx ← replayTo pm.wal idx
    some (.ok (), idx, pm.syncLiveObjects idx)

/-! ## Calls -/

/-- `Put` and `PutEx`, which differ in the record they log.  The block is given back when the
record cannot be written or synced, whatever of it is in the file by then. -/
def putWith (pm : PersistentManager) (io : Io) (value : Bytes)
    (record : ArenaHandleLike → WAL.Append) :
    Option (Except Error (Handle × Bytes) × PersistentManager) := do
  match ← pm.mgr.put value io.mmapOk with
  | (.error e, mgr) => some (.error (.arena e), { pm with mgr := mgr })
  | (.ok h, mgr) =>
    match pm.wal.append (record ⟨h.offset, h.size, h.region⟩) io.fault with
    | (.error e, wal) =>
      some (.error (.wal e), { pm with mgr := (mgr.free h).2, wal := wal })
    | (.ok _, wal) =>
      if pm.durable ∧ ¬ io.syncOk then
        some (.error (.wal .sync), { pm with mgr := (mgr.free h).2, wal := wal })
      else
        match ← mgr.view h with
        | .error e => some (.error (.arena e), { pm with mgr := mgr, wal := wal })
        | .ok view => some (.ok (h, view), { pm with mgr := mgr, wal := wal })

/-- `Put` -/
def put (pm : PersistentManager) (io : Io) (key value : Bytes) :
    Option (Except Error (Handle × Bytes) × PersistentManager) :=
  pm.putWith io value fun h => .set key value h

/-- `PutEx` -/
def putEx (pm : PersistentManager) (io : Io) (key value : Bytes) (expiresAt : UInt32) :
    Option (Except Error (Handle × Bytes) × PersistentManager) :=
  pm.putWith io value fun h => .setEx key value h expiresAt

/-- `View` -/
def view (pm : PersistentManager) (h : Handle) : Option (Except Arena.Error Bytes) := pm.mgr.view h

/-- `Delete` logs; the caller removes the key from its index. -/
def delete (pm : PersistentManager) (io : Io) (key : Bytes) :
    Except Error Unit × PersistentManager :=
  match pm.wal.append (.del key) io.fault with
  | (.error e, wal) => (.error (.wal e), { pm with wal := wal })
  | (.ok _, wal) =>
    (if pm.durable ∧ ¬ io.syncOk then .error (.wal .sync) else .ok (), { pm with wal := wal })

/-- `Checkpoint`: write the index, then start the log anew. -/
def checkpoint (pm : PersistentManager) (io : CheckpointIo) (idx : HashIndex) :
    Except Error Unit × PersistentManager :=
  match writeCheckpoint pm.mgr idx.snapshot pm.regionSize io.syncBody io.syncSuper with
  | (.error e, mgr) => (.error e, { pm with mgr := mgr })
  | (.ok _, mgr) =>
    if io.truncateOk then (.ok (), { pm with mgr := mgr, wal := pm.wal.rotate })
    else (.error (.wal .write), { pm with mgr := mgr })

/-! ## Crash and restart -/

/-- What a crash leaves. -/
def disk (pm : PersistentManager) : Disk := ⟨pm.mgr.regions.head?.map (·.data), pm.wal.file⟩

/-- `New`, and `LoadIndex` into a fresh index with room for `buckets`. -/
def restart (d : Disk) (regionSize : Nat) (durable : Bool) (buckets : Nat) :
    Option (Except Error (HashIndex × PersistentManager)) :=
  match new d regionSize durable with
  | .error e => some (.error e)
  | .ok pm => (pm.loadIndex (Index.new buckets)).map fun (res, idx, pm) =>
    res.map fun _ => (idx, pm)

end PersistentManager

end Horreum.Persist
