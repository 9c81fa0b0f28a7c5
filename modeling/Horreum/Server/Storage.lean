/-
  Server/Storage.lean --- the storage of a server in persistent mode, `initPersistentStorage` in
  `cmd/horreum/main.go`.

  The start builds the shards on the arena of the manager and rebuilds an index from the log.  The
  shards keep indexes of their own and write nothing to the log.  So after a restart the values are
  still in the file, but no key leads to them.
-/
import Horreum.Persist.IdleRestart
import Horreum.Transport.Responses

set_option autoImplicit false

namespace Horreum.Server

open Foundation
open Proto
open Compress (Compressor)
open Encrypt (Cipher)
open Index (HashIndex)
open Persist (Disk PersistentManager CheckpointIo replayTo)
open Transport (Env Hashes Reply ShardCache ShardIndex ShardSet newShardIndex
  newShardSetFromArena)

/-! ## Start and stop -/

/-- The settings that the start passes on. -/
structure Options where
  durable : Bool
  regionSize : Nat
  shards : Int
  evictCapacity : Nat
  comp : Compressor
  cip : Cipher

/-- The shards, and what `closeStorage` works on.  The arena of the shards is the one of `pm`. -/
structure StorageBackend where
  pm : PersistentManager
  sets : ShardSet
  index : HashIndex

/-- The shards would share the arena, so there is one shard whatever the option says. -/
def buildShardSetFromArena (mgr : Arena.Manager) (numShards : Int) (evictCap : Nat)
    (comp : Compressor) (cipher : Cipher) : Option ShardSet :=
  newShardSetFromArena mgr (if numShards > 1 then 1 else numShards) evictCap comp cipher

/-- A server that cannot open its files exits, which is `none`. -/
def initPersistentStorage (d : Disk) (o : Options) : Option StorageBackend :=
  match PersistentManager.new d o.regionSize o.durable with
  | .error _ => none
  | .ok pm => do
    let sets ← buildShardSetFromArena pm.mgr o.shards o.evictCapacity o.comp o.cip
    let index ← replayTo pm.wal (Index.new (2 ^ 16))
    some ⟨pm, sets, index⟩

namespace StorageBackend

/-- The files after `closeStorage`.  `Sync` writes nothing that is not in the mapped file. -/
def closeStorage (sb : StorageBackend) (io : CheckpointIo) : Disk :=
  (sb.pm.checkpoint io sb.index).2.disk

/-- The shards have worked, on the arena that they share with the manager. -/
def setSets (sb : StorageBackend) (ss : ShardSet) : StorageBackend :=
  { sb with sets := ss, pm := { sb.pm with mgr := ss.arenas.headD sb.pm.mgr } }

end StorageBackend

/-! ## Requests -/

/-- A frame and the worker that handles it. -/
structure Request where
  env : Env
  frame : Frame
  worker : Nat

/-- Status and value of the response that `HandleFrame` encodes. -/
def respond (H : Hashes) (ss : ShardSet) (req : Request) : Option (Reply × ShardSet) :=
  ss.answerTo H req.worker req.env req.frame

namespace StorageBackend

/-- A request on the backend. -/
def handle (H : Hashes) (sb : StorageBackend) (req : Request) :
    Option (Reply × StorageBackend) :=
  (respond H sb.sets req).map fun out => (out.1, sb.setSets out.2)

/-- What a GET of the key is answered, on the worker that owns it. -/
def get (H : Hashes) (sb : StorageBackend) (now : UInt32) (key : Bytes) : Option Reply :=
  (respond H sb.sets ⟨⟨now, none, true⟩, ⟨.get, 0, key, []⟩, sb.sets.cacheIndexFor H key⟩).map
    Prod.fst

end StorageBackend

/-- The replies of a server that handles these requests, and the files it leaves. -/
def session (H : Hashes) (o : Options) (io : CheckpointIo) (d : Disk) (reqs : List Request) :
    Option (List Reply × Disk) := do
  let sb ← initPersistentStorage d o
  let (replies, sb) ← answers (StorageBackend.handle H) sb reqs
  some (replies, sb.closeStorage io)

/-! ## Acknowledged writes -/

/-- Whether the frame can change what is stored for the key. -/
def writes (fr : Frame) (key : Bytes) : Bool :=
  match fr.op with
  | .get | .scan | .hGet | .hGetAll | .lLen | .sIsMember | .sMembers => false
  | .delPrefix => fr.key.isPrefixOf key
  | _ => fr.key == key

/-- The last write to the key that was answered with OK. -/
def lastWrite (key : Bytes) (log : List (Request × Reply)) : Option Frame :=
  (log.reverse.find? fun p => p.2.status == 0 && writes p.1.frame key).map fun p => p.1.frame

/-- After a restart with the options `o` the key has the value. -/
def Survives (H : Hashes) (o : Options) (d : Disk) (now : UInt32) (key value : Bytes) : Prop :=
  ∃ sb, initPersistentStorage d o = some sb ∧ sb.get H now key = some ⟨0, value⟩

/-! ## The start -/

section Start

variable {o : Options} {d : Disk} {sb : StorageBackend}

theorem init_cases (h : initPersistentStorage d o = some sb) :
    PersistentManager.new d o.regionSize o.durable = .ok sb.pm ∧
      buildShardSetFromArena sb.pm.mgr o.shards o.evictCapacity o.comp o.cip = some sb.sets := by
  unfold initPersistentStorage at h
  split at h
  · cases h
  · rename_i pm hnew
    obtain ⟨sets, hsets, h⟩ := Option.bind_eq_some_iff.mp h
    obtain ⟨index, _, h⟩ := Option.bind_eq_some_iff.mp h
    cases h
    exact ⟨hnew, hsets⟩

theorem bounded_new {regionSize : Nat} {durable : Bool} {pm : PersistentManager}
    (h : PersistentManager.new d regionSize durable = .ok pm) : pm.mgr.Bounded := by
  obtain ⟨_, m, harena, rfl⟩ := Persist.new_cases h
  rcases (Persist.openArena_cases harena).2 with ⟨_, superblock, rfl⟩ | ⟨data, _, rfl⟩
  · have hsize : (Cells.fill regionSize (0 : UInt8)).size = regionSize := rfl
    exact ((Arena.Manager.owns_openFileManager hsize).wf.bounded.poke Persist.origin 0
      (Persist.encodeSuperblock superblock)).1
  · exact (Arena.Manager.owns_openFileManager rfl).wf.bounded

/-- So what holds of every set of shards holds of the one in persistent mode. -/
theorem init_built (h : initPersistentStorage d o = some sb) : sb.sets.Built := by
  obtain ⟨hnew, hsets⟩ := init_cases h
  exact .inr ⟨sb.pm.mgr, _, o.evictCapacity, o.comp, o.cip, bounded_new hnew, hsets⟩

end Start

/-! ## The next start -/

/-- A new set has nothing in its indexes. -/
theorem cacheAt_newShardSetFromArena (H : Hashes) {mgr : Arena.Manager} {shards : Int}
    {evictCap : Nat} {comp : Compressor} {cip : Cipher} {ss : ShardSet}
    (h : newShardSetFromArena mgr shards evictCap comp cip = some ss) (key : Bytes) :
    ∃ c, ss.cacheAt (ss.cacheIndexFor H key) = some c ∧ c.idx = newShardIndex := by
  obtain ⟨ev, _, h⟩ := Option.bind_eq_some_iff.mp h
  cases h
  have hpos : 0 < (if shards ≤ 0 then 1 else shards.toNat) := by split <;> omega
  refine ⟨⟨mgr, ev, newShardIndex, comp, cip⟩, ?_, rfl⟩
  have hlt : (H.hashKey key).toNat % (if shards ≤ 0 then 1 else shards.toNat) <
      (if shards ≤ 0 then 1 else shards.toNat) := Nat.mod_lt _ hpos
  simp only [ShardSet.cacheAt, ShardSet.cacheIndexFor, List.length_replicate,
    if_neg (Nat.ne_of_gt hpos), List.getElem?_replicate, if_pos hlt, Option.bind_eq_bind,
    Option.bind_some, List.getElem?_cons_zero]

theorem get_of_init {H : Hashes} {d : Disk} {o : Options} {sb : StorageBackend}
    (h : initPersistentStorage d o = some sb) (now : UInt32) (key : Bytes) :
    sb.get H now key = some .failed := by
  obtain ⟨c, hc, hidx⟩ := cacheAt_newShardSetFromArena H (init_cases h).2 key
  have hnone : c.get H now key = some (.error .notFound, c) := by
    rw [ShardCache.get, hidx, ShardIndex.wf_new.get,
      show newShardIndex.lookup key = none from ShardIndex.lookup_blank key]
    rfl
  simp only [StorageBackend.get, respond, ShardSet.answerTo, ne_eq, not_true_eq_false, and_false, if_false,
    ShardSet.dispatch, ShardSet.handleGet, ShardSet.answer, ShardSet.onKey, ShardSet.onShard, hc,
    hnone, Option.bind_eq_bind, Option.bind_some, Option.map_some]

/-- After any session, from any files, a restart that succeeds answers every GET with an error.
So the keys whose last acknowledged write was a SET have their values exactly if there is no such
key. -/
theorem restart_forgets (H : Hashes) (o o' : Options) (io : CheckpointIo) (d : Disk)
    (reqs : List Request) (now : UInt32) :
    (∀ replies d', session H o io d reqs = some (replies, d') →
      ∀ sb, initPersistentStorage d' o' = some sb → ∀ key, sb.get H now key = some .failed) ∧
    ((∀ replies d', session H o io d reqs = some (replies, d') →
        ∀ key fr, lastWrite key (reqs.zip replies) = some fr → fr.op = .set →
          Survives H o' d' now key fr.value) ↔
      ∀ replies d', session H o io d reqs = some (replies, d') →
        ∀ key fr, lastWrite key (reqs.zip replies) = some fr → fr.op ≠ .set) := by
  refine ⟨fun _ _ _ sb hinit key => get_of_init hinit now key, ?_, ?_⟩
  · intro hall replies d' hsession key fr hlast hop
    obtain ⟨sb, hinit, hget⟩ := hall replies d' hsession key fr hlast hop
    rw [get_of_init hinit] at hget
    cases hget
  · intro hnone replies d' hsession key fr hlast hop
    exact absurd hop (hnone replies d' hsession key fr hlast)

/-- One shard, a region of 16384 bytes and room for four objects. -/
def smallOptions : Options := ⟨true, 16384, 1, 4, .noop, .noop⟩

/-- A key is set and read. -/
def setThenGet : List Request :=
  [⟨⟨0, none, true⟩, ⟨.set, 0, [107], [1]⟩, 0⟩, ⟨⟨0, none, true⟩, ⟨.get, 0, [107], []⟩, 0⟩]

/-- On an empty directory SET is answered with OK and GET with the value; after a restart GET is
answered with an error. -/
theorem set_lost_by_restart :
    ∃ replies d' sb, session Hashes.source smallOptions .fine ⟨none, []⟩ setThenGet =
        some (replies, d') ∧
      replies.map (fun r => (r.status, r.value)) = [(0, []), (0, [1])] ∧
      lastWrite [107] (setThenGet.zip replies) = some ⟨.set, 0, [107], [1]⟩ ∧
      initPersistentStorage d' smallOptions = some sb ∧
      (sb.get Hashes.source 0 [107]).map (fun r => (r.status, r.value)) = some (1, []) := by
  simp only [exists_and_left]
  decide +kernel

end Horreum.Server
