/-
  Persist/Checkpoint.lean --- the index checkpoint, `checkpoint.go` in
  `internal/arena/persist`.

  A snapshot of the index is written behind the superblock.  The format is that of
  `Snapshots.lean`, on entries whose hash is that of their key.

  The new body goes over the old one in place, and nothing in it says how long it is or
  whether it is complete.
-/
import Horreum.Index.HashIndex
import Horreum.Persist.Snapshots

set_option autoImplicit false

namespace Horreum.Persist

open Foundation
open Arena (Manager Handle)
open Index (Bucket Entry)

/-- The entry of a bucket.  The hash is not used: the index computes it again. -/
def Snapshot.entry (se : Bucket) : Entry := ⟨se.key, se.handle, se.expiresAt⟩

/-- The body for these entries, in a buffer of `cap` bytes. -/
def encodeCheckpoint (cap : Nat) (snap : List Entry) : Except Error Bytes :=
  Snapshot.encodeCheckpoint cap (snap.map Entry.cached)

/-- The entries, and the position behind them. -/
def decodeCheckpoint (buf : Bytes) : Except Error (List Entry × Nat) :=
  (Snapshot.decodeCheckpoint buf).map fun out => (out.1.map Snapshot.entry, out.2)

/-! ## The checkpoint area of the arena file -/

/-- Write the body, sync, update the superblock, sync.  An error leaves what was written. -/
def writeCheckpoint (m : Manager) (snap : List Entry) (regionSize : Nat)
    (syncBody syncSuper : Bool) : Except Error Nat × Manager :=
  match encodeCheckpoint (indexCheckpointMaxLen regionSize) snap with
  | .error e => (.error e, m)
  | .ok body =>
    match copyToArena m superblockSize body with
    | .error e => (.error e, m)
    | .ok m =>
      if !syncBody then (.error .syncFailed, m)
      else
        match readSuperblock m with
        | .error e => (.error e, m)
        | .ok sb =>
          match setSuperblock m { sb with
            checkpointCount := UInt64.ofNat snap.length, walOffset := 0 } with
          | .error e => (.error e, m)
          | .ok m => if !syncSuper then (.error .syncFailed, m) else (.ok body.length, m)

/-- `loadCheckpoint` -/
def loadCheckpoint (m : Manager) (regionSize : Nat) : Except Error (List Entry) := do
  let body ← copyArenaTo m superblockSize (indexCheckpointMaxLen regionSize)
  if body.take 4 ≠ checkpointMagic then .error .checkpointBadMagic
  else
    let (entries, _) ← decodeCheckpoint body
    .ok entries

/-! ## The entries as buckets -/

variable {es : List Entry} {buf : Bytes} {k : Nat}

theorem decodeCheckpoint_inv (h : decodeCheckpoint buf = .ok (es, k)) :
    ∃ snap, Snapshot.decodeCheckpoint buf = .ok (snap, k) ∧ es = snap.map Snapshot.entry := by
  cases hdecode : Snapshot.decodeCheckpoint buf with
  | error err =>
    rw [decodeCheckpoint, hdecode] at h
    cases h
  | ok out =>
    rw [decodeCheckpoint, hdecode] at h
    cases h
    exact ⟨out.1, rfl, rfl⟩

theorem headed_of_decode
    (h : decodeCheckpoint buf = .ok (es, k)) : Snapshot.Headed buf := by
  obtain ⟨snap, hdecode, _⟩ := decodeCheckpoint_inv h
  obtain ⟨n, hheader, _⟩ := bind_eq_ok hdecode
  exact (Snapshot.decodeHeader_eq_ok.mp hheader).1

theorem decodeCheckpoint_ok (h : decodeCheckpoint buf = .ok (es, k)) :
    checkpointHeaderSize + checkpointEntryFixedSize * es.length ≤ buf.length ∧
      ∀ e ∈ es, e.handle.metaWord.toNat < 256 := by
  obtain ⟨snap, hdecode, rfl⟩ := decodeCheckpoint_inv h
  obtain ⟨hlen, hwords⟩ := Snapshot.decodeCheckpoint_ok hdecode
  refine ⟨by rwa [List.length_map], fun e he => ?_⟩
  obtain ⟨se, hse, rfl⟩ := List.mem_map.mp he
  exact hwords se hse

/-! ## Round trip -/

/-- What of an entry comes back. -/
def saved (e : Entry) : Entry :=
  ⟨e.key, { e.handle with metaWord := e.handle.metaWord.toUInt8.toUInt16 }, 0⟩

theorem map_saved (es : List Entry) :
    ((es.map Entry.cached).map Snapshot.restored).map Snapshot.entry = es.map saved := by
  rw [List.map_map, List.map_map]
  rfl

/-- A checkpoint that the encoder accepts fits in the buffer. -/
theorem length_encodeCheckpoint {cap : Nat} {snap : List Entry} {body : Bytes}
    (h : encodeCheckpoint cap snap = .ok body) : body.length ≤ cap :=
  (Snapshot.encodeCheckpoint_ok h).length_le

/-- A checkpoint decodes to its entries, whatever is behind it. -/
theorem decodeCheckpoint_encodeCheckpoint {cap : Nat} {snap : List Entry} {body : Bytes}
    (hcap : cap ≤ 2 ^ 20) (h : encodeCheckpoint cap snap = .ok body) (rest : Bytes) :
    decodeCheckpoint (body ++ rest) = .ok (snap.map saved, body.length) := by
  have henc := Snapshot.encodeCheckpoint_ok h
  have hfew : (snap.map Entry.cached).length < 2 ^ 32 := by
    have hlen := henc.length_le
    have hmany := henc.length_snapshot_le
    omega
  rw [decodeCheckpoint, henc.decode_small hfew, Except.map, map_saved]

end Horreum.Persist
