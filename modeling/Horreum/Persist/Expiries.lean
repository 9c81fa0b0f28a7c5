/-
  Persist/Expiries.lean --- what of an index survives a checkpoint.

  A checkpoint gives back hash, key and handle of every entry, in order.  It has no place for
  expiries: an entry comes back without one, and a key that was stored for a time is there for
  good once the index has been saved and loaded.
-/
import Horreum.Persist.Replay

set_option autoImplicit false

namespace Horreum.Persist

open Foundation
open Arena (Manager Handle Region)
open Foundation.Probing (entries occupied)
open Index (Bucket HashIndex Entry)

/-! ## The format -/

namespace Snapshot

/-- Hash, key, handle and expiry. -/
def content (se : Bucket) : UInt64 × Bytes × Handle × UInt32 :=
  (se.hash, se.key, se.handle, se.expiresAt)

/-- Whatever is behind these bytes, they are read to the end and give the same entries. -/
def RoundTrips (snap : List Bucket) (body : Bytes) : Prop :=
  ∀ rest, ∃ out, decodeCheckpoint (body ++ rest) = .ok (out, body.length) ∧
    out.map content = snap.map content

variable {cap : Nat} {snap : List Bucket} {body : Bytes} {se : Bucket}

theorem content_restored (hmeta : se.handle.metaWord.toNat < 256) :
    content (restored se) = (se.hash, se.key, se.handle, 0) := by
  have hhandle : (saved (entry se)).handle = se.handle := saved_handle hmeta
  exact congrArg (fun h => (se.hash, se.key, h, (0 : UInt32))) hhandle

theorem content_restored_iff (hmeta : se.handle.metaWord.toNat < 256) :
    content (restored se) = content se ↔ se.expiresAt = 0 := by
  rw [content_restored hmeta, content]
  simp only [Prod.mk.injEq, true_and]
  exact eq_comm

theorem Encoded.roundTrips_iff (h : Encoded cap snap body)
    (hmeta : ∀ se ∈ snap, se.handle.metaWord.toNat < 256) :
    RoundTrips snap body ↔ (∀ se ∈ snap, se.expiresAt = 0) ∧ snap.length < 2 ^ 32 := by
  have hall : (snap.map restored).map content = snap.map content ↔
      ∀ se ∈ snap, se.expiresAt = 0 := by
    rw [List.map_map, List.map_inj_left]
    exact forall₂_congr fun se hse => content_restored_iff (hmeta se hse)
  constructor
  · intro hround
    obtain ⟨out, hdecode, hout⟩ := hround []
    have hfew : snap.length < 2 ^ 32 := by
      -- the count says how many entries are read
      rw [h.decode] at hdecode
      have hread : (snap.take (snap.length % 2 ^ 32)).map restored = out :=
        congrArg Prod.fst (Except.ok.inj hdecode)
      have hlen := congrArg List.length hout
      have hmod := Nat.mod_lt snap.length (Nat.two_pow_pos 32)
      rw [← hread] at hlen
      simp only [List.length_map, List.length_take] at hlen
      omega
    rw [h.decode_small hfew] at hdecode
    cases hdecode
    exact ⟨hall.mp hout, hfew⟩
  · rintro ⟨hzero, hfew⟩ rest
    exact ⟨_, h.decode_small hfew rest, hall.mpr hzero⟩

end Snapshot

/-! ## Saving and loading an index -/

variable {idx idx' : HashIndex} {pm pm' pm'' : PersistentManager} {io : CheckpointIo} {n : Nat}

/-- The snapshot lists the entries of every index that counts at least those it has. -/
theorem snapshot_of_counted (h : occupied idx.slots ≤ idx.count) : idx.snapshot = entries idx.slots := by
  rw [HashIndex.snapshot]
  split
  · rename_i hempty
    have hle : occupied idx.slots ≤ idx.slots.length := List.countP_le_length
    rw [Probing.occupied_eq_length_entries] at h hle
    exact (List.eq_nil_of_length_eq_zero (by omega)).symm
  · rfl

theorem listing_saved (es : List Entry) (key : Bytes) :
    listing (es.map saved) key =
      (HashIndex.firstOf es key).map fun e => ((saved e).handle, 0) := by
  simp only [listing, HashIndex.firstOf, List.find?_map, Option.map_map]
  rfl

/-- What a successful checkpoint leaves for the next start, if the area can be read at all. -/
theorem checkpoint_loads (hck : pm.checkpoint io idx = (.ok (), pm')) :
    pm'.wal = pm.wal.rotate ∧ (loadCheckpoint pm'.mgr pm'.regionSize = .ok (idx.snapshot.map saved) ∨
      loadCheckpoint pm'.mgr pm'.regionSize = .error .readPastEnd) := by
  rw [PersistentManager.checkpoint] at hck
  split at hck
  · cases hck
  · rename_i k mgr hwrite
    split at hck
    · cases hck
      refine ⟨rfl, ?_⟩
      rcases writeCheckpoint_cases hwrite with ⟨_, e, hres⟩ | ⟨reg, body, hreg, henc, _, hwritten⟩
      · cases hres
      · rcases hwritten with ⟨_, e, hres⟩ | ⟨sb, hver, rfl⟩
        · cases hres
        · by_cases harea : areaEnd pm.regionSize ≤ reg.data.size
          · exact .inl (checkpointed hreg harea henc hver).checkpoint
          · have hmid := poke_origin_first hreg superblockSize body
            have hlast := poke_origin_first hmid 0 (encodeSuperblock sb)
            refine .inr ?_
            have hpast : superblockSize + indexCheckpointMaxLen pm.regionSize > reg.data.size :=
              Nat.lt_of_not_le harea
            rw [loadCheckpoint, copyArenaTo_eq hlast, Cells.size_write, Cells.size_write, if_pos hpast]
            rfl
    · cases hck

/-- `Checkpoint`, and `LoadIndex` into a fresh index with room for `buckets`, where both succeed. -/
def PersistentManager.saveAndLoad (pm : PersistentManager) (io : CheckpointIo) (idx : HashIndex)
    (buckets : Nat) : Option HashIndex :=
  match pm.checkpoint io idx with
  | (.error _, _) => none
  | (.ok (), pm) => (pm.loadIndex (Index.new buckets)).bind fun out => out.1.toOption.map fun _ => out.2.1

/-- Every key gets its handle back, and no expiry. -/
theorem held_saveAndLoad (hidx : occupied idx.slots ≤ idx.count) (hn : n ≤ 2 ^ 64)
    (h : pm.saveAndLoad io idx n = some idx') (key : Bytes) :
    held idx' key = (idx.lookup key).map fun e => ((saved e).handle, 0) := by
  rw [PersistentManager.saveAndLoad] at h
  split at h
  · cases h
  · rename_i pm' hck
    obtain ⟨hwal, hlist⟩ := checkpoint_loads hck
    have hlogs : pm'.wal.Logs [] := hwal ▸ ⟨rfl, rfl⟩
    have hreplay : ∀ t, replayTo pm'.wal t = some t := by
      intro t
      rw [replayTo, hlogs.iterate (by simp)]
      rfl
    rw [PersistentManager.loadIndex] at h
    rcases hlist with hok | hpast
    · simp only [hok, hreplay, Option.bind_eq_bind, Option.bind_some] at h
      obtain ⟨out, hload, hout⟩ := Option.bind_eq_some_iff.mp h
      obtain ⟨t, hadd, hload⟩ := Option.bind_eq_some_iff.mp hload
      cases hload
      cases hout
      obtain ⟨_, _, _, hlook⟩ := HashIndex.Wf.addAll _ (HashIndex.wf_new hn).1 hadd
      have hfirst : (Index.new n).lookup key = none := HashIndex.lookup_sized _ key
      rw [held, hlook, hfirst, Option.none_or]
      refine (listing_saved idx.snapshot key).trans ?_
      rw [snapshot_of_counted hidx]
      rfl
    · rw [hpast] at h
      cases h

theorem held_saveAndLoad_iff (hidx : occupied idx.slots ≤ idx.count) (hn : n ≤ 2 ^ 64)
    (hmeta : ∀ key h t, held idx key = some (h, t) → h.metaWord.toNat < 256)
    (h : pm.saveAndLoad io idx n = some idx') (key : Bytes) :
    held idx' key = held idx key ↔ ∀ h t, held idx key = some (h, t) → t = 0 := by
  rw [held_saveAndLoad hidx hn h]
  cases hlook : idx.lookup key with
  | none => simp [held, hlook]
  | some e =>
    have hheld : held idx key = some (e.handle, e.expiresAt) := by rw [held, hlook]; rfl
    have hhandle := saved_handle (hmeta key _ _ hheld)
    rw [hheld, Option.map_some, hhandle]
    simp only [Option.some.injEq, Prod.mk.injEq, true_and]
    constructor
    · rintro hzero h t ⟨_, rfl⟩
      exact hzero.symm
    · exact fun hzero => (hzero e.handle e.expiresAt ⟨rfl, rfl⟩).symm

/-- A checkpoint that has been written gives back the entries exactly when none of them expires
and they can be counted; a key of an index that has been saved and loaded is what it was exactly
when it did not expire. -/
theorem checkpoint_keeps_iff (pm : PersistentManager) (io : CheckpointIo) (cap : Nat) :
    (∀ (snap : List Bucket) (body : Bytes),
      (∀ se ∈ snap, se.key.length ≤ 65535 ∧ se.handle.metaWord.toNat < 256) →
      Snapshot.encodeCheckpoint cap snap = .ok body →
      (Snapshot.RoundTrips snap body ↔
        (∀ se ∈ snap, se.expiresAt = 0) ∧ snap.length < 2 ^ 32)) ∧
    ∀ (idx idx' : HashIndex) (n : Nat),
      occupied idx.slots ≤ idx.count → n ≤ 2 ^ 64 →
      (∀ key h t, held idx key = some (h, t) → h.metaWord.toNat < 256) →
      pm.saveAndLoad io idx n = some idx' →
      ∀ key, held idx' key = held idx key ↔ ∀ h t, held idx key = some (h, t) → t = 0 :=
  ⟨fun _ _ hsnap henc =>
      (Snapshot.encodeCheckpoint_ok henc).roundTrips_iff fun se hse => (hsnap se hse).2,
    fun _ _ _ hidx hn hmeta h => held_saveAndLoad_iff hidx hn hmeta h⟩

set_option synthInstance.maxSize 512 in
/-- An index with a key that expires at second 5 and one that does not, in a new server. -/
theorem two_keys_saved : ∃ pm idx₁ idx idx',
    PersistentManager.new ⟨none, []⟩ 16384 false = .ok pm ∧
      (Index.new 8).put (some [97]) ⟨8192, 1, 0, 0⟩ 5 = some (false, idx₁) ∧
      idx₁.put (some [98]) ⟨8200, 1, 0, 0⟩ 0 = some (false, idx) ∧
      pm.saveAndLoad .fine idx 8 = some idx' ∧ occupied idx.slots ≤ idx.count ∧
      (∀ e ∈ entries idx.slots, e.handle.metaWord.toNat < 256) ∧
      held idx [97] = some (⟨8192, 1, 0, 0⟩, 5) ∧ held idx' [97] = some (⟨8192, 1, 0, 0⟩, 0) ∧
      held idx [98] = some (⟨8200, 1, 0, 0⟩, 0) := by
  simp only [exists_and_left]
  decide +kernel

/-- A long key in a checkpoint, and the key without an expiry in the index of a new server. -/
theorem checkpoint_keeps_iff_long_key :
    (∃ body, Snapshot.encodeCheckpoint 64 [⟨[1, 2, 3, 4, 5], 7, 5, ⟨8192, 1, 255, 0⟩, 0⟩] = .ok body ∧
      Snapshot.RoundTrips [⟨[1, 2, 3, 4, 5], 7, 5, ⟨8192, 1, 255, 0⟩, 0⟩] body) ∧
    ∃ pm idx idx', PersistentManager.new ⟨none, []⟩ 16384 false = .ok pm ∧
      pm.saveAndLoad .fine idx 8 = some idx' ∧ held idx' [98] = some (⟨8200, 1, 0, 0⟩, 0) := by
  obtain ⟨pm, _, idx, idx', hnew, _, _, hload, hidx, hmeta, _, _, hheld⟩ := two_keys_saved
  obtain ⟨htrip, hkeys⟩ := checkpoint_keeps_iff pm .fine 64
  refine ⟨⟨_, rfl, (htrip _ _ (by decide) rfl).mpr ⟨by decide, by decide⟩⟩, pm, idx, idx', hnew, hload, ?_⟩
  have hsmall : ∀ key h t, held idx key = some (h, t) → h.metaWord.toNat < 256 := by
    intro key h t hkey
    obtain ⟨e, hlook, heq⟩ := Option.map_eq_some_iff.mp hkey
    cases heq
    exact hmeta e (List.mem_of_find?_eq_some hlook)
  have hsame := hkeys idx idx' 8 hidx (by decide) hsmall hload [98]
  rw [hheld] at hsame
  refine hsame.mpr fun h t heq => ?_
  cases heq
  rfl

/-- An entry that expires at second 5, in a checkpoint and in the index of a new server. -/
theorem checkpoint_drops_expiry :
    (∃ body, Snapshot.encodeCheckpoint 64 [⟨[97], 7, 1, ⟨8192, 1, 0, 0⟩, 5⟩] = .ok body ∧
      ¬ Snapshot.RoundTrips [⟨[97], 7, 1, ⟨8192, 1, 0, 0⟩, 5⟩] body) ∧
    ∃ pm idx₁ idx idx', PersistentManager.new ⟨none, []⟩ 16384 false = .ok pm ∧
      (Index.new 8).put (some [97]) ⟨8192, 1, 0, 0⟩ 5 = some (false, idx₁) ∧
      idx₁.put (some [98]) ⟨8200, 1, 0, 0⟩ 0 = some (false, idx) ∧
      pm.saveAndLoad .fine idx 8 = some idx' ∧
      held idx [97] = some (⟨8192, 1, 0, 0⟩, 5) ∧ held idx' [97] = some (⟨8192, 1, 0, 0⟩, 0) := by
  refine ⟨⟨_, rfl, fun hround => ?_⟩, ?_⟩
  · obtain ⟨out, hdecode, hout⟩ := hround []
    cases hdecode
    revert hout
    decide
  · obtain ⟨pm, idx₁, idx, idx', hnew, hput₁, hput, hload, _, _, hbefore, hafter, _⟩ := two_keys_saved
    exact ⟨pm, idx₁, idx, idx', hnew, hput₁, hput, hload, hbefore, hafter⟩

end Horreum.Persist
