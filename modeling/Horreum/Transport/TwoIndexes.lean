/-
  Transport/TwoIndexes.lean --- the index of a shard and the hash index of `internal/index` agree.

  Two copies of one algorithm that have drifted apart: the hash index stores hash and length of every
  key, and has no shortcut for an empty table.  `ShardIndex.buckets` is the hash index that holds what a
  shard index holds.  Every operation commutes with it.
-/
import Horreum.Index.Buckets
import Horreum.Transport.ShardIndex

set_option autoImplicit false

namespace Horreum.Transport

open Foundation
open Foundation.Probing (cell probe blank entries relabel)
open Arena (Handle)
open Index (Bucket BucketIndex fnv64)

/-- The bucket that holds an entry. -/
def Entry.bucket (e : Entry) : Bucket := .fill e.key e.handle e.expiresAt

namespace ShardIndex

variable (s : ShardIndex)

/-- The hash index that holds the same in the same slots. -/
def buckets (s : ShardIndex) : BucketIndex :=
  ⟨relabel Entry.bucket s.slots, s.count, s.mask, s.scanCursor⟩

@[simp] theorem count_buckets : s.buckets.count = s.count := rfl

@[simp] theorem scanCursor_buckets : s.buckets.scanCursor = s.scanCursor := rfl

@[simp] theorem length_buckets : s.buckets.slots.length = s.slots.length :=
  Probing.length_relabel _ _

@[simp] theorem cell_buckets (i : Nat) :
    cell s.buckets.slots i = (cell s.slots i).map Entry.bucket :=
  Probing.cell_relabel _ _ _

@[simp] theorem expired_bucket (e : Entry) (now : UInt32) :
    e.bucket.expired now = e.expired now := rfl

@[simp] theorem handle_bucket (e : Entry) : e.bucket.handle = e.handle := rfl

@[simp] theorem key_bucket (e : Entry) : e.bucket.key = e.key := rfl

theorem buckets_new : newShardIndex.buckets = BucketIndex.new 64 := by
  rw [buckets, newShardIndex, Probing.relabel_blank]
  rfl

theorem find_buckets (key : Bytes) : s.buckets.find key = s.find hashKey key := by
  unfold BucketIndex.find ShardIndex.find buckets
  rw [Probing.probe_relabel, Probing.length_relabel]
  simp only [Entry.bucket, Bucket.matches_fill]
  rfl

theorem key_of_find {key : Bytes} {i : Nat} {e : Entry} (hi : s.find hashKey key = some i)
    (he : cell s.slots i = some e) : e.key = key := by
  have hhit := Probing.hit_of_probe hi he
  exact eq_of_beq hhit

/-- `put` returns the old handle, `Put` only whether there was one. -/
theorem place_buckets (key : Bytes) (hd : Handle) (expiresAt : UInt32) :
    s.buckets.place (some key) hd expiresAt =
      (s.place hashKey key hd expiresAt).map fun out => (out.1.isSome, out.2.buckets) := by
  unfold BucketIndex.place ShardIndex.place
  rw [Slice.bytes_some, find_buckets]
  cases hi : s.find hashKey key with
  | none => rfl
  | some i =>
    simp only [Option.bind_eq_bind, Option.bind_some]
    cases he : cell s.slots i with
    | none =>
      simp only [buckets, Probing.cell_relabel, he, Option.map_none, Option.map_some,
        Probing.relabel_set]
      rfl
    | some e =>
      have hkey := s.key_of_find hi he
      simp only [buckets, Probing.cell_relabel, he, Option.map_some,
        Probing.relabel_set, Entry.bucket, Bucket.fill, hkey]
      rfl

theorem foldlM_buckets
    {store : ShardIndex → Bytes → Handle → UInt32 → Option (Option Handle × ShardIndex)}
    {store' : BucketIndex → Slice → Handle → UInt32 → Option (Bool × BucketIndex)}
    (h : ∀ t key hd expiresAt, store' t.buckets (some key) hd expiresAt =
      (store t key hd expiresAt).map fun out => (out.1.isSome, out.2.buckets))
    (es : List Entry) (t : ShardIndex) :
    (es.map Entry.bucket).foldlM
        (fun t b => (store' t (some b.key) b.handle b.expiresAt).map Prod.snd) t.buckets =
      (es.foldlM (fun t e => (store t e.key e.handle e.expiresAt).map Prod.snd) t).map buckets := by
  refine foldlM_commutes _ _ buckets Entry.bucket (fun t e => ?_) es t
  rw [key_bucket, handle_bucket, show e.bucket.expiresAt = e.expiresAt from rfl, h]
  simp only [Option.map_map, Function.comp_def]

theorem buckets_blank (n : Nat) :
    buckets ⟨blank n, 0, n - 1, 0⟩ = BucketIndex.sized n := by
  simp [buckets, BucketIndex.sized]

theorem entries_buckets : entries s.buckets.slots = (entries s.slots).map Entry.bucket :=
  Probing.entries_relabel _ _

theorem grow_buckets : s.buckets.grow = (s.grow hashKey).map buckets := by
  rw [BucketIndex.grow, length_buckets, entries_buckets, ← buckets_blank,
    foldlM_buckets place_buckets]
  rfl

theorem put_buckets (key : Bytes) (hd : Handle) (expiresAt : UInt32) :
    s.buckets.put (some key) hd expiresAt =
      (s.put hashKey key hd expiresAt).map fun out => (out.1.isSome, out.2.buckets) := by
  unfold BucketIndex.put ShardIndex.put
  rw [length_buckets, count_buckets]
  split
  · rw [grow_buckets]
    cases s.grow hashKey with
    | none => rfl
    | some t => exact t.place_buckets key hd expiresAt
  · exact s.place_buckets key hd expiresAt

variable {s : ShardIndex}

/-- `grow` as the source writes it, with the entries going through `Put` itself. -/
theorem Wf.grow_through_put_buckets (h : s.Wf hashKey) :
    s.buckets.grow = (entries s.buckets.slots).foldlM
      (fun t b => (t.put (some b.key) b.handle b.expiresAt).map Prod.snd)
      (BucketIndex.sized (s.buckets.slots.length * 2)) := by
  rw [grow_buckets, h.grow_through_put, length_buckets, entries_buckets, ← buckets_blank,
    foldlM_buckets put_buckets]

/-- `Get` on an empty table searches, and finds nothing either. -/
theorem Wf.get_buckets (h : s.Wf hashKey) (key : Bytes) (now : UInt32) :
    s.buckets.get key now = (s.get hashKey key now).map fun found => found.map Prod.fst := by
  obtain ⟨i, hi, hcell, _⟩ := h.find key
  rw [h.get]
  unfold BucketIndex.get
  rw [find_buckets, hi]
  simp only [cell_buckets, hcell, Option.bind_eq_bind, Option.bind_some]
  cases s.lookup key with
  | none => rfl
  | some e =>
    by_cases hexp : e.expired now = true
    · simp [hexp]
    · simp [hexp]

theorem deleteAt_buckets (i : Nat) :
    s.buckets.deleteAt i = (s.deleteAt hashKey i).map buckets := by
  unfold BucketIndex.deleteAt ShardIndex.deleteAt buckets
  simp only [Probing.deleteAt_relabel, Option.map_map]
  rfl

theorem Wf.delete_buckets (h : s.Wf hashKey) (key : Bytes) :
    s.buckets.delete key = (s.delete hashKey key).map fun out => (out.1, out.2.buckets) := by
  obtain ⟨i, hi, hcell, _⟩ := h.find key
  unfold BucketIndex.delete ShardIndex.delete
  rw [find_buckets, hi]
  simp only [Option.bind_eq_bind, Option.bind_some, deleteAt_buckets, cell_buckets]
  by_cases hzero : s.count = 0
  · rw [if_pos hzero, hcell, h.lookup_of_count_zero hzero]
    rfl
  · rw [if_neg hzero]
    cases cell s.slots i with
    | none => rfl
    | some e =>
      simp only [Option.map_some, Option.map_map]
      rfl

theorem deleteExpiredLoop_buckets (now : UInt32) :
    ∀ (limit : Nat) (s : ShardIndex) (freed : List Handle),
      BucketIndex.deleteExpiredLoop now limit s.buckets freed =
        (deleteExpiredLoop hashKey now limit s freed).map fun out => (out.1, out.2.buckets)
  | 0, _, _ => rfl
  | limit + 1, s, freed => by
    -- the cursor moves on in both
    have hmoved : (⟨s.buckets.slots, s.buckets.count, s.buckets.mask,
        (s.scanCursor + 1) &&& s.buckets.mask⟩ : BucketIndex) =
        buckets { s with scanCursor := (s.scanCursor + 1) &&& s.mask } := rfl
    rw [BucketIndex.deleteExpiredLoop, deleteExpiredLoop]
    simp only [scanCursor_buckets, hmoved, deleteAt_buckets, cell_buckets]
    cases cell s.slots s.scanCursor with
    | none => exact deleteExpiredLoop_buckets now limit _ freed
    | some e =>
      by_cases hexp : e.expired now = true
      · simp only [Option.map_some, expired_bucket, hexp, if_true]
        cases deleteAt hashKey { s with scanCursor := (s.scanCursor + 1) &&& s.mask }
            s.scanCursor with
        | none => rfl
        | some t => exact deleteExpiredLoop_buckets now limit t _
      · simp only [Option.map_some, expired_bucket, hexp]
        exact deleteExpiredLoop_buckets now limit _ freed

theorem deleteExpired_buckets (now : UInt32) (limit : Int) :
    s.buckets.deleteExpired now limit =
      (s.deleteExpired hashKey now limit).map fun out => (out.1, out.2.buckets) := by
  unfold BucketIndex.deleteExpired deleteExpired
  rw [count_buckets]
  split
  · rfl
  · exact deleteExpiredLoop_buckets now limit.toNat s []

/-- `deletePrefix` also returns the keys, `DeletePrefix` does not. -/
theorem deletePrefixLoop_buckets (pre : Bytes) :
    ∀ (fuel : Nat) (s : ShardIndex) (idx : Nat) (freed : List Handle) (deletedKeys : List Bytes),
      BucketIndex.deletePrefixLoop pre fuel s.buckets idx freed =
        (deletePrefixLoop hashKey pre fuel s idx freed deletedKeys).map
          fun out => (out.1, out.2.2.buckets)
  | 0, _, _, _, _ => rfl
  | fuel + 1, s, idx, freed, deletedKeys => by
    rw [BucketIndex.deletePrefixLoop, deletePrefixLoop, length_buckets]
    split
    · simp only [deleteAt_buckets, cell_buckets]
      cases cell s.slots idx with
      | none => exact deletePrefixLoop_buckets pre fuel s (idx + 1) freed deletedKeys
      | some e =>
        by_cases hpre : pre.isPrefixOf e.key = true
        · simp only [Option.map_some, key_bucket, hpre, if_true]
          cases deleteAt hashKey s idx with
          | none => rfl
          | some t => exact deletePrefixLoop_buckets pre fuel t idx _ _
        · simp only [Option.map_some, key_bucket, hpre]
          exact deletePrefixLoop_buckets pre fuel s (idx + 1) freed deletedKeys
    · rfl

theorem deletePrefix_buckets (pre : Bytes) :
    s.buckets.deletePrefix pre =
      (s.deletePrefix hashKey pre).map fun out => (out.1, out.2.2.buckets) := by
  unfold BucketIndex.deletePrefix deletePrefix
  rw [length_buckets, count_buckets]
  split
  · rfl
  · exact deletePrefixLoop_buckets pre _ s 0 [] []

theorem scanPrefixLoop_buckets (pre : Bytes) (limit : Nat) (now : UInt32) :
    ∀ (fuel idx : Nat) (results : List Bytes),
      s.buckets.scanPrefixLoop pre limit now fuel idx results =
        s.scanPrefixLoop pre limit now fuel idx results
  | 0, _, _ => rfl
  | fuel + 1, idx, results => by
    rw [BucketIndex.scanPrefixLoop, scanPrefixLoop, length_buckets]
    simp only [scanPrefixLoop_buckets pre limit now fuel, cell_buckets]
    cases cell s.slots idx <;> rfl

theorem scanPrefix_buckets (pre : Bytes) (cursor : Nat) (limit : Int) (now : UInt32) :
    s.buckets.scanPrefix pre cursor limit now = s.scanPrefix pre cursor limit now := by
  unfold BucketIndex.scanPrefix scanPrefix
  rw [length_buckets, count_buckets]
  simp only [scanPrefixLoop_buckets]

end ShardIndex

/-! ## In parallel -/

/-- The calls that both tables have. -/
inductive TableCall where
  | put (key : Bytes) (h : Handle) (expiresAt : UInt32)
  | get (key : Bytes) (now : UInt32)
  | delete (key : Bytes)
  | deleteExpired (now : UInt32) (limit : Int)
  | scanPrefix (pre : Bytes) (cursor : Nat) (limit : Int) (now : UInt32)
  | deletePrefix (pre : Bytes)

/-- What both answer: for a put whether there was an entry. -/
inductive TableAnswer where
  | stored (updated : Bool)
  | found (h : Option Handle)
  | removed (h : Option Handle)
  | freed (hs : List Handle)
  | page (keys : List Bytes) (next : Nat)
  deriving DecidableEq

/-- A call on the index of a shard. -/
def ShardIndex.serve (s : ShardIndex) : TableCall → Option (TableAnswer × ShardIndex)
  | .put key h expiresAt =>
    (s.put hashKey key h expiresAt).map fun out => (.stored out.1.isSome, out.2)
  | .get key now => (s.get hashKey key now).map fun entry => (.found (entry.map Prod.fst), s)
  | .delete key => (s.delete hashKey key).map fun out => (.removed out.1, out.2)
  | .deleteExpired now limit =>
    (s.deleteExpired hashKey now limit).map fun out => (.freed out.1, out.2)
  | .scanPrefix pre cursor limit now =>
    some (.page (s.scanPrefix pre cursor limit now).1 (s.scanPrefix pre cursor limit now).2, s)
  | .deletePrefix pre => (s.deletePrefix hashKey pre).map fun out => (.freed out.1, out.2.2)

/-- Keys are given as slices that are not nil. -/
def BucketIndex.serve (b : BucketIndex) : TableCall → Option (TableAnswer × BucketIndex)
  | .put key h expiresAt => (b.put (some key) h expiresAt).map fun out => (.stored out.1, out.2)
  | .get key now => (b.get key now).map fun h => (.found h, b)
  | .delete key => (b.delete key).map fun out => (.removed out.1, out.2)
  | .deleteExpired now limit => (b.deleteExpired now limit).map fun out => (.freed out.1, out.2)
  | .scanPrefix pre cursor limit now =>
    some (.page (b.scanPrefix pre cursor limit now).1 (b.scanPrefix pre cursor limit now).2, b)
  | .deletePrefix pre => (b.deletePrefix pre).map fun out => (.freed out.1, out.2)

/-- A call on copies gives one answer and leaves copies. -/
theorem ShardIndex.Wf.serve {s : ShardIndex} (h : s.Wf hashKey) (call : TableCall) :
    ∃ out t, s.serve call = some (out, t) ∧ BucketIndex.serve s.buckets call = some (out, t.buckets) ∧
      t.Wf hashKey := by
  cases call with
  | put key hd expiresAt =>
    obtain ⟨t, hput, hwf, _⟩ := h.put key hd expiresAt
    refine ⟨.stored ((s.lookup key).map Entry.handle).isSome, t, ?_, ?_, hwf⟩
    · simp only [ShardIndex.serve, hput, Option.map_some]
    · simp only [BucketIndex.serve, s.put_buckets, hput, Option.map_some]
  | get key now =>
    refine ⟨_, s, by rw [ShardIndex.serve, h.get]; rfl, ?_, h⟩
    rw [BucketIndex.serve, h.get_buckets, h.get]
    rfl
  | delete key =>
    obtain ⟨t, hdel, hwf, _⟩ := h.delete key
    refine ⟨.removed ((s.lookup key).map Entry.handle), t, ?_, ?_, hwf⟩
    · simp only [ShardIndex.serve, hdel, Option.map_some]
    · simp only [BucketIndex.serve, h.delete_buckets, hdel, Option.map_some]
  | deleteExpired now limit =>
    obtain ⟨es, t, hdel, hrem, _⟩ := h.deleteExpired now limit
    refine ⟨.freed (es.map Entry.handle), t, ?_, ?_, hrem.wf⟩
    · simp only [ShardIndex.serve, hdel, Option.map_some]
    · simp only [BucketIndex.serve, s.deleteExpired_buckets, hdel, Option.map_some]
  | scanPrefix pre cursor limit now =>
    exact ⟨_, s, rfl, by rw [BucketIndex.serve, s.scanPrefix_buckets], h⟩
  | deletePrefix pre =>
    obtain ⟨es, t, hdel, hrem, _⟩ := h.deletePrefix pre
    refine ⟨.freed (es.map Entry.handle), t, ?_, ?_, hrem.wf⟩
    · simp only [ShardIndex.serve, hdel, Option.map_some]
    · simp only [BucketIndex.serve, s.deletePrefix_buckets, hdel, Option.map_some]

/-- The same keys with the same handles and expiries in the same slots. -/
structure SameTables (s : ShardIndex) (b : BucketIndex) : Prop where
  slots : s.slots.map (Option.map fun e => (e.key, e.handle, e.expiresAt)) =
    b.slots.map (Option.map fun e => (e.key, e.handle, e.expiresAt))
  count : s.count = b.count
  mask : s.mask = b.mask
  scanCursor : s.scanCursor = b.scanCursor

theorem sameTables_buckets (s : ShardIndex) : SameTables s s.buckets := by
  refine ⟨?_, rfl, rfl, rfl⟩
  rw [ShardIndex.buckets, relabel, List.map_map]
  refine List.map_congr_left fun x _ => ?_
  cases x <;> rfl

/-- Whatever is done to a new shard index and to a hash index of 64 buckets, they give the same
answers and hold the same in the same slots; as the calls are arbitrary, so after every one of
them. -/
theorem two_indexes_agree (calls : List TableCall) :
    ∃ out s b, answers ShardIndex.serve newShardIndex calls = some (out, s) ∧
      answers BucketIndex.serve (BucketIndex.new 64) calls = some (out, b) ∧ SameTables s b := by
  have hstep : ∀ (s : ShardIndex) (b : BucketIndex) (call : TableCall),
      s.Wf hashKey ∧ b = s.buckets → ∃ out s' b', s.serve call = some (out, s') ∧
        BucketIndex.serve b call = some (out, b') ∧ s'.Wf hashKey ∧ b' = s'.buckets := by
    rintro s b call ⟨hwf, rfl⟩
    obtain ⟨out, t, hserve, hserve', hwf'⟩ := hwf.serve call
    exact ⟨out, t, t.buckets, hserve, hserve', hwf', rfl⟩
  obtain ⟨out, s, b, hs, hb, _, rfl⟩ := answers_agree hstep calls newShardIndex
    (BucketIndex.new 64) ⟨ShardIndex.wf_new, ShardIndex.buckets_new.symm⟩
  exact ⟨out, s, s.buckets, hs, hb, sameTables_buckets s⟩

end Horreum.Transport
