/-
  Index/Buckets.lean --- the hash index of `internal/index/index.go`, bucket by bucket.

  Every bucket carries the hash of its key and the lower 16 bits of its length.  A search compares
  these before the bytes, and a removal moves entries by the stored hash.  `HashIndex.cached` is a table
  of `HashIndex.lean` with the two stored; the operations and all runs of calls commute with it.
-/
import Horreum.Foundation.ProbingMap
import Horreum.Index.Returns

set_option autoImplicit false

namespace Horreum.Index

open Foundation
open Foundation.Probing (cell probe blank entries relabel)
open Arena (Handle)

/-- An `Entry` of the source with the key of its slot. -/
structure Bucket where
  key : Bytes
  hash : UInt64
  keyLen : UInt16
  handle : Handle
  expiresAt : UInt32
  deriving DecidableEq, Repr

/-- `ExpiresAt != 0 && now >= ExpiresAt` -/
def Bucket.expired (b : Bucket) (now : UInt32) : Bool := b.expiresAt != 0 && now ≥ b.expiresAt

/-- A bucket as `Put` fills it. -/
def Bucket.fill (key : Bytes) (hd : Handle) (expiresAt : UInt32) : Bucket :=
  ⟨key, fnv64 key, UInt16.ofNat key.length, hd, expiresAt⟩

/-- `Hash == hash && KeyLen == uint16(len(key)) && bytesEqual(..)` -/
def Bucket.matches (key : Bytes) (b : Bucket) : Bool :=
  b.hash == fnv64 key && b.keyLen == UInt16.ofNat key.length && b.key == key

/-- The table as the source has it. -/
structure BucketIndex where
  slots : List (Option Bucket)
  count : Nat
  mask : Nat
  scanCursor : Nat

namespace BucketIndex

/-- A table of `cap` free buckets. -/
def sized (cap : Nat) : BucketIndex := ⟨blank cap, 0, cap - 1, 0⟩

/-- `New` -/
def new (initialBuckets : Nat) : BucketIndex := sized (nextPowerOfTwo initialBuckets)

/-- The bucket where the search for `key` stops. -/
def find (s : BucketIndex) (key : Bytes) : Option Nat :=
  probe s.slots s.mask (Bucket.matches key) s.slots.length ((fnv64 key).toNat &&& s.mask)

/-- The loop of `Put`.  An update leaves hash and length of the bucket alone. -/
def place (s : BucketIndex) (key : Slice) (hd : Handle) (expiresAt : UInt32) :
    Option (Bool × BucketIndex) := do
  let i ← s.find key.bytes
  match cell s.slots i with
  | none =>
    some (false, { s with
      slots := s.slots.set i (some (.fill key.bytes hd expiresAt)), count := s.count + 1 })
  | some b =>
    some (true, { s with
      slots := s.slots.set i (key.map fun k =>
        { b with key := k, handle := hd, expiresAt := expiresAt }) })

/-- As in `HashIndex.grow`, the size test of the inner `Put` calls cannot fire. -/
def grow (s : BucketIndex) : Option BucketIndex :=
  (entries s.slots).foldlM
    (fun t b => (t.place (some b.key) b.handle b.expiresAt).map Prod.snd)
    (sized (s.slots.length * 2))

/-- `Put` -/
def put (s : BucketIndex) (key : Slice) (hd : Handle) (expiresAt : UInt32) :
    Option (Bool × BucketIndex) :=
  if s.count * 4 ≥ s.slots.length * 3 then s.grow.bind fun s => s.place key hd expiresAt
  else s.place key hd expiresAt

/-- `Get` -/
def get (s : BucketIndex) (key : Bytes) (now : UInt32) : Option (Option Handle) := do
  let i ← s.find key
  match cell s.slots i with
  | none => some none
  | some b => some (if b.expired now then none else some b.handle)

/-- The shift goes by the stored hashes. -/
def deleteAt (s : BucketIndex) (i : Nat) : Option BucketIndex :=
  (Probing.deleteAt (fun b : Bucket => b.hash.toNat &&& s.mask) s.mask
    s.slots i).map fun slots => { s with slots := slots, count := s.count - 1 }

/-- `Delete` -/
def delete (s : BucketIndex) (key : Bytes) : Option (Option Handle × BucketIndex) := do
  let i ← s.find key
  match cell s.slots i with
  | none => some (none, s)
  | some b => (s.deleteAt i).map fun s => (some b.handle, s)

/-- `Snapshot` -/
def snapshot (s : BucketIndex) : List Bucket :=
  if s.count = 0 ∨ s.slots.length = 0 then [] else entries s.slots

/-- `Add` -/
def add (s : BucketIndex) (key : Slice) (hd : Handle) (expiresAt : UInt32) :
    Option (Bool × BucketIndex) := do
  let i ← s.find key.bytes
  match cell s.slots i with
  | none =>
    some (true, { s with
      slots := s.slots.set i (key.map fun k => .fill k hd expiresAt), count := s.count + 1 })
  | some _ => some (false, s)

/-- The loop of `DeleteExpired`. -/
def deleteExpiredLoop (now : UInt32) : (limit : Nat) → BucketIndex → List Handle →
    Option (List Handle × BucketIndex)
  | 0, s, freed => some (freed, s)
  | limit + 1, s, freed =>
    let idx := s.scanCursor
    let s := { s with scanCursor := (s.scanCursor + 1) &&& s.mask }
    match cell s.slots idx with
    | none => deleteExpiredLoop now limit s freed
    | some b =>
      if b.expired now then
        (s.deleteAt idx).bind fun s => deleteExpiredLoop now limit s (freed ++ [b.handle])
      else deleteExpiredLoop now limit s freed

/-- `DeleteExpired` -/
def deleteExpired (s : BucketIndex) (now : UInt32) (limit : Int) :
    Option (List Handle × BucketIndex) :=
  if s.count = 0 ∨ limit ≤ 0 then some ([], s)
  else deleteExpiredLoop now limit.toNat s []

/-- After a removal the same slot is looked at again. -/
def deletePrefixLoop (pre : Bytes) : (fuel : Nat) → BucketIndex → (idx : Nat) → List Handle →
    Option (List Handle × BucketIndex)
  | 0, _, _, _ => none
  | fuel + 1, s, idx, freed =>
    if idx < s.slots.length then
      match cell s.slots idx with
      | some b =>
        if pre.isPrefixOf b.key then
          (s.deleteAt idx).bind fun s => deletePrefixLoop pre fuel s idx (freed ++ [b.handle])
        else deletePrefixLoop pre fuel s (idx + 1) freed
      | none => deletePrefixLoop pre fuel s (idx + 1) freed
    else some (freed, s)

/-- `DeletePrefix` -/
def deletePrefix (s : BucketIndex) (pre : Bytes) : Option (List Handle × BucketIndex) :=
  if s.count = 0 then some ([], s)
  else deletePrefixLoop pre (s.slots.length + s.count + 1) s 0 []

/-- The page, and where the next one starts, with zero when there is none. -/
def scanPrefixLoop (s : BucketIndex) (pre : Bytes) (limit : Nat) (now : UInt32) :
    (fuel idx : Nat) → (results : List Bytes) → List Bytes × Nat
  | 0, _, results => (results, 0)
  | fuel + 1, idx, results =>
    match cell s.slots idx with
    | some b =>
      if !b.expired now && pre.isPrefixOf b.key then
        let results := results ++ [b.key]
        if results.length ≥ limit then
          (results, if idx + 1 ≥ s.slots.length then 0 else idx + 1)
        else s.scanPrefixLoop pre limit now fuel (idx + 1) results
      else s.scanPrefixLoop pre limit now fuel (idx + 1) results
    | none => s.scanPrefixLoop pre limit now fuel (idx + 1) results

/-- `ScanPrefix` -/
def scanPrefix (s : BucketIndex) (pre : Bytes) (cursor : Nat) (limit : Int) (now : UInt32) :
    List Bytes × Nat :=
  if s.count = 0 ∨ limit ≤ 0 then ([], 0)
  else if cursor ≥ s.slots.length then ([], 0)
  else s.scanPrefixLoop pre limit.toNat now (s.slots.length - cursor) cursor []

end BucketIndex

/-! ## The cached values -/

/-- The bucket of an entry whose hash and length are stored as they should be. -/
def Entry.cached (e : Entry) : Bucket := .fill e.key e.handle e.expiresAt

theorem Bucket.matches_fill (key k : Bytes) (hd : Handle) (expiresAt : UInt32) :
    Bucket.matches key (.fill k hd expiresAt) = (k == key) := by
  by_cases hk : k = key
  · simp [Bucket.matches, Bucket.fill, hk]
  · simp [Bucket.matches, Bucket.fill, hk]

namespace HashIndex

variable (s : HashIndex)

/-- The buckets of a table. -/
def cached (s : HashIndex) : BucketIndex :=
  ⟨relabel Entry.cached s.slots, s.count, s.mask, s.scanCursor⟩

theorem cached_sized (cap : Nat) : (sized cap).cached = BucketIndex.sized cap := by
  simp [cached, sized, BucketIndex.sized]

theorem find_cached (key : Bytes) : s.cached.find key = s.find key := by
  unfold BucketIndex.find HashIndex.find cached
  rw [Probing.probe_relabel, Probing.length_relabel]
  rfl

/-- A search stops at an entry only if it has the key. -/
theorem key_of_find {key : Bytes} {i : Nat} {e : Entry} (hi : s.find key = some i)
    (he : cell s.slots i = some e) : e.key = key := by
  have hhit := Probing.hit_of_probe hi he
  simp only [Bool.and_eq_true, beq_iff_eq] at hhit
  exact hhit.2

theorem place_cached (key : Slice) (hd : Handle) (expiresAt : UInt32) :
    s.cached.place key hd expiresAt =
      (s.place key hd expiresAt).map fun out => (out.1, out.2.cached) := by
  unfold BucketIndex.place place
  rw [find_cached]
  cases hi : s.find key.bytes with
  | none => rfl
  | some i =>
    simp only [Option.bind_eq_bind, Option.bind_some]
    cases he : cell s.slots i with
    | none =>
      simp only [cached, Probing.cell_relabel, he, Option.map_none, Option.map_some,
        Probing.relabel_set]
      rfl
    | some e =>
      have hkey := s.key_of_find hi he
      simp only [cached, Probing.cell_relabel, he, Option.map_some,
        Probing.relabel_set]
      cases key with
      | none => rfl
      | some k =>
        simp only [Option.map_some, Entry.cached, Bucket.fill, hkey]
        rfl

theorem grow_cached : s.cached.grow = s.grow.map cached := by
  have hstep : ∀ (t : HashIndex) (e : Entry),
      (t.cached.place (some e.cached.key) e.cached.handle e.cached.expiresAt).map Prod.snd =
        ((t.place (some e.key) e.handle e.expiresAt).map Prod.snd).map cached := by
    intro t e
    have hplace := t.place_cached (some e.key) e.handle e.expiresAt
    exact (congrArg (Option.map Prod.snd) hplace).trans (by simp only [Option.map_map, Function.comp_def])
  have hfold := foldlM_commutes _
    (fun (t : BucketIndex) (b : Bucket) => (t.place (some b.key) b.handle b.expiresAt).map Prod.snd)
    cached Entry.cached hstep (entries s.slots) (sized (s.slots.length * 2))
  rw [cached_sized, ← Probing.entries_relabel] at hfold
  simpa [BucketIndex.grow, grow, cached] using hfold

theorem put_cached (key : Slice) (hd : Handle) (expiresAt : UInt32) :
    s.cached.put key hd expiresAt =
      (s.put key hd expiresAt).map fun out => (out.1, out.2.cached) := by
  have hsize : s.cached.slots.length = s.slots.length := Probing.length_relabel _ _
  unfold BucketIndex.put put
  rw [hsize, show s.cached.count = s.count from rfl]
  split
  · rw [grow_cached]
    cases s.grow with
    | none => rfl
    | some t => exact t.place_cached key hd expiresAt
  · exact s.place_cached key hd expiresAt

theorem get_cached (key : Bytes) (now : UInt32) : s.cached.get key now = s.get key now := by
  unfold BucketIndex.get get
  rw [find_cached]
  cases s.find key with
  | none => rfl
  | some i =>
    simp only [cached, Probing.cell_relabel, Option.bind_eq_bind, Option.bind_some]
    cases cell s.slots i <;> rfl

/-- The stored hashes move the entries as fresh ones would. -/
theorem deleteAt_cached (i : Nat) : s.cached.deleteAt i = (s.deleteAt i).map cached := by
  unfold BucketIndex.deleteAt deleteAt cached
  simp only [Probing.deleteAt_relabel, Option.map_map]
  rfl

theorem delete_cached (key : Bytes) :
    s.cached.delete key = (s.delete key).map fun out => (out.1, out.2.cached) := by
  unfold BucketIndex.delete delete
  rw [find_cached]
  cases s.find key with
  | none => rfl
  | some i =>
    simp only [Option.bind_eq_bind, Option.bind_some, deleteAt_cached]
    simp only [cached, Probing.cell_relabel]
    cases cell s.slots i with
    | none => rfl
    | some e => simp only [Option.map_some, Option.map_map]; rfl

theorem add_cached (key : Slice) (hd : Handle) (expiresAt : UInt32) :
    s.cached.add key hd expiresAt =
      (s.add key hd expiresAt).map fun out => (out.1, out.2.cached) := by
  unfold BucketIndex.add add
  rw [find_cached]
  cases s.find key.bytes with
  | none => rfl
  | some i =>
    simp only [Option.bind_eq_bind, Option.bind_some]
    cases he : cell s.slots i with
    | none =>
      simp only [cached, Probing.cell_relabel, he, Option.map_none, Option.map_some,
        Probing.relabel_set]
      cases key <;> rfl
    | some e =>
      simp only [cached, Probing.cell_relabel, he, Option.map_some]

theorem deleteExpiredLoop_cached (now : UInt32) :
    ∀ (limit : Nat) (s : HashIndex) (freed : List Handle),
      BucketIndex.deleteExpiredLoop now limit s.cached freed =
        (deleteExpiredLoop now limit s freed).map fun out => (out.1, out.2.cached)
  | 0, _, _ => rfl
  | limit + 1, s, freed => by
    have hcell : cell s.cached.slots s.cached.scanCursor =
        (cell s.slots s.scanCursor).map Entry.cached := Probing.cell_relabel _ _ _
    unfold BucketIndex.deleteExpiredLoop deleteExpiredLoop
    dsimp only
    rw [hcell]
    -- the cursor moves in both tables alike
    cases cell s.slots s.scanCursor with
    | none =>
      exact deleteExpiredLoop_cached now limit
        { s with scanCursor := (s.scanCursor + 1) &&& s.mask } freed
    | some e =>
      simp only [Option.map_some, show e.cached.expired now = e.expired now from rfl]
      split
      · have hdel := deleteAt_cached { s with scanCursor := (s.scanCursor + 1) &&& s.mask }
          s.scanCursor
        refine (congrArg (Option.bind · _) hdel).trans ?_
        cases ({ s with scanCursor := (s.scanCursor + 1) &&& s.mask } : HashIndex).deleteAt
          s.scanCursor with
        | none => rfl
        | some t => exact deleteExpiredLoop_cached now limit t _
      · exact deleteExpiredLoop_cached now limit
          { s with scanCursor := (s.scanCursor + 1) &&& s.mask } freed

theorem deleteExpired_cached (now : UInt32) (limit : Int) :
    s.cached.deleteExpired now limit =
      (s.deleteExpired now limit).map fun out => (out.1, out.2.cached) := by
  unfold BucketIndex.deleteExpired deleteExpired
  rw [show s.cached.count = s.count from rfl]
  split
  · rfl
  · exact deleteExpiredLoop_cached now limit.toNat s []

theorem snapshot_cached : s.cached.snapshot = s.snapshot.map Entry.cached := by
  unfold BucketIndex.snapshot snapshot
  simp only [cached, Probing.length_relabel, Probing.entries_relabel]
  split <;> rfl

end HashIndex

/-! ## Runs of calls -/

/-- What a call returns. -/
inductive Answer where
  | stored (there : Bool)
  | found (hd : Option Handle)
  | freed (hds : List Handle)
  deriving DecidableEq

namespace Call

/-- A call on the table whose hashes are computed from the keys. -/
def serve (s : HashIndex) : Call → Option (Answer × HashIndex)
  | put key hd expiresAt => (s.put key hd expiresAt).map fun out => (.stored out.1, out.2)
  | get key now => (s.get key now).map fun out => (.found out, s)
  | delete key => (s.delete key).map fun out => (.found out.1, out.2)
  | deleteExpired now limit => (s.deleteExpired now limit).map fun out => (.freed out.1, out.2)
  | add key hd expiresAt => (s.add (some key) hd expiresAt).map fun out => (.stored out.1, out.2)

/-- The same call on the table that stores them. -/
def serveBuckets (b : BucketIndex) : Call → Option (Answer × BucketIndex)
  | put key hd expiresAt => (b.put key hd expiresAt).map fun out => (.stored out.1, out.2)
  | get key now => (b.get key now).map fun out => (.found out, b)
  | delete key => (b.delete key).map fun out => (.found out.1, out.2)
  | deleteExpired now limit => (b.deleteExpired now limit).map fun out => (.freed out.1, out.2)
  | add key hd expiresAt => (b.add (some key) hd expiresAt).map fun out => (.stored out.1, out.2)

theorem serveBuckets_cached (s : HashIndex) (c : Call) :
    serveBuckets s.cached c = (serve s c).map fun out => (out.1, out.2.cached) := by
  cases c with
  | put key hd expiresAt => simp only [serveBuckets, serve, s.put_cached, Option.map_map]; rfl
  | get key now => simp only [serveBuckets, serve, s.get_cached, Option.map_map]; rfl
  | delete key => simp only [serveBuckets, serve, s.delete_cached, Option.map_map]; rfl
  | deleteExpired now limit =>
    simp only [serveBuckets, serve, s.deleteExpired_cached, Option.map_map]
    rfl
  | add key hd expiresAt => simp only [serveBuckets, serve, s.add_cached, Option.map_map]; rfl

/-- **The stored hashes are those of the keys.**  Whatever is done to a new table that stores the
hash and the length of every key, the same calls end as where both are computed from the key, the
answers are the same, and so are the entries that a snapshot lists. -/
theorem stored_hashes_agree (n : Nat) (calls : List Call) :
    (answers serveBuckets (BucketIndex.new n) calls).map (fun out => (out.1, out.2.snapshot)) =
      (answers serve (new n) calls).map fun out => (out.1, out.2.snapshot.map Entry.cached) := by
  have hnew : BucketIndex.new n = (new n).cached := (HashIndex.cached_sized _).symm
  rw [hnew, answers_commutes HashIndex.cached serveBuckets_cached, Option.map_map]
  refine congrArg (Option.map · _) (funext fun out => ?_)
  simp only [Function.comp_apply, out.2.snapshot_cached]

end Call

end Horreum.Index
