/-
  Transport/Population.lean --- how many keys a shard holds.

  Neither `Set` nor `Get` ever takes a key out of the index: the handles that the eviction
  policy gives up lose their blocks and keep their entries.  So in a run of these two calls
  the index holds every key that was ever stored, and stays within the capacity of the
  policy exactly when there are no more of those.
-/
import Horreum.Foundation.Runs
import Horreum.Transport.Saves
import Mathlib.Data.Finset.Card

set_option autoImplicit false

namespace Horreum.Transport

open Foundation
open Arena (Handle Manager)
open S3Fifo (Eviction)
open Foundation.Probing (entries)

/-- The two calls that a population is built with. -/
inductive Access where
  | set (key value : Bytes) (ttlSeconds : UInt32)
  | get (key : Bytes)

namespace ShardCache

variable {H : Hashes} {s s' : ShardCache} {env : Env}

/-- Whether the arena takes what `Set` makes of the value. -/
def stores (s : ShardCache) (env : Env) (value : Bytes) : Bool :=
  if value.length > Arena.maxObjectSize then false
  else
    match s.encode env value with
    | some (.ok p) =>
      match s.mgr.put p.bytes env.mmapOk with
      | some (.ok _, _) => true
      | _ => false
    | _ => false

/-- `Set` enters the key if the arena takes the value and otherwise leaves the index alone. -/
theorem set_index {key value : Bytes} {ttlSeconds : UInt32} {res : Except Error Bytes}
    (h : s.set H env key value ttlSeconds = some (res, s')) :
    s'.ev.capacity = s.ev.capacity ∧
      ((s.stores env value = false ∧ s'.idx = s.idx) ∨
        (s.stores env value = true ∧ ∃ hd expiresAt old,
          s.idx.put H.hashKey key hd expiresAt = some (old, s'.idx))) := by
  obtain ⟨r, hsave, _⟩ := set_save h
  unfold stores
  rcases save_cases hsave with ⟨e, _, rfl, hno⟩ | ⟨p, stored, hlen, henc, hstore, _⟩
  · refine ⟨rfl, .inl ⟨?_, rfl⟩⟩
    split
    · rfl
    · rename_i hlen
      split
      · rename_i p henc
        cases (hno p (Nat.le_of_not_lt hlen) henc).1
      · rfl
  · obtain ⟨⟨put, mgr⟩, hput, hstore⟩ := Option.bind_eq_some_iff.mp hstore
    simp only [if_neg (Nat.not_lt.mpr hlen), henc, hput]
    cases put with
    | error e =>
      cases hstore
      exact ⟨rfl, .inl ⟨rfl, rfl⟩⟩
    | ok hd =>
      obtain ⟨⟨old, idx⟩, hidx, hstore⟩ := Option.bind_eq_some_iff.mp hstore
      obtain ⟨_, rfl⟩ := Prod.mk.inj (Option.some.inj hstore)
      exact ⟨Eviction.capacity_add .., .inr ⟨rfl, hd, _, old, hidx⟩⟩

theorem get_index {now : UInt32} {key : Bytes} {res : Except Error Bytes}
    (h : s.get H now key = some (res, s')) : s'.ev = s.ev ∧ s'.idx = s.idx := by
  obtain ⟨found, _, h⟩ := Option.bind_eq_some_iff.mp h
  cases found with
  | none =>
    cases h
    exact ⟨rfl, rfl⟩
  | some e =>
    obtain ⟨v, _, h⟩ := Option.bind_eq_some_iff.mp h
    cases h
    exact ⟨rfl, rfl⟩

end ShardCache

/-- A shard together with the keys stored so far. -/
structure Populated where
  cache : ShardCache
  stored : Finset Bytes

namespace Populated

/-- One call, and what has been stored by then. -/
def step (H : Hashes) (p : Populated) (c : Env × Access) : Option Populated :=
  match c.2 with
  | .set key value ttlSeconds =>
    (p.cache.set H c.1 key value ttlSeconds).map fun (_, s) =>
      ⟨s, if p.cache.stores c.1 value then insert key p.stored else p.stored⟩
  | .get key => (p.cache.get H c.1.now key).map fun (_, s) => ⟨s, p.stored⟩

/-- The number of keys in the index. -/
def keys (p : Populated) : Nat := (entries p.cache.idx.slots).length

/-- The index holds the stored keys and no others. -/
structure Holds (H : Hashes) (capacity : Nat) (p : Populated) : Prop where
  idx : p.cache.idx.Wf H.hashKey
  mem : ∀ k, (p.cache.idx.lookup k).isSome = true ↔ k ∈ p.stored
  count : p.cache.idx.count = p.stored.card
  capacity : p.cache.ev.capacity = capacity

variable {H : Hashes} {capacity : Nat} {p p' : Populated}

theorem Holds.keys_eq (h : Holds H capacity p) : p.keys = p.stored.card := by
  rw [keys, ← h.count, h.idx.count_eq, Probing.occupied_eq_length_entries]

theorem Holds.put (h : Holds H capacity p) {key : Bytes} {hd : Handle} {expiresAt : UInt32}
    {old : Option Handle} {s : ShardCache}
    (hput : p.cache.idx.put H.hashKey key hd expiresAt = some (old, s.idx))
    (hcap : s.ev.capacity = capacity) : Holds H capacity ⟨s, insert key p.stored⟩ := by
  obtain ⟨t, ht, hwf, hlook, hcount⟩ := h.idx.put key hd expiresAt
  obtain ⟨_, rfl⟩ := Prod.mk.inj (Option.some.inj (ht.symm.trans hput))
  refine ⟨hwf, ?_, ?_, hcap⟩
  · intro k
    rw [hlook, Finset.mem_insert, ← h.mem]
    by_cases hk : k = key
    · simp [hk]
    · simp [hk]
  · rw [hcount, h.count]
    by_cases hmem : key ∈ p.stored
    · have hsome := (h.mem key).mpr hmem
      rw [Finset.insert_eq_of_mem hmem, if_neg (by simpa [Option.isSome_iff_ne_none] using hsome)]
      rfl
    · have hnone : (p.cache.idx.lookup key).isNone = true := by
        simpa using mt (h.mem key).mp hmem
      rw [Finset.card_insert_of_notMem hmem, if_pos hnone]

theorem Holds.step {c : Env × Access} (h : Holds H capacity p) (hstep : step H p c = some p') :
    Holds H capacity p' ∧ p.stored ⊆ p'.stored := by
  obtain ⟨env, call⟩ := c
  cases call with
  | set key value ttlSeconds =>
    obtain ⟨⟨res, s⟩, hset, rfl⟩ := Option.map_eq_some_iff.mp hstep
    obtain ⟨hcap, ⟨hno, hidx⟩ | ⟨hyes, hd, expiresAt, old, hput⟩⟩ := ShardCache.set_index hset
    · simp only [hno]
      exact ⟨⟨hidx ▸ h.idx, hidx ▸ h.mem, hidx ▸ h.count, hcap.trans h.capacity⟩,
        Finset.Subset.refl _⟩
    · simp only [hyes, if_true]
      exact ⟨h.put hput (hcap.trans h.capacity), Finset.subset_insert key p.stored⟩
  | get key =>
    obtain ⟨⟨res, s⟩, hget, rfl⟩ := Option.map_eq_some_iff.mp hstep
    obtain ⟨hev, hidx⟩ := ShardCache.get_index hget
    exact ⟨⟨hidx ▸ h.idx, hidx ▸ h.mem, hidx ▸ h.count, hev ▸ h.capacity⟩,
      Finset.Subset.refl _⟩

theorem Holds.run {calls : List (Env × Access)} (h : Holds H capacity p)
    (hrun : run (Populated.step H) p calls = some p') :
    Holds H capacity p' ∧ p.stored ⊆ p'.stored := by
  refine run_keeps (fun q => Holds H capacity q ∧ p.stored ⊆ q.stored)
    (fun q c q' ⟨hq, hsub⟩ hstep => ?_) calls p p' ⟨h, Finset.Subset.refl _⟩ hrun
  obtain ⟨hholds, hmore⟩ := hq.step hstep
  exact ⟨hholds, hsub.trans hmore⟩

/-- Nothing has been stored. -/
def fresh (s : ShardCache) : Populated := ⟨s, ∅⟩

theorem holds_fresh {s : ShardCache} {regionSize evictCapacity : Nat}
    {comp : Compress.Compressor} {cipher : Encrypt.Cipher}
    (h : newShardCache regionSize evictCapacity comp cipher = some s) :
    Holds H s.ev.capacity (fresh s) := by
  obtain ⟨ev, _, h⟩ := Option.bind_eq_some_iff.mp h
  cases h
  have hnone : ∀ k, newShardIndex.lookup k = none := fun k => ShardIndex.lookup_blank k
  exact ⟨ShardIndex.wf_new, fun k => by simp [fresh, hnone], rfl, rfl⟩

/-- The index stays within the capacity of the policy in every state of a run exactly when
the run stores no more different keys than that. -/
theorem keys_le_capacity_iff (H : Hashes) {s : ShardCache} {regionSize evictCapacity : Nat}
    {comp : Compress.Compressor} {cipher : Encrypt.Cipher}
    (hnew : newShardCache regionSize evictCapacity comp cipher = some s)
    (calls : List (Env × Access)) (hrun : run (step H) (fresh s) calls = some p) :
    (∀ n p', run (step H) (fresh s) (calls.take n) = some p' →
        p'.keys ≤ p'.cache.ev.capacity) ↔
      p.stored.card ≤ s.ev.capacity := by
  have hfresh : Holds H s.ev.capacity (fresh s) := holds_fresh hnew
  constructor
  · intro hall
    have hend := hall calls.length p (by rw [List.take_length]; exact hrun)
    obtain ⟨hholds, _⟩ := hfresh.run hrun
    rw [hholds.keys_eq, hholds.capacity] at hend
    exact hend
  · intro hle n p' hrun'
    obtain ⟨hholds, _⟩ := hfresh.run hrun'
    rw [← List.take_append_drop n calls, run_append, hrun'] at hrun
    obtain ⟨_, hsub⟩ := hholds.run hrun
    rw [hholds.keys_eq, hholds.capacity]
    exact (Finset.card_le_card hsub).trans hle

/-- Two keys fit in the smallest shard. -/
theorem keys_le_capacity_two :
    ∃ s p, newShardCache 64 1 .noop .noop = some s ∧
      run (step Hashes.source) (fresh s)
        [(⟨0, none, true⟩, .set [97] [1] 0), (⟨0, none, true⟩, .get [97]),
          (⟨0, none, true⟩, .set [98] [2] 0)] = some p ∧
      p.stored.card = 2 ∧ s.ev.capacity = 2 ∧
      ∀ n p', run (step Hashes.source) (fresh s)
        ([(⟨0, none, true⟩, .set [97] [1] 0), (⟨0, none, true⟩, .get [97]),
          (⟨0, none, true⟩, .set [98] [2] 0)].take n) = some p' →
        p'.keys ≤ p'.cache.ev.capacity := by
  obtain ⟨s, hnew, hcap, p, hrun, hcard⟩ : ∃ s, newShardCache 64 1 .noop .noop = some s ∧
      s.ev.capacity = 2 ∧ ∃ p, run (step Hashes.source) (fresh s)
        [(⟨0, none, true⟩, .set [97] [1] 0), (⟨0, none, true⟩, .get [97]),
          (⟨0, none, true⟩, .set [98] [2] 0)] = some p ∧ p.stored.card = 2 := by
    decide +kernel
  exact ⟨s, p, hnew, hrun, hcard, hcap,
    (keys_le_capacity_iff Hashes.source hnew _ hrun).mpr (by omega)⟩

/-- The same shard takes a third key and keeps all three. -/
theorem keys_exceed_capacity_three :
    ∃ s p, newShardCache 64 1 .noop .noop = some s ∧
      run (step Hashes.source) (fresh s)
        [(⟨0, none, true⟩, .set [97] [1] 0), (⟨0, none, true⟩, .set [98] [2] 0),
          (⟨0, none, true⟩, .set [99] [3] 0)] = some p ∧
      p.keys = 3 ∧ p.cache.ev.capacity = 2 := by
  simp only [exists_and_left]
  decide +kernel

end Populated

end Horreum.Transport
