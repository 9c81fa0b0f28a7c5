/-
  Index/HashIndex.lean --- the hash index of `internal/index/index.go`.

  An open-addressed table with linear probing.  A slot is free where the source has a nil key.  An
  update puts the caller's slice in place of the stored key, and if that slice is nil the slot reads as
  free from then on.  `Hash` and `KeyLen` are always computed from the key, so they are functions of the
  entry here.  A search that would not end is `none`.
-/
import Horreum.Foundation.Bytes
import Horreum.Foundation.ProbingErase
import Horreum.Foundation.Runs
import Horreum.Arena.Manager

set_option autoImplicit false

namespace Horreum.Index

open Foundation
open Foundation.Probing (cell probe blank entries occupied Masked Smeared)
open Arena (Handle)

/-- FNV-1a, 64 bits. -/
def fnv64 (data : Bytes) : UInt64 :=
  data.foldl (fun hash b => (hash ^^^ b.toUInt64) * 1099511628211) 14695981039346656037

/-- What a bucket holds. -/
structure Entry where
  key : Bytes
  handle : Handle
  expiresAt : UInt32
  deriving DecidableEq, Repr

/-- The hash that the source stores. -/
def Entry.hash (e : Entry) : UInt64 := fnv64 e.key

/-- The length that the source stores, cut to 16 bits. -/
def Entry.keyLen (e : Entry) : UInt16 := UInt16.ofNat e.key.length

/-- `ExpiresAt != 0 && now >= ExpiresAt` -/
def Entry.expired (e : Entry) (now : UInt32) : Bool := e.expiresAt != 0 && now ≥ e.expiresAt

/-- The table, the number of entries, the mask and the cursor of the sweep. -/
structure HashIndex where
  slots : List (Option Entry)
  count : Nat
  mask : Nat
  scanCursor : Nat

/-- Smear the top bit of `n - 1` downwards and add one; exact up to `2 ^ 63`. -/
def nextPowerOfTwo (n : Nat) : Nat :=
  if n = 0 then 1
  else
    let n := n - 1
    let n := n ||| n >>> 1
    let n := n ||| n >>> 2
    let n := n ||| n >>> 4
    let n := n ||| n >>> 8
    let n := n ||| n >>> 16
    let n := n ||| n >>> 32
    n + 1

/-- A table of `cap` free buckets. -/
def sized (cap : Nat) : HashIndex := ⟨blank cap, 0, cap - 1, 0⟩

/-- `New` -/
def new (initialBuckets : Nat) : HashIndex := sized (nextPowerOfTwo initialBuckets)

/-- The capacity is a 64-bit word: from `2 ^ 62 + 1` entries on it comes out as zero. -/
def newForCount (n : Nat) : HashIndex :=
  let cap := nextPowerOfTwo (n * 2) % 2 ^ 64
  sized (if cap < 8 then 8 else cap)

namespace HashIndex

/-- The slot where the search for `key` stops. -/
def find (s : HashIndex) (key : Bytes) : Option Nat :=
  probe s.slots s.mask
    (fun e => e.hash == fnv64 key && e.keyLen == UInt16.ofNat key.length && e.key == key)
    s.slots.length ((fnv64 key).toNat &&& s.mask)

/-- The loop of `Put`.  A free slot gets a copy of the key, a taken one the caller's slice. -/
def place (s : HashIndex) (key : Slice) (hd : Handle) (expiresAt : UInt32) :
    Option (Bool × HashIndex) := do
  let i ← s.find key.bytes
  match cell s.slots i with
  | none =>
    some (false, { s with
      slots := s.slots.set i (some ⟨key.bytes, hd, expiresAt⟩), count := s.count + 1 })
  | some _ =>
    some (true, { s with slots := s.slots.set i (key.map fun k => ⟨k, hd, expiresAt⟩) })

/-- Put every entry into a table of twice the size.  The size test of the inner `Put` calls
cannot fire: the new table has at most half of its slots taken. -/
def grow (s : HashIndex) : Option HashIndex :=
  (entries s.slots).foldlM
    (fun t e => (t.place (some e.key) e.handle e.expiresAt).map Prod.snd)
    (sized (s.slots.length * 2))

/-- Whether an entry was there already. -/
def put (s : HashIndex) (key : Slice) (hd : Handle) (expiresAt : UInt32) :
    Option (Bool × HashIndex) :=
  if s.count * 4 ≥ s.slots.length * 3 then s.grow.bind fun s => s.place key hd expiresAt
  else s.place key hd expiresAt

/-- `Get` -/
def get (s : HashIndex) (key : Bytes) (now : UInt32) : Option (Option Handle) := do
  let i ← s.find key
  match cell s.slots i with
  | none => some none
  | some e => some (if e.expired now then none else some e.handle)

/-- Empty a bucket and close the gap. -/
def deleteAt (s : HashIndex) (i : Nat) : Option HashIndex :=
  (Probing.deleteAt (fun e : Entry => e.hash.toNat &&& s.mask) s.mask
    s.slots i).map fun slots => { s with slots := slots, count := s.count - 1 }

/-- `Delete` -/
def delete (s : HashIndex) (key : Bytes) : Option (Option Handle × HashIndex) := do
  let i ← s.find key
  match cell s.slots i with
  | none => some (none, s)
  | some e => (s.deleteAt i).map fun s => (some e.handle, s)

/-- All entries, in slot order. -/
def snapshot (s : HashIndex) : List Entry :=
  if s.count = 0 ∨ s.slots.length = 0 then [] else entries s.slots

/-- Insert without growing; an entry that is there stays.  The caller's slice is stored. -/
def add (s : HashIndex) (key : Slice) (hd : Handle) (expiresAt : UInt32) :
    Option (Bool × HashIndex) := do
  let i ← s.find key.bytes
  match cell s.slots i with
  | none =>
    some (true, { s with
      slots := s.slots.set i (key.map fun k => ⟨k, hd, expiresAt⟩), count := s.count + 1 })
  | some _ => some (false, s)

/-- The loop of `DeleteExpired`: `limit` buckets from the cursor on. -/
def deleteExpiredLoop (now : UInt32) : (limit : Nat) → HashIndex → List Handle →
    Option (List Handle × HashIndex)
  | 0, s, freed => some (freed, s)
  | limit + 1, s, freed =>
    let idx := s.scanCursor
    let s := { s with scanCursor := (s.scanCursor + 1) &&& s.mask }
    match cell s.slots idx with
    | none => deleteExpiredLoop now limit s freed
    | some e =>
      if e.expired now then
        (s.deleteAt idx).bind fun s => deleteExpiredLoop now limit s (freed ++ [e.handle])
      else deleteExpiredLoop now limit s freed

/-- `DeleteExpired` -/
def deleteExpired (s : HashIndex) (now : UInt32) (limit : Int) :
    Option (List Handle × HashIndex) :=
  if s.count = 0 ∨ limit ≤ 0 then some ([], s)
  else deleteExpiredLoop now limit.toNat s []

/-! ## The size of a fresh table -/

variable {n : Nat}

theorem nextPowerOfTwo_spec (hn : n ≤ 2 ^ 64) :
    ∃ k, nextPowerOfTwo n = 2 ^ k ∧ n ≤ 2 ^ k ∧ ∀ j, n ≤ 2 ^ j → k ≤ j := by
  unfold nextPowerOfTwo
  split
  · exact ⟨0, rfl, by omega, fun _ _ => Nat.zero_le _⟩
  · have hone : Smeared (n - 1) (n - 1) 1 := by
      intro i
      exact ⟨fun h => ⟨0, by decide, h⟩, fun ⟨j, hj, h⟩ => by
        obtain rfl : j = 0 := by omega
        exact h⟩
    have hpow := hone.double.double.double.double.double.double.eq_pow (by omega)
    have hpos : 0 < 2 ^ (n - 1).size := Nat.two_pow_pos _
    have hlt := Nat.lt_size_self (n - 1)
    refine ⟨(n - 1).size, ?_, by omega, fun j hj => Nat.size_le.mpr (by omega)⟩
    simp only at hpow ⊢
    rw [hpow]
    omega

/-! ## The index as a map -/

/-- The entry stored for `key`, expired or not. -/
def lookup (s : HashIndex) (key : Bytes) : Option Entry :=
  Probing.lookup Entry.key s.slots key

/-- Unlike the index of a shard, a table of one or two buckets can be full. -/
structure Wf (s : HashIndex) : Prop where
  probing : Probing.Wf Entry.key (fun k => (fnv64 k).toNat) s.mask s.slots
  count_eq : s.count = occupied s.slots

variable {s t : HashIndex} {key : Bytes} {e : Entry}

theorem lookup_sized (cap : Nat) (k : Bytes) : (sized cap).lookup k = none := by
  simp [lookup, Probing.lookup, entries, sized, blank]

theorem length_sized (cap : Nat) : (sized cap).slots.length = cap := by simp [sized, blank]

theorem wf_sized {cap : Nat} (hm : Masked cap (cap - 1)) : (sized cap).Wf :=
  ⟨Probing.wf_blank hm, by simp [sized, occupied, blank, List.countP_replicate]⟩

/-- A fresh table has at least as many buckets as asked for. -/
theorem wf_new (hn : n ≤ 2 ^ 64) : (new n).Wf ∧ n ≤ (new n).slots.length := by
  obtain ⟨k, hk, hle, _⟩ := nextPowerOfTwo_spec hn
  rw [new, length_sized, hk]
  exact ⟨wf_sized ⟨k, rfl, rfl⟩, hle⟩

theorem Wf.key_of_lookup (h : s.Wf) {k : Bytes} (hl : s.lookup k = some e) :
    e.key = k := (h.probing.lookup_eq_some.mp hl).2

theorem Wf.length_entries (h : s.Wf) : (entries s.slots).length = s.count := by
  rw [h.count_eq, Probing.occupied_eq_length_entries]

theorem Wf.count_le (h : s.Wf) : s.count ≤ s.slots.length := by
  rw [h.count_eq]
  exact List.countP_le_length

/-- A search in a table with a free slot ends at the slot that holds the key, or at a free
one. -/
theorem Wf.find (h : s.Wf) (hspare : s.count < s.slots.length) (key : Bytes) :
    ∃ i hit, s.find key = some i ∧ cell s.slots i = s.lookup key ∧
      Probing.Stopped s.slots hit ((fnv64 key).toNat &&& s.mask) i := by
  have hfree := Probing.exists_free_of_occupied_lt (h.count_eq ▸ hspare)
  have hhit : ∀ (i : Nat) (e : Entry), cell s.slots i = some e →
      ((e.hash == fnv64 key && e.keyLen == UInt16.ofNat key.length && e.key == key) = true ↔
        e.key = key) := by
    intro _ e _
    simp only [Bool.and_eq_true, beq_iff_eq]
    constructor
    · exact fun heq => heq.2
    · rintro rfl
      exact ⟨⟨rfl, rfl⟩, rfl⟩
  obtain ⟨i, hi, hstop, hcell⟩ := h.probing.search _ hhit hfree
  exact ⟨i, _, hi, hcell, hstop⟩

/-- Storing under a key.  A nil slice is stored properly only where the slot is free. -/
theorem Wf.place (h : s.Wf) (hspare : s.count < s.slots.length) (key : Slice) (hd : Handle)
    (expiresAt : UInt32) (hnil : key = none → s.lookup [] = none) :
    ∃ t, s.place key hd expiresAt = some ((s.lookup key.bytes).isSome, t) ∧ t.Wf ∧
      t.slots.length = s.slots.length ∧
      t.lookup = Function.update s.lookup key.bytes (some ⟨key.bytes, hd, expiresAt⟩) ∧
      t.count = s.count + (if (s.lookup key.bytes).isNone then 1 else 0) := by
  obtain ⟨i, hit, hi, hcell, hstop⟩ := h.find hspare key.bytes
  have hlt := hstop.1
  obtain ⟨hwf, hlookup⟩ := h.probing.store (e := ⟨key.bytes, hd, expiresAt⟩) hstop hcell
  unfold HashIndex.place
  simp only [hi, Option.bind_eq_bind, Option.bind_some]
  cases hold : s.lookup key.bytes with
  | none =>
    rw [hold] at hcell
    simp only [hcell]
    refine ⟨_, rfl, ⟨hwf, ?_⟩, by simp, hlookup, rfl⟩
    simp only [Probing.occupied_set_of_free hlt hcell, h.count_eq]
  | some e =>
    rw [hold] at hcell
    cases key with
    | none =>
      rw [show Slice.bytes none = [] from rfl, hnil rfl] at hold
      cases hold
    | some k =>
      simp only [hcell, Option.map_some, Slice.bytes_some]
      refine ⟨_, rfl, ⟨hwf, ?_⟩, by simp, hlookup, rfl⟩
      simp only [Probing.occupied_set_of_taken hcell, h.count_eq]

theorem Wf.grow (h : s.Wf) : ∃ t, s.grow = some t ∧ t.Wf ∧
    t.slots.length = s.slots.length * 2 ∧ t.count = s.count ∧ t.lookup = s.lookup := by
  have hle := h.count_le
  have henter : ∀ (t : HashIndex) (e : Entry), t.Wf → t.count < t.slots.length →
      t.lookup e.key = none →
      ∃ t', (t.place (some e.key) e.handle e.expiresAt).map Prod.snd = some t' ∧ t'.Wf ∧
        t'.slots.length = t.slots.length ∧ t'.count = t.count + 1 ∧
        t'.lookup = Function.update t.lookup e.key (some e) := by
    intro t e hwf hspare hnone
    obtain ⟨t', hplace, hwf', hlen', hlook', hcount'⟩ :=
      hwf.place hspare (some e.key) e.handle e.expiresAt (fun hnil => nomatch hnil)
    simp only [Slice.bytes_some] at hplace hlook' hcount'
    exact ⟨t', by rw [hplace]; rfl, hwf', hlen', by simpa [hnone] using hcount', hlook'⟩
  obtain ⟨t, hfold, hwf, hlen, hcount, hlook⟩ :=
    Probing.refill Entry.key lookup count (fun t => t.slots.length) Wf 0 henter
      (entries s.slots) (wf_sized h.probing.masked.double) h.probing.nodup_keys
      (fun e _ => lookup_sized _ e.key)
      (by rw [length_sized, h.length_entries]; simp only [sized]; omega)
  refine ⟨t, hfold, hwf, hlen.trans (length_sized _), ?_, funext fun k => ?_⟩
  · rw [hcount, h.length_entries]
    exact Nat.zero_add _
  · rw [hlook, lookup_sized, Option.or_none]
    rfl

/-- `Put` returns whatever the table, and stores the entry. -/
theorem Wf.put (h : s.Wf) (key : Slice) (hd : Handle) (expiresAt : UInt32)
    (hnil : key = none → s.lookup [] = none) :
    ∃ t, s.put key hd expiresAt = some ((s.lookup key.bytes).isSome, t) ∧ t.Wf ∧
      s.slots.length ≤ t.slots.length ∧ (4 ≤ t.slots.length → t.count < t.slots.length) ∧
      t.lookup = Function.update s.lookup key.bytes (some ⟨key.bytes, hd, expiresAt⟩) := by
  have hle := h.count_le
  have hgain : (if (s.lookup key.bytes).isNone then 1 else 0) ≤ 1 := by split <;> omega
  have hpos := h.probing.masked.pos
  unfold HashIndex.put
  split
  · obtain ⟨t, hgrow, hwf, hlen, hcount, hlook⟩ := h.grow
    obtain ⟨t', hplace, hwf', hlen', hlook', hcount'⟩ :=
      hwf.place (by omega) key hd expiresAt (fun hn => by rw [hlook]; exact hnil hn)
    rw [hlook] at hplace hlook' hcount'
    exact ⟨t', by rw [hgrow]; exact hplace, hwf', by omega, fun _ => by omega, hlook'⟩
  · obtain ⟨t, hplace, hwf, hlen, hlook, hcount⟩ :=
      h.place (by omega) key hd expiresAt hnil
    exact ⟨t, hplace, hwf, by omega, fun _ => by omega, hlook⟩

theorem Wf.get (h : s.Wf) (hspare : s.count < s.slots.length) (key : Bytes) (now : UInt32) :
    s.get key now = some ((s.lookup key).bind fun e =>
      if e.expired now then none else some e.handle) := by
  obtain ⟨i, _, hi, hcell, _⟩ := h.find hspare key
  unfold HashIndex.get
  simp only [hi, hcell, Option.bind_eq_bind, Option.bind_some]
  cases s.lookup key <;> rfl

theorem Wf.get_zero (h : s.Wf) (hspare : s.count < s.slots.length) (key : Bytes) :
    s.get key 0 = some ((s.lookup key).map Entry.handle) := by
  rw [h.get hspare]
  cases s.lookup key with
  | none => rfl
  | some e =>
    have hlive : e.expired 0 = false := by
      simp only [Entry.expired, Bool.and_eq_false_iff, bne_eq_false_iff_eq, decide_eq_false_iff_not,
        ge_iff_le]
      by_cases hzero : e.expiresAt = 0
      · exact .inl hzero
      · exact .inr fun hle => hzero (UInt32.le_zero_iff.mp hle)
    simp [hlive]

theorem Wf.deleteAt (h : s.Wf) (hroom : s.count < s.slots.length ∨ s.slots.length ≤ 2) {i : Nat}
    (hcell : cell s.slots i = some e) :
    ∃ t, s.deleteAt i = some t ∧ t.Wf ∧ t.slots.length = s.slots.length ∧ t.count < s.count ∧
      t.lookup = Function.update s.lookup e.key none := by
  have hspare : (∃ z, z < s.slots.length ∧ cell s.slots z = none) ∨ s.slots.length ≤ 2 :=
    hroom.imp_left fun hlt => Probing.exists_free_of_occupied_lt (h.count_eq ▸ hlt)
  obtain ⟨out, hout, hwf, hlen, hocc, hlook, _⟩ :=
    h.probing.deleteAt (fun e : Entry => e.hash.toNat &&& s.mask) hcell (fun _ _ _ => rfl) hspare
  have hcount := h.count_eq
  simp only [HashIndex.deleteAt, hout, Option.map_some]
  exact ⟨_, rfl, ⟨hwf, by simp only; omega⟩, hlen, by simp only; omega, hlook⟩

/-- `Delete` in a table with a free slot removes the key. -/
theorem Wf.delete (h : s.Wf) (hspare : s.count < s.slots.length) (key : Bytes) :
    ∃ t, s.delete key = some ((s.lookup key).map Entry.handle, t) ∧ t.Wf ∧
      t.slots.length = s.slots.length ∧ t.count ≤ s.count ∧
      t.lookup = Function.update s.lookup key none := by
  obtain ⟨i, _, hi, hcell, _⟩ := h.find hspare key
  unfold HashIndex.delete
  simp only [hi, Option.bind_eq_bind, Option.bind_some]
  cases hold : s.lookup key with
  | none =>
    rw [hold] at hcell
    simp only [hcell]
    exact ⟨s, rfl, h, rfl, Nat.le_refl _, by rw [← hold, Function.update_eq_self]⟩
  | some e =>
    rw [hold] at hcell
    obtain ⟨t, hdel, hwf, hlen, hcount, hlook⟩ := h.deleteAt (.inl hspare) hcell
    rw [h.key_of_lookup hold] at hlook
    simp only [hcell, hdel, Option.map_some]
    exact ⟨t, rfl, hwf, hlen, Nat.le_of_lt hcount, hlook⟩

theorem Wf.find_full (h : s.Wf) (hfull : s.count = s.slots.length) {i : Nat}
    (hi : s.find key = some i) : ∃ e, cell s.slots i = some e ∧ e.key = key := by
  rcases Probing.probe_stopped _ h.probing.masked (h.probing.masked.and_lt _) with
    ⟨hnone, _⟩ | ⟨r, hr, hlt, _, hstop⟩
  · cases hi.symm.trans hnone
  · cases hi.symm.trans hr
    rcases hstop with hfree | ⟨e, he, hhit⟩
    · -- a full table has no free slot
      have hgain := Probing.occupied_set_of_free hlt hfree ⟨key, default, 0⟩
      have hle : occupied (s.slots.set i (some ⟨key, default, 0⟩)) ≤ _ := List.countP_le_length
      rw [List.length_set, hgain, ← h.count_eq] at hle
      omega
    · simp only [Bool.and_eq_true, beq_iff_eq] at hhit
      exact ⟨e, he, hhit.2⟩

/-- `Delete` in a full table of one or two buckets removes the key if it returns at all: for
a key that is not there the search goes round and round. -/
theorem Wf.delete_full (h : s.Wf) (hfull : s.count = s.slots.length) (hsmall : s.slots.length ≤ 2)
    {old : Option Handle} (hdel : s.delete key = some (old, t)) :
    t.Wf ∧ t.slots.length = s.slots.length ∧ t.count ≤ s.count ∧
      t.lookup = Function.update s.lookup key none := by
  unfold HashIndex.delete at hdel
  obtain ⟨i, hi, hdel⟩ := Option.bind_eq_some_iff.mp hdel
  obtain ⟨e, he, hkey⟩ := h.find_full hfull hi
  simp only [he] at hdel
  obtain ⟨t', ht', heq⟩ := Option.map_eq_some_iff.mp hdel
  cases heq
  obtain ⟨_, hdel', hwf, hlen, hcount, hlook⟩ := h.deleteAt (.inr hsmall) he
  cases ht'.symm.trans hdel'
  rw [hkey] at hlook
  exact ⟨hwf, hlen, Nat.le_of_lt hcount, hlook⟩

theorem Wf.snapshot (h : s.Wf) : s.snapshot = entries s.slots := by
  unfold HashIndex.snapshot
  split
  · rename_i hempty
    have hzero : (entries s.slots).length = 0 := by
      have hle := h.count_le
      rw [h.length_entries]
      omega
    exact (List.eq_nil_of_length_eq_zero hzero).symm
  · rfl

/-! ## Rebuilding -/

/-- The handle stored for a key. -/
def handles (s : HashIndex) (key : Bytes) : Option Handle := (s.lookup key).map Entry.handle

theorem handles_new (n : Nat) (key : Bytes) : (new n).handles key = none := by
  rw [handles, new, lookup_sized]
  rfl

/-- The first entry of a list for a key. -/
def firstOf (es : List Entry) (key : Bytes) : Option Entry := es.find? fun e => decide (e.key = key)

/-- What every table keeps: with four buckets or more it has a free one. -/
structure Loose (s : HashIndex) : Prop where
  wf : s.Wf
  spare : 4 ≤ s.slots.length → s.count < s.slots.length

theorem loose_new (hn : n ≤ 2 ^ 64) : (new n).Loose := by
  have hcount : (new n).count = 0 := rfl
  exact ⟨(wf_new hn).1, fun hlarge => by omega⟩

theorem Loose.put (h : s.Loose) {key : Slice} {hd : Handle} {expiresAt : UInt32} {b : Bool}
    (hput : s.put key hd expiresAt = some (b, t)) (hnil : key = none → s.handles [] = none) :
    t.Loose ∧ t.handles = Function.update s.handles key.bytes (some hd) := by
  obtain ⟨t', hput', hwf, hlen, hspare, hlook⟩ :=
    h.wf.put key hd expiresAt fun hn => Option.map_eq_none_iff.mp (hnil hn)
  cases hput.symm.trans hput'
  refine ⟨⟨hwf, hspare⟩, funext fun k => ?_⟩
  by_cases hk : k = key.bytes <;> simp [handles, hlook, hk]

theorem Loose.delete (h : s.Loose) {old : Option Handle} (hdel : s.delete key = some (old, t)) :
    t.Loose ∧ t.handles = Function.update s.handles key none := by
  have hle := h.wf.count_le
  have hspec : t.Wf ∧ t.slots.length = s.slots.length ∧ t.count ≤ s.count ∧
      t.lookup = Function.update s.lookup key none := by
    by_cases hspare : s.count < s.slots.length
    · obtain ⟨t', hdel', hrest⟩ := h.wf.delete hspare key
      cases hdel.symm.trans hdel'
      exact hrest
    · have hsmall : s.slots.length < 4 := by
        by_contra hlarge
        exact hspare (h.spare (Nat.le_of_not_lt hlarge))
      obtain ⟨k, hk, _⟩ := h.wf.probing.masked
      have htwo : s.slots.length ≤ 2 := by
        rcases k with _ | _ | k
        · omega
        · omega
        · rw [hk, Nat.pow_succ, Nat.pow_succ] at hsmall
          have := Nat.two_pow_pos k
          omega
      exact h.wf.delete_full (by omega) htwo hdel
  obtain ⟨hwf, hlen, hcount, hlook⟩ := hspec
  refine ⟨⟨hwf, fun hlarge => ?_⟩, funext fun k => ?_⟩
  · have := h.spare (hlen ▸ hlarge)
    omega
  · by_cases hk : k = key <;> simp [handles, hlook, hk]

/-- A table with four buckets or more, in which every search ends. -/
structure Roomy (s : HashIndex) : Prop extends Loose s where
  large : 4 ≤ s.slots.length

theorem roomy_new (hlarge : 4 ≤ n) (hn : n ≤ 2 ^ 64) : (new n).Roomy :=
  ⟨loose_new hn, hlarge.trans (wf_new hn).2⟩

theorem Roomy.put (h : s.Roomy) (key : Slice) (hd : Handle) (expiresAt : UInt32)
    (hnil : key = none → s.handles [] = none) :
    ∃ b t, s.put key hd expiresAt = some (b, t) ∧ t.Roomy ∧
      t.handles = Function.update s.handles key.bytes (some hd) := by
  obtain ⟨t, hput, _, hlen, _⟩ :=
    h.wf.put key hd expiresAt fun hn => Option.map_eq_none_iff.mp (hnil hn)
  obtain ⟨hloose, hhandles⟩ := h.toLoose.put hput hnil
  exact ⟨_, t, hput, ⟨hloose, h.large.trans hlen⟩, hhandles⟩

theorem Roomy.delete (h : s.Roomy) (key : Bytes) :
    ∃ old t, s.delete key = some (old, t) ∧ t.Roomy ∧
      t.handles = Function.update s.handles key none := by
  obtain ⟨t, hdel, _, hlen, _⟩ := h.wf.delete (h.spare h.large) key
  obtain ⟨hloose, hhandles⟩ := h.toLoose.delete hdel
  exact ⟨_, t, hdel, ⟨hloose, hlen ▸ h.large⟩, hhandles⟩

theorem Roomy.get_zero (h : s.Roomy) (key : Bytes) : s.get key 0 = some (s.handles key) :=
  h.wf.get_zero (h.spare h.large) key

/-- `Add` where it returns: an entry that is there stays. -/
theorem Wf.add (h : s.Wf) {b : Bool}
    (hadd : s.add (some e.key) e.handle e.expiresAt = some (b, t)) :
    t.Wf ∧ t.slots.length = s.slots.length ∧ t.count ≤ s.count + 1 ∧
      ∀ k, t.lookup k = (s.lookup k).or (if e.key = k then some e else none) := by
  have hstays : s.lookup e.key ≠ none →
      ∀ k, s.lookup k = (s.lookup k).or (if e.key = k then some e else none) := by
    intro hold k
    by_cases hk : e.key = k
    · subst hk
      obtain ⟨old, hold⟩ := Option.ne_none_iff_exists'.mp hold
      rw [hold, Option.some_or]
    · rw [if_neg hk, Option.or_none]
  unfold HashIndex.add at hadd
  obtain ⟨i, hi, hadd⟩ := Option.bind_eq_some_iff.mp hadd
  by_cases hspare : s.count < s.slots.length
  · obtain ⟨i', hit, hi', hcell, hstop⟩ := h.find hspare e.key
    cases hi.symm.trans hi'
    cases hold : s.lookup e.key with
    | none =>
      rw [hold] at hcell
      simp only [hcell] at hadd
      cases hadd
      obtain ⟨hwf, hlookup⟩ := h.probing.store (e := e) hstop (hcell.trans hold.symm)
      have hocc := Probing.occupied_set_of_free hstop.1 hcell e
      refine ⟨⟨hwf, ?_⟩, by simp, Nat.le_refl _, fun k => ?_⟩
      · rw [h.count_eq]
        exact hocc.symm
      · have hk' := congrFun hlookup k
        simp only [HashIndex.lookup, Option.map_some] at hold ⊢
        rw [hk']
        by_cases hk : e.key = k
        · subst hk
          simp [hold]
        · simp [hk, Function.update_of_ne (Ne.symm hk)]
    | some old =>
      rw [hold] at hcell
      simp only [hcell] at hadd
      cases hadd
      exact ⟨h, rfl, Nat.le_succ _, hstays (by simp [hold])⟩
  · obtain ⟨old, hcell, hkey⟩ := h.find_full (by have := h.count_le; omega) hi
    simp only [hcell] at hadd
    cases hadd
    refine ⟨h, rfl, Nat.le_succ _, hstays fun hnone => ?_⟩
    have hin : s.lookup e.key = some old :=
      h.probing.lookup_eq_some.mpr ⟨⟨i, hcell⟩, hkey⟩
    cases hnone.symm.trans hin

/-- `Add` of a list of entries, where it returns: the first one for a key stays. -/
theorem Wf.addAll : ∀ (es : List Entry) {s t : HashIndex}, s.Wf →
    es.foldlM (fun s e => (s.add (some e.key) e.handle e.expiresAt).map Prod.snd) s = some t →
    t.Wf ∧ t.slots.length = s.slots.length ∧ t.count ≤ s.count + es.length ∧
      ∀ k, t.lookup k = (s.lookup k).or (firstOf es k)
  | [], s, t, h, hfold => by
    cases hfold
    exact ⟨h, rfl, Nat.le_refl _, fun k => by simp [firstOf]⟩
  | e :: es, s, t, h, hfold => by
    rw [List.foldlM_cons] at hfold
    obtain ⟨s₁, hone, hfold⟩ := Option.bind_eq_some_iff.mp hfold
    obtain ⟨⟨b, s₁⟩, hadd, rfl⟩ := Option.map_eq_some_iff.mp hone
    obtain ⟨h₁, hlen₁, hcount₁, hlook₁⟩ := h.add hadd
    obtain ⟨ht, hlen, hcount, hlook⟩ := Wf.addAll es h₁ hfold
    refine ⟨ht, hlen.trans hlen₁, by rw [List.length_cons]; omega, fun k => ?_⟩
    rw [hlook, hlook₁, Option.or_assoc]
    by_cases hk : e.key = k <;> simp [firstOf, hk]

theorem Wf.add_total (h : s.Wf) (hspare : s.count < s.slots.length) (key : Slice) (hd : Handle)
    (expiresAt : UInt32) : ∃ b t, s.add key hd expiresAt = some (b, t) := by
  obtain ⟨i, _, hi, _, _⟩ := h.find hspare key.bytes
  unfold HashIndex.add
  simp only [hi, Option.bind_eq_bind, Option.bind_some]
  cases cell s.slots i <;> exact ⟨_, _, rfl⟩

theorem Roomy.addAll (es : List Entry) (h : s.Roomy) (hroom : s.count + es.length < s.slots.length) :
    ∃ t, es.foldlM (fun s e => (s.add (some e.key) e.handle e.expiresAt).map Prod.snd) s = some t ∧
      t.Roomy ∧ ∀ k, t.lookup k = (s.lookup k).or (firstOf es k) := by
  have hstep : ∀ (e : Entry) (rest : List Entry) (s : HashIndex),
      s.Wf ∧ s.count + (e :: rest).length < s.slots.length →
      ∃ t, (s.add (some e.key) e.handle e.expiresAt).map Prod.snd = some t ∧
        t.Wf ∧ t.count + rest.length < t.slots.length := by
    rintro e rest s ⟨hs, hlt⟩
    rw [List.length_cons] at hlt
    obtain ⟨b, t, hadd⟩ := hs.add_total (by omega) (some e.key) e.handle e.expiresAt
    obtain ⟨ht, hlen, hcount, _⟩ := hs.add hadd
    exact ⟨t, by rw [hadd]; rfl, ht, by omega⟩
  obtain ⟨t, hfold, _⟩ := foldlM_total
    (fun rest s => s.Wf ∧ s.count + rest.length < s.slots.length) hstep es s ⟨h.wf, hroom⟩
  obtain ⟨ht, hlen, hcount, hlook⟩ := Wf.addAll es h.wf hfold
  exact ⟨t, hfold, ⟨⟨ht, fun _ => by omega⟩, hlen ▸ h.large⟩, hlook⟩

end HashIndex

end Horreum.Index
