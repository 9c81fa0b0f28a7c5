/-
  Transport/ShardIndex.lean --- the key index of one shard, `shardIndex` in
  `internal/transport/transport.go`.

  An open-addressed table with linear probing that doubles at three quarters full and
  closes the gap on removal.  The three parallel arrays of the source are one list of
  optional entries: a slot is free where the source has a nil key.  A search that would
  not end is `none`; `Wf` keeps a free slot, so that never happens.
-/
import Horreum.Foundation.ProbingErase
import Horreum.Arena.Manager

set_option autoImplicit false

namespace Horreum.Transport

open Foundation
open Foundation.Probing (cell probe blank entries occupied)
open Arena (Handle)

/-- FNV-1a, 64 bits. -/
def hashKey (key : Bytes) : UInt64 :=
  key.foldl (fun h b => (h ^^^ b.toUInt64) * 1099511628211) 14695981039346656037

/-- What a slot holds. -/
structure Entry where
  key : Bytes
  handle : Handle
  expiresAt : UInt32
  deriving DecidableEq, Repr

/-- `expiresAt[i] != 0 && now >= expiresAt[i]` -/
def Entry.expired (e : Entry) (now : UInt32) : Bool := e.expiresAt != 0 && now ≥ e.expiresAt

/-- The table, the number of entries, the mask and the cursor of the sweep. -/
structure ShardIndex where
  slots : List (Option Entry)
  count : Nat
  mask : Nat
  scanCursor : Nat

/-- 64 free slots. -/
def newShardIndex : ShardIndex := ⟨blank 64, 0, 63, 0⟩

namespace ShardIndex

section Operations

variable (hash : Bytes → UInt64)

/-- The slot where the search for `key` stops. -/
def find (s : ShardIndex) (key : Bytes) : Option Nat :=
  probe s.slots s.mask (fun e => e.key == key) s.slots.length ((hash key).toNat &&& s.mask)

/-- The loop of `put`: fill a free slot, or replace and return the old handle. -/
def place (s : ShardIndex) (key : Bytes) (h : Handle) (expiresAt : UInt32) :
    Option (Option Handle × ShardIndex) := do
  let i ← s.find hash key
  match cell s.slots i with
  | none =>
    some (none, { s with
      slots := s.slots.set i (some ⟨key, h, expiresAt⟩), count := s.count + 1 })
  | some e =>
    some (some e.handle, { s with
      slots := s.slots.set i (some { e with handle := h, expiresAt := expiresAt }) })

/-- Put every entry into a table of twice the size.  The size test of the inner `put` calls
cannot fire, since the new table has at most half of its slots taken: `Wf.grow_through_put`. -/
def grow (s : ShardIndex) : Option ShardIndex :=
  let nc := s.slots.length * 2
  (entries s.slots).foldlM
    (fun t e => (t.place hash e.key e.handle e.expiresAt).map Prod.snd)
    ⟨blank nc, 0, nc - 1, 0⟩

/-- The handle that was replaced, if any. -/
def put (s : ShardIndex) (key : Bytes) (h : Handle) (expiresAt : UInt32) :
    Option (Option Handle × ShardIndex) :=
  if s.count * 4 ≥ s.slots.length * 3 then
    (s.grow hash).bind fun s => s.place hash key h expiresAt
  else s.place hash key h expiresAt

/-- The handle and expiry of a key that is present and not expired. -/
def get (s : ShardIndex) (key : Bytes) (now : UInt32) : Option (Option (Handle × UInt32)) := do
  if s.count = 0 then some none
  else
    let i ← s.find hash key
    match cell s.slots i with
    | none => some none
    | some e => some (if e.expired now then none else some (e.handle, e.expiresAt))

/-- Empty a slot and close the gap. -/
def deleteAt (s : ShardIndex) (i : Nat) : Option ShardIndex :=
  (Probing.deleteAt (fun e : Entry => (hash e.key).toNat &&& s.mask) s.mask
    s.slots i).map fun slots => { s with slots := slots, count := s.count - 1 }

/-- The handle that was removed, if any. -/
def delete (s : ShardIndex) (key : Bytes) : Option (Option Handle × ShardIndex) := do
  if s.count = 0 then some (none, s)
  else
    let i ← s.find hash key
    match cell s.slots i with
    | none => some (none, s)
    | some e => (s.deleteAt hash i).map fun s => (some e.handle, s)

/-- `limit` rounds of the cleaner from the stored cursor on. -/
def deleteExpiredLoop (now : UInt32) : (limit : Nat) → ShardIndex → List Handle →
    Option (List Handle × ShardIndex)
  | 0, s, freed => some (freed, s)
  | limit + 1, s, freed =>
    let idx := s.scanCursor
    let s := { s with scanCursor := (s.scanCursor + 1) &&& s.mask }
    match cell s.slots idx with
    | none => deleteExpiredLoop now limit s freed
    | some e =>
      if e.expired now then
        (s.deleteAt hash idx).bind fun s =>
          deleteExpiredLoop now limit s (freed ++ [e.handle])
      else deleteExpiredLoop now limit s freed

/-- Remove expired entries from the next `limit` slots. -/
def deleteExpired (s : ShardIndex) (now : UInt32) (limit : Int) :
    Option (List Handle × ShardIndex) :=
  if s.count = 0 ∨ limit ≤ 0 then some ([], s)
  else deleteExpiredLoop hash now limit.toNat s []

/-- One pass over the slots.  After a removal the same slot is looked at again, since the
next entry may have moved into it. -/
def deletePrefixLoop (pre : Bytes) : (fuel : Nat) → ShardIndex → (idx : Nat) →
    List Handle → List Bytes → Option (List Handle × List Bytes × ShardIndex)
  | 0, _, _, _, _ => none
  | fuel + 1, s, idx, freed, deletedKeys =>
    if idx < s.slots.length then
      match cell s.slots idx with
      | some e =>
        if pre.isPrefixOf e.key then
          (s.deleteAt hash idx).bind fun s =>
            deletePrefixLoop pre fuel s idx (freed ++ [e.handle]) (deletedKeys ++ [e.key])
        else deletePrefixLoop pre fuel s (idx + 1) freed deletedKeys
      | none => deletePrefixLoop pre fuel s (idx + 1) freed deletedKeys
    else some (freed, deletedKeys, s)

/-- Each round passes a slot or removes an entry. -/
def deletePrefix (s : ShardIndex) (pre : Bytes) :
    Option (List Handle × List Bytes × ShardIndex) :=
  if s.count = 0 then some ([], [], s)
  else deletePrefixLoop hash pre (s.slots.length + s.count + 1) s 0 [] []

end Operations

/-- The loop of `scanPrefix` over the slots from `idx` on: the page, and where the next one
starts, with zero when there is none. -/
def scanPrefixLoop (s : ShardIndex) (pre : Bytes) (limit : Nat) (now : UInt32) :
    (fuel idx : Nat) → (results : List Bytes) → List Bytes × Nat
  | 0, _, results => (results, 0)
  | fuel + 1, idx, results =>
    match cell s.slots idx with
    | some e =>
      if !e.expired now && pre.isPrefixOf e.key then
        let results := results ++ [e.key]
        if results.length ≥ limit then
          (results, if idx + 1 ≥ s.slots.length then 0 else idx + 1)
        else s.scanPrefixLoop pre limit now fuel (idx + 1) results
      else s.scanPrefixLoop pre limit now fuel (idx + 1) results
    | none => s.scanPrefixLoop pre limit now fuel (idx + 1) results

/-- A page of live keys, and where the next one starts. -/
def scanPrefix (s : ShardIndex) (pre : Bytes) (cursor : Nat) (limit : Int) (now : UInt32) :
    List Bytes × Nat :=
  if s.count = 0 ∨ limit ≤ 0 then ([], 0)
  else if cursor ≥ s.slots.length then ([], 0)
  else s.scanPrefixLoop pre limit.toNat now (s.slots.length - cursor) cursor []

/-! ## The index as a map -/

/-- The entry stored for `key`, expired or not. -/
def lookup (s : ShardIndex) (key : Bytes) : Option Entry :=
  Probing.lookup Entry.key s.slots key

variable {hash : Bytes → UInt64} {s t : ShardIndex} {e : Entry} {es : List Entry} {i : Nat}

/-- The table is in order and has a free slot. -/
structure Wf (hash : Bytes → UInt64) (s : ShardIndex) : Prop where
  probing : Probing.Wf Entry.key (fun k => (hash k).toNat) s.mask s.slots
  count_eq : s.count = occupied s.slots
  spare : s.count < s.slots.length
  large : 64 ≤ s.slots.length

/-- What searching and removing need: a table of any size will do. -/
structure Searchable (hash : Bytes → UInt64) (s : ShardIndex) : Prop where
  probing : Probing.Wf Entry.key (fun k => (hash k).toNat) s.mask s.slots
  count_eq : s.count = occupied s.slots
  spare : s.count < s.slots.length

theorem Wf.searchable (h : s.Wf hash) : s.Searchable hash := ⟨h.probing, h.count_eq, h.spare⟩

theorem Searchable.exists_free (h : s.Searchable hash) :
    ∃ i, i < s.slots.length ∧ cell s.slots i = none :=
  Probing.exists_free_of_occupied_lt (by rw [← h.count_eq]; exact h.spare)

theorem Wf.exists_free (h : s.Wf hash) : ∃ i, i < s.slots.length ∧ cell s.slots i = none :=
  h.searchable.exists_free

theorem lookup_blank {n count mask scanCursor : Nat} (k : Bytes) :
    lookup ⟨blank n, count, mask, scanCursor⟩ k = none := by
  simp [lookup, Probing.lookup, entries, blank]

theorem wf_blank {n : Nat} (hm : Probing.Masked n (n - 1)) (hn : 64 ≤ n) :
    Wf hash ⟨blank n, 0, n - 1, 0⟩ := by
  have hlen : (blank n : List (Option Entry)).length = n := by simp [blank]
  refine ⟨Probing.wf_blank hm, ?_, ?_, by rw [hlen]; exact hn⟩
  · simp [occupied, blank, List.countP_replicate]
  · simp only [hlen]
    omega

theorem wf_new : Wf hash newShardIndex := wf_blank ⟨6, rfl, rfl⟩ (Nat.le_refl 64)

/-- A search ends at the slot that holds the key, or at a free one. -/
theorem Searchable.find (h : s.Searchable hash) (key : Bytes) :
    ∃ i, s.find hash key = some i ∧ cell s.slots i = s.lookup key ∧
      Probing.Stopped s.slots (fun e : Entry => e.key == key)
        ((hash key).toNat &&& s.mask) i := by
  obtain ⟨i, hi, hstop, hcell⟩ := h.probing.search (fun e => e.key == key) (k := key)
    (fun _ e _ => by simp) h.exists_free
  exact ⟨i, hi, hcell, hstop⟩

theorem Wf.find (h : s.Wf hash) (key : Bytes) :
    ∃ i, s.find hash key = some i ∧ cell s.slots i = s.lookup key ∧
      Probing.Stopped s.slots (fun e : Entry => e.key == key)
        ((hash key).toNat &&& s.mask) i := h.searchable.find key

theorem Searchable.key_of_lookup (h : s.Searchable hash) {k : Bytes} (hl : s.lookup k = some e) :
    e.key = k := (h.probing.lookup_eq_some.mp hl).2

theorem Wf.key_of_lookup (h : s.Wf hash) {k : Bytes} (hl : s.lookup k = some e) :
    e.key = k := h.searchable.key_of_lookup hl

theorem Wf.place (h : s.Wf hash) (hroom : s.count + 1 < s.slots.length) (key : Bytes)
    (hd : Handle) (expiresAt : UInt32) :
    ∃ t, s.place hash key hd expiresAt = some ((s.lookup key).map Entry.handle, t) ∧
      t.Wf hash ∧ t.slots.length = s.slots.length ∧
      t.lookup = Function.update s.lookup key (some ⟨key, hd, expiresAt⟩) ∧
      t.count = s.count + (if (s.lookup key).isNone then 1 else 0) := by
  obtain ⟨i, hi, hcell, hstop⟩ := h.find key
  have hlt := hstop.1
  obtain ⟨hwf, hlookup⟩ := h.probing.store (e := ⟨key, hd, expiresAt⟩) hstop hcell
  unfold ShardIndex.place
  simp only [hi, Option.bind_eq_bind, Option.bind_some]
  cases hold : s.lookup key with
  | none =>
    rw [hold] at hcell
    simp only [hcell]
    refine ⟨_, rfl, ⟨hwf, ?_, ?_, ?_⟩, by simp, hlookup, rfl⟩
    · simp only [Probing.occupied_set_of_free hlt hcell, h.count_eq]
    · simpa using hroom
    · simpa using h.large
  | some e =>
    rw [hold] at hcell
    have hkey := h.key_of_lookup hold
    simp only [hcell, hkey]
    refine ⟨_, rfl, ⟨hwf, ?_, ?_, ?_⟩, by simp, hlookup, rfl⟩
    · simp only [Probing.occupied_set_of_taken hcell, h.count_eq]
    · simpa using h.spare
    · simpa using h.large

theorem Wf.wf_doubled (h : s.Wf hash) :
    Wf hash ⟨blank (s.slots.length * 2), 0, s.slots.length * 2 - 1, 0⟩ := by
  have hlarge := h.large
  exact wf_blank h.probing.masked.double (by omega)

theorem Wf.grow (h : s.Wf hash) :
    ∃ t, s.grow hash = some t ∧ t.Wf hash ∧ t.slots.length = s.slots.length * 2 ∧
      t.count = s.count ∧ t.lookup = s.lookup := by
  have hspare := h.spare
  have hlen : (blank (s.slots.length * 2) : List (Option Entry)).length = s.slots.length * 2 := by
    simp [blank]
  have hcount := h.count_eq
  rw [Probing.occupied_eq_length_entries] at hcount
  have henter : ∀ (t : ShardIndex) (e : Entry), t.Wf hash → t.count + 1 < t.slots.length →
      t.lookup e.key = none →
      ∃ t', (t.place hash e.key e.handle e.expiresAt).map Prod.snd = some t' ∧ t'.Wf hash ∧
        t'.slots.length = t.slots.length ∧ t'.count = t.count + 1 ∧
        t'.lookup = Function.update t.lookup e.key (some e) := by
    intro t e hwf hroom hnone
    obtain ⟨t', hplace, hwf', hlen', hlook', hcount'⟩ := hwf.place hroom e.key e.handle e.expiresAt
    exact ⟨t', by rw [hplace]; rfl, hwf', hlen', by simpa [hnone] using hcount', hlook'⟩
  obtain ⟨t, hfold, hwf, hlen', hcount', hlook⟩ :=
    Probing.refill Entry.key lookup count (fun t => t.slots.length) (Wf hash) 1 henter
      (entries s.slots) h.wf_doubled h.probing.nodup_keys (fun e _ => lookup_blank e.key)
      (by simp only [hlen]; omega)
  refine ⟨t, hfold, hwf, hlen'.trans hlen, by rw [hcount']; simp only; omega, funext fun k => ?_⟩
  rw [hlook, lookup_blank, Option.or_none]
  rfl

theorem Wf.foldlM_put : ∀ (es : List Entry) {t : ShardIndex}, t.Wf hash →
    (t.count + es.length) * 4 ≤ t.slots.length * 3 →
    es.foldlM (fun t e => (t.put hash e.key e.handle e.expiresAt).map Prod.snd) t =
      es.foldlM (fun t e => (t.place hash e.key e.handle e.expiresAt).map Prod.snd) t
  | [], _, _, _ => rfl
  | e :: es, t, hwf, hroom => by
    simp only [List.length_cons] at hroom
    obtain ⟨t', hplace, hwf', hlen, _, hcount⟩ :=
      hwf.place (by omega) e.key e.handle e.expiresAt
    have hput : t.put hash e.key e.handle e.expiresAt =
        t.place hash e.key e.handle e.expiresAt := if_neg (by omega)
    have hle : t'.count ≤ t.count + 1 := by
      rw [hcount]
      split <;> omega
    simp only [List.foldlM_cons, hput, hplace, Option.map_some, Option.bind_eq_bind,
      Option.bind_some]
    exact Wf.foldlM_put es hwf' (by rw [hlen]; omega)

/-- `grow` as the source writes it, with the entries going through `put` itself. -/
theorem Wf.grow_through_put (h : s.Wf hash) :
    s.grow hash = (entries s.slots).foldlM
      (fun t e => (t.put hash e.key e.handle e.expiresAt).map Prod.snd)
      ⟨blank (s.slots.length * 2), 0, s.slots.length * 2 - 1, 0⟩ := by
  have hlen : (blank (s.slots.length * 2) : List (Option Entry)).length = s.slots.length * 2 := by
    simp [blank]
  have hcount := h.count_eq
  rw [Probing.occupied_eq_length_entries] at hcount
  have hspare := h.spare
  refine (Wf.foldlM_put (entries s.slots) h.wf_doubled ?_).symm
  simp only [hlen]
  omega

/-- `put` stores the entry and returns the handle it replaces. -/
theorem Wf.put (h : s.Wf hash) (key : Bytes) (hd : Handle) (expiresAt : UInt32) :
    ∃ t, s.put hash key hd expiresAt = some ((s.lookup key).map Entry.handle, t) ∧
      t.Wf hash ∧ t.lookup = Function.update s.lookup key (some ⟨key, hd, expiresAt⟩) ∧
      t.count = s.count + (if (s.lookup key).isNone then 1 else 0) := by
  have hlarge := h.large
  have hspare := h.spare
  unfold ShardIndex.put
  split
  · obtain ⟨t, hgrow, hwf, hlen, hcount, hlook⟩ := h.grow
    obtain ⟨t', hplace, hwf', _, hlook', hcount'⟩ := hwf.place (by omega) key hd expiresAt
    rw [hlook] at hplace hlook' hcount'
    exact ⟨t', by rw [hgrow]; exact hplace, hwf', hlook', by rw [hcount', hcount]⟩
  · obtain ⟨t, hplace, hwf, _, hlook, hcount⟩ := h.place (by omega) key hd expiresAt
    exact ⟨t, hplace, hwf, hlook, hcount⟩

theorem Searchable.lookup_of_count_zero (h : s.Searchable hash) (hzero : s.count = 0)
    (key : Bytes) : s.lookup key = none := by
  have hcount := h.count_eq
  rw [hzero, Probing.occupied_eq_length_entries, eq_comm,
    List.length_eq_zero_iff] at hcount
  simp [ShardIndex.lookup, Probing.lookup, hcount]

theorem Wf.lookup_of_count_zero (h : s.Wf hash) (hzero : s.count = 0) (key : Bytes) :
    s.lookup key = none := h.searchable.lookup_of_count_zero hzero key

theorem Searchable.get (h : s.Searchable hash) (key : Bytes) (now : UInt32) :
    s.get hash key now = some ((s.lookup key).bind fun e =>
      if e.expired now then none else some (e.handle, e.expiresAt)) := by
  unfold ShardIndex.get
  split
  · rename_i hzero
    rw [h.lookup_of_count_zero hzero]
    rfl
  · obtain ⟨i, hi, hcell, _⟩ := h.find key
    simp only [hi, hcell, Option.bind_eq_bind, Option.bind_some]
    cases s.lookup key <;> rfl

theorem Wf.get (h : s.Wf hash) (key : Bytes) (now : UInt32) :
    s.get hash key now = some ((s.lookup key).bind fun e =>
      if e.expired now then none else some (e.handle, e.expiresAt)) := h.searchable.get key now

/-! ## Removal -/

theorem Searchable.deleteAt (h : s.Searchable hash) (hi : cell s.slots i = some e) :
    ∃ t, s.deleteAt hash i = some t ∧ t.Searchable hash ∧ t.slots.length = s.slots.length ∧
      t.lookup = Function.update s.lookup e.key none ∧ t.count + 1 = s.count ∧
      ∀ p e', cell t.slots p = some e' → ∃ p', cell s.slots p' = some e' ∧
        Probing.dist s.slots.length i p ≤ Probing.dist s.slots.length i p' := by
  obtain ⟨out, hout, hwf, hlen, hocc, hlook, _⟩ :=
    h.probing.deleteAt (fun e : Entry => (hash e.key).toNat &&& s.mask) hi
      (fun _ _ _ => rfl) (.inl h.exists_free)
  obtain ⟨z, hz, hfree⟩ := h.exists_free
  have hzi : z ≠ i := by
    rintro rfl
    rw [hfree] at hi
    cases hi
  have hcount := h.count_eq
  have hspare := h.spare
  refine ⟨{ s with slots := out, count := s.count - 1 }, by simp [ShardIndex.deleteAt, hout],
    ⟨hwf, by simp only; omega, by simp only [hlen]; omega⟩, hlen, hlook, by simp only; omega, ?_⟩
  intro p e' hp
  exact Probing.deleteAt_backward h.probing.masked
    (Probing.lt_of_cell_eq_some hi) hz hzi hfree hout hp

theorem Searchable.delete (h : s.Searchable hash) (key : Bytes) :
    ∃ t, s.delete hash key = some ((s.lookup key).map Entry.handle, t) ∧ t.Searchable hash ∧
      t.slots.length = s.slots.length ∧ t.lookup = Function.update s.lookup key none ∧
      t.count + (if (s.lookup key).isSome then 1 else 0) = s.count := by
  unfold ShardIndex.delete
  split
  · rename_i hzero
    have hnone := h.lookup_of_count_zero hzero key
    refine ⟨s, by simp [hnone], h, rfl, ?_, by simp [hnone]⟩
    rw [← hnone, Function.update_eq_self]
  · obtain ⟨i, hi, hcell, _⟩ := h.find key
    simp only [hi, Option.bind_eq_bind, Option.bind_some]
    cases hold : s.lookup key with
    | none =>
      rw [hold] at hcell
      simp only [hcell]
      exact ⟨s, rfl, h, rfl, by rw [← hold, Function.update_eq_self], rfl⟩
    | some e =>
      rw [hold] at hcell
      obtain ⟨t, hdel, hsearch, hlen, hlook, hcount, _⟩ := h.deleteAt hcell
      rw [h.key_of_lookup hold] at hlook
      simp only [hcell, hdel]
      exact ⟨t, rfl, hsearch, hlen, hlook, hcount⟩

theorem Searchable.wf (ht : t.Searchable hash) (h : s.Wf hash)
    (hlen : t.slots.length = s.slots.length) : t.Wf hash :=
  ⟨ht.probing, ht.count_eq, ht.spare, by rw [hlen]; exact h.large⟩

/-- `delete` removes the key and returns its handle. -/
theorem Wf.delete (h : s.Wf hash) (key : Bytes) :
    ∃ t, s.delete hash key = some ((s.lookup key).map Entry.handle, t) ∧ t.Wf hash ∧
      t.lookup = Function.update s.lookup key none ∧
      t.count + (if (s.lookup key).isSome then 1 else 0) = s.count := by
  obtain ⟨t, hdel, hsearch, hlen, hrest⟩ := h.searchable.delete key
  exact ⟨t, hdel, hsearch.wf h hlen, hrest⟩

/-- `t` is `s` with the entries `es` taken out one after another. -/
structure Removed (hash : Bytes → UInt64) (s : ShardIndex) (es : List Entry) (t : ShardIndex) :
    Prop where
  wf : t.Wf hash
  found : ∀ e ∈ es, s.lookup e.key = some e
  nodup : (es.map Entry.key).Nodup
  lookup : ∀ k, t.lookup k = if k ∈ es.map Entry.key then none else s.lookup k
  count : t.count + es.length = s.count

theorem Searchable.lookup_of_cell (h : s.Searchable hash) (hi : cell s.slots i = some e) :
    s.lookup e.key = some e :=
  h.probing.lookup_eq_some.mpr ⟨⟨i, hi⟩, rfl⟩

theorem Wf.lookup_of_cell (h : s.Wf hash) (hi : cell s.slots i = some e) :
    s.lookup e.key = some e := h.searchable.lookup_of_cell hi

/-- `delete` in those terms: the entry of the key, if there is one. -/
theorem Wf.delete_removed (h : s.Wf hash) (key : Bytes) :
    ∃ t, s.delete hash key = some ((s.lookup key).map Entry.handle, t) ∧
      Removed hash s (s.lookup key).toList t := by
  obtain ⟨t, hdel, hwf, hlook, hcount⟩ := h.delete key
  refine ⟨t, hdel, hwf, ?_, ?_, ?_, ?_⟩
  · intro e he
    rw [Option.mem_toList] at he
    rw [h.key_of_lookup he]
    exact he
  · cases s.lookup key <;> simp
  · intro k
    rw [hlook]
    cases hold : s.lookup key with
    | none =>
      rw [← hold, Function.update_eq_self, hold]
      simp
    | some e =>
      simp only [Option.toList_some, List.map_cons, List.map_nil, List.mem_singleton,
        h.key_of_lookup hold, Function.update_apply]
  · cases hold : s.lookup key <;> simp [hold] at hcount ⊢ <;> exact hcount

/-- The same for a table of any size. -/
structure Taken (hash : Bytes → UInt64) (s : ShardIndex) (es : List Entry) (t : ShardIndex) :
    Prop where
  searchable : t.Searchable hash
  length : t.slots.length = s.slots.length
  found : ∀ e ∈ es, s.lookup e.key = some e
  nodup : (es.map Entry.key).Nodup
  lookup : ∀ k, t.lookup k = if k ∈ es.map Entry.key then none else s.lookup k
  count : t.count + es.length = s.count

theorem Taken.refl (h : s.Searchable hash) : Taken hash s [] s :=
  ⟨h, rfl, by simp, by simp, by simp, rfl⟩

theorem Taken.removed (ht : Taken hash s es t) (h : s.Wf hash) : Removed hash s es t :=
  ⟨ht.searchable.wf h ht.length, ht.found, ht.nodup, ht.lookup, ht.count⟩

theorem Taken.scanCursor (h : Taken hash s es t) (cursor : Nat) :
    Taken hash s es { t with scanCursor := cursor } :=
  ⟨⟨h.searchable.probing, h.searchable.count_eq, h.searchable.spare⟩, h.length, h.found, h.nodup,
    h.lookup, h.count⟩

theorem Taken.deleteAt (h : Taken hash s es t) (hi : cell t.slots i = some e) :
    ∃ t', t.deleteAt hash i = some t' ∧ Taken hash s (es ++ [e]) t' ∧
      ∀ p e', cell t'.slots p = some e' → ∃ p', cell t.slots p' = some e' ∧
        Probing.dist t.slots.length i p ≤ Probing.dist t.slots.length i p' := by
  obtain ⟨t', hdel, hsearch, hlen, hlook, hcount, hback⟩ := h.searchable.deleteAt hi
  have hhere := h.searchable.lookup_of_cell hi
  have hold := h.lookup e.key
  rw [hhere] at hold
  have hnew : e.key ∉ es.map Entry.key := by
    intro hmem
    rw [if_pos hmem] at hold
    cases hold
  rw [if_neg hnew] at hold
  refine ⟨t', hdel, ⟨hsearch, hlen.trans h.length, ?_, ?_, ?_, ?_⟩, hback⟩
  · intro e' he'
    rcases List.mem_append.mp he' with hin | hin
    · exact h.found e' hin
    · obtain rfl := List.mem_singleton.mp hin
      exact hold.symm
  · rw [List.map_append, List.nodup_append]
    refine ⟨h.nodup, by simp, ?_⟩
    intro a ha b hb heq
    simp only [List.map_cons, List.map_nil, List.mem_singleton] at hb
    exact hnew (by rw [← hb, ← heq]; exact ha)
  · intro k
    rw [hlook]
    by_cases hk : k = e.key
    · simp [hk]
    · rw [Function.update_of_ne hk, h.lookup]
      simp [hk]
  · have := h.count
    simp only [List.length_append, List.length_singleton]
    omega

theorem deleteExpiredLoop_spec (now : UInt32) : ∀ (limit : Nat) {t : ShardIndex}
    {es : List Entry}, Taken hash s es t → (∀ e ∈ es, e.expired now = true) →
    ∃ es' t', deleteExpiredLoop hash now limit t (es.map Entry.handle) =
        some (es'.map Entry.handle, t') ∧
      Taken hash s es' t' ∧ ∀ e ∈ es', e.expired now = true
  | 0, t, es, h, hexp => ⟨es, t, rfl, h, hexp⟩
  | limit + 1, t, es, h, hexp => by
    have hc := h.scanCursor ((t.scanCursor + 1) &&& t.mask)
    unfold deleteExpiredLoop
    simp only
    cases hcell : cell t.slots t.scanCursor with
    | none => exact deleteExpiredLoop_spec now limit hc hexp
    | some e =>
      simp only
      split
      · rename_i hdead
        obtain ⟨t', hdel, hrem, _⟩ := hc.deleteAt hcell
        have hall : ∀ e' ∈ es ++ [e], e'.expired now = true := by
          intro e' he'
          rcases List.mem_append.mp he' with hin | hin
          · exact hexp e' hin
          · obtain rfl := List.mem_singleton.mp hin
            exact hdead
        have hrec := deleteExpiredLoop_spec now limit hrem hall
        simpa [hdel] using hrec
      · exact deleteExpiredLoop_spec now limit hc hexp

theorem Searchable.deleteExpired (h : s.Searchable hash) (now : UInt32) (limit : Int) :
    ∃ es t, s.deleteExpired hash now limit = some (es.map Entry.handle, t) ∧
      Taken hash s es t ∧ ∀ e ∈ es, e.expired now = true := by
  unfold ShardIndex.deleteExpired
  split
  · exact ⟨[], s, rfl, Taken.refl h, by simp⟩
  · exact deleteExpiredLoop_spec now limit.toNat (Taken.refl h) (by simp)

theorem Wf.deleteExpired (h : s.Wf hash) (now : UInt32) (limit : Int) :
    ∃ es t, s.deleteExpired hash now limit = some (es.map Entry.handle, t) ∧
      Removed hash s es t ∧ ∀ e ∈ es, e.expired now = true := by
  obtain ⟨es, t, hdel, htaken, hexp⟩ := h.searchable.deleteExpired now limit
  exact ⟨es, t, hdel, htaken.removed h, hexp⟩

/-- A slot before `i` that is filled after a removal at `i` was filled from a slot before
`i`: seen from `i`, the slots before it are the far end. -/
theorem lt_of_dist_le {n i p p' : Nat} (hp : p < i) (hi : i < n) (hp' : p' < n)
    (h : Probing.dist n i p ≤ Probing.dist n i p') : p' < i := by
  have h₁ := Probing.dist_cases n i p
  have h₂ := Probing.dist_cases n i p'
  omega

/-- The pass over the slots: those before `idx` hold no key with the prefix, and a removal at
`idx` brings none there. -/
theorem deletePrefixLoop_spec (pre : Bytes) : ∀ (fuel : Nat) {t : ShardIndex} {idx : Nat}
    {es : List Entry}, Taken hash s es t → (∀ e ∈ es, pre <+: e.key) →
    (∀ p e, p < idx → cell t.slots p = some e → ¬ pre <+: e.key) →
    idx ≤ t.slots.length → t.slots.length - idx + t.count < fuel →
    ∃ es' t', deletePrefixLoop hash pre fuel t idx (es.map Entry.handle) (es.map Entry.key) =
        some (es'.map Entry.handle, es'.map Entry.key, t') ∧
      Taken hash s es' t' ∧ (∀ e ∈ es', pre <+: e.key) ∧ ∀ k, pre <+: k → t'.lookup k = none
  | 0, _, _, _, _, _, _, _, hfuel => by omega
  | fuel + 1, t, idx, es, h, hes, hseen, hidx, hfuel => by
    unfold deletePrefixLoop
    split
    · rename_i hlt
      cases hcell : cell t.slots idx with
      | none =>
        refine deletePrefixLoop_spec pre fuel h hes ?_ hlt (by omega)
        intro p e hp hpe
        by_cases hpi : p = idx
        · rw [hpi, hcell] at hpe
          cases hpe
        · exact hseen p e (by omega) hpe
      | some e =>
        simp only
        split
        · rename_i hpre
          have hpre := List.isPrefixOf_iff_prefix.mp hpre
          obtain ⟨t', hdel, hrem, hback⟩ := h.deleteAt hcell
          have hlen := hrem.length
          have hlen' := h.length
          have hcount := hrem.count
          have hcount' := h.count
          simp only [List.length_append, List.length_singleton] at hcount
          have hes' : ∀ e' ∈ es ++ [e], pre <+: e'.key := by
            intro e' he'
            rcases List.mem_append.mp he' with hin | hin
            · exact hes e' hin
            · obtain rfl := List.mem_singleton.mp hin
              exact hpre
          have hseen' : ∀ p e', p < idx → cell t'.slots p = some e' → ¬ pre <+: e'.key := by
            intro p e' hp hpe
            obtain ⟨p', hp', hdist⟩ := hback p e' hpe
            have hin := Probing.lt_of_cell_eq_some hp'
            exact hseen p' e' (lt_of_dist_le hp hlt hin hdist) hp'
          have hrec := deletePrefixLoop_spec pre fuel hrem hes' hseen' (by omega) (by omega)
          simpa [hdel] using hrec
        · rename_i hpre
          have hpre : ¬ pre <+: e.key := fun hp => hpre (List.isPrefixOf_iff_prefix.mpr hp)
          refine deletePrefixLoop_spec pre fuel h hes ?_ hlt (by omega)
          intro p e' hp hpe
          by_cases hpi : p = idx
          · rw [hpi, hcell] at hpe
            cases hpe
            exact hpre
          · exact hseen p e' (by omega) hpe
    · rename_i hend
      refine ⟨es, t, rfl, h, hes, ?_⟩
      intro k hk
      rw [ShardIndex.lookup, h.searchable.probing.lookup_eq_none]
      intro p e hpe hkey
      have hin := Probing.lt_of_cell_eq_some hpe
      exact hseen p e (by omega) hpe (hkey ▸ hk)

/-- `deletePrefix` removes exactly the keys with the prefix. -/
theorem Searchable.deletePrefix (h : s.Searchable hash) (pre : Bytes) :
    ∃ es t, s.deletePrefix hash pre = some (es.map Entry.handle, es.map Entry.key, t) ∧
      Taken hash s es t ∧ (∀ e ∈ es, pre <+: e.key) ∧ ∀ k, pre <+: k → t.lookup k = none := by
  unfold ShardIndex.deletePrefix
  split
  · rename_i hzero
    exact ⟨[], s, rfl, Taken.refl h, by simp, fun k _ => h.lookup_of_count_zero hzero k⟩
  · exact deletePrefixLoop_spec pre _ (Taken.refl h) (by simp) (by omega) (Nat.zero_le _)
      (by omega)

theorem Wf.deletePrefix (h : s.Wf hash) (pre : Bytes) :
    ∃ es t, s.deletePrefix hash pre = some (es.map Entry.handle, es.map Entry.key, t) ∧
      Removed hash s es t ∧ (∀ e ∈ es, pre <+: e.key) ∧ ∀ k, pre <+: k → t.lookup k = none := by
  obtain ⟨es, t, hdel, htaken, hpre⟩ := h.searchable.deletePrefix pre
  exact ⟨es, t, hdel, htaken.removed h, hpre⟩

theorem deletePrefixLoop_of_none {pre : Bytes} {freed : List Handle} {deletedKeys : List Bytes}
    (h : ∀ i e, cell s.slots i = some e → ¬ pre <+: e.key) :
    ∀ (fuel idx : Nat), s.slots.length - idx < fuel →
      deletePrefixLoop hash pre fuel s idx freed deletedKeys = some (freed, deletedKeys, s) := by
  intro fuel
  induction fuel with
  | zero => exact fun idx hlt => absurd hlt (Nat.not_lt_zero _)
  | succ fuel ih =>
    intro idx hlt
    unfold deletePrefixLoop
    split
    · cases hcell : cell s.slots idx with
      | none => exact ih (idx + 1) (by omega)
      | some e =>
        have hpre : ¬ pre.isPrefixOf e.key = true := fun hp =>
          h idx e hcell (List.isPrefixOf_iff_prefix.mp hp)
        simp only [if_neg hpre]
        exact ih (idx + 1) (by omega)
    · rfl

/-- Without such a key the table stays as it is, down to the slots. -/
theorem deletePrefix_of_none {pre : Bytes}
    (h : ∀ i e, cell s.slots i = some e → ¬ pre <+: e.key) :
    s.deletePrefix hash pre = some ([], [], s) := by
  unfold ShardIndex.deletePrefix
  split
  · rfl
  · exact deletePrefixLoop_of_none h _ 0 (by omega)

end ShardIndex

end Horreum.Transport
