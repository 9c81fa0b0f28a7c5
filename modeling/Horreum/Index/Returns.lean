/-
  Index/Returns.lean --- which calls of the hash index end.

  In a full table the search for a key that is not there goes round for ever.  `Put` doubles the table
  from three quarters on, which in a table of one or two buckets is too late for the next `Get`; `Add`,
  with which a checkpoint is loaded, never looks at the load.
-/
import Horreum.Index.Sparse

set_option autoImplicit false

namespace Horreum.Index

open Foundation
open Foundation.Probing (Masked)
open Arena (Handle)

/-- A call of the index.  The keys that are added come out of a checkpoint and are never nil. -/
inductive Call where
  | put (key : Slice) (hd : Handle) (expiresAt : UInt32)
  | get (key : Bytes) (now : UInt32)
  | delete (key : Bytes)
  | deleteExpired (now : UInt32) (limit : Int)
  | add (key : Bytes) (hd : Handle) (expiresAt : UInt32)
  deriving DecidableEq

namespace Call

/-- The table after a call, `none` for a call that does not end. -/
def step (s : HashIndex) : Call → Option HashIndex
  | put key hd expiresAt => (s.put key hd expiresAt).map Prod.snd
  | get key now => (s.get key now).map fun _ => s
  | delete key => (s.delete key).map Prod.snd
  | deleteExpired now limit => (s.deleteExpired now limit).map Prod.snd
  | add key hd expiresAt => (s.add (some key) hd expiresAt).map Prod.snd

/-- The search of the call ends. -/
def Ends (s : HashIndex) : Call → Prop
  | put _ _ _ => True
  | get key _ => s.Ends key
  | delete key => s.Ends key
  | deleteExpired _ _ => True
  | add key _ _ => s.Ends key

instance (s : HashIndex) : (c : Call) → Decidable (c.Ends s)
  | put _ _ _ => isTrue trivial
  | get key _ => inferInstanceAs (Decidable (s.Ends key))
  | delete key => inferInstanceAs (Decidable (s.Ends key))
  | deleteExpired _ _ => isTrue trivial
  | add key _ _ => inferInstanceAs (Decidable (s.Ends key))

/-- An entry that is added leaves a bucket free, by the counter. -/
def Fits (s : HashIndex) : Call → Prop
  | add _ _ _ => s.count + 1 < s.slots.length
  | _ => True

/-- A call other than `Add`. -/
def NoAdd : Call → Prop
  | add _ _ _ => False
  | _ => True

variable {s t : HashIndex} {c : Call} {cap : Nat}

/-! ## One call -/

theorem step_counted (h : s.Counted) (hends : c.Ends s) : ∃ t, step s c = some t ∧ t.Counted := by
  cases c with
  | put key hd expiresAt =>
    obtain ⟨b, t, hput, ht, _⟩ := h.put key hd expiresAt
    exact ⟨t, by rw [step, hput]; rfl, ht⟩
  | get key now =>
    obtain ⟨out, hget⟩ := h.get hends now
    exact ⟨s, by rw [step, hget]; rfl, h⟩
  | delete key =>
    obtain ⟨old, t, hdel, ht, _⟩ := h.delete hends
    exact ⟨t, by rw [step, hdel]; rfl, ht⟩
  | deleteExpired now limit =>
    obtain ⟨out, t, hsweep, ht, _⟩ := h.deleteExpired now limit
    exact ⟨t, by rw [step, hsweep]; rfl, ht⟩
  | add key hd expiresAt =>
    obtain ⟨b, t, hadd, ht, _⟩ := h.add (show s.Ends (Slice.bytes (some key)) from hends) hd expiresAt
    exact ⟨t, by rw [step, hadd]; rfl, ht⟩

/-- What a call that searches needs of its search. -/
theorem ends_of_step (h : s.Counted) (hstep : step s c = some t) : c.Ends s := by
  have hfound : ∀ {key : Bytes} {β : Type} {f : Nat → Option β} {out : β},
      (s.find key).bind f = some out → s.Ends key := fun hbind => by
    obtain ⟨i, hi, _⟩ := Option.bind_eq_some_iff.mp hbind
    exact h.ends_of_find hi
  cases c with
  | put key hd expiresAt => trivial
  | get key now =>
    obtain ⟨out, hget, _⟩ := Option.map_eq_some_iff.mp hstep
    exact hfound hget
  | delete key =>
    obtain ⟨out, hdel, _⟩ := Option.map_eq_some_iff.mp hstep
    exact hfound hdel
  | deleteExpired now limit => trivial
  | add key hd expiresAt =>
    obtain ⟨out, hadd, _⟩ := Option.map_eq_some_iff.mp hstep
    exact hfound hadd

theorem step_keeps (h : s.Counted) (hstep : step s c = some t) : t.Counted := by
  obtain ⟨t', hstep', ht⟩ := step_counted h (ends_of_step h hstep)
  cases hstep.symm.trans hstep'
  exact ht

/-- In a table with four buckets or more, one of them free, every call ends and leaves such a
table, if it does not add the last entry. -/
theorem step_sparse (h : s.Sparse ∧ 4 ≤ s.slots.length) (hfits : c.Fits s) :
    ∃ t, step s c = some t ∧ t.Sparse ∧ 4 ≤ t.slots.length := by
  obtain ⟨hs, hlarge⟩ := h
  have hspare := hs.spare
  have hkept : ∀ {t : HashIndex}, t.Counted → t.slots.length = s.slots.length →
      t.count < s.slots.length → t.Sparse ∧ 4 ≤ t.slots.length := fun ht hlen hcount =>
    ⟨⟨ht.masked, ht.counted, hlen ▸ hcount⟩, hlen ▸ hlarge⟩
  cases c with
  | put key hd expiresAt =>
    obtain ⟨b, t, hput, ht⟩ := hs.put hlarge key hd expiresAt
    exact ⟨t, by rw [step, hput]; rfl, ht⟩
  | get key now =>
    obtain ⟨out, hget⟩ := hs.get key now
    exact ⟨s, by rw [step, hget]; rfl, hs, hlarge⟩
  | delete key =>
    obtain ⟨old, t, hdel, ht, hlen⟩ := hs.delete key
    exact ⟨t, by rw [step, hdel]; rfl, ht, hlen ▸ hlarge⟩
  | deleteExpired now limit =>
    obtain ⟨out, t, hsweep, ht, hlen, hcount⟩ := hs.toCounted.deleteExpired now limit
    exact ⟨t, by rw [step, hsweep]; rfl, hkept ht hlen (by omega)⟩
  | add key hd expiresAt =>
    obtain ⟨b, t, hadd, ht, hlen, hcount⟩ :=
      hs.toCounted.add (hs.ends (Slice.bytes (some key))) hd expiresAt
    have hroom : s.count + 1 < s.slots.length := hfits
    exact ⟨t, by rw [step, hadd]; rfl, hkept ht hlen (by omega)⟩

/-! ## Fresh tables -/

theorem sparse_sized (h : Masked cap (cap - 1)) (hlarge : 4 ≤ cap) :
    (sized cap).Sparse ∧ 4 ≤ (sized cap).slots.length := by
  have hcounted := HashIndex.counted_sized h
  have hlen := HashIndex.length_sized cap
  have hzero : (sized cap).count = 0 := rfl
  exact ⟨⟨hcounted.masked, hcounted.counted, by omega⟩, by omega⟩

theorem masked_new {n : Nat} (hn : n < 2 ^ 63) :
    Masked (nextPowerOfTwo n) (nextPowerOfTwo n - 1) ∧ n ≤ nextPowerOfTwo n := by
  obtain ⟨k, hk, hle, _⟩ := HashIndex.nextPowerOfTwo_spec (Nat.le_of_lt (hn.trans (by decide)))
  rw [hk]
  exact ⟨⟨k, rfl, rfl⟩, hle⟩

/-- The capacity that `NewForCount` takes: a power of two, eight at least. -/
theorem masked_newForCount {n : Nat} (hn : n < 2 ^ 63) :
    ∃ cap, newForCount n = sized cap ∧ Masked cap (cap - 1) ∧ 8 ≤ cap := by
  obtain ⟨k, hk, _⟩ := HashIndex.nextPowerOfTwo_spec (n := n * 2) (by omega)
  refine ⟨_, rfl, ?_⟩
  split
  · exact ⟨⟨3, rfl, rfl⟩, Nat.le_refl _⟩
  · rename_i hlarge
    have hk64 : k < 64 := by
      by_contra hge
      rw [hk, Nat.mod_eq_zero_of_dvd (Nat.pow_dvd_pow 2 (Nat.le_of_not_lt hge))] at hlarge
      exact hlarge (by decide)
    rw [hk, Nat.mod_eq_of_lt (Nat.pow_lt_pow_right (by decide) hk64)] at hlarge ⊢
    exact ⟨⟨k, rfl, rfl⟩, Nat.le_of_not_lt hlarge⟩

/-! ## Whole runs -/

/-- A run from a fresh table is defined exactly if every search of it ends. -/
theorem run_sized_iff (h : Masked cap (cap - 1)) (calls : List Call) :
    (∃ t, run step (sized cap) calls = some t) ↔ Guarded step (fun s c => c.Ends s) (sized cap) calls :=
  run_defined_iff HashIndex.Counted (fun _ _ _ hs hstep => step_keeps hs hstep)
    (fun _ _ hs => ⟨fun ⟨_, hstep⟩ => ends_of_step hs hstep, fun hends =>
      (step_counted hs hends).imp fun _ => And.left⟩) calls (sized cap) (HashIndex.counted_sized h)

/-- The calls of a sequence all end, from a table made by `New` or by `NewForCount`, exactly if
each `Get`, `Delete` and `Add` finds a free bucket or its key in the table.  It is enough that the
table has four buckets, which `New` gives from three on and `NewForCount` always, and that no
`Add` takes the last bucket. -/
theorem calls_return_iff {n : Nat} (hn : n < 2 ^ 63) (calls : List Call) :
    ((∃ t, run step (new n) calls = some t) ↔ Guarded step (fun s c => c.Ends s) (new n) calls) ∧
    ((∃ t, run step (newForCount n) calls = some t) ↔
      Guarded step (fun s c => c.Ends s) (newForCount n) calls) ∧
    (3 ≤ n → Guarded step (fun s c => c.Fits s) (new n) calls →
      ∃ t, run step (new n) calls = some t) ∧
    (Guarded step (fun s c => c.Fits s) (newForCount n) calls →
      ∃ t, run step (newForCount n) calls = some t) := by
  obtain ⟨hmasked, hle⟩ := masked_new hn
  obtain ⟨cap, hnew, hcap, height⟩ := masked_newForCount hn
  have hroomy : ∀ {cap : Nat}, Masked cap (cap - 1) → 4 ≤ cap →
      Guarded step (fun s c => c.Fits s) (sized cap) calls →
      ∃ t, run step (sized cap) calls = some t := by
    intro cap hmasked hlarge hguard
    obtain ⟨t, hrun, _⟩ := run_total (fun s => s.Sparse ∧ 4 ≤ s.slots.length)
      (fun _ _ hs hfits => step_sparse hs hfits) calls (sized cap) (sparse_sized hmasked hlarge) hguard
    exact ⟨t, hrun⟩
  refine ⟨run_sized_iff hmasked calls, hnew ▸ run_sized_iff hcap calls, fun hthree hguard => ?_,
    hnew ▸ hroomy hcap (by omega)⟩
  -- three rounded up to a power of two is four
  have hfour : 4 ≤ nextPowerOfTwo n := by
    obtain ⟨k, hk, _⟩ := hmasked
    rw [hk] at hle ⊢
    have htwo : 2 ≤ k := by
      by_contra hlt
      have hpow : 2 ^ k ≤ 2 ^ 1 := Nat.pow_le_pow_right (by decide) (by omega)
      omega
    exact Nat.pow_le_pow_right (Nat.zero_lt_two) htwo
  exact hroomy hmasked hfour hguard

/-- A key is put into a table of four buckets, and another one is looked up. -/
theorem calls_return_four :
    (4 : Nat) < 2 ^ 63 ∧
      ∃ t, run step (new 4) [put (some [97]) default 0, get [98] 0, delete [99]] = some t :=
  ⟨by decide, (calls_return_iff (n := 4) (by decide) _).1.mpr (by decide)⟩

/-- In a table made by `New(0)` or `New(1)` the only bucket is given away, and the search for any
other key goes round for ever; so does the ninth `Add` into a table that `NewForCount(0)` has made
for a checkpoint. -/
theorem search_in_full_table :
    run step (new 0) [put (some [97]) default 0, get [98] 0] = none ∧
    run step (new 1) [put (some [97]) default 0, delete [98]] = none ∧
    run step (newForCount 0) ((List.range 9).map fun i => add [UInt8.ofNat i] default 0) = none := by
  decide

end Call

end Horreum.Index
