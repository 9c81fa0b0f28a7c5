/-
  Index/Sparse.lean --- the index returns, whatever is put into it.

  A nil key that is put over the empty key leaves its bucket free and the counter as it is.  The table
  is then no map any more, but the counter still bounds the number of taken buckets (`Counted`).  `Put`
  and removals always end; the others end where their search does, for which one free bucket is enough
  (`Sparse`).
-/
import Horreum.Foundation.ProbingMap
import Horreum.Foundation.Runs
import Horreum.Index.HashIndex

set_option autoImplicit false

namespace Horreum.Index

open Foundation
open Foundation.Probing (cell occupied Masked entries)
open Arena (Handle)

namespace HashIndex

/-- The counter is no less than the number of taken buckets, and one bucket is free. -/
structure Sparse (s : HashIndex) : Prop where
  masked : Masked s.slots.length s.mask
  counted : occupied s.slots ≤ s.count
  spare : s.count < s.slots.length

/-- The counter is no less than the number of taken buckets; the table may be full. -/
structure Counted (s : HashIndex) : Prop where
  masked : Masked s.slots.length s.mask
  counted : occupied s.slots ≤ s.count

/-- A search for `key` ends: a bucket is free, or the key is there. -/
def Ends (s : HashIndex) (key : Bytes) : Prop :=
  occupied s.slots < s.slots.length ∨ ∃ e ∈ entries s.slots, e.key = key

instance (s : HashIndex) (key : Bytes) : Decidable (s.Ends key) :=
  inferInstanceAs (Decidable (_ ∨ _))

variable {s : HashIndex} {key : Bytes} {i : Nat}

theorem Sparse.toCounted (h : s.Sparse) : s.Counted := ⟨h.masked, h.counted⟩

theorem Sparse.ends (h : s.Sparse) (key : Bytes) : s.Ends key :=
  .inl (Nat.lt_of_le_of_lt h.counted h.spare)

theorem Loose.sparse (h : s.Loose) (hlarge : 4 ≤ s.slots.length) : s.Sparse :=
  ⟨h.wf.probing.masked, Nat.le_of_eq h.wf.count_eq.symm, h.spare hlarge⟩

/-! ## A nil key over the empty key -/

theorem Wf.place_nil (h : s.Wf) (hspare : s.count < s.slots.length) (hold : s.lookup [] ≠ none)
    (hd : Handle) (expiresAt : UInt32) :
    ∃ b t, s.place none hd expiresAt = some (b, t) ∧ t.lookup [] = none := by
  obtain ⟨i, _, hi, hcell, hstop⟩ := h.find hspare []
  obtain ⟨e, he⟩ := Option.ne_none_iff_exists'.mp hold
  rw [he] at hcell
  unfold HashIndex.place
  simp only [show Slice.bytes none = [] from rfl, hi, hcell, Option.bind_eq_bind, Option.bind_some]
  refine ⟨_, _, rfl, List.find?_eq_none.mpr fun e' he' => ?_⟩
  obtain ⟨j, hj⟩ := Probing.mem_entries.mp he'
  rw [Option.map_none, Probing.cell_set _ _ _ _ hstop.1] at hj
  split at hj
  · cases hj
  · rename_i hij
    -- no other slot holds the empty key
    have hkey : e'.key ≠ [] := fun hkey => hij
      (h.probing.unique j i e' e hj hcell (hkey.trans (h.key_of_lookup he).symm))
    simpa using hkey

theorem Wf.put_nil (h : s.Wf) (hold : s.lookup [] ≠ none) (hd : Handle) (expiresAt : UInt32) :
    ∃ b t, s.put none hd expiresAt = some (b, t) ∧ t.lookup [] = none := by
  have hle := h.count_le
  have hpos := h.probing.masked.pos
  unfold HashIndex.put
  split
  · obtain ⟨t, hgrow, hwf, hlen, hcount, hlook⟩ := h.grow
    obtain ⟨b, t', hplace, hnone⟩ := hwf.place_nil (by omega) (hlook ▸ hold) hd expiresAt
    exact ⟨b, t', by rw [hgrow]; exact hplace, hnone⟩
  · exact h.place_nil (by omega) hold hd expiresAt

/-- What is not in the table is not found, whatever its slots are. -/
theorem get_of_lookup_none (hnone : s.lookup key = none) (now : UInt32) (hd : Handle) :
    s.get key now ≠ some (some hd) := by
  intro hget
  obtain ⟨i, hi, hget⟩ := Option.bind_eq_some_iff.mp hget
  cases he : cell s.slots i with
  | none => simp [he] at hget
  | some e =>
    have hhit := Probing.hit_of_probe hi he
    simp only [Bool.and_eq_true, beq_iff_eq] at hhit
    have hmiss := List.find?_eq_none.mp hnone e (Probing.mem_entries.mpr ⟨i, he⟩)
    exact hmiss (decide_eq_true hhit.2)

/-! ## Every call returns -/

theorem Counted.find (h : s.Counted) (hends : s.Ends key) :
    ∃ i, s.find key = some i ∧ i < s.slots.length := by
  rcases Probing.probe_stopped
      (fun e : Entry => e.hash == fnv64 key && e.keyLen == UInt16.ofNat key.length && e.key == key)
      h.masked (h.masked.and_lt (fnv64 key).toNat) with ⟨_, hpassed⟩ | ⟨i, hi, hstop⟩
  · -- a whole turn over taken buckets, none of them with the key
    rcases hends with hroom | ⟨e, he, hkey⟩
    · obtain ⟨z, hz, hfree⟩ := Probing.exists_free_of_occupied_lt hroom
      obtain ⟨e, he, _⟩ := hpassed z hz (Probing.dist_lt (h.masked.and_lt _) hz)
      rw [hfree] at he
      cases he
    · obtain ⟨j, hj⟩ := Probing.mem_entries.mp he
      have hlt := Probing.lt_of_cell_eq_some hj
      obtain ⟨e', he', hmiss⟩ := hpassed j hlt (Probing.dist_lt (h.masked.and_lt _) hlt)
      cases hj.symm.trans he'
      simp [Entry.hash, Entry.keyLen, hkey] at hmiss
  · exact ⟨i, hi, hstop.1⟩

/-- A search that has ended met a free bucket or the key. -/
theorem Counted.ends_of_find (h : s.Counted) (hi : s.find key = some i) : s.Ends key := by
  rcases Probing.probe_stopped
      (fun e : Entry => e.hash == fnv64 key && e.keyLen == UInt16.ofNat key.length && e.key == key)
      h.masked (h.masked.and_lt (fnv64 key).toNat) with ⟨hnone, _⟩ | ⟨r, _, hlt, _, hstop⟩
  · cases hi.symm.trans hnone
  · rcases hstop with hfree | ⟨e, he, hhit⟩
    · have hocc := Probing.occupied_set_of_free hlt hfree (⟨key, default, 0⟩ : Entry)
      have hle : occupied (s.slots.set r (some ⟨key, default, 0⟩)) ≤ _ := List.countP_le_length
      rw [List.length_set] at hle
      exact .inl (by omega)
    · simp only [Bool.and_eq_true, beq_iff_eq] at hhit
      exact .inr ⟨e, Probing.mem_entries.mpr ⟨r, he⟩, hhit.2⟩

theorem Counted.get (h : s.Counted) (hends : s.Ends key) (now : UInt32) :
    ∃ out, s.get key now = some out := by
  obtain ⟨i, hi, _⟩ := h.find hends
  unfold HashIndex.get
  cases hcell : cell s.slots i with
  | none => exact ⟨none, by simp [hi, hcell]⟩
  | some e => exact ⟨_, by simp [hi, hcell]; rfl⟩

/-- A bucket that is written, where the counter goes up if the bucket was free. -/
theorem Counted.set (h : s.Counted) (hlt : i < s.slots.length) (x : Option Entry) {count : Nat}
    (hcount : s.count ≤ count) (hfree : cell s.slots i = none → s.count < count) :
    ({ s with slots := s.slots.set i x, count := count } : HashIndex).Counted := by
  have hcounted := h.counted
  refine ⟨?_, ?_⟩
  · rw [List.length_set]
    exact h.masked
  · have hle : occupied (s.slots.set i x) ≤ count := by
      cases hcell : cell s.slots i with
      | none =>
        have hlow := hfree hcell
        cases x with
        | none => rw [Probing.set_none_of_free hlt hcell]; omega
        | some e => rw [Probing.occupied_set_of_free hlt hcell]; omega
      | some old =>
        cases x with
        | none =>
          have hocc := Probing.occupied_set_none hcell
          omega
        | some e => rw [Probing.occupied_set_of_taken hcell]; omega
    exact hle

theorem Counted.place (h : s.Counted) (hroom : occupied s.slots < s.slots.length) (key : Slice)
    (hd : Handle) (expiresAt : UInt32) :
    ∃ b t, s.place key hd expiresAt = some (b, t) ∧ t.Counted ∧
      t.slots.length = s.slots.length ∧ t.count ≤ s.count + 1 := by
  obtain ⟨i, hi, hlt⟩ := h.find (.inl hroom : s.Ends key.bytes)
  unfold HashIndex.place
  simp only [hi, Option.bind_eq_bind, Option.bind_some]
  cases hcell : cell s.slots i with
  | none =>
    exact ⟨_, _, rfl, h.set hlt _ (Nat.le_succ _) fun _ => Nat.lt_succ_self _, List.length_set,
      Nat.le_refl _⟩
  | some e =>
    refine ⟨_, _, rfl, h.set hlt _ (Nat.le_refl _) fun hfree => ?_, List.length_set, Nat.le_succ _⟩
    rw [hfree] at hcell
    cases hcell

theorem Counted.placeAll (es : List Entry) {t : HashIndex} (h : t.Counted)
    (hroom : t.count + es.length ≤ t.slots.length) :
    ∃ t', es.foldlM (fun t e => (t.place (some e.key) e.handle e.expiresAt).map Prod.snd) t =
        some t' ∧ t'.Counted ∧ t'.slots.length = t.slots.length ∧ t'.count ≤ t.count + es.length := by
  refine foldlM_total (fun rest t' => t'.Counted ∧ t'.slots.length = t.slots.length ∧
    t'.count + rest.length ≤ t.count + es.length) ?_ es t ⟨h, rfl, Nat.le_refl _⟩
  rintro e rest t' ⟨h', hlen', hcount'⟩
  rw [List.length_cons] at hcount'
  have hcounted := h'.counted
  obtain ⟨b, t₁, hplace, h₁, hlen₁, hcount₁⟩ :=
    h'.place (by omega) (some e.key) e.handle e.expiresAt
  exact ⟨t₁, by rw [hplace]; rfl, h₁, hlen₁.trans hlen', by omega⟩

theorem counted_sized {cap : Nat} (h : Masked cap (cap - 1)) : (sized cap).Counted := by
  have hwf := wf_sized h
  exact ⟨hwf.probing.masked, Nat.le_of_eq hwf.count_eq.symm⟩

theorem Counted.grow (h : s.Counted) :
    ∃ t, s.grow = some t ∧ t.Counted ∧ t.slots.length = s.slots.length * 2 ∧
      t.count ≤ occupied s.slots := by
  have hlen := length_sized (s.slots.length * 2)
  have hentries := Probing.occupied_eq_length_entries s.slots
  have hle : occupied s.slots ≤ s.slots.length := List.countP_le_length
  have hzero : (sized (s.slots.length * 2)).count = 0 := rfl
  obtain ⟨t, hfold, ht, hlen', hcount⟩ := Counted.placeAll (entries s.slots)
    (counted_sized h.masked.double) (by rw [hlen, hzero]; omega)
  exact ⟨t, hfold, ht, hlen'.trans hlen, by omega⟩

theorem Counted.put (h : s.Counted) (key : Slice) (hd : Handle) (expiresAt : UInt32) :
    ∃ b t, s.put key hd expiresAt = some (b, t) ∧ t.Counted ∧
      s.slots.length ≤ t.slots.length ∧ (4 ≤ t.slots.length → t.count < t.slots.length) := by
  have hcounted := h.counted
  have hle : occupied s.slots ≤ s.slots.length := List.countP_le_length
  have hpos := h.masked.pos
  unfold HashIndex.put
  split
  · obtain ⟨t, hgrow, ht, hlen, hcount⟩ := h.grow
    have hcounted' := ht.counted
    obtain ⟨b, t', hplace, ht', hlen', _⟩ := ht.place (by omega) key hd expiresAt
    exact ⟨b, t', by rw [hgrow]; exact hplace, ht', by omega, fun _ => by omega⟩
  · obtain ⟨b, t, hplace, ht, hlen, _⟩ := h.place (by omega) key hd expiresAt
    exact ⟨b, t, hplace, ht, by omega, fun _ => by omega⟩

/-- Emptying a bucket returns even in a full table. -/
theorem Counted.deleteAt (h : s.Counted) {e : Entry} (hcell : cell s.slots i = some e) :
    ∃ t, s.deleteAt i = some t ∧ t.Counted ∧ t.slots.length = s.slots.length ∧
      t.count ≤ s.count := by
  have hcounted := h.counted
  have hocc := Probing.occupied_set_none hcell
  obtain ⟨out, hout, hlen, houtOcc⟩ := Probing.deleteAt_total
    (fun e : Entry => e.hash.toNat &&& s.mask) h.masked (Probing.lt_of_cell_eq_some hcell)
    fun e => h.masked.and_lt _
  refine ⟨{ s with slots := out, count := s.count - 1 }, ?_, ⟨hlen.symm ▸ h.masked, ?_⟩, hlen,
    Nat.sub_le _ _⟩
  · simp only [HashIndex.deleteAt, hout, Option.map_some]
  · simp only
    omega

theorem Counted.delete (h : s.Counted) (hends : s.Ends key) :
    ∃ old t, s.delete key = some (old, t) ∧ t.Counted ∧ t.slots.length = s.slots.length ∧
      t.count ≤ s.count := by
  obtain ⟨i, hi, hlt⟩ := h.find hends
  unfold HashIndex.delete
  simp only [hi, Option.bind_eq_bind, Option.bind_some]
  cases hcell : cell s.slots i with
  | none => exact ⟨none, s, rfl, h, rfl, Nat.le_refl _⟩
  | some e =>
    obtain ⟨t, hdel, ht, hlen, hcount⟩ := h.deleteAt hcell
    exact ⟨some e.handle, t, by simp only [hdel, Option.map_some], ht, hlen, hcount⟩

/-- A sweep returns whatever the table.  Induction on the buckets that are left to look at. -/
theorem Counted.deleteExpiredLoop (now : UInt32) :
    ∀ (limit : Nat) {s : HashIndex} (freed : List Handle), s.Counted →
      ∃ out t, deleteExpiredLoop now limit s freed = some (out, t) ∧ t.Counted ∧
        t.slots.length = s.slots.length ∧ t.count ≤ s.count
  | 0, s, freed, h => ⟨freed, s, rfl, h, rfl, Nat.le_refl _⟩
  | limit + 1, s, freed, h => by
    have hmoved : ({ s with scanCursor := (s.scanCursor + 1) &&& s.mask } : HashIndex).Counted :=
      ⟨h.masked, h.counted⟩
    unfold HashIndex.deleteExpiredLoop
    dsimp only
    cases hcell : cell s.slots s.scanCursor with
    | none => exact Counted.deleteExpiredLoop now limit freed hmoved
    | some e =>
      dsimp only
      split
      · obtain ⟨t, hdel, ht, hlen, hcount⟩ := hmoved.deleteAt hcell
        obtain ⟨out, t', hloop, ht', hlen', hcount'⟩ :=
          Counted.deleteExpiredLoop now limit (freed ++ [e.handle]) ht
        exact ⟨out, t', by rw [hdel]; exact hloop, ht', hlen'.trans hlen, hcount'.trans hcount⟩
      · exact Counted.deleteExpiredLoop now limit freed hmoved

theorem Counted.deleteExpired (h : s.Counted) (now : UInt32) (limit : Int) :
    ∃ out t, s.deleteExpired now limit = some (out, t) ∧ t.Counted ∧
      t.slots.length = s.slots.length ∧ t.count ≤ s.count := by
  unfold HashIndex.deleteExpired
  split
  · exact ⟨[], s, rfl, h, rfl, Nat.le_refl _⟩
  · exact Counted.deleteExpiredLoop now limit.toNat [] h

theorem Counted.add (h : s.Counted) {key : Slice} (hends : s.Ends key.bytes) (hd : Handle)
    (expiresAt : UInt32) :
    ∃ b t, s.add key hd expiresAt = some (b, t) ∧ t.Counted ∧
      t.slots.length = s.slots.length ∧ t.count ≤ s.count + 1 := by
  obtain ⟨i, hi, hlt⟩ := h.find hends
  unfold HashIndex.add
  simp only [hi, Option.bind_eq_bind, Option.bind_some]
  cases hcell : cell s.slots i with
  | none =>
    exact ⟨_, _, rfl, h.set hlt _ (Nat.le_succ _) fun _ => Nat.lt_succ_self _, List.length_set,
      Nat.le_refl _⟩
  | some e => exact ⟨_, s, rfl, h, rfl, Nat.le_succ _⟩

/-! ## With a free bucket -/

theorem Sparse.get (h : s.Sparse) (key : Bytes) (now : UInt32) :
    ∃ out, s.get key now = some out :=
  h.toCounted.get (h.ends key) now

theorem Sparse.put (h : s.Sparse) (hlarge : 4 ≤ s.slots.length) (key : Slice) (hd : Handle)
    (expiresAt : UInt32) :
    ∃ b t, s.put key hd expiresAt = some (b, t) ∧ t.Sparse ∧ 4 ≤ t.slots.length := by
  obtain ⟨b, t, hput, ht, hlen, hspare⟩ := h.toCounted.put key hd expiresAt
  have hlarge' := hlarge.trans hlen
  exact ⟨b, t, hput, ⟨ht.masked, ht.counted, hspare hlarge'⟩, hlarge'⟩

theorem Sparse.delete (h : s.Sparse) (key : Bytes) :
    ∃ old t, s.delete key = some (old, t) ∧ t.Sparse ∧ t.slots.length = s.slots.length := by
  obtain ⟨old, t, hdel, ht, hlen, hcount⟩ := h.toCounted.delete (h.ends key)
  exact ⟨old, t, hdel, ⟨ht.masked, ht.counted, by have := h.spare; omega⟩, hlen⟩

end HashIndex

end Horreum.Index
