/-
  Foundation/Formats.lean --- records one after another in a byte string.

  A format carries the law that a record is read exactly where it has been written.  A scan reads up
  to a given number of records and stops where there is none; what it finds does not depend on what
  stands behind the records.
-/
import Horreum.Foundation.Bytes

set_option autoImplicit false

namespace Horreum.Foundation

/-- How records of a kind are written and read. -/
structure Format (ρ : Type) where
  write : ρ → Bytes
  /-- The records that can be written. -/
  Fits : ρ → Prop
  /-- The record at the front and what is behind it. -/
  read : Bytes → Option (ρ × Bytes)
  read_iff : ∀ {bs : Bytes} {r : ρ} {rest : Bytes},
    read bs = some (r, rest) ↔ Fits r ∧ bs = write r ++ rest

namespace Format

variable {ρ σ : Type}

/-- Up to `n` records from the front, and what is behind them. -/
def scan (F : Format ρ) : (n : Nat) → Bytes → List ρ × Bytes
  | 0, bs => ([], bs)
  | n + 1, bs =>
    match F.read bs with
    | none => ([], bs)
    | some (r, rest) => (r :: (F.scan n rest).1, (F.scan n rest).2)

variable (F : Format ρ) {r : ρ} {bs : Bytes}

theorem read_write (h : F.Fits r) (rest : Bytes) : F.read (F.write r ++ rest) = some (r, rest) :=
  F.read_iff.mpr ⟨h, rfl⟩

@[simp] theorem scan_zero (bs : Bytes) : F.scan 0 bs = ([], bs) := rfl

theorem scan_none (h : F.read bs = none) (n : Nat) : F.scan n bs = ([], bs) := by
  cases n with
  | zero => rfl
  | succ n => simp only [scan, h]

variable {rest : Bytes}

theorem scan_succ (h : F.Fits r) (n : Nat) :
    F.scan (n + 1) (F.write r ++ rest) = (r :: (F.scan n rest).1, (F.scan n rest).2) := by
  simp only [scan, F.read_write h]

/-- Records that have been written are read, and the scan goes on behind them. -/
theorem scan_write {rs : List ρ} (h : ∀ r ∈ rs, F.Fits r) (n : Nat) (rest : Bytes) :
    F.scan (rs.length + n) (rs.flatMap F.write ++ rest) =
      (rs ++ (F.scan n rest).1, (F.scan n rest).2) := by
  induction rs with
  | nil => simp
  | cons r rs ih =>
    have hrest := ih fun r' hr' => h r' (List.mem_cons_of_mem r hr')
    rw [List.length_cons, Nat.add_right_comm, List.flatMap_cons, List.append_assoc,
      F.scan_succ (h r List.mem_cons_self), hrest]
    rfl

theorem scan_all {rs : List ρ} (h : ∀ r ∈ rs, F.Fits r) :
    F.scan rs.length (rs.flatMap F.write) = (rs, []) := by
  have hscan := F.scan_write h 0 []
  rwa [List.append_nil, Nat.add_zero, scan_zero, List.append_nil] at hscan

/-- What a scan has read: the records stand at the front, and it stopped because it had enough of
them or because there was no further one. -/
structure Scanned (n : Nat) (bs : Bytes) (rs : List ρ) (rest : Bytes) : Prop where
  bytes : bs = rs.flatMap F.write ++ rest
  fits : ∀ r ∈ rs, F.Fits r
  length_le : rs.length ≤ n
  stopped : rs.length = n ∨ F.read rest = none

theorem scan_spec (n : Nat) (bs : Bytes) : F.Scanned n bs (F.scan n bs).1 (F.scan n bs).2 := by
  induction n generalizing bs with
  | zero => exact ⟨rfl, by simp, Nat.le_refl 0, .inl rfl⟩
  | succ n ih =>
    cases hread : F.read bs with
    | none =>
      rw [F.scan_none hread]
      exact ⟨rfl, by simp, Nat.zero_le _, .inr hread⟩
    | some found =>
      obtain ⟨r, rest⟩ := found
      obtain ⟨hfits, rfl⟩ := F.read_iff.mp hread
      obtain ⟨hbytes, hall, hle, hstop⟩ := ih rest
      rw [F.scan_succ hfits]
      refine ⟨?_, ?_, Nat.succ_le_succ hle, ?_⟩
      · rw [List.flatMap_cons, List.append_assoc, ← hbytes]
      · intro r' hr'
        rcases List.mem_cons.mp hr' with rfl | hr'
        · exact hfits
        · exact hall r' hr'
      · rw [List.length_cons]
        exact hstop.imp (congrArg (· + 1)) id

/-! ## Searching -/

/-- The first of up to `n` records that passes the test, and how far from the front it is. -/
def locate (F : Format ρ) (test : ρ → Bool) (n : Nat) (bs : Bytes) : Option (Nat × ρ) :=
  ((F.scan n bs).1.find? test).map fun r =>
    ((((F.scan n bs).1.takeWhile fun r => !test r).flatMap F.write).length, r)

variable {test : ρ → Bool}

theorem locate_none (h : F.read bs = none) (n : Nat) : F.locate test n bs = none := by
  simp only [locate, F.scan_none h, List.find?_nil, Option.map_none]

theorem locate_hit (h : F.Fits r) (ht : test r = true) (n : Nat) :
    F.locate test (n + 1) (F.write r ++ rest) = some (0, r) := by
  simp [locate, F.scan_succ h, ht]

theorem locate_skip (h : F.Fits r) (ht : test r = false) (n : Nat) :
    F.locate test (n + 1) (F.write r ++ rest) =
      (F.locate test n rest).map fun found => ((F.write r).length + found.1, found.2) := by
  simp [locate, F.scan_succ h, ht, Function.comp_def]

/-- The first record that passes is the one that is found. -/
theorem locate_of_scan {n : Nat} {before behind : List ρ}
    (hscan : (F.scan n bs).1 = before ++ r :: behind) (hpassed : ∀ x ∈ before, test x = false)
    (hit : test r = true) : F.locate test n bs = some ((before.flatMap F.write).length, r) := by
  have hfind : (before ++ r :: behind).find? test = some r :=
    List.find?_eq_some_iff_append.mpr ⟨hit, before, behind, rfl, fun x hx => by simp [hpassed x hx]⟩
  have hwhile : (before ++ r :: behind).takeWhile (fun x => !test x) = before := by
    rw [List.takeWhile_append_of_pos fun x hx => by simp [hpassed x hx]]
    simp [hit]
  rw [locate, hscan, hfind, hwhile]
  rfl

theorem locate_eq_none {n : Nat} :
    F.locate test n bs = none ↔ ∀ r ∈ (F.scan n bs).1, test r = false := by
  simp [locate]

/-! ## Formats -/

/-- Two records as one. -/
def pair (F : Format ρ) (G : Format σ) : Format (ρ × σ) where
  write p := F.write p.1 ++ G.write p.2
  Fits p := F.Fits p.1 ∧ G.Fits p.2
  read bs := (F.read bs).bind fun a => (G.read a.2).map fun b => ((a.1, b.1), b.2)
  read_iff := by
    intro bs p rest
    obtain ⟨r, s⟩ := p
    constructor
    · intro h
      obtain ⟨⟨r', mid⟩, hfirst, h⟩ := Option.bind_eq_some_iff.mp h
      obtain ⟨⟨s', rest'⟩, hsecond, h⟩ := Option.map_eq_some_iff.mp h
      cases h
      obtain ⟨hr, rfl⟩ := F.read_iff.mp hfirst
      obtain ⟨hs, rfl⟩ := G.read_iff.mp hsecond
      exact ⟨⟨hr, hs⟩, (List.append_assoc _ _ _).symm⟩
    · rintro ⟨⟨hr, hs⟩, rfl⟩
      rw [List.append_assoc, F.read_write hr, Option.bind_some, G.read_write hs]
      rfl

end Format

theorem leBytes_leNat {bs : Bytes} {w : Nat} (h : bs.length = w) : leBytes w (leNat bs) = bs := by
  have hlt : leNat bs < 256 ^ w := h ▸ leNat_lt bs
  exact leNat_inj ((leBytes_length w _).trans h.symm) (leNat_leBytes_of_lt hlt)

/-- A byte string behind its length, a word of `w` bytes, from the front of `bs`. -/
def readPrefixed (w : Nat) (bs : Bytes) : Option (Bytes × Bytes) :=
  if bs.length < w then none
  else if w + wordAt bs 0 w > bs.length then none
  else some (slice bs w (w + wordAt bs 0 w), bs.drop (w + wordAt bs 0 w))

theorem readPrefixed_iff (w : Nat) {bs x rest : Bytes} : readPrefixed w bs = some (x, rest) ↔
    x.length < 256 ^ w ∧ bs = leBytes w x.length ++ x ++ rest := by
  rw [readPrefixed]
  constructor
  · intro h
    split_ifs at h with hshort hlong
    cases h
    have hlen : (slice bs w (w + wordAt bs 0 w)).length = wordAt bs 0 w := by
      rw [slice_length (Nat.le_add_right _ _) (Nat.le_of_not_lt hlong), Nat.add_sub_cancel_left]
    have hword : leBytes w (wordAt bs 0 w) = bs.take w := by
      have htake : slice bs 0 (0 + w) = bs.take w := by simp [slice]
      rw [wordAt, htake]
      exact leBytes_leNat (by rw [List.length_take]; omega)
    refine ⟨Nat.lt_of_le_of_lt (Nat.le_of_eq hlen) (wordAt_lt bs 0 w), ?_⟩
    rw [hlen, hword, slice, Nat.add_sub_cancel_left, ← List.drop_drop, List.append_assoc,
      List.take_append_drop, List.take_append_drop]
  · rintro ⟨hfits, rfl⟩
    have hword : wordAt (leBytes w x.length ++ x ++ rest) 0 w = x.length := by
      rw [List.append_assoc, wordAt_zero, Nat.mod_eq_of_lt hfits]
    have hlen : (leBytes w x.length ++ x ++ rest).length = w + x.length + rest.length := by
      rw [List.length_append, List.length_append, leBytes_length]
    rw [if_neg (by omega), hword, if_neg (by omega)]
    congr 2
    · rw [List.append_assoc]
      exact slice_append (leBytes_length w _) rfl
    · exact List.drop_left' (by simp)

/-- A length of `w` bytes, then that many bytes. -/
def prefixed (w : Nat) : Format Bytes where
  write x := leBytes w x.length ++ x
  Fits x := x.length < 256 ^ w
  read := readPrefixed w
  read_iff := readPrefixed_iff w

theorem read_drop_prefixed (w : Nat) {bs : Bytes} {off : Nat} (h : off ≤ bs.length) :
    (prefixed w).read (bs.drop off) =
      if off + w > bs.length then none
      else if off + w + wordAt bs off w > bs.length then none
      else some (slice bs (off + w) (off + w + wordAt bs off w), bs.drop (off + w + wordAt bs off w)) := by
  have hword : wordAt (bs.drop off) 0 w = wordAt bs off w := by
    rw [wordAt, wordAt, slice_drop, Nat.add_zero, Nat.zero_add]
  simp only [prefixed, readPrefixed, List.length_drop, hword, List.drop_drop, slice_drop, ← Nat.add_assoc]
  split_ifs <;> first | rfl | omega

end Horreum.Foundation
