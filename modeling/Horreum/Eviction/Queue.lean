/-
  Eviction/Queue.lean --- the tables of the S3-FIFO policy: the ring buffer of
  `internal/eviction/queue.go` and the ghost index of `internal/eviction/ghost.go`.

  Both are power-of-two arrays indexed through a mask.  The structures carry that
  shape, so every masked index is in bounds.
-/
import Horreum.Foundation.Probing
import Horreum.Foundation.Sha256
import Horreum.Arena.Manager

set_option autoImplicit false

namespace Horreum.S3Fifo

open Foundation (Bytes)
open Foundation.Probing (Masked powerOfTwoFrom masked_powerOfTwoFrom)
open Arena (Handle)

/-! ## Ring buffer -/

/-- A slot of a ring; a removed handle leaves a dead one. -/
structure Slot where
  h : Handle
  alive : Bool
  deriving DecidableEq, Repr, Inhabited

/-- A FIFO of handles.  `head` and `tail` count pops and pushes since the start. -/
structure RingBuffer where
  cap : Nat
  mask : Nat
  head : Nat
  tail : Nat
  data : List Slot
  masked : Masked cap mask
  length_data : data.length = cap
  ordered : head ≤ tail ∧ tail ≤ head + cap

/-- `none` when the doubling loop does not end. -/
def newRingBuffer (capacity : Nat) : Option RingBuffer :=
  match h : powerOfTwoFrom (if capacity = 0 then 1 else capacity) with
  | none => none
  | some c => some {
      cap := c
      mask := c - 1
      head := 0
      tail := 0
      data := List.replicate c default
      masked := masked_powerOfTwoFrom h
      length_data := List.length_replicate
      ordered := ⟨Nat.le_refl 0, Nat.zero_le _⟩ }

namespace RingBuffer

/-- All slots are in use. -/
def full (rb : RingBuffer) : Bool := rb.tail - rb.head ≥ rb.cap

/-- No slot is in use. -/
def empty (rb : RingBuffer) : Bool := rb.tail == rb.head

/-- The slots in use, dead ones included. -/
def size (rb : RingBuffer) : Nat := rb.tail - rb.head

/-- The slot at `i & mask`. -/
def slot (rb : RingBuffer) (i : Nat) : Slot :=
  rb.data.get ⟨i &&& rb.mask, by rw [rb.length_data]; exact rb.masked.and_lt i⟩

/-- The buffer with `h` at the tail, or `none` when it is full. -/
def push (rb : RingBuffer) (h : Handle) : Option RingBuffer :=
  if hfull : rb.full then none
  else some { rb with
    data := rb.data.set (rb.tail &&& rb.mask) ⟨h, true⟩
    tail := rb.tail + 1
    length_data := by rw [List.length_set, rb.length_data]
    ordered := by
      have := rb.ordered
      simp only [full, decide_eq_true_eq] at hfull
      omega }

/-- The handle at the head, whether or not it is still alive. -/
def pop (rb : RingBuffer) : Option (Handle × RingBuffer) :=
  if hempty : rb.empty then none
  else
    let s := rb.slot rb.head
    some (s.h, { rb with
      data := rb.data.set (rb.head &&& rb.mask) { s with alive := false }
      head := rb.head + 1
      length_data := by rw [List.length_set, rb.length_data]
      ordered := by
        have := rb.ordered
        simp only [empty, beq_iff_eq] at hempty
        omega })

/-- The slot of the first live copy of `h`, in array order. -/
def find (rb : RingBuffer) (h : Handle) : Option Nat :=
  rb.data.findIdx? fun s => s.alive && s.h == h

/-- `scanFromHead` -/
def scanFromHead (rb : RingBuffer) (h : Handle) : Bool := (rb.find h).isSome

/-- Mark the first live copy of `h` dead. -/
def remove (rb : RingBuffer) (h : Handle) : Option RingBuffer :=
  (rb.find h).map fun i => { rb with
    data := rb.data.set i ⟨h, false⟩
    length_data := by rw [List.length_set, rb.length_data] }

variable {rb : RingBuffer} {h : Handle}

theorem full_iff : rb.full = true ↔ rb.cap ≤ rb.size := by
  simp [full, size]

theorem push_spec {rb rb' : RingBuffer} (hp : rb.push h = some rb') :
    rb'.cap = rb.cap ∧ rb'.size = rb.size + 1 := by
  have hord := rb.ordered
  unfold push at hp
  split at hp
  · cases hp
  · cases hp
    exact ⟨rfl, by simp only [size]; omega⟩

theorem push_eq_none : rb.push h = none ↔ rb.full = true := by
  unfold push
  split <;> simp_all

theorem cap_pop {rb rb' : RingBuffer} (hp : rb.pop = some (h, rb')) : rb'.cap = rb.cap := by
  unfold pop at hp
  split at hp
  · cases hp
  · cases hp
    rfl

theorem pop_spec (hpos : 0 < rb.size) :
    ∃ rb', rb.pop = some ((rb.slot rb.head).h, rb') ∧ rb'.cap = rb.cap ∧
      rb'.size + 1 = rb.size := by
  have hne : rb.empty = false := by
    simp only [size] at hpos
    simp only [empty, beq_eq_false_iff_ne]
    omega
  unfold pop
  rw [dif_neg (by rw [hne]; decide)]
  refine ⟨_, rfl, rfl, ?_⟩
  simp only [size] at *
  omega

/-- A full buffer pops, has room then, and is full again after the next push. -/
theorem pop_of_full (hfull : rb.full = true) :
    ∃ rb', rb.pop = some ((rb.slot rb.head).h, rb') ∧ rb'.full = false ∧
      ∀ h, ∃ rb'', rb'.push h = some rb'' ∧ rb''.full = true := by
  have hcap := full_iff.mp hfull
  obtain ⟨rb', hpop, hcap', hsize⟩ := pop_spec (Nat.lt_of_lt_of_le rb.masked.pos hcap)
  have hle : rb.size ≤ rb.cap := by
    have := rb.ordered
    simp only [size]
    omega
  have hroom : rb'.full = false := by
    rw [Bool.eq_false_iff, Ne, full_iff]
    omega
  refine ⟨rb', hpop, hroom, fun h => ?_⟩
  cases hpush : rb'.push h with
  | none => exact absurd (push_eq_none.mp hpush) (by rw [hroom]; decide)
  | some rb'' =>
    obtain ⟨hcap'', hsize''⟩ := push_spec hpush
    exact ⟨rb'', rfl, full_iff.mpr (by omega)⟩

/-! ### One slot written -/

theorem getElem?_slot (rb : RingBuffer) (i : Nat) :
    rb.data[i &&& rb.mask]? = some (rb.slot i) := by
  rw [slot, List.getElem?_eq_some_iff]
  exact ⟨by rw [rb.length_data]; exact rb.masked.and_lt i, rfl⟩

/-- `rb'` is `rb` with the slot at `i` set to `s`. -/
structure Wrote (rb rb' : RingBuffer) (i : Nat) (s : Slot) : Prop where
  mask : rb'.mask = rb.mask
  data : rb'.data = rb.data.set (i &&& rb.mask) s

section Wrote

variable {rb rb' : RingBuffer} {i : Nat} {s : Slot}

theorem Wrote.slot (h : Wrote rb rb' i s) (j : Nat) :
    rb'.slot j = if j &&& rb.mask = i &&& rb.mask then s else rb.slot j := by
  have hj := rb'.getElem?_slot j
  have hlt : i &&& rb.mask < rb.data.length := by
    rw [rb.length_data]
    exact rb.masked.and_lt i
  rw [h.mask, h.data, List.getElem?_set, rb.getElem?_slot] at hj
  by_cases hji : j &&& rb.mask = i &&& rb.mask
  · rw [if_pos hji.symm, if_pos hlt, Option.some_inj] at hj
    rw [if_pos hji, hj]
  · rw [if_neg (Ne.symm hji), Option.some_inj] at hj
    rw [if_neg hji, hj]

end Wrote

variable {rb rb' : RingBuffer} {h : Handle}

theorem push_wrote (hp : rb.push h = some rb') :
    Wrote rb rb' rb.tail ⟨h, true⟩ ∧ rb'.head = rb.head ∧ rb'.tail = rb.tail + 1 ∧
      rb.tail < rb.head + rb.cap := by
  unfold push at hp
  split at hp
  · cases hp
  · rename_i hfull
    cases hp
    have hord := rb.ordered
    simp only [full, decide_eq_true_eq] at hfull
    exact ⟨⟨rfl, rfl⟩, rfl, rfl, by omega⟩

theorem pop_wrote (hp : rb.pop = some (h, rb')) :
    h = (rb.slot rb.head).h ∧ Wrote rb rb' rb.head { rb.slot rb.head with alive := false } ∧
      rb'.head = rb.head + 1 ∧ rb'.tail = rb.tail := by
  unfold pop at hp
  split at hp
  · cases hp
  · cases hp
    exact ⟨rfl, ⟨rfl, rfl⟩, rfl, rfl⟩

theorem remove_wrote (hr : rb.remove h = some rb') :
    ∃ i, (rb.slot i).alive = true ∧ (rb.slot i).h = h ∧ Wrote rb rb' i ⟨h, false⟩ ∧
      rb'.head = rb.head ∧ rb'.tail = rb.tail := by
  obtain ⟨i, hi, rfl⟩ := Option.map_eq_some_iff.mp hr
  obtain ⟨hlt, hhit, _⟩ := List.findIdx?_eq_some_iff_getElem.mp hi
  have hmask : i &&& rb.mask = i := by
    rw [rb.masked.and_eq_mod, Nat.mod_eq_of_lt (rb.length_data ▸ hlt)]
  have hslot : rb.slot i = rb.data[i] := by
    have hget := rb.getElem?_slot i
    rw [hmask, List.getElem?_eq_getElem hlt, Option.some_inj] at hget
    exact hget.symm
  rw [Bool.and_eq_true, beq_iff_eq, ← hslot] at hhit
  exact ⟨i, hhit.1, hhit.2, ⟨rfl, by simp only [hmask]⟩, rfl, rfl⟩

/-- The slot at the tail of a buffer with room is none of those in use. -/
theorem index_ne_tail {i : Nat} (hlo : rb.head ≤ i) (hhi : i < rb.tail)
    (hroom : rb.tail < rb.head + rb.cap) : i &&& rb.mask ≠ rb.tail &&& rb.mask := by
  intro heq
  rw [rb.masked.and_eq_mod, rb.masked.and_eq_mod] at heq
  have hzero := Nat.sub_mod_eq_zero_of_mod_eq heq.symm
  rw [Nat.mod_eq_of_lt (by omega)] at hzero
  omega

/-- The handles between head and tail all satisfy `P`. -/
def Holds (P : Handle → Prop) (rb : RingBuffer) : Prop :=
  ∀ i, rb.head ≤ i → i < rb.tail → P (rb.slot i).h

variable {P : Handle → Prop}

theorem Holds.push (hq : rb.Holds P) (hP : P h) (hp : rb.push h = some rb') : rb'.Holds P := by
  obtain ⟨hw, hhead, htail, hroom⟩ := push_wrote hp
  intro i hlo hhi
  rw [hhead] at hlo
  rw [htail] at hhi
  rw [hw.slot]
  by_cases hi : i = rb.tail
  · rw [hi, if_pos rfl]
    exact hP
  · rw [if_neg (index_ne_tail hlo (by omega) hroom)]
    exact hq i hlo (by omega)

/-- A write that leaves the handle of the slot as it is. -/
theorem Holds.wrote {i : Nat} {s : Slot} (hq : rb.Holds P) (hw : Wrote rb rb' i s)
    (hs : s.h = (rb.slot i).h) (hhead : rb.head ≤ rb'.head) (htail : rb'.tail = rb.tail) :
    rb'.Holds P := by
  intro j hlo hhi
  have hold := hq j (hhead.trans hlo) (htail ▸ hhi)
  rw [hw.slot]
  split
  · rename_i heq
    have hslot : rb.slot j = rb.slot i := by
      have hj := rb.getElem?_slot j
      rw [heq, rb.getElem?_slot] at hj
      exact (Option.some.inj hj).symm
    rw [hs, ← hslot]
    exact hold
  · exact hold

theorem Holds.pop (hq : rb.Holds P) (hp : rb.pop = some (h, rb')) : rb'.Holds P ∧ P h := by
  obtain ⟨rfl, hw, hhead, htail⟩ := pop_wrote hp
  have hne : rb.head < rb.tail := by
    unfold pop at hp
    split at hp
    · cases hp
    · rename_i hempty
      have hord := rb.ordered
      simp only [empty, beq_iff_eq] at hempty
      omega
  exact ⟨hq.wrote hw rfl (by omega) htail, hq rb.head (Nat.le_refl _) hne⟩

theorem Holds.remove (hq : rb.Holds P) (hr : rb.remove h = some rb') : rb'.Holds P := by
  obtain ⟨i, _, hh, hw, hhead, htail⟩ := remove_wrote hr
  exact hq.wrote hw hh.symm (Nat.le_of_eq hhead.symm) htail

theorem holds_newRingBuffer {capacity : Nat} (hnew : newRingBuffer capacity = some rb) :
    rb.Holds P := by
  unfold newRingBuffer at hnew
  split at hnew
  · cases hnew
  · cases hnew
    intro i hlo hhi
    exact absurd hhi (Nat.not_lt.mpr hlo)

theorem Holds.mono {Q : Handle → Prop} (hq : rb.Holds P) (himp : ∀ h, P h → Q h) : rb.Holds Q :=
  fun i hlo hhi => himp _ (hq i hlo hhi)

end RingBuffer

/-! ## Ghost index -/

/-- A bucket of the ghost index. -/
structure Bucket where
  fp : UInt32
  alive : Bool
  deriving DecidableEq, Repr, Inhabited

/-- The first four bytes of the SHA-256 digest, big endian. -/
def fingerprintOf (key : Bytes) : UInt32 := (Foundation.Sha256.digest key).headD 0

/-- An open-addressed set of fingerprints. -/
structure GhostIndex where
  cap : Nat
  mask : Nat
  tabs : List Bucket
  masked : Masked cap mask
  length_tabs : tabs.length = cap

/-- `NewGhostIndex` -/
def newGhostIndex (capacity : Nat) : Option GhostIndex :=
  match h : powerOfTwoFrom capacity with
  | none => none
  | some c => some {
      cap := c
      mask := c - 1
      tabs := List.replicate c default
      masked := masked_powerOfTwoFrom h
      length_tabs := List.length_replicate }

namespace GhostIndex

/-- Where the search for a fingerprint starts. -/
def probe (g : GhostIndex) (fp : UInt32) : Nat := fp.toNat &&& g.mask

/-- The bucket at a position, which wraps around. -/
def bucket (g : GhostIndex) (i : Nat) : Bucket :=
  g.tabs.get ⟨i &&& g.mask, by rw [g.length_tabs]; exact g.masked.and_lt i⟩

/-- Write the bucket at a position. -/
def setBucket (g : GhostIndex) (i : Nat) (b : Bucket) : GhostIndex :=
  { g with
    tabs := g.tabs.set (i &&& g.mask) b
    length_tabs := by rw [List.length_set, g.length_tabs] }

/-- The walk all three operations make: at most `fuel` buckets from `i` on, up to the first
that is dead or holds `fp`. -/
def walk (g : GhostIndex) (fp : UInt32) : (fuel : Nat) → (i : Nat) → Option Nat
  | 0, _ => none
  | fuel + 1, i =>
    let b := g.bucket i
    if !b.alive || b.fp == fp then some i else g.walk fp fuel (i + 1)

/-- `GhostIndex.Look` -/
def look (g : GhostIndex) (fp : UInt32) : Bool :=
  match g.walk fp g.cap (g.probe fp) with
  | some i => (g.bucket i).alive
  | none => false

/-- `Insert` with its report, whether the fingerprint was there.  A full table loses the entry at
the start of the walk. -/
def insertReports (g : GhostIndex) (fp : UInt32) : Bool × GhostIndex :=
  match g.walk fp g.cap (g.probe fp) with
  | some i => if (g.bucket i).alive then (true, g) else (false, g.setBucket i ⟨fp, true⟩)
  | none => (false, g.setBucket (g.probe fp) ⟨fp, true⟩)

/-- `Insert` as the policy uses it. -/
def insert (g : GhostIndex) (fp : UInt32) : GhostIndex := (g.insertReports fp).2

/-- `Remove` with its report.  It leaves a dead bucket, which ends later walks early. -/
def removeReports (g : GhostIndex) (fp : UInt32) : Bool × GhostIndex :=
  match g.walk fp g.cap (g.probe fp) with
  | some i => if (g.bucket i).alive then (true, g.setBucket i ⟨fp, false⟩) else (false, g)
  | none => (false, g)

/-- `Remove` as the policy uses it. -/
def remove (g : GhostIndex) (fp : UInt32) : GhostIndex := (g.removeReports fp).2

end GhostIndex

end Horreum.S3Fifo
