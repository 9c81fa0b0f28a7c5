/-
  Arena/Manager.lean --- the arena manager of `internal/arena/arena.go`.

  Up to 256 regions of one size.  `Put` copies a value into the current region, or into a fresh one,
  and returns a handle.  Each region has one meta word per alignment unit, with two bits of frequency,
  two of queue tag and the two codec flags.  `none` is a panic; `Except` carries the errors.
-/
import Horreum.Foundation.Bytes
import Horreum.Arena.Allocator

set_option autoImplicit false

namespace Horreum.Arena

open Foundation

/-- The largest payload of a single `Put`: 64 MiB. -/
def maxObjectSize : Nat := 64 * 2 ^ 20

/-- The errors of the package. -/
inductive Error where
  | arenaFull
  | offsetInvalid
  | sizeTooLarge
  | mmap
  deriving DecidableEq, Repr

/-- A reference to a blob of the arena. -/
structure Handle where
  offset : UInt32
  size : UInt32
  metaWord : UInt16
  region : UInt8
  deriving DecidableEq, Repr, Inhabited

/-! The bits of a meta word: 0-1 frequency, 2-3 queue tag, 4 compressed, 5 encrypted. -/

/-- The access counter of a meta word. -/
def freqMask : UInt16 := 0x03

/-- The queue that a handle is in. -/
def queueTagMask : UInt16 := 0x0c

/-- In queue S. -/
def queueTagS : UInt16 := 0x04

/-- In queue M. -/
def queueTagM : UInt16 := 0x08

/-- The value is compressed. -/
def compressedFlag : UInt16 := 0x10

/-- The value is encrypted. -/
def encryptedFlag : UInt16 := 0x20

/-- One mapping with its allocator.  Every path that creates a region also makes its
`meta` slice, so the lazy `EnsureMeta` finds nothing to do. -/
structure Region where
  data : Cells UInt8
  alloc : Allocator
  metas : Cells UInt16

/-- An anonymous region: zero-filled, with the allocator's size cut to 32 bits. -/
def newRegion (size : Nat) : Region where
  data := Cells.fill size 0
  alloc := Allocator.init (size % 2 ^ 32)
  metas := Cells.fill (size % 2 ^ 32 / alignBytes) 0

/-- `copy(reg.data[offset:offset+n], value)` and `reg.meta[offset/alignBytes].Store(0)`,
with the bounds checks of both. -/
def Region.store (r : Region) (offset n : Nat) (value : Bytes) : Option Region :=
  if offset + n ≤ r.data.size ∧ offset / alignBytes < r.metas.size then
    some { r with
      data := r.data.write offset (value.take n)
      metas := r.metas.set (offset / alignBytes) 0 }
  else none

/-- The regions, the one that is filled now, their size and the number of live objects. -/
structure Manager where
  regions : List Region
  currentIdx : Nat
  size : Nat
  liveObjs : UInt64

/-- `NewManager`: one region. -/
def newManager (regionSize : Nat) : Manager := ⟨[newRegion regionSize], 0, regionSize, 0⟩

/-- The prefix of a file-backed region that holds superblock and checkpoint. -/
def persistReservedBytes (regionSize : Nat) : Nat :=
  let ck := regionSize / 8
  let ck := if ck > 2 ^ 20 then 2 ^ 20 else ck
  let ck := if ck < 4096 then 4096 else ck
  let reserved := 4096 + ck
  let cap := regionSize / 2
  (if reserved > cap then cap else reserved) % 2 ^ 32

/-- A manager over the file content `data`, its allocator started past the reserved
prefix. -/
def openFileManager (regionSize : Nat) (data : Cells UInt8) : Manager where
  regions := [{
    data := data
    alloc := (Allocator.init (regionSize % 2 ^ 32)).skip (persistReservedBytes regionSize)
    metas := Cells.fill (regionSize % 2 ^ 32 / alignBytes) 0 }]
  currentIdx := 0
  size := regionSize
  liveObjs := 0

namespace Manager

/-- Store `value` at `off` of region `i`, whose allocator has just handed it out. -/
def install (m : Manager) (i : Nat) (reg : Region) (off n : Nat) (value : Bytes) :
    Option (Except Error Handle × Manager) := do
  let reg ← reg.store off n value
  let h : Handle := ⟨UInt32.ofNat off, UInt32.ofNat n, 0, UInt8.ofNat i⟩
  some (.ok h, { m with regions := m.regions.set i reg, liveObjs := m.liveObjs + 1 })

/-- Append a fresh anonymous region and make it the current one. -/
def addRegion (m : Manager) : Manager :=
  { m with regions := m.regions ++ [newRegion m.size], currentIdx := m.regions.length }

/-- The path under the lock: try again, then add a region.  A region that turns out too
small for the value stays. -/
def putSlow (m : Manager) (value : Bytes) (n : Nat) (mmapOk : Bool) :
    Option (Except Error Handle × Manager) := do
  let reg ← m.regions[m.currentIdx]?
  match reg.alloc.alloc n with
  | some (off, alloc) => m.install m.currentIdx { reg with alloc := alloc } off n value
  | none =>
    let newIdx := m.regions.length
    if newIdx ≥ 256 then some (.error .arenaFull, m)
    else if !mmapOk then some (.error .mmap, m)
    else
      let m := m.addRegion
      let r := newRegion m.size
      match r.alloc.alloc n with
      | some (off, alloc) => m.install newIdx { r with alloc := alloc } off n value
      | none => some (.error .arenaFull, m)

/-- `mmapOk` says whether the system grants a further mapping. -/
def put (m : Manager) (value : Bytes) (mmapOk : Bool) :
    Option (Except Error Handle × Manager) := do
  let n := value.length % 2 ^ 32
  if n > maxObjectSize then some (.error .sizeTooLarge, m)
  else
    let reg ← m.regions[m.currentIdx]?
    match reg.alloc.alloc n with
    | some (off, alloc) => m.install m.currentIdx { reg with alloc := alloc } off n value
    | none => m.putSlow value n mmapOk

/-- `unsafeView` takes the address of the first byte, which panics on an empty view at
the very end of the region. -/
def view (m : Manager) (h : Handle) : Option (Except Error Bytes) :=
  match m.regions[h.region.toNat]? with
  | none => some (.error .offsetInvalid)
  | some reg =>
    if h.offset.toNat + h.size.toNat > reg.data.size then some (.error .offsetInvalid)
    else if h.offset.toNat ≥ reg.data.size then none
    else some (.ok (reg.data.read h.offset.toNat h.size.toNat))

/-- A write through a view: `bytes` at `off` of the bytes of `h`. -/
def poke (m : Manager) (h : Handle) (off : Nat) (bytes : Bytes) : Manager :=
  match m.regions[h.region.toNat]? with
  | none => m
  | some reg =>
    let reg := { reg with data := reg.data.write (h.offset.toNat + off) bytes }
    { m with regions := m.regions.set h.region.toNat reg }

/-- The live counter is an unsigned word: adding `^uint64(0)` subtracts one modulo 2^64. -/
def free (m : Manager) (h : Handle) : Except Error Unit × Manager :=
  match m.regions[h.region.toNat]? with
  | none => (.error .offsetInvalid, m)
  | some reg =>
    if h.offset.toNat + h.size.toNat > reg.data.size then (.error .offsetInvalid, m)
    else
      let reg := { reg with alloc := reg.alloc.free h.offset.toNat h.size.toNat }
      (.ok (), { m with
        regions := m.regions.set h.region.toNat reg
        liveObjs := m.liveObjs - 1 })

/-- `for _, h := range hs { _ = m.Free(h) }` -/
def freeAll (m : Manager) (hs : List Handle) : Manager :=
  hs.foldl (fun m h => (m.free h).2) m

/-- Used after a restart. -/
def setLiveObjects (m : Manager) (n : Nat) : Manager := { m with liveObjs := UInt64.ofNat n }

/-- Place the bump pointer of the first region behind `n` payload bytes. -/
def setUsedBytes (m : Manager) (n : Nat) : Manager :=
  match m.regions with
  | [] => m
  | reg :: rest =>
    let offset := (n + persistReservedBytes m.size) % 2 ^ 64
    { m with regions := { reg with alloc := { reg.alloc with offset := offset } } :: rest }

/-! ## Meta words -/

/-- The meta word of a handle, zero where the source returns early. -/
def getMeta (m : Manager) (h : Handle) : UInt16 :=
  match m.regions[h.region.toNat]? with
  | none => 0
  | some reg =>
    let idx := h.offset.toNat / alignBytes
    if idx ≥ reg.metas.size then 0 else reg.metas.get idx

/-- The load-and-store loop the meta operations share. -/
def modifyMeta (m : Manager) (h : Handle) (f : UInt16 → UInt16) : Manager :=
  match m.regions[h.region.toNat]? with
  | none => m
  | some reg =>
    let idx := h.offset.toNat / alignBytes
    if idx ≥ reg.metas.size then m
    else
      let reg := { reg with metas := reg.metas.set idx (f (reg.metas.get idx)) }
      { m with regions := m.regions.set h.region.toNat reg }

/-- The access counter of the handle. -/
def getFreq (m : Manager) (h : Handle) : UInt16 := m.getMeta h &&& freqMask

/-- One access more, modulo four. -/
def incFreq (m : Manager) (h : Handle) : Manager :=
  m.modifyMeta h fun cur => (cur &&& ~~~freqMask) ||| (((cur &&& freqMask) + 1) &&& freqMask)

/-- Set the access counter. -/
def setFreq (m : Manager) (h : Handle) (freq : UInt16) : Manager :=
  m.modifyMeta h fun cur => (cur &&& ~~~freqMask) ||| (freq &&& freqMask)

/-- Set bits of the meta word. -/
def orMetaBits (m : Manager) (h : Handle) (bits : UInt16) : Manager :=
  m.modifyMeta h fun current => current ||| bits

/-- Clear bits of the meta word. -/
def clearMetaBits (m : Manager) (h : Handle) (mask : UInt16) : Manager :=
  m.modifyMeta h fun current => current &&& ~~~mask

end Manager

end Horreum.Arena
