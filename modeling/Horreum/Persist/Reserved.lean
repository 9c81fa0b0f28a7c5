/-
  Persist/Reserved.lean --- the head of the first region and the objects behind it.

  Superblock and checkpoint are written to the head of the first region, and the allocator starts behind
  a reserved prefix.  The two lengths are formulas in two packages and agree but for the cap of the
  prefix: in regions of less than 16370 bytes a checkpoint is written over the first object.
-/
import Horreum.Persist.Reopened

set_option autoImplicit false

namespace Horreum.Persist

open Foundation
open Arena (Manager Handle Region Allocator openFileManager alignUp persistReservedBytes)
open Index (HashIndex Entry)

/-! ## Runs -/

/-- The calls that write to the arena. -/
inductive ArenaCall where
  | put (io : Io) (key value : Bytes)
  | putEx (io : Io) (key value : Bytes) (expiresAt : UInt32)
  | checkpoint (io : CheckpointIo) (idx : HashIndex)

namespace Reopened

/-- A call that fails returns no handle. -/
def collect (s : Reopened) (out : Except Error (Handle × Bytes) × PersistentManager) : Reopened :=
  match out.1 with
  | .ok (h, _) => ⟨out.2, h :: s.returned⟩
  | .error _ => ⟨out.2, s.returned⟩

/-- One such call. -/
def arenaStep (s : Reopened) : ArenaCall → Option Reopened
  | .put io key value => (s.pm.put io key value).map s.collect
  | .putEx io key value expiresAt => (s.pm.putEx io key value expiresAt).map s.collect
  | .checkpoint io idx => some ⟨(s.pm.checkpoint io idx).2, s.returned⟩

end Reopened

/-- The `len` bytes at `off` of the first region are not those of the handle. -/
def ClearOf (h : Handle) (off len : Nat) : Prop :=
  h.region = 0 → ∀ i, Covers h i → ¬ (off ≤ i ∧ i < off + len)

/-- What is written to the head misses the objects: the superblock, the body of a checkpoint of
any index, and with both a whole `Checkpoint` on every handle that has been returned. -/
structure Separate (s : Reopened) : Prop where
  superblock : ∀ h ∈ s.returned, ClearOf h 0 superblockSize
  body : ∀ h ∈ s.returned, ∀ (idx : HashIndex) (body : Bytes),
    encodeCheckpoint (indexCheckpointMaxLen s.pm.regionSize) idx.snapshot = .ok body →
    superblockSize + body.length ≤ s.pm.regionSize → ClearOf h superblockSize body.length
  view : ∀ h ∈ s.returned, ∀ io idx, (s.pm.checkpoint io idx).2.view h = s.pm.view h

/-- So it is after every run on a manager with regions of this size. -/
def SeparateAlways (regionSize : Nat) : Prop :=
  ∀ d durable pm calls s, PersistentManager.new d regionSize durable = .ok pm →
    run Reopened.arenaStep ⟨pm, []⟩ calls = some s → Separate s

variable {regionSize : Nat} {durable : Bool} {pm : PersistentManager} {s s' : Reopened}

/-! ## The two formulas -/

theorem alignUp_le (n : Nat) : alignUp n ≤ n + 7 := by
  simp only [alignUp, Arena.alignBytes]
  omega

/-- Where the two formulas agree. -/
theorem areaEnd_le_reserved (h : 16370 ≤ regionSize) :
    areaEnd regionSize ≤ alignUp (persistReservedBytes regionSize) := by
  simp only [areaEnd, superblockSize, indexCheckpointMaxLen, persistReservedBytes, alignUp,
    Arena.alignBytes]
  split_ifs <;> omega

/-- Where they do not. -/
theorem reserved_of_small (h : regionSize < 16384) :
    persistReservedBytes regionSize = regionSize / 2 := by
  simp only [persistReservedBytes]
  split_ifs <;> omega

theorem indexCheckpointMaxLen_of_small (h : regionSize < 16384) :
    indexCheckpointMaxLen regionSize = 4096 := by
  simp only [indexCheckpointMaxLen]
  split_ifs <;> omega

/-! ## Large regions -/

/-- The objects are behind the area. -/
structure BehindArea (regionSize : Nat) (s : Reopened) : Prop where
  owns : s.pm.mgr.Owns ∅
  above : ∀ reg, s.pm.mgr.regions[0]? = some reg → reg.alloc.Above (areaEnd regionSize)
  regionSize_eq : s.pm.regionSize = regionSize
  returned : ∀ h ∈ s.returned, h.region = 0 → areaEnd regionSize ≤ h.offset.toNat

theorem behindArea_new {d : Disk} (hlarge : 16370 ≤ regionSize)
    (h : PersistentManager.new d regionSize durable = .ok pm) : BehindArea regionSize ⟨pm, []⟩ := by
  obtain ⟨hfresh, hsize⟩ := fresh_new h
  refine ⟨hfresh.owns, fun reg hreg => ?_, hsize, by simp⟩
  obtain ⟨data, _, hregs⟩ := hfresh.regions
  rw [hregs] at hreg
  cases hreg
  exact (Allocator.above_init _ _).mono (areaEnd_le_reserved hlarge)

theorem BehindArea.collect (h : BehindArea regionSize s) {io : Io} {value : Bytes}
    {record : ArenaHandleLike → WAL.Append} {out : Except Error (Handle × Bytes) × PersistentManager}
    (hput : s.pm.putWith io value record = some out) : BehindArea regionSize (s.collect out) := by
  obtain ⟨res, pm'⟩ := out
  have hafter := (putWith_above h.owns h.above hput).1
  cases res with
  | error e =>
    exact ⟨hafter.owns, hafter.above, hafter.regionSize.trans h.regionSize_eq, h.returned⟩
  | ok out =>
    refine ⟨hafter.owns, hafter.above, hafter.regionSize.trans h.regionSize_eq, fun g hg => ?_⟩
    rcases List.mem_cons.mp hg with rfl | hg
    · exact (hafter.returned _ _ rfl).2
    · exact h.returned g hg

/-- A write to the first region changes its bytes only. -/
theorem poke_keeps {m : Manager} {bound : Nat} (howns : m.Owns ∅)
    (habove : ∀ reg, m.regions[0]? = some reg → reg.alloc.Above bound) (off : Nat) (buf : Bytes) :
    (m.poke origin off buf).Owns ∅ ∧
      ∀ reg, (m.poke origin off buf).regions[0]? = some reg → reg.alloc.Above bound := by
  refine ⟨Manager.owns_poke howns _ _ _, fun reg hreg => ?_⟩
  obtain ⟨first, hfirst⟩ := exists_first howns.wf
  rw [poke_origin_first hfirst] at hreg
  cases hreg
  exact habove first hfirst

/-- Nothing has been written to the head, or the body of a checkpoint, or the body and the
superblock. -/
def HeadWritten (regionSize : Nat) (idx : HashIndex) (m m' : Manager) : Prop :=
  m' = m ∨ ∃ reg body, m.regions[0]? = some reg ∧
    encodeCheckpoint (indexCheckpointMaxLen regionSize) idx.snapshot = .ok body ∧
    (m' = m.poke origin superblockSize body ∨
      ∃ sb, m' = (m.poke origin superblockSize body).poke origin 0 (encodeSuperblock sb))

theorem headWritten_writeCheckpoint {m m' : Manager} {idx : HashIndex} {syncBody syncSuper : Bool}
    {k : Except Error Nat}
    (h : writeCheckpoint m idx.snapshot regionSize syncBody syncSuper = (k, m')) :
    HeadWritten regionSize idx m m' := by
  rcases writeCheckpoint_cases h with ⟨hsame, _⟩ | ⟨reg, body, hreg, henc, _, hcase⟩
  · exact .inl hsame
  · refine .inr ⟨reg, body, hreg, henc, ?_⟩
    rcases hcase with ⟨hmid, _⟩ | ⟨sb, _, hdone⟩
    · exact .inl hmid
    · exact .inr ⟨sb, hdone⟩

theorem checkpoint_mgr (pm : PersistentManager) (io : CheckpointIo) (idx : HashIndex) :
    (pm.checkpoint io idx).2.regionSize = pm.regionSize ∧
      HeadWritten pm.regionSize idx pm.mgr (pm.checkpoint io idx).2.mgr := by
  generalize hck : pm.checkpoint io idx = out
  obtain ⟨res, pm'⟩ := out
  rw [PersistentManager.checkpoint] at hck
  split at hck
  · rename_i e mgr hwrite
    cases hck
    exact ⟨rfl, headWritten_writeCheckpoint hwrite⟩
  · rename_i k mgr hwrite
    split at hck
    · cases hck
      exact ⟨rfl, headWritten_writeCheckpoint hwrite⟩
    · cases hck
      exact ⟨rfl, headWritten_writeCheckpoint hwrite⟩

theorem BehindArea.step (h : BehindArea regionSize s) {c : ArenaCall}
    (hstep : s.arenaStep c = some s') : BehindArea regionSize s' := by
  cases c with
  | put io key value =>
    obtain ⟨out, hput, rfl⟩ := Option.map_eq_some_iff.mp hstep
    exact h.collect hput
  | putEx io key value expiresAt =>
    obtain ⟨out, hput, rfl⟩ := Option.map_eq_some_iff.mp hstep
    exact h.collect hput
  | checkpoint io idx =>
    cases hstep
    obtain ⟨hsize, hsame | ⟨reg, body, _, _, hmid | ⟨sb, hdone⟩⟩⟩ := checkpoint_mgr s.pm io idx
    · exact ⟨hsame ▸ h.owns, hsame ▸ h.above, hsize.trans h.regionSize_eq, h.returned⟩
    · obtain ⟨howns, habove⟩ := poke_keeps h.owns h.above superblockSize body
      exact ⟨hmid ▸ howns, hmid ▸ habove, hsize.trans h.regionSize_eq, h.returned⟩
    · obtain ⟨howns, habove⟩ := poke_keeps h.owns h.above superblockSize body
      obtain ⟨howns, habove⟩ := poke_keeps howns habove 0 (encodeSuperblock sb)
      exact ⟨hdone ▸ howns, hdone ▸ habove, hsize.trans h.regionSize_eq, h.returned⟩

theorem BehindArea.separate (h : BehindArea regionSize s) : Separate s := by
  have harea : areaEnd regionSize = superblockSize + indexCheckpointMaxLen regionSize := rfl
  refine ⟨fun hd hhd hzero i hi => ?_, fun hd hhd idx body henc _ hzero i hi => ?_,
    fun hd hhd io idx => ?_⟩
  · have hoff := h.returned hd hhd hzero
    have hlow := hi.1
    omega
  · have hoff := h.returned hd hhd hzero
    have hlow := hi.1
    have hlen := length_encodeCheckpoint henc
    rw [h.regionSize_eq] at hlen
    omega
  · obtain ⟨_, hsame | ⟨reg, body, hreg, henc, hcase⟩⟩ := checkpoint_mgr s.pm io idx
    · rw [PersistentManager.view, hsame]
      rfl
    · have hlen := length_encodeCheckpoint henc
      rw [h.regionSize_eq] at hlen
      have hbody : (s.pm.mgr.poke origin superblockSize body).view hd = s.pm.mgr.view hd :=
        view_poke_origin hreg fun hzero => .inr (by
          have hoff := h.returned hd hhd hzero
          omega)
      rcases hcase with hmid | ⟨sb, hdone⟩
      · rw [PersistentManager.view, hmid]
        exact hbody
      · rw [PersistentManager.view, hdone, view_poke_origin (poke_origin_first hreg _ _)]
        · exact hbody
        · intro hzero
          have hoff := h.returned hd hhd hzero
          rw [length_encodeSuperblock]
          omega

theorem separateAlways_of_large (hlarge : 16370 ≤ regionSize) : SeparateAlways regionSize := by
  intro d durable pm calls s hnew hrun
  have hbehind : BehindArea regionSize s :=
    run_keeps (BehindArea regionSize) (fun _ _ _ hs hstep => hs.step hstep) calls _ s
      (behindArea_new hlarge hnew) hrun
  exact hbehind.separate

/-! ## Small regions -/

/-- Every region with room for the superblock is accepted. -/
theorem new_of_superblock (hr : superblockSize ≤ regionSize) (durable : Bool) :
    ∃ m, PersistentManager.new ⟨none, []⟩ regionSize durable =
      .ok ⟨m, ⟨[], 0, walMaxLen regionSize⟩, regionSize, durable⟩ := by
  have hpos : ¬ regionSize = 0 := by
    simp only [superblockSize] at hr
    omega
  have hwrite : ∃ m, writeFreshSuperblock (openFileManager regionSize (Cells.fill regionSize 0))
      regionSize = .ok m := by
    have hroom : ¬ 0 + superblockSize > (Cells.fill regionSize (0 : UInt8)).size := by
      rw [Cells.size_fill]
      omega
    rw [writeFreshSuperblock, setSuperblock, copyToArena_eq rfl, length_encodeSuperblock,
      if_neg hroom]
    exact ⟨_, rfl⟩
  obtain ⟨m, hwrite⟩ := hwrite
  refine ⟨m, ?_⟩
  rw [PersistentManager.new, if_neg hpos, coldStart, openArena, hwrite]
  rfl

theorem superblockSize_le_of_new {d : Disk}
    (h : PersistentManager.new d regionSize durable = .ok pm) : superblockSize ≤ regionSize := by
  obtain ⟨data, hdata, hregs⟩ := (fresh_new h).1.regions
  obtain ⟨_, m, harena, rfl⟩ := new_cases h
  obtain ⟨sb, hsb⟩ := (openArena_cases harena).1
  by_contra hsmall
  rw [readSuperblock, copyArenaTo_eq (congrArg (fun regions => regions[0]?) hregs), hdata,
    if_pos (by omega)] at hsb
  cases hsb

theorem Fresh.put_one {offset : Nat} {m : Manager} (h : Fresh regionSize offset m)
    (hroom : alignUp offset + 8 ≤ regionSize % 2 ^ 32) (b : UInt8) (mmapOk : Bool) :
    ∃ m', m.put [b] mmapOk = some (.ok ⟨UInt32.ofNat (alignUp offset), 1, 0, 0⟩, m') := by
  obtain ⟨data, hdata, hregs⟩ := h.regions
  have halloc : ∃ alloc, ((Allocator.init (regionSize % 2 ^ 32)).skip offset).alloc 1 =
      some (alignUp offset, alloc) := ⟨_, if_neg (Nat.not_lt.mpr hroom)⟩
  obtain ⟨alloc, halloc⟩ := halloc
  have hstore : ∃ reg, Arena.Region.store ⟨data, alloc,
      Cells.fill (regionSize % 2 ^ 32 / Arena.alignBytes) 0⟩ (alignUp offset) 1 [b] = some reg := by
    refine ⟨_, if_pos ?_⟩
    have hle := Nat.mod_le regionSize (2 ^ 32)
    simp only [Arena.alignBytes, Cells.size_fill]
    omega
  obtain ⟨reg, hstore⟩ := hstore
  have hreg : m.regions[m.currentIdx]? = some ⟨data, (Allocator.init (regionSize % 2 ^ 32)).skip offset,
      Cells.fill (regionSize % 2 ^ 32 / Arena.alignBytes) 0⟩ := by
    rw [hregs, h.currentIdx]
    rfl
  have hone : [b].length % 2 ^ 32 = 1 := rfl
  have hsize : ¬ [b].length % 2 ^ 32 > Arena.maxObjectSize := by
    rw [hone]
    decide
  rw [Manager.put, if_neg hsize, hreg, hone]
  simp only [Option.bind_eq_bind, Option.bind_some, halloc, Manager.install, hstore, h.currentIdx]
  exact ⟨_, rfl⟩

/-- The handle of one byte, the first object of a region whose prefix is half of it. -/
def firstObject (regionSize : Nat) : Handle := ⟨UInt32.ofNat (alignUp (regionSize / 2)), 1, 0, 0⟩

theorem append_short (regionSize : Nat) (hd : ArenaHandleLike) :
    ∃ wal, (WAL.mk [] 0 (walMaxLen regionSize)).append (.set [] [1] hd) none = (.ok 0, wal) := by
  have hlen : (WAL.Append.set [] [1] hd).bytes.length ≤ 4096 := by
    have hhead : walHeaderSize .set + 0 + 1 ≤ 4096 := by decide
    rw [WAL.length_bytes]
    exact hhead
  have hlog : 4096 ≤ walMaxLen regionSize := by
    simp only [walMaxLen]
    split_ifs <;> omega
  rw [WAL.append_eq, if_neg (by dsimp only; omega)]
  exact ⟨_, rfl⟩

/-- A new server returns it. -/
theorem put_firstObject (hr : superblockSize ≤ regionSize) (hsmall : regionSize < 16384) :
    ∃ pm s, PersistentManager.new ⟨none, []⟩ regionSize false = .ok pm ∧
      run Reopened.arenaStep ⟨pm, []⟩ [.put .fine [] [1]] = some s ∧
      s.pm.regionSize = regionSize ∧ firstObject regionSize ∈ s.returned := by
  obtain ⟨m, hnew⟩ := new_of_superblock hr false
  have hfresh := (fresh_new hnew).1
  rw [reserved_of_small hsmall] at hfresh
  have hroom : alignUp (regionSize / 2) + 8 ≤ regionSize % 2 ^ 32 := by
    simp only [superblockSize] at hr
    simp only [alignUp, Arena.alignBytes]
    omega
  obtain ⟨m', hput⟩ := hfresh.put_one hroom 1 true
  have hview : m'.view (firstObject regionSize) = some (.ok [1]) :=
    (Manager.stored_of_put hfresh.owns hput).view
  obtain ⟨wal, happ⟩ := append_short regionSize (logged (firstObject regionSize))
  have hcall : PersistentManager.put ⟨m, ⟨[], 0, walMaxLen regionSize⟩, regionSize, false⟩ .fine [] [1] =
      some (.ok (firstObject regionSize, [1]), ⟨m', wal, regionSize, false⟩) := by
    rw [logged, firstObject] at happ
    rw [firstObject] at hview
    simp only [PersistentManager.put, PersistentManager.putWith, Io.fine, hput, Option.bind_eq_bind,
      Option.bind_some, happ, hview]
    rfl
  refine ⟨_, ⟨⟨m', wal, regionSize, false⟩, [firstObject regionSize]⟩, hnew, ?_, rfl,
    List.mem_singleton_self _⟩
  rw [run, Reopened.arenaStep, hcall]
  rfl

theorem covers_firstObject (hsmall : regionSize < 16384) :
    Covers (firstObject regionSize) (alignUp (regionSize / 2)) := by
  have hoff : (firstObject regionSize).offset.toNat = alignUp (regionSize / 2) := by
    refine UInt32.toNat_ofNat_of_lt' (Nat.lt_of_le_of_lt (alignUp_le _) ?_)
    rw [UInt32.size]
    omega
  exact ⟨Nat.le_of_eq hoff, by rw [hoff]; exact Nat.lt_succ_self _⟩

/-- An index with one entry, as `Put` leaves a table of one bucket; its checkpoint has `n` bytes. -/
theorem exists_body {n : Nat} (hlow : 36 ≤ n) (hhigh : n ≤ 4096) :
    ∃ (idx : HashIndex) (body : Bytes), encodeCheckpoint 4096 idx.snapshot = .ok body ∧
      body.length = n := by
  have hkey : ∃ key : Bytes, key.length = n - 32 := ⟨List.replicate (n - 32) 0, List.length_replicate⟩
  obtain ⟨key, hkey⟩ := hkey
  have hshort : ¬ (Entry.cached ⟨key, ⟨0, 0, 0, 0⟩, 0⟩).key.length > 0xFFFF := by
    simp only [Entry.cached, Index.Bucket.fill]
    omega
  have hroom : ¬ checkpointHeaderSize +
      Snapshot.entrySize (Entry.cached ⟨key, ⟨0, 0, 0, 0⟩, 0⟩) > 4096 := by
    simp only [checkpointHeaderSize, Snapshot.entrySize, checkpointEntryFixedSize, Entry.cached,
      Index.Bucket.fill]
    omega
  have henc : ∃ body, encodeCheckpoint 4096 [⟨key, ⟨0, 0, 0, 0⟩, 0⟩] = .ok body := by
    rw [encodeCheckpoint, Snapshot.encodeCheckpoint, List.map_cons, Snapshot.encodeEntries,
      if_neg hshort, if_neg hroom]
    exact ⟨_, rfl⟩
  obtain ⟨body, henc⟩ := henc
  refine ⟨⟨[some ⟨key, ⟨0, 0, 0, 0⟩, 0⟩], 1, 0, 0⟩, body, henc, ?_⟩
  rw [(Snapshot.encodeCheckpoint_ok henc).length_body]
  simp only [List.map_cons, List.map_nil, List.flatMap_cons, List.flatMap_nil, List.append_nil,
    Snapshot.length_encodeEntry, Snapshot.entrySize, checkpointHeaderSize, checkpointEntryFixedSize,
    Entry.cached, Index.Bucket.fill]
  omega

/-- The first object of a small region is in the head. -/
theorem not_separateAlways (hr : superblockSize ≤ regionSize) (hsmall : regionSize < 16370) :
    ¬ SeparateAlways regionSize := by
  intro hall
  obtain ⟨pm, s, hnew, hrun, hsize, hin⟩ := put_firstObject hr (by omega)
  have hsep := hall _ _ _ _ _ hnew hrun
  have hcovers : Covers (firstObject regionSize) _ := covers_firstObject (by omega)
  have hnear := alignUp_le (regionSize / 2)
  have hlast : alignUp (regionSize / 2) ≤ 8184 := by
    simp only [alignUp, Arena.alignBytes]
    omega
  generalize alignUp (regionSize / 2) = first at hcovers hnear hlast
  by_cases hsuper : first < superblockSize
  · exact hsep.superblock _ hin rfl _ hcovers ⟨Nat.zero_le _, by omega⟩
  · -- a checkpoint that just reaches the object, or the shortest one with an entry
    simp only [superblockSize] at hsuper
    obtain ⟨n, hn⟩ : ∃ n, 36 ≤ n ∧ n ≤ 4096 ∧ first < 4096 + n ∧ 4096 + n ≤ regionSize :=
      ⟨max 36 (first - 4095), by omega, by omega, by omega, by omega⟩
    obtain ⟨idx, body, henc, hlen⟩ := exists_body hn.1 hn.2.1
    have hbody := hsep.body _ hin idx body
    rw [hsize, indexCheckpointMaxLen_of_small (by omega), hlen] at hbody
    exact hbody henc hn.2.2.2 rfl _ hcovers ⟨Nat.le_of_not_lt hsuper, hn.2.2.1⟩

theorem separate_always_iff (hr : ∃ d durable pm, PersistentManager.new d regionSize durable = .ok pm) :
    SeparateAlways regionSize ↔ 16370 ≤ regionSize := by
  obtain ⟨d, durable, pm, hnew⟩ := hr
  refine ⟨fun hall => ?_, separateAlways_of_large⟩
  by_contra hsmall
  exact not_separateAlways (superblockSize_le_of_new hnew) (Nat.lt_of_not_le hsmall) hall

theorem separate_always_iff_smallest : SeparateAlways 16370 := by
  obtain ⟨m, hnew⟩ := new_of_superblock (by decide : superblockSize ≤ 16370) false
  exact (separate_always_iff ⟨_, _, _, hnew⟩).mpr (by decide)

/-- A region of two pages: the checkpoint of an empty index is written over the first object, which
then reads as the `I` of its magic. -/
theorem checkpoint_overwrites_object :
    ∃ pm s, PersistentManager.new ⟨none, []⟩ 8192 false = .ok pm ∧
      run Reopened.arenaStep ⟨pm, []⟩ [.put .fine [97] [1]] = some s ∧
      s.returned = [⟨4096, 1, 0, 0⟩] ∧ s.pm.view ⟨4096, 1, 0, 0⟩ = some (.ok [1]) ∧
      (s.pm.checkpoint .fine (Index.new 8)).1 = .ok () ∧
      (s.pm.checkpoint .fine (Index.new 8)).2.view ⟨4096, 1, 0, 0⟩ = some (.ok [0x49]) := by
  simp only [exists_and_left]
  decide +kernel

end Horreum.Persist
