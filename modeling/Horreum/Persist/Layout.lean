/-
  Persist/Layout.lean --- who touches which part of the first region.

  Superblock and checkpoint are in the head of the first region, up to `areaEnd`; values are
  meant to be behind it.  A call that leaves the head alone leaves superblock and checkpoint
  alone, and a checkpoint leaves alone what is behind the head.
-/
import Horreum.Arena.Ownership
import Horreum.Persist.Checkpoint

set_option autoImplicit false

namespace Horreum.Persist

open Foundation
open Arena (Manager Handle Region)
open Index (Entry)

/-- Where the checkpoint area ends. -/
def areaEnd (regionSize : Nat) : Nat := superblockSize + indexCheckpointMaxLen regionSize

theorem superblockSize_le_areaEnd (regionSize : Nat) : superblockSize ≤ areaEnd regionSize :=
  Nat.le_add_right _ _

theorem indexCheckpointMaxLen_le (regionSize : Nat) : indexCheckpointMaxLen regionSize ≤ 2 ^ 20 := by
  simp only [indexCheckpointMaxLen]
  split_ifs <;> omega

variable {regionSize : Nat}

/-- From 8192 bytes on the region has room for the checkpoint area. -/
theorem areaEnd_le (h : 8192 ≤ regionSize) : areaEnd regionSize ≤ regionSize := by
  simp only [areaEnd, superblockSize, indexCheckpointMaxLen]
  split_ifs <;> omega

/-- The start of the first region. -/
def origin : Handle := ⟨0, 0, 0, 0⟩

/-! ## The head of the first region -/

/-- The first regions of two managers have the same bytes before `n`. -/
def HeadAgrees (n : Nat) (m m' : Manager) : Prop :=
  ∃ reg reg', m.regions[0]? = some reg ∧ m'.regions[0]? = some reg' ∧
    reg'.data.size = reg.data.size ∧ ∀ i, i < n → reg'.data.get i = reg.data.get i

section Head

variable {m m' m'' : Manager} {n : Nat} {reg : Region} {sb : Superblock} {snap : List Entry}
  {body : Bytes}

theorem copyArenaTo_eq (h : m.regions[0]? = some reg) (off n : Nat) :
    copyArenaTo m off n =
      if off + n > reg.data.size then .error .readPastEnd else .ok (reg.data.read off n) := by
  unfold copyArenaTo
  cases hregs : m.regions with
  | nil => simp [hregs] at h
  | cons r rest =>
    obtain rfl : r = reg := by simpa [hregs] using h
    rfl

theorem poke_origin (h : m.regions[0]? = some reg) (off : Nat) (buf : Bytes) :
    m.poke origin off buf =
      { m with regions := m.regions.set 0 { reg with data := reg.data.write off buf } } := by
  have hzero : origin.region.toNat = 0 := rfl
  simp only [Manager.poke, hzero, h]
  rw [show origin.offset.toNat + off = off from Nat.zero_add off]

theorem poke_origin_first (h : m.regions[0]? = some reg) (off : Nat) (buf : Bytes) :
    (m.poke origin off buf).regions[0]? = some { reg with data := reg.data.write off buf } := by
  rw [poke_origin h]
  exact List.getElem?_set_self (List.getElem?_eq_some_iff.mp h).1

theorem copyToArena_eq (h : m.regions[0]? = some reg) (off : Nat) (buf : Bytes) :
    copyToArena m off buf =
      if off + buf.length > reg.data.size then .error .writePastEnd
      else .ok (m.poke origin off buf) := by
  rw [poke_origin h]
  unfold copyToArena
  cases hregs : m.regions with
  | nil => simp [hregs] at h
  | cons r rest =>
    obtain rfl : r = reg := by simpa [hregs] using h
    rfl

theorem HeadAgrees.refl (h : m.regions[0]? = some reg) (n : Nat) : HeadAgrees n m m :=
  ⟨reg, reg, h, h, rfl, fun _ _ => rfl⟩

theorem HeadAgrees.trans (h : HeadAgrees n m m') (h' : HeadAgrees n m' m'') :
    HeadAgrees n m m'' := by
  obtain ⟨reg, mid, hreg, hmid, hsize, hget⟩ := h
  obtain ⟨mid', reg', hmid', hreg', hsize', hget'⟩ := h'
  cases hmid.symm.trans hmid'
  exact ⟨reg, reg', hreg, hreg', hsize'.trans hsize, fun i hi => (hget' i hi).trans (hget i hi)⟩

theorem HeadAgrees.copyArenaTo (h : HeadAgrees n m m') {off k : Nat} (hk : off + k ≤ n) :
    copyArenaTo m' off k = copyArenaTo m off k := by
  obtain ⟨reg, reg', hreg, hreg', hsize, hget⟩ := h
  rw [copyArenaTo_eq hreg, copyArenaTo_eq hreg', hsize,
    Cells.read_congr fun i _ hi => hget i (Nat.lt_of_lt_of_le hi hk)]

theorem HeadAgrees.readSuperblock (h : HeadAgrees n m m') (hn : superblockSize ≤ n) :
    readSuperblock m' = readSuperblock m := by
  rw [Persist.readSuperblock, Persist.readSuperblock, h.copyArenaTo (by simpa using hn)]

theorem HeadAgrees.loadCheckpoint (h : HeadAgrees n m m') (hn : areaEnd regionSize ≤ n) :
    loadCheckpoint m' regionSize = loadCheckpoint m regionSize := by
  rw [Persist.loadCheckpoint, Persist.loadCheckpoint, h.copyArenaTo hn]

/-- Views in the first region depend on its bytes only. -/
theorem view_first {reg reg' : Region} (h : m.regions[0]? = some reg)
    (h' : m'.regions[0]? = some reg') (hdata : reg'.data = reg.data) {g : Handle}
    (hg : g.region = 0) : m'.view g = m.view g := by
  have hzero : g.region.toNat = 0 := by rw [hg]; rfl
  simp only [Manager.view, hzero, h, h', hdata]

/-! ## Values -/

theorem exists_first (hm : m.Wf) : ∃ reg, m.regions[0]? = some reg :=
  ⟨_, List.getElem?_eq_getElem (Nat.zero_lt_of_lt hm.current)⟩

theorem headAgrees_addRegion (hm : m.Wf) (n : Nat) : HeadAgrees n m m.addRegion := by
  obtain ⟨reg, hreg⟩ := exists_first hm
  have hpos := Nat.zero_lt_of_lt hm.current
  refine ⟨reg, reg, hreg, ?_, rfl, fun _ _ => rfl⟩
  rw [Manager.addRegion_getElem?, if_neg (by omega), hreg]

theorem headAgrees_placed {h : Handle} {alloc : Arena.Allocator} (hp : m.Allots h reg alloc)
    (hm : m.Wf) (value : Bytes)
    (hoff : h.region = 0 → n ≤ h.offset.toNat) : HeadAgrees n m (m.placed h reg alloc value) := by
  by_cases hzero : h.region = 0
  · have hnat : h.region.toNat = 0 := by rw [hzero]; rfl
    have hself := Manager.regions_placed_self alloc hp.region value
    have hreg := hp.region
    rw [hnat] at hself hreg
    exact ⟨reg, _, hreg, hself, rfl, fun i hi =>
      Cells.get_write_of_lt _ _ _ (Nat.lt_of_lt_of_le hi (hoff hzero))⟩
  · obtain ⟨first, hfirst⟩ := exists_first hm
    have hne : 0 ≠ h.region.toNat := fun heq => hzero (UInt8.toNat_inj.mp heq.symm)
    refine ⟨first, first, hfirst, ?_, rfl, fun _ _ => rfl⟩
    rw [Manager.regions_placed_other _ _ _ value hne, hfirst]

/-- `Put` leaves the head alone unless its value goes there. -/
theorem headAgrees_put (hm : m.Wf) {value : Bytes} {mmapOk : Bool}
    {res : Except Arena.Error Handle} (hput : m.put value mmapOk = some (res, m'))
    (hoff : ∀ h, res = .ok h → h.region = 0 → n ≤ h.offset.toNat) : HeadAgrees n m m' := by
  obtain ⟨first, hfirst⟩ := exists_first hm
  rcases hm.bounded.puts hput with
    _ | ⟨_, _⟩ | ⟨h, reg, alloc, m₀, ⟨rfl, _⟩ | ⟨hroom, rfl, _⟩, ha, _, _⟩
  · exact HeadAgrees.refl hfirst n
  · exact headAgrees_addRegion hm n
  · exact headAgrees_placed ha hm _ (hoff h rfl)
  · exact (headAgrees_addRegion hm n).trans
      (headAgrees_placed ha (hm.addRegion hroom) _ (hoff h rfl))

theorem headAgrees_free (hm : m.Wf) (h : Handle) (n : Nat) : HeadAgrees n m (m.free h).2 := by
  obtain ⟨reg, hreg⟩ := exists_first hm
  have hmap := congrArg (·[0]?) (Manager.data_free m h)
  simp only [List.getElem?_map, hreg, Option.map_some] at hmap
  obtain ⟨reg', hreg', hsame⟩ := Option.map_eq_some_iff.mp hmap
  exact ⟨reg, reg', hreg, hreg', by rw [hsame], fun _ _ => by rw [hsame]⟩

/-- New values go behind what the allocator of the first region has been told to skip. -/
theorem above_put {bound : Nat} {value : Bytes} {mmapOk : Bool} {res : Except Arena.Error Handle}
    (hm : m.Wf)
    (habove : ∀ reg, m.regions[0]? = some reg → reg.alloc.Above bound)
    (hput : m.put value mmapOk = some (res, m')) :
    (∀ reg, m'.regions[0]? = some reg → reg.alloc.Above bound) ∧
      m.regions.length ≤ m'.regions.length ∧
      ∀ h, res = .ok h → h.region.toNat < m'.regions.length ∧
        (h.region = 0 → bound ≤ h.offset.toNat) := by
  have hpos := Nat.zero_lt_of_lt hm.current
  have hadded : ∀ reg, m.addRegion.regions[0]? = some reg → reg.alloc.Above bound := by
    intro reg hreg
    rw [Manager.addRegion_getElem?, if_neg (by omega)] at hreg
    exact habove reg hreg
  have hlen : m.regions.length ≤ m.addRegion.regions.length := by
    simp [Manager.addRegion]
  rcases hm.bounded.puts hput with _ | ⟨_, _⟩ | ⟨h, reg, alloc, m₂, hm₂, hp, _, _⟩
  · exact ⟨habove, Nat.le_refl _, fun _ herr => by cases herr⟩
  · exact ⟨hadded, hlen, fun _ herr => by cases herr⟩
  · have hm₂' : (∀ reg, m₂.regions[0]? = some reg → reg.alloc.Above bound) ∧
        m.regions.length ≤ m₂.regions.length := by
      rcases hm₂ with ⟨rfl, _⟩ | ⟨_, rfl, _⟩
      · exact ⟨habove, Nat.le_refl _⟩
      · exact ⟨hadded, hlen⟩
    have hsame : (m₂.placed h reg alloc (value.take (value.length % 2 ^ 32))).regions.length =
        m₂.regions.length := by
      simp [Manager.placed]
    rw [hsame]
    refine ⟨?_, hm₂'.2, fun h' heq => ?_⟩
    · intro r hr
      by_cases hzero : h.region.toNat = 0
      · have hself := Manager.regions_placed_self alloc hp.region (value.take (value.length % 2 ^ 32))
        have hreg := hp.region
        rw [hzero] at hself hreg
        cases hself.symm.trans hr
        exact ((hm₂'.1 reg hreg).alloc hp.alloc).2
      · rw [Manager.regions_placed_other _ _ _ _ (Ne.symm hzero)] at hr
        exact hm₂'.1 r hr
    · cases heq
      refine ⟨(List.getElem?_eq_some_iff.mp hp.region).1, fun hzero => ?_⟩
      have hreg := hp.region
      rw [show h.region.toNat = 0 by rw [hzero]; rfl] at hreg
      exact ((hm₂'.1 reg hreg).alloc hp.alloc).1

theorem above_free {h : Handle} {bound : Nat}
    (habove : ∀ reg, m.regions[0]? = some reg → reg.alloc.Above bound)
    (hoff : h.region = 0 → bound ≤ h.offset.toNat) :
    (∀ reg, (m.free h).2.regions[0]? = some reg → reg.alloc.Above bound) ∧
      (m.free h).2.regions.length = m.regions.length := by
  simp only [Manager.free]
  split
  · exact ⟨habove, rfl⟩
  · rename_i reg hreg
    split
    · exact ⟨habove, rfl⟩
    · refine ⟨fun r hr => ?_, by simp⟩
      by_cases hzero : h.region.toNat = 0
      · rw [hzero] at hreg hr
        rw [List.getElem?_set_self (List.getElem?_eq_some_iff.mp hreg).1] at hr
        cases hr
        exact (habove reg hreg).free_block (hoff (UInt8.toNat_inj.mp hzero))
      · rw [List.getElem?_set_ne hzero] at hr
        exact habove r hr

/-! ## Checkpoints -/

/-- A write at `off` of the first region is not seen by the handles clear of it. -/
theorem view_poke_origin (hreg : m.regions[0]? = some reg) {off : Nat} {buf : Bytes} {g : Handle}
    (hclear : g.region = 0 →
      g.offset.toNat + g.size.toNat ≤ off ∨ off + buf.length ≤ g.offset.toNat) :
    (m.poke origin off buf).view g = m.view g := by
  have hlt := (List.getElem?_eq_some_iff.mp hreg).1
  rw [poke_origin hreg]
  by_cases hzero : g.region = 0
  · have hnat : g.region.toNat = 0 := by rw [hzero]; rfl
    simp only [Manager.view, hnat, hreg, List.getElem?_set_self hlt, Cells.size_write]
    rw [Cells.read_write_of_disjoint _ _ _ (hclear hzero)]
    rfl
  · have hne : 0 ≠ g.region.toNat := fun heq => hzero (UInt8.toNat_inj.mp heq.symm)
    simp only [Manager.view, List.getElem?_set_ne hne]

/-- A complete body in the area is what `loadCheckpoint` finds. -/
theorem loadCheckpoint_body (hreg : m.regions[0]? = some reg)
    (hsize : areaEnd regionSize ≤ reg.data.size)
    (henc : encodeCheckpoint (indexCheckpointMaxLen regionSize) snap = .ok body)
    (hread : reg.data.read superblockSize body.length = body) :
    loadCheckpoint m regionSize = .ok (snap.map saved) := by
  have hlen := length_encodeCheckpoint henc
  obtain ⟨rest, hrest⟩ : ∃ rest, reg.data.read superblockSize (indexCheckpointMaxLen regionSize) =
      body ++ rest := by
    rw [← Nat.add_sub_of_le hlen, Cells.read_add, hread]
    exact ⟨_, rfl⟩
  have hdecode := decodeCheckpoint_encodeCheckpoint (indexCheckpointMaxLen_le regionSize) henc rest
  have hmagic : (body ++ rest).take 4 = checkpointMagic := (headed_of_decode hdecode).magic
  have harea : superblockSize + indexCheckpointMaxLen regionSize ≤ reg.data.size := hsize
  rw [loadCheckpoint, copyArenaTo_eq hreg, if_neg (by omega), hrest]
  simp only [bind, Except.bind, hdecode]
  rw [if_neg (fun hne => hne hmagic)]

/-- A checkpoint has few entries, and one byte of meta bits in each. -/
theorem loadCheckpoint_ok {es : List Entry} (h : loadCheckpoint m regionSize = .ok es) :
    es.length + 4 ≤ 2 ^ 16 ∧ ∀ e ∈ es, e.handle.metaWord.toNat < 256 := by
  obtain ⟨area, harea, h⟩ := bind_eq_ok h
  split at h
  · cases h
  · obtain ⟨⟨es', k⟩, hdecode, h⟩ := bind_eq_ok h
    cases h
    obtain ⟨hlen, hwords⟩ := decodeCheckpoint_ok hdecode
    refine ⟨?_, hwords⟩
    have hmax := indexCheckpointMaxLen_le regionSize
    have hread : area.length = indexCheckpointMaxLen regionSize := by
      unfold copyArenaTo at harea
      split at harea
      · cases harea
      · split at harea
        · cases harea
        · cases harea
          exact Cells.length_read _ _ _
    simp only [checkpointHeaderSize, checkpointEntryFixedSize] at hlen
    omega

theorem version_of_readSuperblock (h : readSuperblock m = .ok sb) : sb.version = version := by
  obtain ⟨buf, _, h⟩ := bind_eq_ok h
  rw [decodeSuperblock] at h
  split_ifs at h with hlen hmagic hver
  cases h
  exact Decidable.not_not.mp hver

/-- What `setSuperblock` leaves can be read back. -/
theorem readSuperblock_poke (hreg : m.regions[0]? = some reg)
    (hsize : superblockSize ≤ reg.data.size) (hver : sb.version = version) :
    readSuperblock (m.poke origin 0 (encodeSuperblock sb)) = .ok sb := by
  have hlt := (List.getElem?_eq_some_iff.mp hreg).1
  have hlen := length_encodeSuperblock sb
  have hself := poke_origin_first hreg 0 (encodeSuperblock sb)
  have hread : (reg.data.write 0 (encodeSuperblock sb)).read 0 superblockSize =
      encodeSuperblock sb := by
    have hwritten := Cells.read_write reg.data 0 (encodeSuperblock sb)
    rwa [hlen] at hwritten
  have hcopy : copyArenaTo (m.poke origin 0 (encodeSuperblock sb)) 0 superblockSize =
      .ok (encodeSuperblock sb) := by
    rw [copyArenaTo_eq hself, hread, if_neg (by rw [Cells.size_write]; omega)]
  simp only [readSuperblock, hcopy, bind, Except.bind, decodeSuperblock_encodeSuperblock hver]

/-- The body leaves the superblock alone. -/
theorem headAgrees_body (hreg : m.regions[0]? = some reg) (buf : Bytes) :
    HeadAgrees superblockSize m (m.poke origin superblockSize buf) :=
  ⟨reg, _, hreg, poke_origin_first hreg superblockSize buf, rfl,
    fun _ hi => Cells.get_write_of_lt _ _ _ hi⟩

/-- The superblock that a checkpoint writes. -/
def Superblock.afterCheckpoint (sb : Superblock) (snap : List Entry) : Superblock :=
  { sb with checkpointCount := UInt64.ofNat snap.length, walOffset := 0 }

theorem version_afterCheckpoint (hsb : readSuperblock m = .ok sb) (snap : List Entry) :
    (sb.afterCheckpoint snap).version = version :=
  (version_of_readSuperblock hsb :)

/-- The stages of a checkpoint that fits into the area: the body, then the superblock. -/
theorem writeCheckpoint_eq (hreg : m.regions[0]? = some reg) (hsize : areaEnd regionSize ≤ reg.data.size)
    (hsb : readSuperblock m = .ok sb)
    (henc : encodeCheckpoint (indexCheckpointMaxLen regionSize) snap = .ok body)
    (syncBody syncSuper : Bool) :
    writeCheckpoint m snap regionSize syncBody syncSuper =
      let done := (m.poke origin superblockSize body).poke origin 0
        (encodeSuperblock (sb.afterCheckpoint snap))
      if !syncBody then (.error .syncFailed, m.poke origin superblockSize body)
      else if !syncSuper then (.error .syncFailed, done)
      else (.ok body.length, done) := by
  have hbody := length_encodeCheckpoint henc
  have hself := poke_origin_first hreg superblockSize body
  have hread := ((headAgrees_body hreg body).readSuperblock (Nat.le_refl _)).trans hsb
  have hroom : ¬ superblockSize + body.length > reg.data.size := by
    simp only [areaEnd] at hsize
    omega
  have hfit : ¬ 0 + superblockSize > reg.data.size := by
    simp only [areaEnd] at hsize
    omega
  simp only [writeCheckpoint, henc, copyToArena_eq hreg, if_neg hroom, hread, setSuperblock,
    copyToArena_eq hself, length_encodeSuperblock, Cells.size_write, if_neg hfit]
  rfl

/-- Everything `writeCheckpoint` can do: nothing, the body, or the body and the superblock. -/
theorem writeCheckpoint_cases {syncBody syncSuper : Bool} {res : Except Error Nat}
    (h : writeCheckpoint m snap regionSize syncBody syncSuper = (res, m')) :
    (m' = m ∧ ∃ e, res = .error e) ∨ ∃ reg body, m.regions[0]? = some reg ∧
      encodeCheckpoint (indexCheckpointMaxLen regionSize) snap = .ok body ∧
      superblockSize + body.length ≤ reg.data.size ∧
      ((m' = m.poke origin superblockSize body ∧ ∃ e, res = .error e) ∨
        ∃ sb, sb.version = version ∧
          m' = (m.poke origin superblockSize body).poke origin 0 (encodeSuperblock sb)) := by
  cases henc : encodeCheckpoint (indexCheckpointMaxLen regionSize) snap with
  | error e =>
    rw [writeCheckpoint, henc] at h
    cases h
    exact .inl ⟨rfl, e, rfl⟩
  | ok body =>
    cases hreg : m.regions[0]? with
    | none =>
      have hnil : m.regions = [] := by simpa using hreg
      simp only [writeCheckpoint, henc, copyToArena, hnil] at h
      cases h
      exact .inl ⟨rfl, _, rfl⟩
    | some reg =>
      by_cases hroom : superblockSize + body.length > reg.data.size
      · simp only [writeCheckpoint, henc, copyToArena_eq hreg, if_pos hroom] at h
        cases h
        exact .inl ⟨rfl, _, rfl⟩
      · refine .inr ⟨reg, body, rfl, rfl, Nat.le_of_not_lt hroom, ?_⟩
        have hself := poke_origin_first hreg superblockSize body
        simp only [writeCheckpoint, henc, copyToArena_eq hreg, if_neg hroom] at h
        split at h
        · cases h
          exact .inl ⟨rfl, _, rfl⟩
        · cases hsb : readSuperblock (m.poke origin superblockSize body) with
          | error e =>
            rw [hsb] at h
            cases h
            exact .inl ⟨rfl, e, rfl⟩
          | ok sb =>
            simp only [hsb, setSuperblock, copyToArena_eq hself] at h
            have hfit : ¬ 0 + (encodeSuperblock (sb.afterCheckpoint snap)).length >
                reg.data.size := by
              rw [length_encodeSuperblock]
              omega
            refine .inr ⟨sb.afterCheckpoint snap, version_afterCheckpoint hsb snap, ?_⟩
            rw [Superblock.afterCheckpoint] at hfit
            rw [Cells.size_write, if_neg hfit] at h
            cases syncSuper <;> exact (congrArg Prod.snd h).symm

/-- A successful checkpoint of a region with room for the area: superblock and checkpoint can
be read back, and no block and nothing behind the area has changed. -/
structure Checkpointed (m m' : Manager) (regionSize : Nat) (snap : List Entry) : Prop where
  superblock : ∃ sb, readSuperblock m' = .ok sb
  checkpoint : loadCheckpoint m' regionSize = .ok (snap.map saved)
  size : ∃ reg', m'.regions[0]? = some reg' ∧ ∀ reg, m.regions[0]? = some reg →
    reg'.data.size = reg.data.size
  written : ∃ reg' body, m'.regions[0]? = some reg' ∧
    encodeCheckpoint (indexCheckpointMaxLen regionSize) snap = .ok body ∧
    reg'.data.read superblockSize body.length = body
  owns : ∀ L, m.Owns L → m'.Owns L
  view : ∀ g : Handle, (g.region = 0 → areaEnd regionSize ≤ g.offset.toNat) → m'.view g = m.view g

theorem checkpointed (hreg : m.regions[0]? = some reg) (hsize : areaEnd regionSize ≤ reg.data.size)
    (henc : encodeCheckpoint (indexCheckpointMaxLen regionSize) snap = .ok body)
    (hver : sb.version = version) :
    Checkpointed m ((m.poke origin superblockSize body).poke origin 0 (encodeSuperblock sb))
      regionSize snap := by
  have hle := superblockSize_le_areaEnd regionSize
  have hbody := length_encodeCheckpoint henc
  have hsb := length_encodeSuperblock sb
  have hmid := poke_origin_first hreg superblockSize body
  have hlast := poke_origin_first hmid 0 (encodeSuperblock sb)
  have hread : ((reg.data.write superblockSize body).write 0 (encodeSuperblock sb)).read
      superblockSize body.length = body := by
    rw [Cells.read_write_of_disjoint _ _ _ (.inr (by omega)), Cells.read_write]
  refine ⟨⟨sb, readSuperblock_poke hmid (hle.trans hsize) hver⟩,
    loadCheckpoint_body hlast hsize henc hread, ⟨_, hlast, fun r hr => ?_⟩,
    ⟨_, body, hlast, henc, hread⟩, fun L hown => ?_, fun g hg => ?_⟩
  · cases hreg.symm.trans hr
    rfl
  · exact Manager.owns_poke (Manager.owns_poke hown _ _ _) _ _ _
  · rw [view_poke_origin hmid fun hzero => .inr ?_, view_poke_origin hreg fun hzero => .inr ?_]
    · have := hg hzero
      simp only [areaEnd] at this
      omega
    · have := hg hzero
      omega

end Head

end Horreum.Persist
