/-
  Arena/Ownership.lean --- which handles own a block of the arena.

  `Owns m L` says that the handles in `L` hold pairwise disjoint blocks of `m`, none
  of which is on a freelist.  The three operations are specified against it: `Put`
  adds its handle and disturbs no other, `Free` of an owned handle removes it, and a
  meta operation changes neither blocks nor bytes.
-/
import Horreum.Arena.Bounds
import Horreum.Foundation.Slots
import Mathlib.Data.Set.Insert

set_option autoImplicit false

namespace Horreum.Arena

open Foundation

/-- The shape every region of a manager has. -/
structure Region.Wf (size : Nat) (r : Region) : Prop where
  alloc : r.alloc.Wf
  allocSize : r.alloc.size = size % 2 ^ 32
  dataSize : r.data.size = size
  metaSize : r.metas.size = size % 2 ^ 32 / alignBytes

theorem Region.Wf.bounded {size : Nat} {r : Region} (hwf : r.Wf size) : r.Bounded size :=
  ⟨hwf.alloc.bounded, hwf.allocSize, hwf.dataSize, hwf.metaSize⟩

theorem Region.wf_newRegion (size : Nat) : (newRegion size).Wf size :=
  ⟨Allocator.wf_init _ 0, rfl, rfl, rfl⟩

namespace Manager

variable {m m' m'' : Manager} {L : Set Handle} {h g : Handle} {value : Bytes} {mmapOk : Bool}

/-- Every region is in order. -/
structure Wf (m : Manager) : Prop where
  current : m.currentIdx < m.regions.length
  few : m.regions.length ≤ 256
  region : ∀ (i : Nat) (r : Region), m.regions[i]? = some r → r.Wf m.size

theorem Wf.bounded (hm : m.Wf) : m.Bounded :=
  ⟨hm.current, hm.few, fun i r hr => (hm.region i r hr).bounded⟩

/-- The handles of `L` hold pairwise disjoint blocks. -/
structure Owns (m : Manager) (L : Set Handle) : Prop where
  wf : m.Wf
  held : ∀ h ∈ L, ∃ r, m.regions[h.region.toNat]? = some r ∧ r.alloc.Holds h.block
  aligned : ∀ h ∈ L, 8 ∣ h.offset.toNat
  apart : ∀ h ∈ L, ∀ h' ∈ L, h ≠ h' → h.region = h'.region → h.block.Disjoint h'.block

theorem Owns.mono {K : Set Handle} (hown : m.Owns L) (hsub : K ⊆ L) : m.Owns K :=
  ⟨hown.wf, fun h hh => hown.held h (hsub hh), fun h hh => hown.aligned h (hsub hh),
    fun h hh h' hh' => hown.apart h (hsub hh) h' (hsub hh')⟩

theorem Owns.within (hown : m.Owns L) (hh : h ∈ L) : m.Within h := by
  obtain ⟨r, hr, hheld⟩ := hown.held h hh
  exact ⟨(List.getElem?_eq_some_iff.mp hr).1, hown.aligned h hh,
    (hown.wf.region _ r hr).allocSize ▸ hheld.inside⟩

/-- An arena with one region that nothing has been put into. -/
theorem owns_single {r : Region} (hregions : m.regions = [r]) (hcurrent : m.currentIdx = 0)
    (hr : r.Wf m.size) : m.Owns ∅ := by
  refine ⟨⟨by simp [hregions, hcurrent], by simp [hregions], fun i r' hr' => ?_⟩, by simp, by simp,
    by simp⟩
  rw [hregions] at hr'
  obtain rfl := List.mem_singleton.mp (List.mem_of_getElem? hr')
  exact hr

theorem owns_newManager (size : Nat) : (newManager size).Owns ∅ :=
  owns_single rfl rfl (Region.wf_newRegion size)

theorem owns_openFileManager {regionSize : Nat} {data : Cells UInt8} (hsize : data.size = regionSize) :
    (openFileManager regionSize data).Owns ∅ :=
  owns_single rfl rfl ⟨Allocator.wf_init _ _, rfl, hsize, rfl⟩

theorem bounded_newManager (size : Nat) : (newManager size).Bounded :=
  (owns_newManager size).wf.bounded

/-- Two owners of the same byte are one. -/
theorem Owns.eq_of_not_disjoint (hown : m.Owns L) {h h' : Handle} (hh : h ∈ L) (hh' : h' ∈ L)
    (hreg : h.region = h'.region) (hmeet : ¬ h.block.Disjoint h'.block) : h = h' := by
  by_contra hne
  exact hmeet (hown.apart h hh h' hh' hne hreg)

theorem Owns.eq_of_offset (hown : m.Owns L) {h h' : Handle} (hh : h ∈ L) (hh' : h' ∈ L)
    (hreg : h.region = h'.region) (hoff : h.offset = h'.offset) : h = h' := by
  refine hown.eq_of_not_disjoint hh hh' hreg ?_
  have hpos := h.block_len_pos
  have hpos' := h'.block_len_pos
  simp only [Extent.Disjoint, Extent.stop, Handle.block, hoff] at *
  omega

/-! ## Reading through an owned handle -/

theorem Owns.view_ok (hown : m.Owns L) (hh : h ∈ L) :
    ∃ bytes, m.view h = some (.ok bytes) ∧ bytes.length = h.size.toNat :=
  (hown.within hh).view_ok hown.wf.bounded

/-- The codec flags of a meta word. -/
def flagMask : UInt16 := 0x30

/-- What the handles of `L` see is the same in both managers: the bytes and how they are
coded. -/
def Frame (L : Set Handle) (m m' : Manager) : Prop :=
  ∀ g ∈ L, m'.view g = m.view g ∧ m'.getMeta g &&& flagMask = m.getMeta g &&& flagMask

theorem Frame.refl (L : Set Handle) (m : Manager) : Frame L m m := fun _ _ => ⟨rfl, rfl⟩

theorem Frame.trans (h : Frame L m m') (h' : Frame L m' m'') : Frame L m m'' := by
  intro g hg
  exact ⟨(h' g hg).1.trans (h g hg).1, (h' g hg).2.trans (h g hg).2⟩

theorem Frame.mono {K : Set Handle} (h : Frame L m m') (hsub : K ⊆ L) : Frame K m m' :=
  fun g hg => h g (hsub hg)

/-! ## Meta operations -/

/-- Same bytes and same blocks. -/
structure SameBlocks (m m' : Manager) : Prop where
  currentIdx : m'.currentIdx = m.currentIdx
  size : m'.size = m.size
  liveObjs : m'.liveObjs = m.liveObjs
  regions : m'.regions.map (fun r => (r.data, r.alloc, r.metas.size)) =
    m.regions.map (fun r => (r.data, r.alloc, r.metas.size))

theorem SameBlocks.refl (m : Manager) : SameBlocks m m := ⟨rfl, rfl, rfl, rfl⟩

theorem SameBlocks.trans (h : SameBlocks m m') (h' : SameBlocks m' m'') : SameBlocks m m'' :=
  ⟨h'.currentIdx.trans h.currentIdx, h'.size.trans h.size, h'.liveObjs.trans h.liveObjs,
    h'.regions.trans h.regions⟩

theorem SameBlocks.symm (h : SameBlocks m m') : SameBlocks m' m :=
  ⟨h.currentIdx.symm, h.size.symm, h.liveObjs.symm, h.regions.symm⟩

theorem SameBlocks.region (h : SameBlocks m m') {i : Nat} {r : Region}
    (hr : m.regions[i]? = some r) :
    ∃ r', m'.regions[i]? = some r' ∧ r'.data = r.data ∧ r'.alloc = r.alloc ∧
      r'.metas.size = r.metas.size := by
  have hmap := congrArg (·[i]?) h.regions
  simp only [List.getElem?_map, hr, Option.map_some] at hmap
  obtain ⟨r', hr', heq⟩ := Option.map_eq_some_iff.mp hmap
  simp only [Prod.mk.injEq] at heq
  exact ⟨r', hr', heq.1, heq.2.1, heq.2.2⟩

theorem SameBlocks.length (h : SameBlocks m m') : m'.regions.length = m.regions.length := by
  simpa using congrArg List.length h.regions

theorem SameBlocks.data (h : SameBlocks m m') :
    m'.regions.map Region.data = m.regions.map Region.data := by
  have hmap := congrArg (List.map Prod.fst) h.regions
  rw [List.map_map, List.map_map] at hmap
  exact hmap

theorem SameBlocks.view (h : SameBlocks m m') (g : Handle) : m'.view g = m.view g :=
  view_congr h.data g

theorem SameBlocks.bounded (h : SameBlocks m m') (hm : m.Bounded) : m'.Bounded := by
  refine ⟨?_, ?_, ?_⟩
  · rw [h.currentIdx, h.length]
    exact hm.current
  · rw [h.length]
    exact hm.few
  · intro i r' hr'
    obtain ⟨r, hr, hdata, halloc, hsize⟩ := h.symm.region hr'
    have hb := hm.region i r hr
    rw [h.size]
    exact ⟨halloc ▸ hb.alloc, by rw [← halloc, hb.allocSize], by rw [← hdata, hb.dataSize],
      by rw [← hsize, hb.metaSize]⟩

theorem SameBlocks.grows (h : SameBlocks m m') : Grows m m' := ⟨h.size, Nat.le_of_eq h.length.symm⟩

theorem SameBlocks.sameRoom (h : SameBlocks m m') : SameRoom m m' := by
  refine ⟨h.currentIdx, h.size, ?_⟩
  have hmap := congrArg (List.map fun x => x.2.1) h.regions
  rw [List.map_map, List.map_map] at hmap
  exact hmap

/-- Who owns a block is a matter of the allocators. -/
theorem SameRoom.owns (h : SameRoom m m') (hb : m'.Bounded) (hown : m.Owns L) : m'.Owns L := by
  have hregion : ∀ {i : Nat} {r' : Region}, m'.regions[i]? = some r' →
      ∃ r, m.regions[i]? = some r ∧ r.alloc = r'.alloc := by
    intro i r' hr'
    have hat := congrArg (·[i]?) h.allocs
    simp only [List.getElem?_map, hr', Option.map_some] at hat
    exact Option.map_eq_some_iff.mp hat.symm
  have hlen : m'.regions.length = m.regions.length := by
    simpa using congrArg List.length h.allocs
  refine ⟨⟨hb.current, hb.few, fun i r' hr' => ?_⟩, fun g hg => ?_, hown.aligned, hown.apart⟩
  · obtain ⟨r, hr, halloc⟩ := hregion hr'
    have hbr := hb.region i r' hr'
    exact ⟨halloc ▸ (hown.wf.region i r hr).alloc, hbr.allocSize, hbr.dataSize, hbr.metaSize⟩
  · obtain ⟨r, hr, hheld⟩ := hown.held g hg
    have hlt : g.region.toNat < m'.regions.length := hlen ▸ (hown.within hg).region
    obtain ⟨r₁, hr₁, halloc⟩ := hregion (List.getElem?_eq_getElem hlt)
    cases hr.symm.trans hr₁
    exact ⟨_, List.getElem?_eq_getElem hlt, halloc ▸ hheld⟩

theorem SameBlocks.owns (h : SameBlocks m m') (hown : m.Owns L) : m'.Owns L :=
  h.sameRoom.owns (h.bounded hown.wf.bounded) hown

/-- Same bytes and blocks, and the same codec flags; the eviction policy's bits are free
to differ. -/
structure SameStore (m m' : Manager) : Prop extends SameBlocks m m' where
  flags : ∀ h, m'.getMeta h &&& flagMask = m.getMeta h &&& flagMask

theorem SameStore.refl (m : Manager) : SameStore m m := ⟨SameBlocks.refl m, fun _ => rfl⟩

theorem SameStore.trans (h : SameStore m m') (h' : SameStore m' m'') : SameStore m m'' :=
  ⟨h.toSameBlocks.trans h'.toSameBlocks, fun g => (h'.flags g).trans (h.flags g)⟩

theorem SameStore.frame (h : SameStore m m') (L : Set Handle) : Frame L m m' :=
  fun g _ => ⟨h.view g, h.flags g⟩

theorem sameBlocks_modifyMeta (m : Manager) (h : Handle) (f : UInt16 → UInt16) :
    SameBlocks m (m.modifyMeta h f) := by
  unfold modifyMeta
  split
  · exact SameBlocks.refl m
  · rename_i hreg
    dsimp only
    split
    · exact SameBlocks.refl m
    · exact ⟨rfl, rfl, rfl, map_set_same hreg rfl⟩

theorem SameBlocks.hasWord (hs : SameBlocks m m') (hw : m.hasWord h = true) :
    m'.hasWord h = true := by
  obtain ⟨reg, hreg, hlt⟩ := hasWord_iff.mp hw
  obtain ⟨reg', hreg', _, _, hsize⟩ := hs.region hreg
  exact hasWord_iff.mpr ⟨reg', hreg', by rw [hsize]; exact hlt⟩

/-- A meta operation changes one word, if the handle has one. -/
theorem word_modifyMeta (m : Manager) (h : Handle) (f : UInt16 → UInt16) (w : Nat × Nat) :
    (m.modifyMeta h f).word w =
      if w = wordOf h ∧ m.hasWord h = true then (m.word w).map f else m.word w := by
  unfold modifyMeta hasWord
  cases hreg : m.regions[h.region.toNat]? with
  | none => simp
  | some reg =>
    by_cases hlt : h.offset.toNat / alignBytes < reg.metas.size
    · simp only [if_neg (Nat.not_le.mpr hlt), word, getElem?_set_of_some hreg, Option.any_some, hlt,
        decide_true, and_true, wordOf, Prod.ext_iff]
      by_cases hi : w.1 = h.region.toNat
      · simp only [hi, if_true, hreg, Option.map_some, Cells.get_set, true_and]
        split
        · rename_i hk
          rw [hk]
        · rfl
      · simp only [hi, if_false, false_and]
    · simp [hlt, Nat.le_of_not_lt hlt]

theorem getMeta_modifyMeta_self (hw : m.hasWord h = true) (f : UInt16 → UInt16) :
    (m.modifyMeta h f).getMeta h = f (m.getMeta h) := by
  have hself := word_eq ((sameBlocks_modifyMeta m h f).hasWord hw)
  rw [word_modifyMeta, if_pos ⟨rfl, hw⟩, word_eq hw] at hself
  exact (Option.some.inj hself).symm

theorem getMeta_modifyMeta_other (m : Manager) (f : UInt16 → UInt16) (hne : wordOf g ≠ wordOf h) :
    (m.modifyMeta h f).getMeta g = m.getMeta g := by
  have hs := sameBlocks_modifyMeta m h f
  have hw : (m.modifyMeta h f).hasWord g = m.hasWord g :=
    Bool.eq_iff_iff.mpr ⟨hs.symm.hasWord, hs.hasWord⟩
  rw [getMeta_eq, getMeta_eq, hw, word_modifyMeta]
  simp only [hne, false_and, if_false]

theorem Owns.hasWord (hown : m.Owns L) (hh : h ∈ L) : m.hasWord h = true :=
  (hown.within hh).hasWord hown.wf.bounded

/-- The word of an owned handle is its own. -/
theorem Owns.wordOf_inj (hown : m.Owns L) (hh : h ∈ L) (hg : g ∈ L) (heq : wordOf g = wordOf h) :
    g = h := by
  obtain ⟨hreg, hidx⟩ := Prod.mk.inj heq
  obtain ⟨j, hj⟩ := hown.aligned g hg
  obtain ⟨k, hk⟩ := hown.aligned h hh
  have hoff : g.offset.toNat = h.offset.toNat := by
    simp only [alignBytes] at hidx
    omega
  exact hown.eq_of_offset hg hh (UInt8.toNat_inj.mp hreg) (UInt32.toNat_inj.mp hoff)

theorem Owns.getMeta_modifyMeta (hown : m.Owns L) (hh : h ∈ L) (hg : g ∈ L) (f : UInt16 → UInt16) :
    (m.modifyMeta h f).getMeta g = if g = h then f (m.getMeta h) else m.getMeta g := by
  split
  · rename_i heq
    rw [heq, getMeta_modifyMeta_self (hown.hasWord hh)]
  · rename_i hne
    exact getMeta_modifyMeta_other m f fun heq => hne (hown.wordOf_inj hh hg heq)

theorem word_or_and (a b c : UInt16) : (a ||| b) &&& c = (a &&& c) ||| (b &&& c) := by
  apply UInt16.toBitVec_inj.mp
  simp only [UInt16.toBitVec_and, UInt16.toBitVec_or]
  ext i hi
  simp [Bool.and_or_distrib_right]

/-- A word operation that leaves the bits of `k` alone does so for every handle. -/
theorem getMeta_modifyMeta_and (m : Manager) (h g : Handle) {f : UInt16 → UInt16} {k : UInt16}
    (hf : ∀ w, f w &&& k = w &&& k) :
    (m.modifyMeta h f).getMeta g &&& k = m.getMeta g &&& k := by
  by_cases hword : wordOf g = wordOf h
  · rw [getMeta_wordOf hword, getMeta_wordOf hword]
    cases hw : m.hasWord h with
    | true => rw [getMeta_modifyMeta_self hw, hf]
    | false => rw [modifyMeta_of_hasWord hw]
  · rw [getMeta_modifyMeta_other m f hword]

theorem sameStore_modifyMeta (m : Manager) (h : Handle) {f : UInt16 → UInt16}
    (hf : ∀ w, f w &&& flagMask = w &&& flagMask) : SameStore m (m.modifyMeta h f) :=
  ⟨sameBlocks_modifyMeta m h f, fun g => getMeta_modifyMeta_and m h g hf⟩

theorem freqMask_clear : ~~~freqMask &&& flagMask = flagMask := by decide

theorem freqMask_flagMask : freqMask &&& flagMask = 0 := by decide

theorem sameStore_setFreq (m : Manager) (h : Handle) (freq : UInt16) :
    SameStore m (m.setFreq h freq) := by
  refine sameStore_modifyMeta m h fun w => ?_
  rw [word_or_and, UInt16.and_assoc, UInt16.and_assoc freq, freqMask_clear, freqMask_flagMask]
  simp

theorem sameStore_incFreq (m : Manager) (h : Handle) : SameStore m (m.incFreq h) := by
  refine sameStore_modifyMeta m h fun w => ?_
  rw [word_or_and, UInt16.and_assoc, UInt16.and_assoc _ freqMask flagMask, freqMask_clear,
    freqMask_flagMask]
  simp

theorem sameStore_orQueueTag (m : Manager) (h : Handle) {tag : UInt16}
    (htag : tag &&& flagMask = 0) : SameStore m (m.orMetaBits h tag) := by
  refine sameStore_modifyMeta m h fun w => ?_
  rw [word_or_and, htag]
  simp

theorem sameStore_clearQueueTag (m : Manager) (h : Handle) :
    SameStore m (m.clearMetaBits h queueTagMask) := by
  refine sameStore_modifyMeta m h fun w => ?_
  rw [UInt16.and_assoc, show ~~~queueTagMask &&& flagMask = flagMask by decide]

@[simp] theorem getFreq_clearQueueTag (m : Manager) (h g : Handle) :
    (m.clearMetaBits h queueTagMask).getFreq g = m.getFreq g := by
  refine getMeta_modifyMeta_and m h g fun w => ?_
  rw [UInt16.and_assoc, show ~~~queueTagMask &&& freqMask = freqMask by decide]

/-! ## Put -/

/-- What a `Put` of `value` that returned `h` has done to a manager owning `L`. -/
structure Stored (m : Manager) (L : Set Handle) (value : Bytes) (h : Handle) (m' : Manager) :
    Prop where
  fresh : h ∉ L
  owns : m'.Owns (insert h L)
  size : h.size.toNat = value.length
  word : h.metaWord = 0
  view : m'.view h = some (.ok value)
  getMeta : m'.getMeta h = 0
  frame : Frame L m m'
  live : m'.liveObjs = m.liveObjs + 1

/-- Region `reg` of `m` has just handed out the block of `h` and has allocator `alloc`
from now on. -/
structure Placement (m : Manager) (h : Handle) (reg : Region) (alloc : Allocator) : Prop where
  allots : Allots m h reg alloc
  wf : Region.Wf m.size { reg with alloc := alloc }
  aligned : 8 ∣ h.offset.toNat
  held : alloc.Holds h.block
  others : ∀ e, reg.alloc.Holds e → alloc.Holds e ∧ e.Disjoint h.block

/-- A region that allots a block to a handle gives it a placement. -/
theorem Allots.placement {reg : Region} {alloc : Allocator} (ha : Allots m h reg alloc)
    (hm : m.Wf) : Placement m h reg alloc := by
  have hwf := hm.region _ reg ha.region
  obtain ⟨halign, hheld, hothers⟩ := Allocator.alloc_holds hwf.alloc ha.alloc
  exact ⟨ha, ⟨Allocator.alloc_wf hwf.alloc ha.alloc,
    (Allocator.alloc_size ha.alloc).trans hwf.allocSize, hwf.dataSize, hwf.metaSize⟩, halign, hheld,
    hothers⟩

namespace Placement

variable {h : Handle} {reg : Region} {alloc : Allocator}

theorem region (hp : Placement m h reg alloc) : m.regions[h.region.toNat]? = some reg :=
  hp.allots.region

/-- An owned handle of the same region keeps its block, clear of the new one. -/
theorem old (hp : Placement m h reg alloc) (hown : m.Owns L) {g : Handle} (hg : g ∈ L)
    (hreg : g.region = h.region) :
    reg.alloc.Holds g.block ∧ alloc.Holds g.block ∧ g.block.Disjoint h.block := by
  obtain ⟨r, hr, hheld⟩ := hown.held g hg
  obtain rfl : reg = r := by simpa [hreg, hp.region] using hr
  exact ⟨hheld, hp.others g.block hheld⟩

theorem fresh (hp : Placement m h reg alloc) (hown : m.Owns L) : h ∉ L := by
  intro hmem
  have hpos := h.block_len_pos
  exact Extent.not_disjoint_self (by omega) (hp.old hown hmem rfl).2.2

theorem wf_placed (hp : Placement m h reg alloc) (hm : m.Wf) (value : Bytes) :
    (m.placed h reg alloc value).Wf := by
  refine ⟨by simpa [placed] using hm.current, by simpa [placed] using hm.few, ?_⟩
  exact forall_set hm.region ⟨hp.wf.alloc, hp.wf.allocSize, hp.wf.dataSize, hp.wf.metaSize⟩

theorem owns (hp : Placement m h reg alloc) (hown : m.Owns L) (value : Bytes) :
    (m.placed h reg alloc value).Owns (insert h L) := by
  refine ⟨hp.wf_placed hown.wf value, ?_, ?_, ?_⟩
  · rintro g (rfl | hg)
    · exact ⟨_, regions_placed_self alloc hp.region value, hp.held⟩
    · by_cases hreg : g.region = h.region
      · exact ⟨_, by rw [hreg]; exact regions_placed_self alloc hp.region value,
          (hp.old hown hg hreg).2.1⟩
      · have hne : g.region.toNat ≠ h.region.toNat := fun heq => hreg (UInt8.toNat_inj.mp heq)
        obtain ⟨r, hr, hheld⟩ := hown.held g hg
        exact ⟨r, by rw [regions_placed_other m reg alloc value hne]; exact hr, hheld⟩
  · rintro g (rfl | hg)
    · exact hp.aligned
    · exact hown.aligned g hg
  · rintro g (rfl | hg) g' (rfl | hg') hne hreg
    · exact absurd rfl hne
    · exact (hp.old hown hg' hreg.symm).2.2.symm
    · exact (hp.old hown hg hreg).2.2
    · exact hown.apart g hg g' hg' hne hreg

theorem getMeta_old (hp : Placement m h reg alloc) (hown : m.Owns L) (value : Bytes) {g : Handle}
    (hg : g ∈ L) : (m.placed h reg alloc value).getMeta g = m.getMeta g := by
  have hne : wordOf g ≠ wordOf h := by
    intro heq
    obtain ⟨hreg, hidx⟩ := Prod.mk.inj heq
    obtain ⟨_, _, hdis⟩ := hp.old hown hg (UInt8.toNat_inj.mp hreg)
    have hgpos := g.block_len_pos
    have hhpos := h.block_len_pos
    obtain ⟨j, hj⟩ := hown.aligned g hg
    obtain ⟨k, hk⟩ := hp.aligned
    simp only [Extent.Disjoint, Extent.stop, Handle.block, alignBytes] at *
    omega
  have hw := hown.hasWord hg
  have hw' := ((hown.within hg).mono (Allots.grows m h reg alloc value)).hasWord
    (hp.allots.bounded hown.wf.bounded value)
  rw [getMeta_eq, getMeta_eq, if_pos hw, if_pos hw', word_placed hp.region, if_neg hne]

/-- The write and the cleared word are outside every owned block. -/
theorem frame (hp : Placement m h reg alloc) (hown : m.Owns L) (hlen : value.length ≤ h.block.len) :
    Frame L m (m.placed h reg alloc value) := by
  intro g hg
  refine ⟨?_, by rw [hp.getMeta_old hown value hg]⟩
  by_cases hreg : g.region = h.region
  · have hdis := (hp.old hown hg hreg).2.2
    obtain ⟨r, hr, hview⟩ := (hown.within hg).view hown.wf.bounded
    obtain ⟨r', hr', hview'⟩ := ((hown.within hg).mono (Allots.grows m h reg alloc value)).view
      (hp.allots.bounded hown.wf.bounded value)
    rw [hreg] at hr hr'
    cases hp.region.symm.trans hr
    cases (regions_placed_self alloc hp.region value).symm.trans hr'
    rw [hview, hview', Cells.read_write_of_disjoint]
    have hpay := g.payload_le
    have hgpos := g.block_len_pos
    have hhpos := h.block_len_pos
    simp only [Extent.Disjoint, Extent.stop, Handle.block] at *
    omega
  · have hne : g.region.toNat ≠ h.region.toNat := fun heq => hreg (UInt8.toNat_inj.mp heq)
    simp only [view, regions_placed_other m reg alloc value hne]

end Placement

theorem Wf.addRegion (hm : m.Wf) (hroom : m.regions.length < 256) : m.addRegion.Wf := by
  refine ⟨by simp [Manager.addRegion], by simp [Manager.addRegion]; omega, ?_⟩
  exact forall_concat hm.region (Region.wf_newRegion m.size)

theorem Owns.addRegion (hown : m.Owns L) (hroom : m.regions.length < 256) :
    m.addRegion.Owns L := by
  refine ⟨hown.wf.addRegion hroom, ?_, hown.aligned, hown.apart⟩
  intro h hh
  have hlt := (hown.within hh).region
  rw [addRegion_getElem?, if_neg (by omega)]
  exact hown.held h hh

theorem frame_addRegion (hown : m.Owns L) : Frame L m m.addRegion := by
  intro g hg
  obtain ⟨hview, hmeta⟩ := addRegion_old (hown.within hg).region
  exact ⟨hview, by rw [hmeta]⟩

/-- A placement with an actual value is a stored value. -/
theorem Placement.stored {reg : Region} {alloc : Allocator} (hp : Placement m h reg alloc)
    (hown : m.Owns L) (hsize : h.size.toNat = value.length)
    (hword : h.metaWord = 0) : Stored m L value h (m.placed h reg alloc value) := by
  have hfit : value.length ≤ h.block.len := by
    rw [← hsize]
    exact le_blockLen _
  exact ⟨hp.fresh hown, hp.owns hown value, hsize, hword, hp.allots.view_new hown.wf.bounded hsize,
    getMeta_placed alloc hp.region value, hp.frame hown hfit, rfl⟩

/-- `Put` leaves the whole meta word of every owned handle alone. -/
theorem Owns.getMeta_put (hown : m.Owns L) {res : Except Error Handle}
    (hput : m.put value mmapOk = some (res, m')) {g : Handle}
    (hg : g ∈ L) : m'.getMeta g = m.getMeta g := by
  have hgrown := (addRegion_old (hown.within hg).region).2
  rcases hown.wf.bounded.puts hput with
    _ | ⟨_, hroom⟩ | ⟨h, reg, alloc, m₀, ⟨rfl, _⟩ | ⟨hroom, rfl, _⟩, ha, _, _⟩
  · rfl
  · exact hgrown
  · exact (ha.placement hown.wf).getMeta_old hown _ hg
  · have hown₀ := hown.addRegion hroom
    exact ((ha.placement hown₀.wf).getMeta_old hown₀ _ hg).trans hgrown

/-- `Put` against ownership: it returns, and either stores the value under a fresh
handle or fails and leaves every owned handle as it was. -/
theorem put_spec (hown : m.Owns L) (value : Bytes) (mmapOk : Bool) :
    ∃ res m', m.put value mmapOk = some (res, m') ∧
      match res with
      | .ok h => Stored m L (value.take (value.length % 2 ^ 32)) h m'
      | .error _ => m'.Owns L ∧ Frame L m m' ∧ m'.liveObjs = m.liveObjs := by
  obtain ⟨res, m', hput, hcase, _⟩ := hown.wf.bounded.put_cases value mmapOk
  refine ⟨res, m', hput, ?_⟩
  rcases hcase with _ | ⟨_, hroom⟩ | ⟨h, reg, alloc, m₀, hm₀, ha, hsize, hword⟩
  · exact ⟨hown, Frame.refl L _, rfl⟩
  · exact ⟨hown.addRegion hroom, frame_addRegion hown, rfl⟩
  · have hlen : h.size.toNat = (value.take (value.length % 2 ^ 32)).length := by
      rw [hsize, List.length_take, Nat.min_eq_left (Nat.mod_le _ _)]
    rcases hm₀ with ⟨rfl, _⟩ | ⟨hroom, rfl, _⟩
    · exact (ha.placement hown.wf).stored hown hlen hword
    · have hown₀ := hown.addRegion hroom
      have hst := (ha.placement hown₀.wf).stored hown₀ hlen hword
      exact { hst with frame := (frame_addRegion hown).trans hst.frame }

/-- The same of a `Put` that is known to have succeeded, or to have failed. -/
theorem stored_of_put (hown : m.Owns L) {m' : Manager}
    (hput : m.put value mmapOk = some (.ok h, m')) :
    Stored m L (value.take (value.length % 2 ^ 32)) h m' := by
  obtain ⟨res, m₁, hput', hspec⟩ := put_spec hown value mmapOk
  cases hput.symm.trans hput'
  exact hspec

theorem kept_of_put (hown : m.Owns L) {e : Error} {m' : Manager}
    (hput : m.put value mmapOk = some (.error e, m')) :
    m'.Owns L ∧ Frame L m m' ∧ m'.liveObjs = m.liveObjs := by
  obtain ⟨res, m₁, hput', hspec⟩ := put_spec hown value mmapOk
  cases hput.symm.trans hput'
  exact hspec

/-! ## Free -/

theorem data_free (m : Manager) (h : Handle) :
    (m.free h).2.regions.map Region.data = m.regions.map Region.data := by
  simp only [free]
  split
  · rfl
  · rename_i hreg
    split
    · rfl
    · exact map_set_same hreg rfl

theorem metas_free (m : Manager) (h : Handle) :
    (m.free h).2.regions.map Region.metas = m.regions.map Region.metas := by
  simp only [free]
  split
  · rfl
  · rename_i hreg
    split
    · rfl
    · exact map_set_same hreg rfl

@[simp] theorem view_free (m : Manager) (h g : Handle) : (m.free h).2.view g = m.view g :=
  view_congr (data_free m h) g

@[simp] theorem getMeta_free (m : Manager) (h g : Handle) :
    (m.free h).2.getMeta g = m.getMeta g :=
  getMeta_congr (metas_free m h) g

theorem frame_free (L : Set Handle) (m : Manager) (h : Handle) : Frame L m (m.free h).2 :=
  fun g _ => ⟨view_free m h g, by rw [getMeta_free]⟩

/-- Freeing an owned handle succeeds and gives up exactly its block. -/
theorem free_spec (hown : m.Owns L) (hh : h ∈ L) :
    (m.free h).1 = .ok () ∧ (m.free h).2.Owns (L \ {h}) ∧
      (m.free h).2.liveObjs = m.liveObjs - 1 := by
  obtain ⟨reg, hreg, hheld⟩ := hown.held h hh
  have halign := hown.aligned h hh
  have hwf := hown.wf.region _ reg hreg
  obtain ⟨_, hreg', _, hin, _⟩ := (hown.within hh).get_region hown.wf.bounded
  cases hreg.symm.trans hreg'
  have hpay := h.payload_le
  obtain ⟨hfwf, hkeep⟩ := Allocator.free_spec hwf.alloc hheld halign
  have heq : m.free h = (.ok (), { m with
      regions := m.regions.set h.region.toNat
        { reg with alloc := reg.alloc.free h.offset.toNat h.size.toNat }
      liveObjs := m.liveObjs - 1 }) := by
    simp only [free, hreg]
    rw [if_neg (by omega)]
  rw [heq]
  have hself : (m.regions.set h.region.toNat
      { reg with alloc := reg.alloc.free h.offset.toNat h.size.toNat })[h.region.toNat]? =
      some { reg with alloc := reg.alloc.free h.offset.toNat h.size.toNat } :=
    List.getElem?_set_self (hown.within hh).region
  refine ⟨rfl, ⟨⟨by simpa using hown.wf.current, by simpa using hown.wf.few, ?_⟩, ?_, ?_, ?_⟩,
    rfl⟩
  · exact forall_set hown.wf.region
      ⟨hfwf, (Allocator.free_size _ _ _).trans hwf.allocSize, hwf.dataSize, hwf.metaSize⟩
  · rintro g ⟨hg, hne⟩
    obtain ⟨r, hr, hgheld⟩ := hown.held g hg
    by_cases hi : h.region.toNat = g.region.toNat
    · obtain rfl : reg = r := by rw [← hi, hreg] at hr; exact Option.some.inj hr
      refine ⟨_, by rw [← hi]; exact hself, ?_⟩
      exact hkeep g.block hgheld (hown.apart g hg h hh hne (UInt8.toNat_inj.mp hi.symm))
    · exact ⟨r, by rw [List.getElem?_set_ne hi]; exact hr, hgheld⟩
  · exact fun g hg => hown.aligned g hg.1
  · exact fun g hg g' hg' => hown.apart g hg.1 g' hg'.1

/-- A large block is never recycled, so freeing it changes the counter at most. -/
theorem regions_free_large (m : Manager) (hbig : 8192 < h.size.toNat) :
    (m.free h).2.regions = m.regions := by
  simp only [free]
  split
  · rfl
  · rename_i reg hreg
    split
    · rfl
    · have hcls := sizeClass_large.mpr hbig
      obtain ⟨hlt, rfl⟩ := List.getElem?_eq_some_iff.mp hreg
      simp only [Allocator.free, if_pos hcls]
      exact List.set_getElem_self hlt

theorem owns_free_large (hown : m.Owns L) (hbig : 8192 < h.size.toNat) :
    (m.free h).2.Owns L := by
  have hregions := regions_free_large m hbig
  have hcurrent : (m.free h).2.currentIdx = m.currentIdx ∧ (m.free h).2.size = m.size := by
    simp only [free]
    split
    · exact ⟨rfl, rfl⟩
    · split <;> exact ⟨rfl, rfl⟩
  obtain ⟨⟨hcur, hfew, hreg⟩, hheld, haligned, hapart⟩ := hown
  refine ⟨⟨?_, ?_, ?_⟩, ?_, haligned, hapart⟩
  · rw [hregions, hcurrent.1]
    exact hcur
  · rw [hregions]
    exact hfew
  · rw [hregions, hcurrent.2]
    exact hreg
  · rw [hregions]
    exact hheld

/-- A write through a view moves no block. -/
theorem owns_poke (hown : m.Owns L) (h : Handle) (off : Nat) (bytes : Bytes) :
    (m.poke h off bytes).Owns L :=
  (sameRoom_poke m h off bytes).owns (hown.wf.bounded.poke h off bytes).1 hown

/-- It is seen by no other owner. -/
theorem Owns.view_poke (hown : m.Owns L) (hh : h ∈ L) (hg : g ∈ L) (hne : g ≠ h) {off : Nat}
    {bytes : Bytes} (hfit : off + bytes.length ≤ h.size.toNat) :
    (m.poke h off bytes).view g = m.view g := by
  unfold poke
  split
  · rfl
  · rename_i reg hreg
    have hlt := (List.getElem?_eq_some_iff.mp hreg).1
    by_cases hi : h.region.toNat = g.region.toNat
    · have hapart := hown.apart g hg h hh hne (UInt8.toNat_inj.mp hi.symm)
      have hpay := h.payload_le
      have hpay' := g.payload_le
      simp only [Extent.Disjoint, Extent.stop, Handle.block] at hapart hpay hpay'
      have hread : (reg.data.write (h.offset.toNat + off) bytes).read g.offset.toNat g.size.toNat =
          reg.data.read g.offset.toNat g.size.toNat :=
        Cells.read_write_of_disjoint _ _ _ (by omega)
      rw [hi] at hreg hlt ⊢
      simp only [Manager.view, List.getElem?_set_self hlt, hreg, Cells.size_write, hread]
    · simp only [Manager.view, List.getElem?_set_ne hi]

theorem liveObjs_poke (m : Manager) (h : Handle) (off : Nat) (bytes : Bytes) :
    (m.poke h off bytes).liveObjs = m.liveObjs := by
  unfold poke
  split <;> rfl

end Manager

end Horreum.Arena
