/-
  Arena/Bounds.lean --- what holds of an arena however its handles are used.

  `Bounded`: every free block is aligned and lies inside its region; `Within`: so does the block of
  a handle.  A block may be on a freelist twice, or be free and still referred to.  The operations
  keep both as long as only handles that were handed out are given back, and none of them panics.
-/
import Horreum.Arena.Manager
import Horreum.Foundation.Slots

set_option autoImplicit false

namespace Horreum.Arena

open Foundation

/-- The block a handle stands for, padding included. -/
def Handle.block (h : Handle) : Extent := ⟨h.offset.toNat, blockLen h.size.toNat⟩

theorem Handle.block_len_pos (h : Handle) : 8 ≤ h.block.len := blockLen_pos _

theorem Handle.payload_le (h : Handle) : h.offset.toNat + h.size.toNat ≤ h.block.stop := by
  have := le_blockLen h.size.toNat
  simp only [Handle.block, Extent.stop]
  omega

/-! ## One region -/

namespace Allocator

variable {a a' : Allocator}

/-- The free blocks are aligned and inside the region. -/
structure Bounded (a : Allocator) : Prop where
  aligned : ∀ e, a.Free e → 8 ∣ e.off
  inside : ∀ e, a.Free e → e.stop ≤ a.size

theorem Wf.bounded (h : a.Wf) : a.Bounded := ⟨h.aligned, fun e he => (h.below e he).2⟩

theorem Bounded.anti (h : a.Bounded) (hfree : ∀ e, a'.Free e → a.Free e)
    (hsize : a'.size = a.size) : a'.Bounded :=
  ⟨fun e he => h.aligned e (hfree e he), fun e he => hsize ▸ h.inside e (hfree e he)⟩

theorem free_of_pop {c off : Nat} {next : List Nat} (hfl : a.fl c = off :: next) {e : Extent}
    (he : ({ a with fl := Function.update a.fl c next } : Allocator).Free e) : a.Free e := by
  obtain ⟨c', hc', hlen, hmem⟩ := he
  refine ⟨c', hc', hlen, ?_⟩
  by_cases hcc : c' = c
  · subst hcc
    simp only [Function.update_self] at hmem
    rw [hfl]
    exact List.mem_cons_of_mem off hmem
  · simpa only [Function.update_of_ne hcc] using hmem

/-- What is handed out is aligned and inside the region. -/
theorem Bounded.alloc {n off : Nat} (h : a.Bounded) (halloc : a.alloc n = some (off, a')) :
    8 ∣ off ∧ off + blockLen n ≤ a.size ∧ a'.Bounded := by
  obtain ⟨next, hc, hfl, rfl⟩ | ⟨rfl, hfit, rfl⟩ := alloc_cases halloc
  · have hhead := free_head hc hfl
    exact ⟨h.aligned _ hhead, h.inside _ hhead, h.anti (fun _ he => free_of_pop hfl he) rfl⟩
  · exact ⟨dvd_alignUp _, hfit, h.anti (fun _ he => he) rfl⟩

/-- Giving back a block, be it free already. -/
theorem Bounded.free {off n : Nat} (h : a.Bounded) (halign : 8 ∣ off)
    (hin : off + blockLen n ≤ a.size) : (a.free off n).Bounded := by
  simp only [Allocator.free]
  split
  · exact h
  · rename_i hcls
    have hc : sizeClass n < numSizeClasses - 1 := Nat.lt_of_not_le hcls
    have hblock : blockLen n = classSize (sizeClass n) := if_pos hc
    have hiff := free_push_iff a off hc
    refine ⟨fun e he => ?_, fun e he => ?_⟩
    · rcases (hiff e).mp he with he | rfl
      · exact h.aligned e he
      · exact halign
    · rcases (hiff e).mp he with he | rfl
      · exact h.inside e he
      · exact hblock ▸ hin

end Allocator

/-- The shape every region of a manager has. -/
structure Region.Bounded (size : Nat) (r : Region) : Prop where
  alloc : r.alloc.Bounded
  allocSize : r.alloc.size = size % 2 ^ 32
  dataSize : r.data.size = size
  metaSize : r.metas.size = size % 2 ^ 32 / alignBytes

namespace Manager

variable {m m' : Manager} {h g : Handle} {reg : Region}

/-- Every region keeps its bounds. -/
structure Bounded (m : Manager) : Prop where
  current : m.currentIdx < m.regions.length
  few : m.regions.length ≤ 256
  region : ∀ (i : Nat) (r : Region), m.regions[i]? = some r → r.Bounded m.size

/-- The block of the handle is aligned and inside a region. -/
structure Within (m : Manager) (h : Handle) : Prop where
  region : h.region.toNat < m.regions.length
  aligned : 8 ∣ h.offset.toNat
  inside : h.block.stop ≤ m.size % 2 ^ 32

/-- Regions are only ever added. -/
structure Grows (m m' : Manager) : Prop where
  size : m'.size = m.size
  regions : m.regions.length ≤ m'.regions.length

theorem Grows.refl (m : Manager) : Grows m m := ⟨rfl, Nat.le_refl _⟩

theorem Grows.trans {m'' : Manager} (h : Grows m m') (h' : Grows m' m'') : Grows m m'' :=
  ⟨h'.size.trans h.size, h.regions.trans h'.regions⟩

theorem Within.mono (hw : m.Within h) (hg : Grows m m') : m'.Within h :=
  ⟨hw.region.trans_le hg.regions, hw.aligned, hg.size ▸ hw.inside⟩

/-- The region of a handle, with room for its block and its meta word. -/
theorem Within.get_region (hw : m.Within h) (hm : m.Bounded) :
    ∃ r, m.regions[h.region.toNat]? = some r ∧ r.Bounded m.size ∧
      h.block.stop ≤ r.data.size ∧ h.offset.toNat / alignBytes < r.metas.size := by
  obtain ⟨r, hr⟩ : ∃ r, m.regions[h.region.toNat]? = some r :=
    ⟨_, List.getElem?_eq_getElem hw.region⟩
  have hb := hm.region _ r hr
  have hin := hw.inside
  have hpos := h.block_len_pos
  have hmod := Nat.mod_le m.size (2 ^ 32)
  obtain ⟨k, hk⟩ := hw.aligned
  refine ⟨r, hr, hb, by rw [hb.dataSize]; omega, ?_⟩
  rw [hb.metaSize]
  simp only [Extent.stop, Handle.block, alignBytes] at *
  omega

theorem Within.view (hw : m.Within h) (hm : m.Bounded) :
    ∃ r, m.regions[h.region.toNat]? = some r ∧
      m.view h = some (.ok (r.data.read h.offset.toNat h.size.toNat)) := by
  obtain ⟨r, hr, _, hstop, _⟩ := hw.get_region hm
  have hpay := h.payload_le
  have hpos := h.block_len_pos
  refine ⟨r, hr, ?_⟩
  simp only [Extent.stop, Handle.block] at hstop hpay hpos
  simp only [Manager.view, hr]
  rw [if_neg (by omega), if_neg (by omega)]

theorem Within.view_ok (hw : m.Within h) (hm : m.Bounded) :
    ∃ bytes, m.view h = some (.ok bytes) ∧ bytes.length = h.size.toNat := by
  obtain ⟨r, _, hview⟩ := hw.view hm
  exact ⟨_, hview, by simp⟩

/-- What a view shows is a matter of the bytes. -/
theorem view_congr (h : m'.regions.map Region.data = m.regions.map Region.data) (g : Handle) :
    m'.view g = m.view g := by
  have hat := congrArg (·[g.region.toNat]?) h
  simp only [List.getElem?_map] at hat
  unfold Manager.view
  cases hr : m.regions[g.region.toNat]? <;>
    cases hr' : m'.regions[g.region.toNat]? <;> simp_all

/-! ## Meta words -/

/-- Where the meta word of a handle is. -/
def wordOf (h : Handle) : Nat × Nat := (h.region.toNat, h.offset.toNat / alignBytes)

/-- The handle has a meta word. -/
def hasWord (m : Manager) (h : Handle) : Bool :=
  (m.regions[h.region.toNat]?).any fun reg => decide (h.offset.toNat / alignBytes < reg.metas.size)

/-- The meta word at a place. -/
def word (m : Manager) (w : Nat × Nat) : Option UInt16 :=
  (m.regions[w.1]?).map fun r => r.metas.get w.2

theorem hasWord_iff : m.hasWord h = true ↔
    ∃ reg, m.regions[h.region.toNat]? = some reg ∧ h.offset.toNat / alignBytes < reg.metas.size := by
  simp [hasWord, Option.any_eq_true]

theorem Within.hasWord (hw : m.Within h) (hm : m.Bounded) : m.hasWord h = true := by
  obtain ⟨r, hr, _, _, hlt⟩ := hw.get_region hm
  exact hasWord_iff.mpr ⟨r, hr, hlt⟩

theorem getMeta_eq (m : Manager) (h : Handle) :
    m.getMeta h = if m.hasWord h then (m.word (wordOf h)).getD 0 else 0 := by
  unfold getMeta Manager.hasWord word wordOf
  cases m.regions[h.region.toNat]? with
  | none => rfl
  | some reg =>
    by_cases hlt : h.offset.toNat / alignBytes < reg.metas.size
    · simp [hlt, Nat.not_le.mpr hlt]
    · simp [hlt, Nat.le_of_not_lt hlt]

theorem word_eq (hw : m.hasWord h = true) : m.word (wordOf h) = some (m.getMeta h) := by
  obtain ⟨reg, hreg, _⟩ := hasWord_iff.mp hw
  rw [getMeta_eq, if_pos hw]
  simp only [word, wordOf, hreg, Option.map_some, Option.getD_some]

theorem getMeta_wordOf (heq : wordOf g = wordOf h) : m.getMeta g = m.getMeta h := by
  obtain ⟨hreg, hidx⟩ := Prod.mk.inj heq
  simp only [getMeta, hreg, hidx]

/-- The words are a matter of the meta tables. -/
theorem word_congr (h : m'.regions.map Region.metas = m.regions.map Region.metas) (w : Nat × Nat) :
    m'.word w = m.word w := by
  have hat := congrArg (fun l => (l[w.1]?).map fun c => c.get w.2) h
  simp only [List.getElem?_map, Option.map_map] at hat
  exact hat

theorem getMeta_congr (h : m'.regions.map Region.metas = m.regions.map Region.metas) (g : Handle) :
    m'.getMeta g = m.getMeta g := by
  have hat := congrArg (·[g.region.toNat]?) h
  simp only [List.getElem?_map] at hat
  unfold getMeta
  cases hr : m.regions[g.region.toNat]? <;>
    cases hr' : m'.regions[g.region.toNat]? <;> simp_all

theorem modifyMeta_of_hasWord (hw : m.hasWord h = false) (f : UInt16 → UInt16) :
    m.modifyMeta h f = m := by
  unfold modifyMeta
  unfold Manager.hasWord at hw
  cases hreg : m.regions[h.region.toNat]? with
  | none => rfl
  | some reg =>
    rw [hreg, Option.any_some, decide_eq_false_iff_not, Nat.not_lt] at hw
    exact if_pos hw

theorem modifyMeta_self {f : UInt16 → UInt16} (hf : ∀ w, f w = w) : m.modifyMeta h f = m := by
  unfold modifyMeta
  split
  · rfl
  · rename_i reg hreg
    obtain ⟨hlt, rfl⟩ := List.getElem?_eq_some_iff.mp hreg
    simp only [hf, Cells.set_get_self]
    split
    · rfl
    · change { m with regions := m.regions.set h.region.toNat m.regions[h.region.toNat] } = m
      rw [List.set_getElem_self]

theorem modifyMeta_modifyMeta (m : Manager) (h : Handle) (f g : UInt16 → UInt16) :
    (m.modifyMeta h f).modifyMeta h g = m.modifyMeta h fun w => g (f w) := by
  cases hw : m.hasWord h with
  | false => rw [modifyMeta_of_hasWord hw, modifyMeta_of_hasWord hw, modifyMeta_of_hasWord hw]
  | true =>
    obtain ⟨reg, hreg, hlt⟩ := hasWord_iff.mp hw
    have hin := (List.getElem?_eq_some_iff.mp hreg).1
    simp only [modifyMeta, hreg, ge_iff_le, if_neg (Nat.not_le.mpr hlt), List.getElem?_set_self hin,
      Cells.size_set, Cells.get_set, if_true, List.set_set, Cells.set_set]

/-! ## Put -/

/-- The manager after the new value and its cleared meta word are in place. -/
def placed (m : Manager) (h : Handle) (reg : Region) (alloc : Allocator) (value : Bytes) :
    Manager :=
  { m with
    regions := m.regions.set h.region.toNat
      ⟨reg.data.write h.offset.toNat value, alloc,
        reg.metas.set (h.offset.toNat / alignBytes) 0⟩
    liveObjs := m.liveObjs + 1 }

theorem regions_placed_self (alloc : Allocator) (hreg : m.regions[h.region.toNat]? = some reg)
    (value : Bytes) :
    (m.placed h reg alloc value).regions[h.region.toNat]? =
      some ⟨reg.data.write h.offset.toNat value, alloc,
        reg.metas.set (h.offset.toNat / alignBytes) 0⟩ := by
  simp [placed, (List.getElem?_eq_some_iff.mp hreg).1]

theorem regions_placed_other (m : Manager) (reg : Region) (alloc : Allocator) (value : Bytes)
    {i : Nat} (hi : i ≠ h.region.toNat) :
    (m.placed h reg alloc value).regions[i]? = m.regions[i]? := by
  simp [placed, List.getElem?_set_ne (Ne.symm hi)]

theorem getMeta_placed (alloc : Allocator) (hreg : m.regions[h.region.toNat]? = some reg)
    (value : Bytes) :
    (m.placed h reg alloc value).getMeta h = 0 := by
  simp only [getMeta, regions_placed_self alloc hreg value, Cells.get_set, if_true]
  split <;> rfl

theorem word_placed {alloc : Allocator} (hreg : m.regions[h.region.toNat]? = some reg)
    (value : Bytes) (w : Nat × Nat) :
    (m.placed h reg alloc value).word w = if w = wordOf h then some 0 else m.word w := by
  simp only [word, placed, getElem?_set_of_some hreg, wordOf, Prod.ext_iff]
  by_cases hi : w.1 = h.region.toNat
  · simp only [hi, if_true, hreg, Option.map_some, Cells.get_set, true_and]
    split <;> rfl
  · simp only [hi, if_false, false_and]

/-- Region `reg` of `m` hands out the block of `h` and has allocator `alloc` from now on. -/
structure Allots (m : Manager) (h : Handle) (reg : Region) (alloc : Allocator) : Prop where
  region : m.regions[h.region.toNat]? = some reg
  alloc : reg.alloc.alloc h.size.toNat = some (h.offset.toNat, alloc)

theorem install_placed {i n off : Nat} {alloc : Allocator} (value : Bytes) (hm : m.Bounded)
    (hreg : m.regions[i]? = some reg)
    (halloc : reg.alloc.alloc n = some (off, alloc)) (hn : n < 2 ^ 32) :
    ∃ h : Handle, h.region.toNat = i ∧ h.offset.toNat = off ∧ h.size.toNat = n ∧
      h.metaWord = 0 ∧
      m.install i { reg with alloc := alloc } off n value =
        some (.ok h, m.placed h reg alloc (value.take n)) := by
  have hb := hm.region i reg hreg
  have hi : i < 256 :=
    Nat.lt_of_lt_of_le (List.getElem?_eq_some_iff.mp hreg).1 hm.few
  obtain ⟨⟨k, hk⟩, hin, _⟩ := hb.alloc.alloc halloc
  rw [hb.allocSize] at hin
  have hpos := blockLen_pos n
  have hle := le_blockLen n
  have hmod := Nat.mod_lt m.size (y := 2 ^ 32) (by decide)
  have hmod' := Nat.mod_le m.size (2 ^ 32)
  have hreg8 : (UInt8.ofNat i).toNat = i := UInt8.toNat_ofNat_of_lt' hi
  have hoff32 : (UInt32.ofNat off).toNat = off := by
    refine UInt32.toNat_ofNat_of_lt' ?_
    simp only [UInt32.size]
    omega
  have hsize32 : (UInt32.ofNat n).toNat = n := UInt32.toNat_ofNat_of_lt' hn
  have hword : off / alignBytes < reg.metas.size := by
    rw [hb.metaSize]
    simp only [alignBytes]
    omega
  refine ⟨⟨UInt32.ofNat off, UInt32.ofNat n, 0, UInt8.ofNat i⟩, hreg8, hoff32, hsize32, rfl, ?_⟩
  simp only [install, Region.store, placed, hreg8, hoff32]
  rw [if_pos ⟨by rw [hb.dataSize]; omega, hword⟩]
  rfl

theorem addRegion_getElem? (m : Manager) (i : Nat) :
    m.addRegion.regions[i]? =
      if i = m.regions.length then some (newRegion m.size) else m.regions[i]? := by
  simp only [addRegion, List.getElem?_append]
  split
  · rw [if_neg (by omega)]
  · split
    · simp_all
    · rw [List.getElem?_eq_none (by simp; omega), List.getElem?_eq_none (by omega)]

theorem bounded_newRegion (size : Nat) : (newRegion size).Bounded size :=
  ⟨(Allocator.wf_init _ 0).bounded, rfl, rfl, rfl⟩

theorem Bounded.addRegion (hm : m.Bounded) (hroom : m.regions.length < 256) :
    m.addRegion.Bounded := by
  refine ⟨by simp [Manager.addRegion], by simp [Manager.addRegion]; omega, ?_⟩
  exact forall_concat hm.region (bounded_newRegion m.size)

theorem grows_addRegion (m : Manager) : Grows m m.addRegion :=
  ⟨rfl, by simp [Manager.addRegion]⟩

/-- Everything a `Put` can do: a failure leaves the regions that were there, and a success stores
into the current region or into the one just added. -/
inductive Puts (m : Manager) (value : Bytes) : Except Error Handle → Manager → Prop
  | kept (e : Error) : Puts m value (.error e) m
  | added (e : Error) (hroom : m.regions.length < 256) : Puts m value (.error e) m.addRegion
  | placed (h : Handle) (reg : Region) (alloc : Allocator) (m₀ : Manager)
      (hm₀ : m₀ = m ∧ h.region.toNat = m.currentIdx ∨
        m.regions.length < 256 ∧ m₀ = m.addRegion ∧ h.region.toNat = m.regions.length)
      (ha : Allots m₀ h reg alloc) (hsize : h.size.toNat = value.length % 2 ^ 32)
      (hword : h.metaWord = 0) :
      Puts m value (.ok h) (m₀.placed h reg alloc (value.take (value.length % 2 ^ 32)))

/-- Whether `Put` finds room for a value of `n` bytes. -/
def takes (m : Manager) (n : Nat) (mmapOk : Bool) : Bool :=
  n ≤ maxObjectSize &&
    ((m.regions[m.currentIdx]?.map Region.alloc).any (fun a => (a.alloc n).isSome) ||
      m.regions.length < 256 && mmapOk && ((newRegion m.size).alloc.alloc n).isSome)

/-- It never panics, and succeeds where it finds room. -/
theorem Bounded.put_cases (hm : m.Bounded) (value : Bytes) (mmapOk : Bool) :
    ∃ res m', m.put value mmapOk = some (res, m') ∧ Puts m value res m' ∧
      res.isOk = m.takes (value.length % 2 ^ 32) mmapOk := by
  have hn : value.length % 2 ^ 32 < 2 ^ 32 := Nat.mod_lt _ (by decide)
  obtain ⟨reg, hreg⟩ : ∃ reg, m.regions[m.currentIdx]? = some reg :=
    ⟨_, List.getElem?_eq_getElem hm.current⟩
  simp only [put, takes, hreg, Option.map_some, Option.any_some]
  split
  · rename_i hbig
    exact ⟨_, _, rfl, .kept _, by rw [decide_eq_false (Nat.not_le.mpr hbig)]; rfl⟩
  · rename_i hsmall
    simp only [Nat.le_of_not_lt hsmall, decide_true, Bool.true_and, Option.bind_eq_bind,
      Option.bind_some]
    cases halloc : reg.alloc.alloc (value.length % 2 ^ 32) with
    | some res =>
      obtain ⟨h, hi, hoff, hsize, hword, hins⟩ := install_placed value hm hreg halloc hn
      refine ⟨_, _, hins, .placed h reg _ m (.inl ⟨rfl, hi⟩) ⟨?_, ?_⟩ hsize hword, rfl⟩
      · rw [hi]
        exact hreg
      · rw [hoff, hsize]
        exact halloc
    | none =>
      simp only [putSlow, hreg, Option.bind_eq_bind, Option.bind_some, halloc,
        Option.isSome_none, Bool.false_or]
      split
      · rename_i hfull
        exact ⟨_, _, rfl, .kept _, by rw [decide_eq_false (Nat.not_lt.mpr hfull)]; rfl⟩
      · rename_i hroom
        have hroom : m.regions.length < 256 := Nat.lt_of_not_le hroom
        simp only [hroom, decide_true, Bool.true_and]
        cases mmapOk with
        | false => exact ⟨_, _, rfl, .kept _, rfl⟩
        | true =>
          have hsize : m.addRegion.size = m.size := rfl
          simp only [hsize, Bool.not_true, Bool.false_eq_true, if_false, Bool.true_and]
          cases hnew : (newRegion m.size).alloc.alloc (value.length % 2 ^ 32) with
          | none => exact ⟨_, _, rfl, .added _ hroom, rfl⟩
          | some res =>
            have hlast : m.addRegion.regions[m.regions.length]? = some (newRegion m.size) := by
              rw [addRegion_getElem?, if_pos rfl]
            obtain ⟨h, hi, hoff, hsize, hword, hins⟩ :=
              install_placed value (hm.addRegion hroom) hlast hnew hn
            refine ⟨_, _, hins, .placed h _ _ _ (.inr ⟨hroom, rfl, hi⟩) ⟨?_, ?_⟩ hsize hword, rfl⟩
            · rw [hi]
              exact hlast
            · rw [hoff, hsize]
              exact hnew

theorem Bounded.puts (hm : m.Bounded) {value : Bytes} {mmapOk : Bool} {res : Except Error Handle}
    (hput : m.put value mmapOk = some (res, m')) : Puts m value res m' := by
  obtain ⟨_, _, hput', hcase, _⟩ := hm.put_cases value mmapOk
  cases hput.symm.trans hput'
  exact hcase

namespace Allots

variable {reg : Region} {alloc : Allocator} {value : Bytes}

theorem within (ha : Allots m h reg alloc) (hm : m.Bounded) : m.Within h := by
  have hb := hm.region _ reg ha.region
  obtain ⟨halign, hin, _⟩ := hb.alloc.alloc ha.alloc
  exact ⟨(List.getElem?_eq_some_iff.mp ha.region).1, halign, hb.allocSize ▸ hin⟩

theorem grows (m : Manager) (h : Handle) (reg : Region) (alloc : Allocator) (value : Bytes) :
    Grows m (m.placed h reg alloc value) :=
  ⟨rfl, by simp [placed]⟩

theorem bounded (ha : Allots m h reg alloc) (hm : m.Bounded) (value : Bytes) :
    (m.placed h reg alloc value).Bounded := by
  have hb := hm.region _ reg ha.region
  refine ⟨by simpa [placed] using hm.current, by simpa [placed] using hm.few, ?_⟩
  exact forall_set hm.region ⟨(hb.alloc.alloc ha.alloc).2.2,
    (Allocator.alloc_size ha.alloc).trans hb.allocSize, hb.dataSize, hb.metaSize⟩

theorem view_new (ha : Allots m h reg alloc) (hm : m.Bounded)
    (hsize : h.size.toNat = value.length) :
    (m.placed h reg alloc value).view h = some (.ok value) := by
  obtain ⟨r, hr, hview⟩ :=
    ((ha.within hm).mono (grows m h reg alloc value)).view (ha.bounded hm value)
  rw [regions_placed_self alloc ha.region value] at hr
  cases hr
  rw [hview, hsize, Cells.read_write]

end Allots

theorem addRegion_old (hlt : g.region.toNat < m.regions.length) :
    m.addRegion.view g = m.view g ∧ m.addRegion.getMeta g = m.getMeta g := by
  have hreg : m.addRegion.regions[g.region.toNat]? = m.regions[g.region.toNat]? := by
    rw [addRegion_getElem?, if_neg (by omega)]
  simp only [Manager.view, getMeta, hreg, and_self]

/-- `Put` in a bounded arena: it returns, and either stores the value or leaves what every
handle sees as it was. -/
theorem Bounded.put (hm : m.Bounded) (value : Bytes) (mmapOk : Bool) :
    ∃ res m', m.put value mmapOk = some (res, m') ∧ m'.Bounded ∧ Grows m m' ∧
      match res with
      | .ok h => m'.Within h ∧ m'.getMeta h = 0 ∧
          m'.view h = some (.ok (value.take (value.length % 2 ^ 32)))
      | .error _ => ∀ g, m.Within g → m'.view g = m.view g ∧ m'.getMeta g = m.getMeta g := by
  obtain ⟨res, m', hput, hcase, _⟩ := hm.put_cases value mmapOk
  refine ⟨res, m', hput, ?_⟩
  rcases hcase with _ | ⟨_, hroom⟩ | ⟨h, reg, alloc, m₀, hm₀, ha, hsize, _⟩
  · exact ⟨hm, Grows.refl _, fun _ _ => ⟨rfl, rfl⟩⟩
  · exact ⟨hm.addRegion hroom, grows_addRegion m, fun g hg => addRegion_old hg.region⟩
  · have hlen : h.size.toNat = (value.take (value.length % 2 ^ 32)).length := by
      rw [hsize, List.length_take, Nat.min_eq_left (Nat.mod_le _ _)]
    obtain ⟨hb, hg⟩ : m₀.Bounded ∧ Grows m m₀ := by
      rcases hm₀ with ⟨rfl, _⟩ | ⟨hroom, rfl, _⟩
      · exact ⟨hm, Grows.refl _⟩
      · exact ⟨hm.addRegion hroom, grows_addRegion m⟩
    have hgrow := Allots.grows m₀ h reg alloc (value.take (value.length % 2 ^ 32))
    exact ⟨ha.bounded hb _, hg.trans hgrow, (ha.within hb).mono hgrow, getMeta_placed alloc ha.region _,
      ha.view_new hb hlen⟩

theorem Bounded.put_ok (hm : m.Bounded) {value : Bytes} {mmapOk : Bool}
    (hput : m.put value mmapOk = some (.ok h, m')) :
    m'.Bounded ∧ Grows m m' ∧ m'.Within h ∧ m'.getMeta h = 0 := by
  obtain ⟨_, _, hput', hb, hg, hspec⟩ := hm.put value mmapOk
  cases hput.symm.trans hput'
  exact ⟨hb, hg, hspec.1, hspec.2.1⟩

theorem Bounded.put_ok_iff (hm : m.Bounded) (value : Bytes) (mmapOk : Bool) :
    (∃ h m', m.put value mmapOk = some (.ok h, m')) ↔
      m.takes (value.length % 2 ^ 32) mmapOk = true := by
  obtain ⟨res, m', hput, _, htakes⟩ := hm.put_cases value mmapOk
  rw [hput, ← htakes]
  cases res <;> simp [Except.isOk, Except.toBool]

/-! ## The other operations -/

/-- The same allocators. -/
structure SameRoom (m m' : Manager) : Prop where
  currentIdx : m'.currentIdx = m.currentIdx
  size : m'.size = m.size
  allocs : m'.regions.map Region.alloc = m.regions.map Region.alloc

theorem SameRoom.trans {m'' : Manager} (h : SameRoom m m') (h' : SameRoom m' m'') :
    SameRoom m m'' :=
  ⟨h'.currentIdx.trans h.currentIdx, h'.size.trans h.size, h'.allocs.trans h.allocs⟩

theorem SameRoom.takes (h : SameRoom m m') (n : Nat) (mmapOk : Bool) :
    m'.takes n mmapOk = m.takes n mmapOk := by
  have hlen : m'.regions.length = m.regions.length := by
    simpa using congrArg List.length h.allocs
  have hcur : m'.regions[m'.currentIdx]?.map Region.alloc =
      m.regions[m.currentIdx]?.map Region.alloc := by
    rw [← List.getElem?_map, ← List.getElem?_map, h.allocs, h.currentIdx]
  simp only [Manager.takes, hcur, hlen, h.size]

theorem Bounded.set_region (hm : m.Bounded) {i : Nat} {r : Region} (hr : r.Bounded m.size)
    (liveObjs : UInt64) :
    ({ m with regions := m.regions.set i r, liveObjs := liveObjs } : Manager).Bounded :=
  ⟨by simpa using hm.current, by simpa using hm.few, forall_set hm.region hr⟩

theorem Bounded.free (hm : m.Bounded) (hw : m.Within h) :
    (m.free h).2.Bounded ∧ Grows m (m.free h).2 := by
  obtain ⟨reg, hreg, hb, hstop, _⟩ := hw.get_region hm
  have hpay := h.payload_le
  simp only [Manager.free, hreg]
  rw [if_neg (by omega)]
  have hfreed : Region.Bounded m.size
      { reg with alloc := reg.alloc.free h.offset.toNat h.size.toNat } :=
    ⟨hb.alloc.free hw.aligned (hb.allocSize ▸ hw.inside),
      (Allocator.free_size _ _ _).trans hb.allocSize, hb.dataSize, hb.metaSize⟩
  exact ⟨hm.set_region hfreed _, rfl, by simp⟩

theorem Within.liveObjs_free (hw : m.Within h) (hm : m.Bounded) :
    (m.free h).2.liveObjs = m.liveObjs - 1 := by
  obtain ⟨reg, hreg, _, hstop, _⟩ := hw.get_region hm
  have hpay := h.payload_le
  simp only [Manager.free, hreg]
  rw [if_neg (by omega)]

theorem Bounded.freeAll : ∀ {hs : List Handle} {m : Manager}, m.Bounded → (∀ g ∈ hs, m.Within g) →
    (m.freeAll hs).Bounded ∧ Grows m (m.freeAll hs)
  | [], m, hm, _ => ⟨hm, Grows.refl m⟩
  | g :: hs, m, hm, hw => by
    obtain ⟨hm', hg⟩ := hm.free (hw g List.mem_cons_self)
    obtain ⟨hrest, hgrow⟩ :=
      Bounded.freeAll hm' fun g' hg' => (hw g' (List.mem_cons_of_mem g hg')).mono hg
    exact ⟨hrest, hg.trans hgrow⟩

theorem Bounded.poke (hm : m.Bounded) (h : Handle) (off : Nat) (bytes : Bytes) :
    (m.poke h off bytes).Bounded ∧ Grows m (m.poke h off bytes) := by
  unfold Manager.poke
  split
  · exact ⟨hm, Grows.refl m⟩
  · rename_i reg hreg
    have hb := hm.region _ reg hreg
    have hpoked : Region.Bounded m.size
        { reg with data := reg.data.write (h.offset.toNat + off) bytes } :=
      ⟨hb.alloc, hb.allocSize, hb.dataSize, hb.metaSize⟩
    exact ⟨hm.set_region hpoked _, rfl, by simp⟩

theorem metas_poke (m : Manager) (h : Handle) (off : Nat) (bytes : Bytes) :
    (m.poke h off bytes).regions.map Region.metas = m.regions.map Region.metas := by
  unfold Manager.poke
  split
  · rfl
  · rename_i hreg
    exact map_set_same hreg rfl

theorem getMeta_poke (m : Manager) (h g : Handle) (off : Nat) (bytes : Bytes) :
    (m.poke h off bytes).getMeta g = m.getMeta g :=
  getMeta_congr (metas_poke m h off bytes) g

theorem Within.view_poke (hw : m.Within h) (hm : m.Bounded) {raw bytes : Bytes} {off : Nat}
    (hview : m.view h = some (.ok raw)) (hfit : off + bytes.length ≤ raw.length) :
    (m.poke h off bytes).view h =
      some (.ok (raw.take off ++ bytes ++ raw.drop (off + bytes.length))) := by
  obtain ⟨hb, hg⟩ := hm.poke h off bytes
  obtain ⟨r', hr', hview'⟩ := (hw.mono hg).view hb
  obtain ⟨r, hr, hview₀⟩ := hw.view hm
  cases hview.symm.trans hview₀
  rw [Cells.length_read] at hfit
  obtain rfl : { r with data := r.data.write (h.offset.toNat + off) bytes } = r' := by
    have hset : (m.poke h off bytes).regions[h.region.toNat]? =
        some { r with data := r.data.write (h.offset.toNat + off) bytes } := by
      simp only [Manager.poke, hr, List.getElem?_set_self hw.region]
    exact Option.some.inj (hset.symm.trans hr')
  rw [hview', Cells.read_write_inside _ hfit]

theorem slice_read (c : Cells UInt8) {off n k m : Nat} (h : k + m ≤ n) :
    slice (c.read off n) k (k + m) = c.read (off + k) m := by
  obtain ⟨r, rfl⟩ := Nat.exists_eq_add_of_le h
  rw [Cells.read_add, Cells.read_add, List.append_assoc]
  exact slice_append (Cells.length_read c off k) (by simp)

theorem view_poke_same {r : Region} {off : Nat} {bytes : Bytes}
    (hr : m.regions[h.region.toNat]? = some r)
    (hsame : r.data.read (h.offset.toNat + off) bytes.length = bytes) (g : Handle) :
    (m.poke h off bytes).view g = m.view g := by
  have hlt := (List.getElem?_eq_some_iff.mp hr).1
  simp only [Manager.poke, hr]
  by_cases hi : h.region.toNat = g.region.toNat
  · rw [hi] at hr hlt ⊢
    have hread : (r.data.write (h.offset.toNat + off) bytes).read g.offset.toNat g.size.toNat =
        r.data.read g.offset.toNat g.size.toNat :=
      Cells.read_congr fun i _ _ => Cells.get_write_same hsame i
    simp only [Manager.view, List.getElem?_set_self hlt, hr, Cells.size_write, hread]
  · simp only [Manager.view, List.getElem?_set_ne hi]

theorem sameRoom_poke (m : Manager) (h : Handle) (off : Nat) (bytes : Bytes) :
    SameRoom m (m.poke h off bytes) := by
  unfold Manager.poke
  split
  · exact ⟨rfl, rfl, rfl⟩
  · rename_i hreg
    exact ⟨rfl, rfl, map_set_same hreg rfl⟩

end Manager

end Horreum.Arena
