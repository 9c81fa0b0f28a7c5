/-
  Eviction/Restores.lean --- when `Put`, `Add` and `Free` leave the arena as it was.

  A `Put` is undone by a single `Free`, of the block that it has taken off a freelist, where the bytes
  and the meta word of the block come out as they were.  `Add` writes to one word, that of the new
  handle or of the head of a full queue, unless it keeps the head, whose frequency it then lowers.
-/
import Horreum.Arena.Exhaustion
import Horreum.Eviction.HotKeys
import Horreum.Foundation.Slots

set_option autoImplicit false

namespace Horreum.Arena

open Foundation

namespace Allocator

variable {a a' : Allocator} {n off : Nat}

/-- The block of `size` bytes at `o` is what a value of `n` bytes gets next. -/
def Tops (a : Allocator) (n o size : Nat) : Prop :=
  sizeClass size = sizeClass n ∧ sizeClass n < numSizeClasses - 1 ∧
    (a.fl (sizeClass n)).head? = some o

theorem ne_of_alloc (h : a.alloc n = some (off, a')) : a' ≠ a := by
  rintro rfl
  obtain ⟨next, _, hfl, heq⟩ | ⟨rfl, _, heq⟩ := alloc_cases h
  · have hlen := congrArg (fun b => (b.fl (sizeClass n)).length) heq
    simp [hfl] at hlen
  · have hoff := congrArg Allocator.offset heq
    have hle := le_alignUp a'.offset
    have hpos := blockLen_pos n
    dsimp only at hoff
    omega

theorem Tops.offset_eq {o size : Nat} (ht : a.Tops n o size) (h : a.alloc n = some (off, a')) :
    o = off := by
  obtain ⟨_, hc, hhead⟩ := ht
  obtain ⟨next, hfl⟩ := List.head?_eq_some_iff.mp hhead
  rw [alloc_eq, if_pos hc, hfl] at h
  exact congrArg Prod.fst (Option.some.inj h)

/-- Giving back a block undoes an allocation. -/
theorem free_alloc_iff (h : a.alloc n = some (off, a')) (o size : Nat) :
    a'.free o size = a ↔ a.Tops n o size := by
  have hne := ne_of_alloc h
  obtain ⟨next, hc, hfl, rfl⟩ | ⟨rfl, _, rfl⟩ := alloc_cases h
  · constructor
    · intro heq
      simp only [free] at heq
      split at heq
      · exact absurd heq hne
      · have hat := congrArg (fun b => b.fl (sizeClass n)) heq
        by_cases hcls : sizeClass size = sizeClass n
        · simp only [hcls, Function.update_self, hfl, List.cons.injEq, and_true] at hat
          exact ⟨hcls, hc, by rw [hfl, hat]; rfl⟩
        · simp [Function.update_of_ne (Ne.symm hcls), hfl] at hat
    · intro ht
      obtain rfl := ht.offset_eq h
      simp only [free, ht.1, if_neg (Nat.not_le.mpr hc), Function.update_self,
        Function.update_idem, ← hfl, Function.update_eq_self]
  · refine iff_of_false (fun heq => ?_) ?_
    · have hoff := congrArg Allocator.offset heq
      have hle := le_alignUp a.offset
      have hpos := blockLen_pos n
      simp only [free] at hoff
      split at hoff <;> (dsimp only at hoff; omega)
    · rintro ⟨_, hc, hhead⟩
      obtain ⟨next, hfl⟩ := List.head?_eq_some_iff.mp hhead
      rw [alloc_eq, if_pos hc, hfl] at h
      have hlen := congrArg (fun b => (b.2.fl (sizeClass n)).length) (Option.some.inj h)
      simp [hfl] at hlen

end Allocator

namespace Manager

variable {m m' m₁ m₂ : Manager} {h g : Handle} {w : Nat × Nat}

/-! ## Parts -/

theorem Bounded.eq_of_parts (hm : m.Bounded) (hm' : m'.Bounded) (hroom : SameRoom m m')
    (hlive : m'.liveObjs = m.liveObjs)
    (hdata : m'.regions.map Region.data = m.regions.map Region.data)
    (hwords : ∀ w, m'.word w = m.word w) : m' = m := by
  have hregions : m'.regions = m.regions := by
    refine List.ext_getElem? fun i => ?_
    have hd := congrArg (·[i]?) hdata
    have ha := congrArg (·[i]?) hroom.allocs
    have hw := fun k => hwords (i, k)
    simp only [List.getElem?_map, word] at hd ha hw
    cases hr : m.regions[i]? with
    | none => simpa [hr] using hd
    | some r =>
      rw [hr, Option.map_some] at hd ha
      obtain ⟨r', hr', hd⟩ := Option.map_eq_some_iff.mp hd
      rw [hr', Option.map_some, Option.some.injEq] at ha
      have hsize : r'.metas.size = r.metas.size := by
        rw [(hm.region i r hr).metaSize, (hm'.region i r' hr').metaSize, hroom.size]
      have hget : r'.metas.get = r.metas.get := by
        funext k
        simpa [hr, hr'] using hw k
      obtain ⟨data, alloc, size, get⟩ := r
      obtain ⟨data', alloc', size', get'⟩ := r'
      dsimp only at hd ha hsize hget
      rw [hr', hd, ha, hsize, hget]
  obtain ⟨regions, currentIdx, size, liveObjs⟩ := m
  obtain ⟨regions', currentIdx', size', liveObjs'⟩ := m'
  obtain ⟨hcur, hsize, _⟩ := hroom
  dsimp only at hregions hcur hsize hlive
  rw [hregions, hcur, hsize, hlive]

theorem data_poke (m : Manager) (g : Handle) (off : Nat) (bytes : Bytes) :
    (m.poke g off bytes).regions.map Region.data =
      (m.regions.map Region.data).modify g.region.toNat
        fun c => c.write (g.offset.toNat + off) bytes := by
  unfold poke
  split
  · rename_i hnone
    rw [List.getElem?_eq_none_iff] at hnone
    rw [List.modify_eq_self (by simpa using hnone)]
  · rename_i reg hreg
    exact map_set_modify hreg rfl

theorem Within.parts_free (hw : m.Within g) (hm : m.Bounded) :
    (m.free g).2.currentIdx = m.currentIdx ∧ (m.free g).2.size = m.size ∧
      (m.free g).2.regions.map Region.alloc = (m.regions.map Region.alloc).modify g.region.toNat
        fun a => a.free g.offset.toNat g.size.toNat := by
  obtain ⟨r, hr, _, hstop, _⟩ := hw.get_region hm
  have hpay := g.payload_le
  simp only [Manager.free, hr]
  rw [if_neg (by omega)]
  exact ⟨rfl, rfl, map_set_modify hr rfl⟩

/-! ## Put and Free -/

/-- Giving back `g` undoes a `Put` of `value` over the bytes `data`: the current region hands out
its block next, and with the value written there the bytes are those of `m`. -/
structure Undoes (m : Manager) (data : List (Cells UInt8)) (value : Bytes) (g : Handle) : Prop where
  region : g.region.toNat = m.currentIdx
  block : ∃ reg, m.regions[m.currentIdx]? = some reg ∧
    reg.alloc.Tops value.length g.offset.toNat g.size.toNat
  bytes : (data.modify m.currentIdx fun c => c.write g.offset.toNat value) =
    m.regions.map Region.data

theorem Bounded.liveObjs_put (hm : m.Bounded) {value : Bytes} {mmapOk : Bool}
    (hput : m.put value mmapOk = some (.ok h, m')) : m'.liveObjs = m.liveObjs + 1 := by
  rcases hm.puts hput with _ | _ | ⟨_, _, _, _, ⟨rfl, _⟩ | ⟨_, rfl, _⟩, _, _, _⟩
  · rfl
  · rfl

section Undo

variable {value : Bytes} {mmapOk : Bool} (hm : m.Bounded) (hm₁ : m₁.Bounded) (hroom : SameRoom m m₁)
  (hlen : value.length < 2 ^ 32) (hput : m₁.put value mmapOk = some (.ok h, m₂))

include hm hm₁ hroom hlen hput

/-- The value goes to the current region, or to a new one that no `Free` takes away again. -/
theorem Bounded.put_into :
    (∃ reg reg₁ alloc, m.regions[m.currentIdx]? = some reg ∧
      m₁.regions[h.region.toNat]? = some reg₁ ∧ h.region.toNat = m.currentIdx ∧
      reg.alloc.alloc value.length = some (h.offset.toNat, alloc) ∧
      m₂ = m₁.placed h reg₁ alloc value) ∨
    m₂.regions.length = m.regions.length + 1 ∧ ∀ data g, ¬ m.Undoes data value g := by
  obtain ⟨reg, hreg⟩ : ∃ reg, m.regions[m.currentIdx]? = some reg :=
    ⟨_, List.getElem?_eq_getElem hm.current⟩
  have hat := congrArg (·[m.currentIdx]?) hroom.allocs
  simp only [List.getElem?_map, hreg, Option.map_some] at hat
  obtain ⟨reg₁, hreg₁, halloc⟩ := Option.map_eq_some_iff.mp hat
  have hsame : m₁.regions.length = m.regions.length := by
    simpa using congrArg List.length hroom.allocs
  have hfull := fun hlt => hm₁.currentFull_of_grown hput hlt
  obtain _ | _ | ⟨_, reg', alloc, m₀, hm₀, ha, hval, _⟩ := hm₁.puts hput
  rw [Nat.mod_eq_of_lt hlen] at hval
  rw [Nat.mod_eq_of_lt hlen, List.take_length] at hfull ⊢
  rcases hm₀ with ⟨rfl, hi⟩ | ⟨_, rfl, _⟩
  · rw [hroom.currentIdx] at hi
    obtain rfl : reg' = reg₁ := Option.some.inj (ha.region.symm.trans (hi ▸ hreg₁))
    have hgot := ha.alloc
    rw [hval, halloc] at hgot
    exact .inl ⟨reg, reg', alloc, hreg, ha.region, hi, hgot, rfl⟩
  · have hmore : (m₁.addRegion.placed h reg' alloc value).regions.length =
        m₁.regions.length + 1 := by
      simp [placed, Manager.addRegion]
    refine .inr ⟨by omega, ?_⟩
    rintro data g ⟨_, ⟨reg', hreg', htops⟩, _⟩
    cases hreg.symm.trans hreg'
    refine hfull (by omega) reg₁ (hroom.currentIdx ▸ hreg₁) (.inl ⟨htops.2.1, fun hnil => ?_⟩)
    have hhead := htops.2.2
    rw [← halloc, hnil] at hhead
    cases hhead

/-- Where the block is the one that is given back, the words but its own are not touched. -/
theorem Bounded.put_words {data : List (Cells UInt8)} (hundoes : m.Undoes data value g) :
    wordOf g = wordOf h ∧ ∀ w, m₂.word w = if w = wordOf h then some 0 else m₁.word w := by
  rcases hm.put_into hm₁ hroom hlen hput with
    ⟨reg, reg₁, alloc, hreg, hreg₁, hi, halloc, rfl⟩ | ⟨_, hnot⟩
  · obtain ⟨hregion, ⟨reg', hreg', htops⟩, _⟩ := hundoes
    cases hreg.symm.trans hreg'
    refine ⟨Prod.ext (hregion.trans hi.symm) ?_, word_placed hreg₁ value⟩
    simp only [wordOf, htops.offset_eq halloc]
  · exact absurd hundoes (hnot data g)

variable (hlive : m₁.liveObjs = m.liveObjs) (hs : SameBlocks m₂ m')

include hlive hs

/-- After the `Put`, changes to meta words and the `Free`, all is as before exactly if the block
given back is the one taken and the words are as they were. -/
theorem Bounded.put_free_iff (hg : m'.Within g) : (m'.free g).2 = m ↔
    m.Undoes (m₁.regions.map Region.data) value g ∧ ∀ w, m'.word w = m.word w := by
  have hb' := hs.bounded (hm₁.put_ok hput).1
  obtain ⟨hcur, hsize, halloc⟩ := hg.parts_free hb'
  have hword := fun w => word_congr (metas_free m' g) w
  have hdata := (data_free m' g).trans hs.data
  rw [hs.sameRoom.allocs] at halloc
  rcases hm.put_into hm₁ hroom hlen hput with
    ⟨reg, reg₁, alloc, hreg, hreg₁, hi, hgot, rfl⟩ | ⟨hmore, hnot⟩
  · have hat : (m.regions.map Region.alloc)[h.region.toNat]? = some reg.alloc := by
      rw [hi, List.getElem?_map, hreg]
      rfl
    rw [placed, List.map_set, hroom.allocs] at halloc
    have hallocs : (m'.free g).2.regions.map Region.alloc = m.regions.map Region.alloc ↔
        g.region.toNat = m.currentIdx ∧
          reg.alloc.Tops value.length g.offset.toNat g.size.toNat := by
      rw [halloc, set_modify_eq_iff hat (Allocator.ne_of_alloc hgot), hi,
        Allocator.free_alloc_iff hgot]
    have hbytes : (m'.free g).2.regions.map Region.data =
        (m₁.regions.map Region.data).modify m.currentIdx fun c => c.write h.offset.toNat value := by
      rw [hdata, ← hi]
      exact map_set_modify hreg₁ rfl
    constructor
    · intro heq
      rw [heq] at hallocs hbytes hword
      obtain ⟨hregion, htops⟩ := hallocs.mp rfl
      exact ⟨⟨hregion, ⟨reg, hreg, htops⟩, htops.offset_eq hgot ▸ hbytes.symm⟩,
        fun w => (hword w).symm⟩
    · rintro ⟨⟨hregion, ⟨reg', hreg', htops⟩, hsame⟩, hwords⟩
      cases hreg.symm.trans hreg'
      refine hm.eq_of_parts (hb'.free hg).1 ⟨hcur.trans (hs.currentIdx.trans hroom.currentIdx),
        hsize.trans (hs.size.trans hroom.size), hallocs.mpr ⟨hregion, htops⟩⟩ ?_ ?_
        fun w => (hword w).trans (hwords w)
      · rw [hg.liveObjs_free hb', hs.liveObjs, hm₁.liveObjs_put hput, hlive, UInt64.add_sub_cancel]
      · rw [hbytes, ← htops.offset_eq hgot, hsame]
  · refine iff_of_false (fun heq => ?_) fun hboth => hnot _ _ hboth.1
    have hregions := congrArg List.length hdata
    rw [heq] at hregions
    simp only [List.length_map] at hregions
    omega

/-- The same for several blocks: the live counter tells that one is given back. -/
theorem Bounded.put_freeAll_iff {gs : List Handle} (hgs : ∀ g ∈ gs, m'.Within g)
    (hfew : gs.length ≤ 2) : m'.freeAll gs = m ↔ ∃ g, gs = [g] ∧
      m.Undoes (m₁.regions.map Region.data) value g ∧ ∀ w, m'.word w = m.word w := by
  have hb' := hs.bounded (hm₁.put_ok hput).1
  have hcount := hs.liveObjs.trans (hm₁.liveObjs_put hput)
  rw [hlive] at hcount
  match gs, hfew with
  | [], _ =>
    refine iff_of_false (fun heq => ?_) (by simp)
    rw [← heq, Manager.freeAll, List.foldl_nil] at hcount
    simp at hcount
  | [g], _ =>
    simp only [Manager.freeAll, List.foldl_cons, List.foldl_nil, List.cons.injEq, and_true,
      exists_eq_left']
    exact hm.put_free_iff hm₁ hroom hlen hput hlive hs (hgs g List.mem_cons_self)
  | [g, g'], _ =>
    refine iff_of_false (fun heq => ?_) (by simp)
    have hg := hgs g List.mem_cons_self
    obtain ⟨hb, hgrow⟩ := hb'.free hg
    have hlast := ((hgs g' (by simp)).mono hgrow).liveObjs_free hb
    simp only [Manager.freeAll, List.foldl_cons, List.foldl_nil] at heq
    rw [heq, hg.liveObjs_free hb', hcount, UInt64.add_sub_cancel, eq_comm,
      UInt64.sub_eq_iff_eq_add] at hlast
    simp at hlast

end Undo

/-! ## Frequencies -/

theorem freq_add_ne (w : UInt16) {k : UInt16} (hk : k &&& freqMask ≠ 0) :
    ((w &&& freqMask) + k) &&& freqMask ≠ w &&& freqMask := by
  intro heq
  have hmask : freqMask.toNat = 2 ^ 2 - 1 := rfl
  have hnat := congrArg UInt16.toNat heq
  simp only [UInt16.toNat_and, UInt16.toNat_add, hmask, Nat.and_two_pow_sub_one_eq_mod] at hnat
  refine hk (UInt16.toNat_inj.mp ?_)
  simp only [UInt16.toNat_and, hmask, Nat.and_two_pow_sub_one_eq_mod]
  change _ = 0
  omega

theorem hitWord_ne (w : UInt16) : hitWord w ≠ w := fun heq =>
  freq_add_ne w (k := 1) (by decide) ((hit_freq w).symm.trans (congrArg (· &&& freqMask) heq))

theorem getFreq_setFreq (hw : m.hasWord h = true) (freq : UInt16) :
    (m.setFreq h freq).getFreq h = freq &&& freqMask := by
  rw [getFreq, setFreq, getMeta_modifyMeta_self hw, word_or_and, UInt16.and_assoc,
    UInt16.and_assoc _ freqMask, show ~~~freqMask &&& freqMask = 0 by decide, UInt16.and_self]
  simp

theorem getFreq_orMetaBits (hw : m.hasWord h = true) {bits : UInt16} (hbits : bits &&& freqMask = 0) :
    (m.orMetaBits h bits).getFreq h = m.getFreq h := by
  rw [getFreq, orMetaBits, getMeta_modifyMeta_self hw, word_or_and, hbits, UInt16.or_zero, getFreq]

end Manager

end Horreum.Arena

namespace Horreum.S3Fifo.Eviction

open Foundation (Bytes)
open Arena (Handle Manager queueTagMask queueTagS queueTagM)

variable (fingerprintOf : Bytes → UInt32)

/-- The queue that a new handle of the key goes to. -/
def queueFor (e : Eviction) (key : Bytes) : RingBuffer :=
  if e.gh.look (fingerprintOf key) then e.mq else e.sq

/-- The tag of that queue. -/
def tagFor (e : Eviction) (key : Bytes) : UInt16 :=
  if e.gh.look (fingerprintOf key) then queueTagM else queueTagS

/-- A hit on the handle is counted: the queue that its word names has a live copy. -/
def counted (e : Eviction) (mgr : Manager) (h : Handle) : Bool :=
  (mgr.getMeta h &&& queueTagMask = queueTagS && e.sq.scanFromHead h) ||
    (mgr.getMeta h &&& queueTagMask = queueTagM && e.mq.scanFromHead h)

theorem touch_eq (e : Eviction) (mgr : Manager) (h : Handle) :
    e.touch mgr h = if e.counted mgr h then mgr.incFreq h else mgr := by
  have hne : queueTagS ≠ queueTagM := by decide
  unfold touch counted
  by_cases hS : mgr.getMeta h &&& queueTagMask = queueTagS
  · simp [hS, hne]
  · by_cases hM : mgr.getMeta h &&& queueTagMask = queueTagM <;> simp [hS, hM, Ne.symm hne]

/-- What `Add` does to the words: it tags the new handle, gives up the head of the full queue, or
keeps the head with another frequency. -/
theorem add_words {e e' : Eviction} {mgr mgr' : Manager} {key : Bytes} {h : Handle}
    {evicted : List Handle} (hadd : e.add fingerprintOf mgr key h = (evicted, e', mgr')) :
    ((e.queueFor fingerprintOf key).full = false ∧ evicted = [] ∧
      mgr' = (mgr.setFreq h 0).orMetaBits h (e.tagFor fingerprintOf key)) ∨
    (e.queueFor fingerprintOf key).full = true ∧
      ((evicted = [head (e.queueFor fingerprintOf key)] ∧ (mgr' = mgr ∨
        mgr' = mgr.clearMetaBits (head (e.queueFor fingerprintOf key)) queueTagMask)) ∨
      mgr.getFreq (head (e.queueFor fingerprintOf key)) ≠ 0 ∧
        (mgr.hasWord (head (e.queueFor fingerprintOf key)) = true →
          mgr'.getFreq (head (e.queueFor fingerprintOf key)) ≠
            mgr.getFreq (head (e.queueFor fingerprintOf key)))) := by
  unfold add at hadd
  unfold queueFor tagFor
  split at hadd
  · rename_i hghost
    simp only [hghost, if_true]
    cases hpush : e.mq.push h with
    | some mq =>
      rw [hpush] at hadd
      cases hadd
      exact .inl ⟨not_full_of_push hpush, rfl, rfl⟩
    | none =>
      have hfull := RingBuffer.push_eq_none.mp hpush
      obtain ⟨mq, hpop, _⟩ := RingBuffer.pop_of_full hfull
      simp only [hpush, evictM, hpop] at hadd
      refine .inr ⟨hfull, ?_⟩
      unfold head
      split at hadd <;> cases hadd
      · rename_i hused
        refine .inr ⟨fun hzero => ?_, fun hw => ?_⟩
        · rw [hzero] at hused
          exact absurd hused (by decide)
        · rw [Manager.getFreq_setFreq hw, UInt16.sub_eq_add_neg]
          exact Manager.freq_add_ne _ (by decide)
      · exact .inl ⟨rfl, .inr rfl⟩
  · rename_i hghost
    simp only [hghost, Bool.false_eq_true, if_false]
    cases hpush : e.sq.push h with
    | some sq =>
      rw [hpush] at hadd
      cases hadd
      exact .inl ⟨not_full_of_push hpush, rfl, rfl⟩
    | none =>
      have hfull := RingBuffer.push_eq_none.mp hpush
      obtain ⟨sq, hpop, _⟩ := RingBuffer.pop_of_full hfull
      simp only [hpush, evictS, hpop] at hadd
      refine .inr ⟨hfull, ?_⟩
      unfold head
      generalize (e.sq.slot e.sq.head).h = v at hadd ⊢
      split at hadd
      · rename_i hused
        have hne : mgr.getFreq v ≠ 0 := fun hzero => by
          rw [hzero] at hused
          exact absurd hused (by decide)
        refine .inr ⟨hne, fun hw heq => hne (heq.symm.trans ?_)⟩
        have hset : ∀ m : Manager, m.hasWord v = true → (m.setFreq v 0).getFreq v = 0 ∧
            ((m.setFreq v 0).orMetaBits v queueTagM).getFreq v = 0 := by
          intro m hm
          have hzero : (m.setFreq v 0).getFreq v = 0 := by
            rw [Manager.getFreq_setFreq hm]
            rfl
          have hm' := (Manager.sameStore_setFreq m v 0).toSameBlocks.hasWord hm
          exact ⟨hzero, (Manager.getFreq_orMetaBits hm' (by decide)).trans hzero⟩
        have hclear := (Manager.sameStore_clearQueueTag mgr v).toSameBlocks.hasWord hw
        split at hadd
        · cases hadd
          exact (hset _ hclear).2
        · have hmain := (sameStore_evictM { e with sq := sq }
            (mgr.clearMetaBits v queueTagMask)).toSameBlocks.hasWord hclear
          split at hadd <;> cases hadd
          · exact (hset _ hmain).1
          · exact (hset _ hmain).2
      · cases hadd
        exact .inl ⟨rfl, .inl rfl⟩

end Horreum.S3Fifo.Eviction
