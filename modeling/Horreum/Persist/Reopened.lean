/-
  Persist/Reopened.lean --- storing new values after a restart.

  The allocator of the first region keeps nothing across a restart.  `LoadIndex` puts its
  bump pointer behind the sum of the sizes of the recovered values, as if they stood one
  after another without padding or holes.  Where that is behind all of them, new values stay
  clear of them; where it is not, the next value is written over a recovered one.
-/
import Horreum.Foundation.Runs
import Horreum.Persist.Durability

set_option autoImplicit false

namespace Horreum.Persist

open Foundation
open Arena (Manager Handle Region Allocator openFileManager alignUp persistReservedBytes)
open Index (HashIndex Entry)

/-! ## Bytes of handles -/

/-- The handle stands for byte `i` of its region. -/
def Covers (h : Handle) (i : Nat) : Prop := h.offset.toNat ≤ i ∧ i < h.offset.toNat + h.size.toNat

/-- No byte belongs to both. -/
def Apart (h g : Handle) : Prop := h.region = g.region → ∀ i, Covers h i → ¬ Covers g i

/-! ## The manager after a restart -/

/-- The handles that a restart has put into the index. -/
def recovered (idx : HashIndex) : List Handle := idx.snapshot.map Entry.handle

/-- Where the bump pointer is put. -/
def bumpOf (regionSize : Nat) (idx : HashIndex) : Nat :=
  (((recovered idx).map fun h => h.size.toNat).sum + persistReservedBytes regionSize) % 2 ^ 64

/-- The manager of a restart has one region, with nothing on its freelists. -/
structure Fresh (regionSize offset : Nat) (m : Manager) : Prop where
  regions : ∃ data : Cells UInt8, data.size = regionSize ∧ m.regions = [⟨data,
    (Allocator.init (regionSize % 2 ^ 32)).skip offset,
    Cells.fill (regionSize % 2 ^ 32 / Arena.alignBytes) 0⟩]
  size : m.size = regionSize
  currentIdx : m.currentIdx = 0

variable {regionSize offset buckets : Nat} {m : Manager} {pm : PersistentManager} {durable : Bool}
  {idx : HashIndex} {d : Disk}

theorem Fresh.owns (h : Fresh regionSize offset m) : m.Owns ∅ := by
  obtain ⟨data, hdata, hregs⟩ := h.regions
  exact Manager.owns_single hregs h.currentIdx ⟨Allocator.wf_init _ _, by rw [h.size]; rfl,
    by rw [h.size]; exact hdata, by rw [h.size]; rfl⟩

theorem Fresh.poke (h : Fresh regionSize offset m) (off : Nat) (buf : Bytes) :
    Fresh regionSize offset (m.poke origin off buf) := by
  obtain ⟨data, hdata, hregs⟩ := h.regions
  have hpoke := poke_origin (congrArg (fun regions => regions[0]?) hregs) off buf
  rw [hpoke]
  exact ⟨⟨data.write off buf, hdata, by rw [hregs]; rfl⟩, h.size, h.currentIdx⟩

theorem fresh_new (h : PersistentManager.new d regionSize durable = .ok pm) :
    Fresh regionSize (persistReservedBytes regionSize) pm.mgr ∧ pm.regionSize = regionSize := by
  have hopen : ∀ data : Cells UInt8, data.size = regionSize →
      Fresh regionSize (persistReservedBytes regionSize) (openFileManager regionSize data) :=
    fun data hdata => ⟨⟨data, hdata, rfl⟩, rfl, rfl⟩
  obtain ⟨_, m, harena, rfl⟩ := new_cases h
  refine ⟨?_, rfl⟩
  rcases (openArena_cases harena).2 with ⟨_, sb, rfl⟩ | ⟨data, _, rfl⟩
  · exact (hopen (Cells.fill regionSize 0) rfl).poke 0 (encodeSuperblock sb)
  · exact hopen _ rfl

theorem Fresh.syncLiveObjects (h : Fresh regionSize offset pm.mgr) (idx : HashIndex) :
    Fresh regionSize (bumpOf regionSize idx) (pm.syncLiveObjects idx).mgr := by
  obtain ⟨data, hdata, hregs⟩ := h.regions
  simp only [PersistentManager.syncLiveObjects, Manager.setLiveObjects, Manager.setUsedBytes, hregs]
  refine ⟨⟨data, hdata, ?_⟩, h.size, h.currentIdx⟩
  simp only [bumpOf, recovered, List.map_map, h.size]
  rfl

theorem fresh_restart
    (h : PersistentManager.restart d regionSize durable buckets = some (.ok (idx, pm))) :
    Fresh regionSize (bumpOf regionSize idx) pm.mgr := by
  unfold PersistentManager.restart at h
  split at h
  · cases h
  · rename_i pm₀ hnew
    have hfresh := (fresh_new hnew).1
    obtain ⟨⟨res, idx', pm'⟩, hload, hres⟩ := Option.map_eq_some_iff.mp h
    cases res with
    | error e => cases hres
    | ok u =>
      cases hres
      unfold PersistentManager.loadIndex at hload
      split at hload
      · obtain ⟨idx₁, _, hload⟩ := Option.bind_eq_some_iff.mp hload
        cases hload
        exact hfresh.syncLiveObjects idx
      · cases hload
      · obtain ⟨idx₀, _, hload⟩ := Option.bind_eq_some_iff.mp hload
        obtain ⟨idx₁, _, hload⟩ := Option.bind_eq_some_iff.mp hload
        cases hload
        exact hfresh.syncLiveObjects idx

/-! ## Further values -/

/-- A `Put` and what the system does. -/
structure PutCall where
  io : Io
  key : Bytes
  value : Bytes
  deriving DecidableEq, Repr

/-- A manager since its restart. -/
structure Reopened where
  pm : PersistentManager
  /-- The handles returned since the restart. -/
  returned : List Handle

namespace Reopened

/-- A call that fails returns no handle. -/
def step (s : Reopened) (c : PutCall) : Option Reopened :=
  (s.pm.put c.io c.key c.value).map fun (res, pm) =>
    match res with
    | .ok (h, _) => ⟨pm, h :: s.returned⟩
    | .error _ => { s with pm := pm }

/-- The call does not map a region that a recovered handle names. -/
def KeepsRegions (idx : HashIndex) (s : Reopened) (c : PutCall) : Prop :=
  match s.pm.mgr.put c.value c.io.mmapOk with
  | some (_, mgr) => ∀ g ∈ recovered idx, g.region ≠ 0 → mgr.regions.length ≤ g.region.toNat
  | none => True

instance (idx : HashIndex) (s : Reopened) (c : PutCall) : Decidable (KeepsRegions idx s c) := by
  unfold KeepsRegions
  split <;> infer_instance

/-- From `bound` on the first region is new; the regions that recovered handles name are not
mapped. -/
structure Kept (idx : HashIndex) (bound : Nat) (m₀ : Manager) (s : Reopened) : Prop where
  owns : s.pm.mgr.Owns ∅
  above : ∀ reg, s.pm.mgr.regions[0]? = some reg → reg.alloc.Above bound
  head : HeadAgrees bound m₀ s.pm.mgr
  unmapped : ∀ g ∈ recovered idx, g.region ≠ 0 → s.pm.mgr.regions.length ≤ g.region.toNat
  returned : ∀ h ∈ s.returned, h.region.toNat < s.pm.mgr.regions.length ∧
    (h.region = 0 → bound ≤ h.offset.toNat)

variable {bound : Nat} {m₀ m' : Manager} {s s' : Reopened}

theorem Kept.step (h : Kept idx bound m₀ s) {c : PutCall} (hok : KeepsRegions idx s c)
    (hstep : s.step c = some s') : Kept idx bound m₀ s' := by
  obtain ⟨⟨out, pm'⟩, hput, hout⟩ := Option.map_eq_some_iff.mp hstep
  obtain ⟨hafter, res, mgr, hmgr, hlen⟩ := putWith_above h.owns h.above hput
  have hunmapped : ∀ g ∈ recovered idx, g.region ≠ 0 → pm'.mgr.regions.length ≤ g.region.toNat := by
    simpa only [KeepsRegions, hmgr, hlen] using hok
  have hold : ∀ hd ∈ s.returned, hd.region.toNat < pm'.mgr.regions.length ∧
      (hd.region = 0 → bound ≤ hd.offset.toNat) := fun hd hmem =>
    ⟨Nat.lt_of_lt_of_le (h.returned hd hmem).1 hafter.length_le, (h.returned hd hmem).2⟩
  cases out with
  | error e =>
    cases hout
    exact ⟨hafter.owns, hafter.above, h.head.trans hafter.head, hunmapped, hold⟩
  | ok out =>
    cases hout
    refine ⟨hafter.owns, hafter.above, h.head.trans hafter.head, hunmapped, fun g hg => ?_⟩
    rcases List.mem_cons.mp hg with rfl | hg
    · exact hafter.returned _ _ rfl
    · exact hold g hg

theorem kept_restart
    (h : PersistentManager.restart d regionSize durable buckets = some (.ok (idx, pm))) :
    Kept idx (alignUp (bumpOf regionSize idx)) pm.mgr ⟨pm, []⟩ := by
  have hfresh := fresh_restart h
  have howns := hfresh.owns
  obtain ⟨reg, hreg⟩ := exists_first howns.wf
  obtain ⟨data, _, hregs⟩ := hfresh.regions
  refine ⟨howns, fun r hr => ?_, HeadAgrees.refl hreg _, fun g _ hg => ?_, by simp⟩
  · rw [hregs] at hr
    cases hr
    exact Allocator.above_init _ _
  · have hpos : g.region.toNat ≠ 0 := fun hzero => hg (UInt8.toNat_inj.mp hzero)
    simp only [hregs, List.length_singleton]
    omega

/-- A view in the first region needs the bytes before the end of the handle only; a handle of
a region that is not mapped has none. -/
theorem Kept.view (h : Kept idx bound m₀ s) {g : Handle} (hg : g ∈ recovered idx)
    (hm₀ : m₀.regions.length = 1) (hbound : g.region = 0 → g.size.toNat = 0 ∨
      g.offset.toNat + g.size.toNat ≤ bound) : s.pm.mgr.view g = m₀.view g := by
  by_cases hzero : g.region = 0
  · obtain ⟨reg, reg', hreg, hreg', hsize, hget⟩ := h.head
    have hnat : g.region.toNat = 0 := by rw [hzero]; rfl
    have hread : reg'.data.read g.offset.toNat g.size.toNat =
        reg.data.read g.offset.toNat g.size.toNat := by
      refine Cells.read_congr fun i hi hlt => hget i ?_
      have := hbound hzero
      omega
    simp only [Manager.view, hnat, hreg, hreg', hsize, hread]
  · have hpos : g.region.toNat ≠ 0 := fun heq => hzero (UInt8.toNat_inj.mp heq)
    have hnone : m₀.regions[g.region.toNat]? = none :=
      List.getElem?_eq_none (by omega)
    have hnone' : s.pm.mgr.regions[g.region.toNat]? = none :=
      List.getElem?_eq_none (h.unmapped g hg hzero)
    simp only [Manager.view, hnone, hnone']

theorem Kept.apart (h : Kept idx bound m₀ s) {g hd : Handle} (hg : g ∈ recovered idx)
    (hhd : hd ∈ s.returned) (hbound : g.region = 0 → g.size.toNat = 0 ∨
      g.offset.toNat + g.size.toNat ≤ bound) : Apart hd g := by
  intro heq i hi hgi
  obtain ⟨hlt, hle⟩ := h.returned hd hhd
  simp only [Covers] at hi hgi
  by_cases hzero : g.region = 0
  · have := hbound hzero
    have := hle (heq.trans hzero)
    omega
  · have := h.unmapped g hg hzero
    rw [heq] at hlt
    omega
/-- The bytes of every recovered value end before the bump pointer. -/
def Behind (regionSize : Nat) (idx : HashIndex) : Prop :=
  ∀ g ∈ recovered idx, g.region = 0 → g.size.toNat = 0 ∨
    g.offset.toNat + g.size.toNat ≤ alignUp (bumpOf regionSize idx)

instance (regionSize : Nat) (idx : HashIndex) : Decidable (Behind regionSize idx) :=
  inferInstanceAs (Decidable (∀ g ∈ recovered idx, _))

/-- Where the recovered values end before the bump pointer, and the regions that recovered handles
name are not mapped again, what is stored after the restart stays clear of what was recovered. -/
theorem returned_apart_recovered {d : Disk} {buckets : Nat} (calls : List PutCall)
    (hrestart : PersistentManager.restart d regionSize durable buckets = some (.ok (idx, pm)))
    (hbehind : Behind regionSize idx)
    (hguard : Guarded step (KeepsRegions idx) ⟨pm, []⟩ calls)
    (hrun : run step ⟨pm, []⟩ calls = some s) :
    (∀ hd ∈ s.returned, ∀ g ∈ recovered idx, Apart hd g) ∧
      ∀ g ∈ recovered idx, s.pm.view g = pm.view g := by
  have hkept : Kept idx (alignUp (bumpOf regionSize idx)) pm.mgr s :=
    run_invariant (Kept idx (alignUp (bumpOf regionSize idx)) pm.mgr)
      (fun _ _ _ hs hok hstep => hs.step hok hstep) calls _ s (kept_restart hrestart) hguard hrun
  have hone : pm.mgr.regions.length = 1 := by
    obtain ⟨data, _, hregs⟩ := (fresh_restart hrestart).regions
    simp [hregs]
  exact ⟨fun hd hhd g hg => hkept.apart hg hhd (hbehind g hg),
    fun g hg => hkept.view hg hone (hbehind g hg)⟩

/-- The files that `calls` on a fresh directory leave, opened again. -/
def reopen (regionSize buckets : Nat) (calls : List Call) :
    Option (HashIndex × PersistentManager) := do
  let c₀ ← Client.start regionSize true buckets
  let c ← run Client.step c₀ calls
  match ← PersistentManager.restart c.pm.disk regionSize true buckets with
  | .ok (idx, pm) => some (idx, pm)
  | .error _ => none

theorem restart_of_reopen {calls : List Call}
    (h : reopen regionSize buckets calls = some (idx, pm)) :
    ∃ d, PersistentManager.restart d regionSize true buckets = some (.ok (idx, pm)) := by
  obtain ⟨c₀, _, h⟩ := Option.bind_eq_some_iff.mp h
  obtain ⟨c, _, h⟩ := Option.bind_eq_some_iff.mp h
  obtain ⟨res, hres, h⟩ := Option.bind_eq_some_iff.mp h
  cases res with
  | error e => cases h
  | ok p =>
    cases h
    exact ⟨c.pm.disk, hres⟩

/-- Values that fill their blocks leave no gap between the sum of their sizes and their end; a
call whose log record cannot be synced does no harm either. -/
theorem returned_apart_recovered_full :
    ∃ idx pm s, reopen 16384 16 [.put [97] (List.replicate 8 1), .put [98] (List.replicate 16 2)] =
        some (idx, pm) ∧ (recovered idx).length = 2 ∧
      run step ⟨pm, []⟩ [⟨.fine, [99], [3]⟩, ⟨⟨true, none, false⟩, [100], [4]⟩,
        ⟨.fine, [101], [5]⟩] = some s ∧ s.returned.length = 2 ∧
      (∀ hd ∈ s.returned, ∀ g ∈ recovered idx, Apart hd g) ∧
      ∀ g ∈ recovered idx, s.pm.view g = pm.view g := by
  obtain ⟨idx, pm, hopen, htwo, hbehind, hguard, s, hrun, hlen⟩ : ∃ idx pm,
      reopen 16384 16 [.put [97] (List.replicate 8 1), .put [98] (List.replicate 16 2)] =
        some (idx, pm) ∧ (recovered idx).length = 2 ∧ Behind 16384 idx ∧
      Guarded step (KeepsRegions idx) ⟨pm, []⟩ [⟨.fine, [99], [3]⟩,
        ⟨⟨true, none, false⟩, [100], [4]⟩, ⟨.fine, [101], [5]⟩] ∧
      ∃ s, run step ⟨pm, []⟩ [⟨.fine, [99], [3]⟩, ⟨⟨true, none, false⟩, [100], [4]⟩,
        ⟨.fine, [101], [5]⟩] = some s ∧ s.returned.length = 2 := by
    decide +kernel
  obtain ⟨d, hrestart⟩ := restart_of_reopen hopen
  exact ⟨idx, pm, s, hopen, htwo, hrun, hlen,
    returned_apart_recovered _ hrestart hbehind hguard hrun⟩

/-- Two values of one byte stand eight bytes apart; after the restart the bump pointer is two
bytes behind the first of them, and the next value is written over the second. -/
theorem second_value_overwritten :
    ∃ idx pm s g, reopen 16384 16 [.put [97] [1], .put [98] [2]] = some (idx, pm) ∧
      idx.get [98] 0 = some (some g) ∧ g ∈ recovered idx ∧ pm.view g = some (.ok [2]) ∧
      run step ⟨pm, []⟩ [⟨.fine, [99], [3]⟩] = some s ∧ s.returned = [g] ∧
      s.pm.view g = some (.ok [3]) := by
  obtain ⟨idx, pm, hopen, hget, hmem, hview, s, hrun, hreturned, hview'⟩ : ∃ idx pm,
      reopen 16384 16 [.put [97] [1], .put [98] [2]] = some (idx, pm) ∧
      idx.get [98] 0 = some (some ⟨8200, 1, 0, 0⟩) ∧ ⟨8200, 1, 0, 0⟩ ∈ recovered idx ∧
      pm.view ⟨8200, 1, 0, 0⟩ = some (.ok [2]) ∧
      ∃ s, run step ⟨pm, []⟩ [⟨.fine, [99], [3]⟩] = some s ∧
        s.returned = [⟨8200, 1, 0, 0⟩] ∧ s.pm.view ⟨8200, 1, 0, 0⟩ = some (.ok [3]) := by
    decide +kernel
  exact ⟨idx, pm, s, _, hopen, hget, hmem, hview, hrun, hreturned, hview'⟩

end Reopened

end Horreum.Persist
