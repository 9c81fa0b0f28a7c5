/-
  Persist/Faults.lean --- recovery after calls that failed.

  A call whose record cannot be written or synced gives its block back, but the record may be in the
  file all the same.  Where no value is stored over a block that replay would map a key to, and no
  remains of a write are taken for a record, nothing but values passed for their keys is recovered.
-/
import Horreum.Persist.Reopened
import Horreum.Persist.WalFaults

set_option autoImplicit false

namespace Horreum.Persist

open Foundation
open Arena (Manager Handle Region Allocator)
open Index (HashIndex Entry)

/-! ## Runs with faults -/

/-- A call with what the system does. -/
inductive Attempt where
  | put (io : Io) (key value : Bytes)
  | putEx (io : Io) (key value : Bytes) (expiresAt : UInt32)
  | delete (io : Io) (key : Bytes)
  deriving DecidableEq, Repr

/-- A manager whose calls can fail. -/
structure Faulted where
  pm : PersistentManager
  /-- The keys and values of all calls, whether or not they succeeded. -/
  passed : List (Bytes × Bytes)

/-- What replay reads from a log. -/
def recordsOf (w : WAL) : List WALRecord := ((w.iterate 0).map Prod.fst).getD []

/-- The map that replay builds. -/
def rebuilt (recs : List WALRecord) : Bytes → Option Handle := replayed (fun _ => none) recs

/-- Replay does not set the empty key over an entry, and maps keys as `P` allows. -/
def MapsTo (P : Bytes → Handle → Prop) (recs : List WALRecord) : Prop :=
  NilSafe (fun _ => none) recs ∧ ∀ r ∈ recs, ∀ g ∈ rebuilt recs r.key.bytes, P r.key.bytes g

instance (P : Bytes → Handle → Prop) [∀ k g, Decidable (P k g)] (recs : List WALRecord) :
    Decidable (MapsTo P recs) :=
  inferInstanceAs (Decidable (_ ∧ _))

theorem apart_iff {h g : Handle} : Apart h g ↔ (h.region = g.region → h.size = 0 ∨ g.size = 0 ∨
    h.offset.toNat + h.size.toNat ≤ g.offset.toNat ∨
    g.offset.toNat + g.size.toNat ≤ h.offset.toNat) := by
  refine imp_congr_right fun _ => ?_
  rw [← UInt32.toNat_inj, ← UInt32.toNat_inj]
  simp only [Covers, UInt32.toNat_zero]
  constructor
  · intro hall
    have hlow := hall h.offset.toNat
    have hhigh := hall g.offset.toNat
    omega
  · intro hcase i
    omega

instance (h g : Handle) : Decidable (Apart h g) := decidable_of_iff _ apart_iff.symm

namespace Faulted

/-- A new manager on no files. -/
def start (regionSize : Nat) (durable : Bool) : Option Faulted :=
  match PersistentManager.new ⟨none, []⟩ regionSize durable with
  | .ok pm => some ⟨pm, []⟩
  | .error _ => none

/-- A call that fails is returned from like any other; the run goes on. -/
def step (s : Faulted) : Attempt → Option Faulted
  | .put io key value => (s.pm.put io key value).map fun (_, pm) => ⟨pm, (key, value) :: s.passed⟩
  | .putEx io key value expiresAt => (s.pm.putEx io key value expiresAt).map fun (_, pm) =>
    ⟨pm, (key, value) :: s.passed⟩
  | .delete io key => some { s with pm := (s.pm.delete io key).2 }

/-- The value goes into the first region, and not over bytes of a block that replay maps
another key to. -/
def ReadsAs (key value : Bytes) (hd : Handle) (k : Bytes) (g : Handle) : Prop :=
  g.region = 0 ∧ (k = key ∧ g = hd ∧ value.length < 2 ^ 32 ∨ Apart hd g)

instance (key value : Bytes) (hd : Handle) (k : Bytes) (g : Handle) :
    Decidable (ReadsAs key value hd k g) :=
  inferInstanceAs (Decidable (_ ∧ (_ ∨ _)))

/-- What storing a value has to respect: the area of the checkpoint, and what replay makes of
the log, as it is and after a crash. -/
def StoresClear (s : Faulted) (io : Io) (key value : Bytes)
    (record : ArenaHandleLike → WAL.Append) : Prop :=
  match s.pm.mgr.put value io.mmapOk with
  | some (.ok hd, mgr) =>
    let w := (s.pm.wal.append (record (logged hd)) io.fault).2
    s.pm.wal.KeyFits (record (logged hd)).op key value ∧
      loadCheckpoint mgr s.pm.regionSize = loadCheckpoint s.pm.mgr s.pm.regionSize ∧
      s.pm.wal.LeavesNoStray (record (logged hd)) io.fault ∧
      MapsTo (ReadsAs key value hd) (recordsOf w) ∧
      MapsTo (ReadsAs key value hd) (recordsOf (WAL.openWAL w.file w.maxOff))
  | _ => True

instance (s : Faulted) (io : Io) (key value : Bytes) (record : ArenaHandleLike → WAL.Append) :
    Decidable (s.StoresClear io key value record) := by
  unfold StoresClear
  split <;> infer_instance

/-- What a call has to respect, whether it fails or not. -/
def Harmless (s : Faulted) : Attempt → Prop
  | .put io key value => s.StoresClear io key value fun h => .set key value h
  | .putEx io key value expiresAt =>
    s.StoresClear io key value fun h => .setEx key value h expiresAt
  | .delete io key => s.pm.wal.KeyFits .del key [] ∧ s.pm.wal.LeavesNoStray (.del key) io.fault

instance : ∀ (s : Faulted) (c : Attempt), Decidable (s.Harmless c)
  | s, .put io key value =>
    inferInstanceAs (Decidable (s.StoresClear io key value fun h => .set key value h))
  | s, .putEx io key value expiresAt =>
    inferInstanceAs (Decidable (s.StoresClear io key value fun h => .setEx key value h expiresAt))
  | _, .delete _ _ => inferInstanceAs (Decidable (_ ∧ _))

/-! ## What every call keeps -/

/-- The handle stands in the first region and reads a value that was passed for the key. -/
def Authentic (passed : List (Bytes × Bytes)) (m : Manager) (k : Bytes) (g : Handle) : Prop :=
  g.region = 0 ∧ ∃ v, (k, v) ∈ passed ∧ m.view g = some (.ok v)

/-- Replay of these appends rebuilds authentic handles only. -/
def Rebuilds (passed : List (Bytes × Bytes)) (m : Manager) (as : List WAL.Append) : Prop :=
  NilSafe (fun _ => none) (as.map WAL.Append.record) ∧
    ∀ k g, rebuilt (as.map WAL.Append.record) k = some g → Authentic passed m k g

/-- The log has the records of `done` before the write offset and those of `extra` behind it.
Those of `extra` may be lost again, so both logs have to be sound. -/
structure Sound (s : Faulted) (done extra : List WAL.Append) : Prop where
  large : 8192 ≤ s.pm.regionSize
  owns : s.pm.mgr.Owns ∅
  above : ∀ reg, s.pm.mgr.regions[0]? = some reg → reg.alloc.Above superblockSize
  size : ∃ reg, s.pm.mgr.regions[0]? = some reg ∧ reg.data.size = s.pm.regionSize
  superblock : ∃ sb, readSuperblock s.pm.mgr = .ok sb
  checkpoint : HasCheckpoint s.pm.mgr s.pm.regionSize []
  leaves : s.pm.wal.Leaves done extra
  live : Rebuilds s.passed s.pm.mgr done
  crashed : Rebuilds s.passed s.pm.mgr (done ++ extra)

variable {s s' : Faulted} {done extra as : List WAL.Append} {m m' : Manager} {a : WAL.Append}
  {g : Handle} {k : Bytes}

theorem view_put (hm : m.Wf) {value : Bytes} {mmapOk : Bool} {res : Except Arena.Error Handle}
    (hput : m.put value mmapOk = some (res, m')) (hg : g.region = 0)
    (hclear : ∀ hd, res = .ok hd → Apart hd g) : m'.view g = m.view g := by
  have hnat : g.region.toNat = 0 := by rw [hg]; rfl
  obtain ⟨first, hfirst⟩ := exists_first hm
  have hadded : m.addRegion.regions[0]? = some first := by
    have hpos := Nat.zero_lt_of_lt hm.current
    rw [Manager.addRegion_getElem?, if_neg (by omega), hfirst]
  rcases hm.bounded.puts hput with _ | ⟨_, _⟩ | ⟨hd, reg, alloc, m₂, hm₂, hp, hsize, _⟩
  · rfl
  · exact view_first hfirst hadded rfl hg
  · have hm₂' : m₂.regions[0]? = some first := by
      rcases hm₂ with ⟨rfl, _⟩ | ⟨_, rfl, _⟩
      · exact hfirst
      · exact hadded
    rw [← view_first hfirst hm₂' rfl hg]
    by_cases hzero : hd.region = 0
    · have hself := Manager.regions_placed_self alloc hp.region (value.take (value.length % 2 ^ 32))
      have hreg := hp.region
      rw [show hd.region.toNat = 0 by rw [hzero]; rfl] at hself hreg
      have hread : (reg.data.write hd.offset.toNat (value.take (value.length % 2 ^ 32))).read
          g.offset.toNat g.size.toNat = reg.data.read g.offset.toNat g.size.toNat := by
        refine Cells.read_congr fun i hlo hhi => ?_
        have hout := hclear hd rfl (hzero.trans hg.symm) i
        simp only [Covers, hsize] at hout
        by_cases hlt : i < hd.offset.toNat
        · exact Cells.get_write_of_lt _ _ _ hlt
        · refine Cells.get_write_of_ge _ _ _ ?_
          rw [List.length_take, Nat.min_eq_left (Nat.mod_le _ _)]
          omega
      simp only [Manager.view, hnat, hself, hreg, Cells.size_write, hread]
    · have hne : 0 ≠ hd.region.toNat := fun heq => hzero (UInt8.toNat_inj.mp heq.symm)
      simp only [Manager.view, hnat, Manager.regions_placed_other _ _ _ _ hne]

theorem rebuilt_snoc (as : List WAL.Append) (a : WAL.Append) :
    rebuilt ((as ++ [a]).map WAL.Append.record) = Function.update
      (rebuilt (as.map WAL.Append.record)) a.key
      (if a.op = .del then none else some a.record.handle) :=
  replayed_snoc _ as a

/-- Where a handle comes from that replay maps a key to after an append. -/
theorem Sound.mapped (h : s.Sound done extra)
    (has : as = done ++ extra ∨ as = done ∨ as = done ++ [a])
    (hk : rebuilt (as.map WAL.Append.record) k = some g) :
    Authentic s.passed s.pm.mgr k g ∨ a ∈ as ∧ a.op ≠ .del ∧ k = a.key ∧ g = a.record.handle := by
  rcases has with rfl | rfl | rfl
  · exact .inl (h.crashed.2 k g hk)
  · exact .inl (h.live.2 k g hk)
  · rw [rebuilt_snoc] at hk
    by_cases hkey : k = a.key
    · rw [hkey, Function.update_self] at hk
      split at hk
      · cases hk
      · rename_i hop
        exact .inr ⟨by simp, hop, hkey, (Option.some.inj hk).symm⟩
    · rw [Function.update_of_ne hkey] at hk
      exact .inl (h.live.2 k g hk)

theorem Sound.deleted (h : s.Sound done extra) {io : Io} {key : Bytes}
    (hok : s.Harmless (.delete io key)) :
    ∃ done' extra', ({ s with pm := (s.pm.delete io key).2 } : Faulted).Sound done' extra' := by
  obtain ⟨hkey, hstray⟩ := hok
  have hpm : (s.pm.delete io key).2 = { s.pm with wal := (s.pm.wal.append (.del key) io.fault).2 } := by
    unfold PersistentManager.delete
    split <;> rename_i happ <;> rw [happ]
  obtain ⟨done', extra', hleaves, hdone, hall⟩ := h.leaves.append (a := .del key) hkey hstray
  have hrebuilds : ∀ as, (as = done ++ extra ∨ as = done ∨ as = done ++ [.del key]) →
      Rebuilds s.passed s.pm.mgr as := by
    intro as has
    refine ⟨?_, fun k g hk => ?_⟩
    · rcases has with rfl | rfl | rfl
      · exact h.crashed.1
      · exact h.live.1
      · exact nilSafe_snoc h.live.1 fun hop => absurd rfl hop
    · rcases h.mapped has hk with hold | ⟨_, hop, _⟩
      · exact hold
      · exact absurd rfl hop
  rw [hpm]
  exact ⟨done', extra', h.large, h.owns, h.above, h.size, h.superblock, h.checkpoint, hleaves,
    hrebuilds done' (.inr hdone), hrebuilds _ hall⟩

theorem Authentic.passed_more {passed : List (Bytes × Bytes)} (h : Authentic passed m k g)
    (hview : m'.view g = m.view g) (p : Bytes × Bytes) :
    Authentic (p :: passed) m' k g := by
  obtain ⟨hregion, v, hmem, hv⟩ := h
  exact ⟨hregion, v, List.mem_cons_of_mem p hmem, hview.trans hv⟩

/-- A manager that has kept the superblock and what is read as the checkpoint. -/
theorem Sound.of_mgr (h : s.Sound done extra) {mgr : Manager} {wal : WAL} {p : Bytes × Bytes}
    {done' extra' : List WAL.Append} (howns : mgr.Owns ∅)
    (habove : ∀ reg, mgr.regions[0]? = some reg → reg.alloc.Above superblockSize)
    (hhead : HeadAgrees superblockSize s.pm.mgr mgr)
    (hck : loadCheckpoint mgr s.pm.regionSize = loadCheckpoint s.pm.mgr s.pm.regionSize)
    (hleaves : wal.Leaves done' extra') (hlive : Rebuilds (p :: s.passed) mgr done')
    (hcrashed : Rebuilds (p :: s.passed) mgr (done' ++ extra')) :
    Sound ⟨{ s.pm with mgr := mgr, wal := wal }, p :: s.passed⟩ done' extra' := by
  have hsb := hhead.readSuperblock (Nat.le_refl _)
  obtain ⟨reg, reg', hreg, hreg', hsame, _⟩ := hhead
  obtain ⟨r, hr, hsize⟩ := h.size
  cases hreg.symm.trans hr
  obtain ⟨sb, hread⟩ := h.superblock
  exact ⟨h.large, howns, habove, ⟨reg', hreg', hsame.trans hsize⟩, ⟨sb, hsb.trans hread⟩,
    by rw [HasCheckpoint, hck]; exact h.checkpoint, hleaves, hlive, hcrashed⟩

/-- What the condition says of the log that a call leaves. -/
theorem rebuilt_of_mapsTo {P : Bytes → Handle → Prop} {recs : List WALRecord} (h : MapsTo P recs)
    (hk : rebuilt recs k = some g) : P k g := by
  by_cases hmem : ∀ r ∈ recs, r.key.bytes ≠ k
  · rw [rebuilt, replayed_of_not_mem hmem] at hk
    cases hk
  · push Not at hmem
    obtain ⟨r, hr, rfl⟩ := hmem
    exact h.2 r hr g hk

/-- After a `Put`, what replay maps keys to is the new value, or reads what it has read before. -/
theorem Sound.rebuilds_put (h : s.Sound done extra) {key value : Bytes} {mmapOk : Bool} {hd : Handle}
    {mgr : Manager} (hmgr : s.pm.mgr.put value mmapOk = some (.ok hd, mgr))
    (hspec : Manager.Stored s.pm.mgr ∅ (value.take (value.length % 2 ^ 32)) hd mgr)
    (hkey : a.key = key) (hvalue : a.value = value) (hhandle : a.handle = logged hd)
    (has : as = done ++ extra ∨ as = done ∨ as = done ++ [a]) (hfits : ∀ b ∈ as, b.Fits)
    (hmaps : MapsTo (ReadsAs key value hd) (as.map WAL.Append.record)) :
    Rebuilds ((key, value) :: s.passed) mgr as := by
  refine ⟨hmaps.1, fun k g hk => ?_⟩
  have hnew : value.length < 2 ^ 32 → hd.region = 0 →
      Authentic ((key, value) :: s.passed) mgr key hd := by
    intro hlen hregion
    refine ⟨hregion, value, List.mem_cons_self, ?_⟩
    rw [hspec.view, Nat.mod_eq_of_lt hlen, List.take_length]
  obtain ⟨hregion, hclear⟩ := rebuilt_of_mapsTo hmaps hk
  rcases h.mapped has hk with hold | ⟨hmem, _, hk', hg⟩
  · rcases hclear with ⟨rfl, rfl, hlen⟩ | hapart
    · exact hnew hlen hregion
    · refine hold.passed_more (view_put h.owns.wf hmgr hregion fun hd' hres => ?_) _
      cases hres
      exact hapart
  · rw [handle_of_logged hhandle hspec.word] at hg
    rw [hkey] at hk'
    subst hk' hg
    exact hnew (hvalue ▸ (hfits _ hmem).value) hregion

theorem Sound.stored (h : s.Sound done extra) {io : Io} {key value : Bytes}
    {record : ArenaHandleLike → WAL.Append} (hok : s.StoresClear io key value record)
    {res : Except Error (Handle × Bytes)} {pm' : PersistentManager}
    (hput : s.pm.putWith io value record = some (res, pm')) (hkey : ∀ l, (record l).key = key)
    (hvalue : ∀ l, (record l).value = value) (hhandle : ∀ l, (record l).handle = l) :
    ∃ done' extra', Sound ⟨pm', (key, value) :: s.passed⟩ done' extra' := by
  obtain ⟨out, mgr, hmgr, hspec⟩ := Manager.put_spec h.owns value io.mmapOk
  obtain ⟨habove, _, hplaced⟩ := above_put h.owns.wf h.above hmgr
  have hhead : HeadAgrees superblockSize s.pm.mgr mgr :=
    headAgrees_put h.owns.wf hmgr fun hd hres => (hplaced hd hres).2
  have hkeep : ∀ as, Rebuilds s.passed s.pm.mgr as → (∀ hd, out ≠ .ok hd) →
      Rebuilds ((key, value) :: s.passed) mgr as := by
    refine fun as has herr => ⟨has.1, fun k g hk => ?_⟩
    exact (has.2 k g hk).passed_more
      (view_put h.owns.wf hmgr (has.2 k g hk).1 fun hd hres => absurd hres (herr hd)) _
  rcases putWith_cases hput with ⟨e, mgr', hmgr', _, rfl⟩ | ⟨hd, mgr', hmgr', hrest⟩
  · cases hmgr.symm.trans hmgr'
    have harea : HeadAgrees (areaEnd s.pm.regionSize) s.pm.mgr mgr :=
      headAgrees_put h.owns.wf hmgr fun _ herr => by cases herr
    have herr : ∀ hd, (.error e : Except Arena.Error Handle) ≠ .ok hd := fun hd heq => by cases heq
    exact ⟨done, extra, h.of_mgr hspec.1 habove hhead (harea.loadCheckpoint (Nat.le_refl _)) h.leaves
      (hkeep done h.live herr) (hkeep _ h.crashed herr)⟩
  · cases hmgr.symm.trans hmgr'
    simp only [StoresClear, hmgr] at hok
    obtain ⟨hshort, hck, hstray, hlive, hcrash⟩ := hok
    have hstored := hspec.owns
    obtain ⟨done', extra', hleaves, hdone, hall⟩ :=
      h.leaves.append (by rw [hkey, hvalue]; exact hshort) hstray
    have hiter := hleaves.iterate
    obtain ⟨_, stop, hopen⟩ := hleaves.replays.openWAL
      (s.pm.wal.append (record (logged hd)) io.fault).2.maxOff
    rw [recordsOf, hiter] at hlive
    rw [recordsOf, hopen] at hcrash
    have hfits := hleaves.fits
    have hlive' := h.rebuilds_put hmgr hspec (hkey _) (hvalue _) (hhandle _) (.inr hdone)
      (fun a ha => hfits a (List.mem_append_left _ ha)) hlive
    have hcrash' := h.rebuilds_put hmgr hspec (hkey _) (hvalue _) (hhandle _) hall hfits hcrash
    generalize (s.pm.wal.append (record (logged hd)) io.fault) = appended at hrest hleaves
    have hback : Sound ⟨{ s.pm with mgr := (mgr.free hd).2, wal := appended.2 },
        (key, value) :: s.passed⟩ done' extra' := by
      have hfree := headAgrees_free hstored.wf hd
      refine h.of_mgr ((Manager.free_spec hstored (Set.mem_insert hd ∅)).2.1.mono (by simp))
        (above_free habove (hplaced hd rfl).2).1 (hhead.trans (hfree _))
        (((hfree _).loadCheckpoint (Nat.le_refl _)).trans hck) hleaves ?_ ?_
      · simpa only [Rebuilds, Authentic, Manager.view_free] using hlive'
      · simpa only [Rebuilds, Authentic, Manager.view_free] using hcrash'
    rcases hrest with ⟨e, wal, rfl, _, rfl⟩ | ⟨off, wal, rfl, ⟨_, _, rfl⟩ | ⟨seen, _, rfl, _⟩⟩
    · exact ⟨done', extra', hback⟩
    · exact ⟨done', extra', hback⟩
    · exact ⟨done', extra', h.of_mgr (hstored.mono (by simp)) habove hhead hck hleaves hlive' hcrash'⟩

theorem sound_start {regionSize : Nat} {durable : Bool} (hlarge : 8192 ≤ regionSize)
    (h : start regionSize durable = some s) :
    s.Sound [] [] ∧ s.pm.regionSize = regionSize ∧ s.pm.durable = durable := by
  unfold start at h
  split at h
  · rename_i pm hnew
    cases h
    obtain ⟨hintact, howns, hrs, hdurable⟩ := intact_new hlarge hnew
    have hreserved : superblockSize ≤ Arena.alignUp (Arena.persistReservedBytes regionSize) := by
      refine Nat.le_trans ?_ (Arena.le_alignUp _)
      simp only [superblockSize, Arena.persistReservedBytes]
      split_ifs <;> omega
    have hempty : Rebuilds [] pm.mgr [] :=
      ⟨trivial, fun _ _ hk => by cases hk⟩
    refine ⟨⟨hintact.large, howns, fun reg hreg => ?_, hintact.size, hintact.superblock,
      hintact.checkpoint, ?_, hempty, hempty⟩, hrs, hdurable⟩
    · obtain ⟨data, _, hregs⟩ := (fresh_new hnew).1.regions
      rw [hregs] at hreg
      cases hreg
      exact (Allocator.above_init _ _).mono hreserved
    · have hfile := hintact.logs.file
      exact ⟨hintact.logs.off, ⟨[], hfile⟩, by rw [hfile]; rfl, by simp, hintact.maxOff⟩
  · cases h

theorem sound_step {c : Attempt} (h : ∃ done extra, s.Sound done extra) (hok : s.Harmless c)
    (hstep : s.step c = some s') : ∃ done extra, s'.Sound done extra := by
  obtain ⟨done, extra, h⟩ := h
  cases c with
  | put io key value =>
    obtain ⟨⟨res, pm'⟩, hput, rfl⟩ := Option.map_eq_some_iff.mp hstep
    exact h.stored hok hput (fun _ => rfl) (fun _ => rfl) (fun _ => rfl)
  | putEx io key value expiresAt =>
    obtain ⟨⟨res, pm'⟩, hput, rfl⟩ := Option.map_eq_some_iff.mp hstep
    have hclear : s.StoresClear io key value fun h => .setEx key value h expiresAt := hok
    exact h.stored hclear hput (fun _ => rfl) (fun _ => rfl) (fun _ => rfl)
  | delete io key =>
    cases hstep
    exact h.deleted hok

/-- No call changes the size or the mode of the manager. -/
theorem step_config {c : Attempt} (hstep : s.step c = some s') :
    s'.pm.regionSize = s.pm.regionSize ∧ s'.pm.durable = s.pm.durable := by
  have hput : ∀ {io value record res pm'}, s.pm.putWith io value record = some (res, pm') →
      pm'.regionSize = s.pm.regionSize ∧ pm'.durable = s.pm.durable := by
    intro io value record res pm' hput
    rcases putWith_cases hput with ⟨_, _, _, _, rfl⟩ | ⟨_, _, _, hrest⟩
    · exact ⟨rfl, rfl⟩
    · rcases hrest with ⟨_, _, _, _, rfl⟩ | ⟨_, _, _, ⟨_, _, rfl⟩ | ⟨_, _, rfl, _⟩⟩ <;>
        exact ⟨rfl, rfl⟩
  cases c with
  | put io key value =>
    obtain ⟨⟨res, pm'⟩, hcall, rfl⟩ := Option.map_eq_some_iff.mp hstep
    exact hput hcall
  | putEx io key value expiresAt =>
    obtain ⟨⟨res, pm'⟩, hcall, rfl⟩ := Option.map_eq_some_iff.mp hstep
    exact hput hcall
  | delete io key =>
    cases hstep
    unfold PersistentManager.delete
    split <;> exact ⟨rfl, rfl⟩

/-! ## Restart -/

theorem loadIndex_empty {pm : PersistentManager} (h : HasCheckpoint pm.mgr pm.regionSize [])
    (idx : HashIndex) : pm.loadIndex idx =
      (replayTo pm.wal idx).map fun idx => (.ok (), idx, pm.syncLiveObjects idx) := by
  rcases h with hok | ⟨hbad, _⟩
  · rw [PersistentManager.loadIndex, hok, Option.map_eq_bind]
    rfl
  · rw [PersistentManager.loadIndex, hbad, Option.map_eq_bind]
    rfl

theorem Sound.restart (h : s.Sound done extra) {n : Nat} (hn : n ≤ 2 ^ 64) :
    (4 ≤ n → ∃ idx pm', PersistentManager.restart s.pm.disk s.pm.regionSize s.pm.durable n =
        some (.ok (idx, pm'))) ∧
      ∀ idx pm', PersistentManager.restart s.pm.disk s.pm.regionSize s.pm.durable n =
          some (.ok (idx, pm')) →
        idx.Wf ∧ idx.handles = rebuilt ((done ++ extra).map WAL.Append.record) ∧
          ∀ g : Handle, g.region = 0 → pm'.view g = s.pm.view g := by
  have hlarge := h.large
  obtain ⟨pm₁, hnew, hrs, hwal, reg, reg', hreg, hreg', hdata⟩ :=
    new_disk (by omega) h.size h.superblock
  have hagrees : HeadAgrees (areaEnd s.pm.regionSize) s.pm.mgr pm₁.mgr :=
    ⟨reg, reg', hreg, hreg', by rw [hdata], fun _ _ => by rw [hdata]⟩
  have hck : HasCheckpoint pm₁.mgr pm₁.regionSize [] := by
    rw [HasCheckpoint, hrs, hagrees.loadCheckpoint (Nat.le_refl _)]
    exact h.checkpoint
  obtain ⟨hfile, _⟩ := h.leaves.replays.openWAL (walMaxLen s.pm.regionSize)
  obtain ⟨_, stop, hiter⟩ := hfile.openWAL (walMaxLen s.pm.regionSize)
  rw [← hwal] at hiter
  have hnil : NilSafe (Index.new n).handles ((done ++ extra).map WAL.Append.record) := by
    rw [show (Index.new n).handles = fun _ => none from funext (HashIndex.handles_new n)]
    exact h.crashed.1
  have hrestart : PersistentManager.restart s.pm.disk s.pm.regionSize s.pm.durable n =
      (((done ++ extra).map WAL.Append.record).foldlM applyRecord (Index.new n)).map fun idx =>
        .ok (idx, pm₁.syncLiveObjects idx) := by
    rw [PersistentManager.restart, hnew]
    simp only [loadIndex_empty hck, replayTo, hiter, Option.map_map]
    rfl
  rw [hrestart]
  refine ⟨fun hfour => ?_, fun idx pm' heq => ?_⟩
  · obtain ⟨idx, hfold, _⟩ := foldlM_applyRecord _ (HashIndex.roomy_new hfour hn) hnil
    exact ⟨idx, _, by rw [hfold]; rfl⟩
  · obtain ⟨idx', hfold, heq⟩ := Option.map_eq_some_iff.mp heq
    cases heq
    obtain ⟨hloose, hhandles⟩ :=
      handles_foldlM_applyRecord _ (HashIndex.loose_new hn) hnil hfold
    obtain ⟨last, hlast, hlastData⟩ := syncLiveObjects_head pm₁ idx hreg'
    refine ⟨hloose.wf, ?_, fun g hg => view_first hreg hlast (hlastData.trans hdata) hg⟩
    rw [hhandles, show (Index.new n).handles = fun _ => none from funext (HashIndex.handles_new n)]
    rfl

/-- A region of less than 8192 bytes has no room for the checkpoint area, and `LoadIndex` fails. -/
theorem restart_small {d : Disk} {regionSize n : Nat} {durable : Bool} (hsmall : regionSize < 8192)
    (idx : HashIndex) (pm : PersistentManager) :
    PersistentManager.restart d regionSize durable n ≠ some (.ok (idx, pm)) := by
  intro h
  unfold PersistentManager.restart at h
  split at h
  · cases h
  · rename_i pm₀ hnew
    obtain ⟨hfresh, hrs⟩ := fresh_new hnew
    obtain ⟨data, hdata, hregs⟩ := hfresh.regions
    have harea : 4096 ≤ indexCheckpointMaxLen regionSize := by
      simp only [indexCheckpointMaxLen]
      split_ifs <;> omega
    have hload : loadCheckpoint pm₀.mgr pm₀.regionSize = .error .readPastEnd := by
      rw [loadCheckpoint, copyArenaTo_eq (by rw [hregs]; rfl), hrs, if_pos]
      · rfl
      · simp only [hdata, superblockSize]
        omega
    rw [PersistentManager.loadIndex, hload] at h
    cases h

/-- After a run of harmless calls a restart recovers only values that were passed for their keys,
and with four buckets or more it does return. -/
theorem recovered_values_passed (regionSize : Nat) (durable : Bool) {s₀ : Faulted}
    (hstart : start regionSize durable = some s₀) (calls : List Attempt)
    (hguard : Guarded step Harmless s₀ calls) (hrun : run step s₀ calls = some s) {n : Nat}
    (hn : n ≤ 2 ^ 64) :
    (8192 ≤ regionSize → 4 ≤ n → ∃ idx pm,
        PersistentManager.restart s.pm.disk regionSize durable n = some (.ok (idx, pm))) ∧
      ∀ idx pm, PersistentManager.restart s.pm.disk regionSize durable n = some (.ok (idx, pm)) →
        ∀ e ∈ idx.snapshot, ∃ v, (e.key, v) ∈ s.passed ∧ pm.view e.handle = some (.ok v) := by
  by_cases hlarge : 8192 ≤ regionSize
  · obtain ⟨hsound₀, hrs₀, hdurable₀⟩ := sound_start hlarge hstart
    obtain ⟨⟨done, extra, hsound⟩, hrs, hdurable⟩ := run_invariant
      (fun t : Faulted => (∃ done extra, t.Sound done extra) ∧ t.pm.regionSize = regionSize ∧
        t.pm.durable = durable)
      (fun t c t' ht hok hstep => ⟨sound_step ht.1 hok hstep,
        (step_config hstep).1.trans ht.2.1, (step_config hstep).2.trans ht.2.2⟩)
      calls s₀ s ⟨⟨[], [], hsound₀⟩, hrs₀, hdurable₀⟩ hguard hrun
    obtain ⟨hreturns, hrestart⟩ := hsound.restart hn
    rw [hrs, hdurable] at hreturns hrestart
    refine ⟨fun _ => hreturns, fun idx pm heq e he => ?_⟩
    obtain ⟨hwf, hhandles, hview⟩ := hrestart idx pm heq
    have hentry : idx.handles e.key = some e.handle := by
      rw [hwf.snapshot] at he
      have hlook : idx.lookup e.key = some e := hwf.probing.lookup_eq_some.mpr
        ⟨Probing.mem_entries.mp he, rfl⟩
      rw [HashIndex.handles, hlook]
      rfl
    obtain ⟨hregion, v, hpassed, hv⟩ := hsound.crashed.2 e.key e.handle (hhandles ▸ hentry)
    exact ⟨v, hpassed, (hview e.handle hregion).trans hv⟩
  · exact ⟨fun h => absurd h hlarge, fun idx pm heq =>
      absurd heq (restart_small (Nat.lt_of_not_le hlarge) idx pm)⟩

/-- A value whose record is torn, another whose record cannot be synced, a retry that goes into
the same block, and a deletion. -/
theorem recovered_values_passed_retry :
    ∃ s₀ s, start 16384 true = some s₀ ∧
      run step s₀ [.put ⟨true, some 27, true⟩ [97] [1], .put ⟨true, none, false⟩ [98] [2, 3],
        .putEx .fine [98] [4, 5, 6] 9, .put .fine [99] [7], .delete .fine [99]] = some s ∧
      ∃ idx pm, PersistentManager.restart s.pm.disk 16384 true 16 = some (.ok (idx, pm)) ∧
        ∀ e ∈ idx.snapshot, ∃ v, (e.key, v) ∈ s.passed ∧ pm.view e.handle = some (.ok v) := by
  obtain ⟨s₀, hstart, hguard, s, hrun, _⟩ : ∃ s₀, start 16384 true = some s₀ ∧
      Guarded step Harmless s₀ [.put ⟨true, some 27, true⟩ [97] [1],
        .put ⟨true, none, false⟩ [98] [2, 3], .putEx .fine [98] [4, 5, 6] 9, .put .fine [99] [7],
        .delete .fine [99]] ∧
      ∃ s, run step s₀ [.put ⟨true, some 27, true⟩ [97] [1], .put ⟨true, none, false⟩ [98] [2, 3],
        .putEx .fine [98] [4, 5, 6] 9, .put .fine [99] [7], .delete .fine [99]] = some s ∧ True := by
    decide +kernel
  obtain ⟨hreturns, hkeys⟩ :=
    recovered_values_passed 16384 true hstart _ hguard hrun (n := 16) (by decide)
  obtain ⟨idx, pm, hrestart⟩ := hreturns (by decide) (by decide)
  exact ⟨s₀, s, hstart, hrun, idx, pm, hrestart, hkeys idx pm hrestart⟩

/-- A value whose record cannot be synced gives its block back, and the next value goes there;
after a restart the first key reads the second value. -/
theorem unsynced_key_reads_other_value :
    ∃ s idx pm g, (start 16384 true).bind (fun s₀ => run step s₀
        [.put ⟨true, none, false⟩ [97] [1], .put .fine [98] [2]]) = some s ∧
      s.passed = [([98], [2]), ([97], [1])] ∧
      PersistentManager.restart s.pm.disk 16384 true 16 = some (.ok (idx, pm)) ∧
      idx.get [97] 0 = some (some g) ∧ pm.view g = some (.ok [2]) := by
  obtain ⟨s, hrun, hpassed, idx, pm, hrestart, hget, hview⟩ : ∃ s : Faulted,
      ((start 16384 true).bind fun s₀ => run step s₀
        [.put ⟨true, none, false⟩ [97] [1], .put .fine [98] [2]]) = some s ∧
      s.passed = [([98], [2]), ([97], [1])] ∧ ∃ idx pm,
        PersistentManager.restart s.pm.disk 16384 true 16 = some (.ok (idx, pm)) ∧
        idx.get [97] 0 = some (some ⟨8192, 1, 0, 0⟩) ∧
        pm.view ⟨8192, 1, 0, 0⟩ = some (.ok [2]) := by
    decide +kernel
  exact ⟨s, idx, pm, _, hrun, hpassed, hrestart, hget, hview⟩

end Faulted

end Horreum.Persist
