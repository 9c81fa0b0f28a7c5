/-
  Persist/Recovery.lean --- what a restart rebuilds.

  Abstractly an index is a map from keys to handles.  A checkpoint lists such a map, and
  every log record is an update of one; a restart gives the listed map with the updates
  applied in order.  The one thing that spoils this is a SET of the empty key over an entry
  for it: the iterator yields a nil key, and an update of the index with a nil key frees the
  slot.
-/
import Horreum.Foundation.LastWriter
import Horreum.Foundation.Runs
import Horreum.Persist.Layout
import Horreum.Persist.PersistentManager
import Horreum.Persist.WalLog

set_option autoImplicit false

namespace Horreum.Persist

open Foundation
open Arena (Manager Handle Region openFileManager)
open Index (HashIndex Entry)

/-! ## Maps -/

/-- The map a list of checkpoint entries stands for: the first entry of a key counts. -/
def listed (es : List Entry) (key : Bytes) : Option Handle :=
  (HashIndex.firstOf es key).map Entry.handle

variable {M : Bytes → Option Handle} {idx : HashIndex}

theorem eq_or_of_update {key k : Bytes} {o : Option Handle} {h : Handle}
    (hk : Function.update M key o k = some h) : o = some h ∨ M k = some h := by
  by_cases hkey : k = key
  · rw [hkey, Function.update_self] at hk
    exact .inl hk
  · rw [Function.update_of_ne hkey] at hk
    exact .inr hk

/-- Two maps that are changed at one key, compared key by key. -/
theorem forall_update_both {β γ : Type} {f : Bytes → β} {g : Bytes → γ} {key : Bytes} {b : β} {c : γ}
    {p : β → γ → Prop} (hkey : p b c) (hrest : ∀ k, p (f k) (g k)) (k : Bytes) :
    p (Function.update f key b k) (Function.update g key c k) := by
  by_cases hk : k = key
  · rw [hk, Function.update_self, Function.update_self]
    exact hkey
  · rw [Function.update_of_ne hk, Function.update_of_ne hk]
    exact hrest k

/-- A log record as an update. -/
def WALRecord.effect (M : Bytes → Option Handle) (r : WALRecord) : Bytes → Option Handle :=
  Function.update M r.key.bytes (if r.op = .del then none else some r.handle)

/-- A map with the records applied. -/
def replayed (M : Bytes → Option Handle) (recs : List WALRecord) : Bytes → Option Handle :=
  recs.foldl WALRecord.effect M

/-- The record does not set the empty key where there is an entry for it. -/
def WALRecord.NilSafe (M : Bytes → Option Handle) (r : WALRecord) : Prop :=
  r.op ≠ .del → r.key = none → M [] = none

instance (M : Bytes → Option Handle) (r : WALRecord) : Decidable (r.NilSafe M) :=
  inferInstanceAs (Decidable (_ → _ → _))

/-- No record of the replay does. -/
def NilSafe : (M : Bytes → Option Handle) → List WALRecord → Prop
  | _, [] => True
  | M, r :: recs => r.NilSafe M ∧ NilSafe (r.effect M) recs

instance decidableNilSafe : ∀ (M : Bytes → Option Handle) (recs : List WALRecord),
    Decidable (NilSafe M recs)
  | _, [] => isTrue trivial
  | M, r :: recs =>
    have := decidableNilSafe (r.effect M) recs
    inferInstanceAs (Decidable (_ ∧ _))

theorem replayed_eq (M : Bytes → Option Handle) (recs : List WALRecord) :
    replayed M recs = lastWriter (fun r : WALRecord => r.key.bytes)
      (fun r => if r.op = .del then none else some r.handle) M recs := rfl

theorem replayed_append (M : Bytes → Option Handle) (recs recs' : List WALRecord) :
    replayed M (recs ++ recs') = replayed (replayed M recs) recs' := by
  simp only [replayed_eq, lastWriter_append]

theorem nilSafe_append {recs recs' : List WALRecord} : ∀ {M : Bytes → Option Handle},
    NilSafe M (recs ++ recs') ↔ NilSafe M recs ∧ NilSafe (replayed M recs) recs' := by
  induction recs with
  | nil =>
    intro M
    simp [NilSafe, replayed]
  | cons r recs ih =>
    intro M
    simp only [List.cons_append, NilSafe, ih, and_assoc]
    rfl

/-- The log grows by one call. -/
theorem replayed_snoc (M : Bytes → Option Handle) (as : List WAL.Append) (a : WAL.Append) :
    replayed M ((as ++ [a]).map WAL.Append.record) =
      Function.update (replayed M (as.map WAL.Append.record)) a.key
        (if a.op = .del then none else some a.record.handle) := by
  rw [List.map_append, replayed_append]
  simp only [List.map_cons, List.map_nil, replayed, List.foldl_cons, List.foldl_nil,
    WALRecord.effect, WAL.Append.record, Slice.bytes_ofRead]

theorem nilSafe_snoc {as : List WAL.Append} {a : WAL.Append}
    (h : NilSafe M (as.map WAL.Append.record))
    (hnil : a.op ≠ .del → a.key = [] → replayed M (as.map WAL.Append.record) [] = none) :
    NilSafe M ((as ++ [a]).map WAL.Append.record) := by
  rw [List.map_append, nilSafe_append]
  refine ⟨h, fun hop hkey => hnil hop ?_, trivial⟩
  rw [← Slice.bytes_ofRead a.key]
  exact congrArg Slice.bytes hkey

/-- What a restored checkpoint lists. -/
theorem listed_map_saved (es : List Entry) (k : Bytes) :
    listed (es.map saved) k = (HashIndex.firstOf es k).map fun e => (saved e).handle := by
  simp only [listed, HashIndex.firstOf, List.find?_map, Option.map_map]
  rfl

theorem saved_handle {e : Entry} (h : e.handle.metaWord.toNat < 256) : (saved e).handle = e.handle := by
  have hword : e.handle.metaWord.toUInt8.toUInt16 = e.handle.metaWord := by
    apply UInt16.toNat_inj.mp
    rw [UInt8.toNat_toUInt16, UInt16.toNat_toUInt8]
    exact Nat.mod_eq_of_lt h
  simp only [saved, hword]

theorem listed_snapshot (hwf : idx.Wf)
    (hword : ∀ k h, idx.handles k = some h → h.metaWord.toNat < 256) :
    listed (idx.snapshot.map saved) = idx.handles := by
  funext k
  rw [listed_map_saved, hwf.snapshot, HashIndex.handles]
  refine Option.map_congr fun e he => saved_handle ?_
  exact hword k e.handle (by rw [HashIndex.handles, show idx.lookup k = some e from he]; rfl)

variable {recs : List WALRecord} {es : List Entry} {regionSize n : Nat} {m : Manager}

/-- For the keys that the records mention it does not matter what they are applied to. -/
theorem replayed_congr {k : Bytes} {M M' : Bytes → Option Handle}
    (h : (∀ r ∈ recs, r.key.bytes ≠ k) → M k = M' k) : replayed M recs k = replayed M' recs k := by
  rw [replayed_eq, replayed_eq]
  exact lastWriter_congr h

theorem replayed_of_not_mem {k : Bytes} (h : ∀ r ∈ recs, r.key.bytes ≠ k) :
    replayed M recs k = M k := by
  rw [replayed_eq]
  exact lastWriter_of_not_mem h

/-- The log gives the map if it mentions every key of the checkpoint. -/
theorem replayed_empty_iff :
    replayed (fun _ => none) recs = replayed M recs ↔
      ∀ key, M key ≠ none → ∃ rec ∈ recs, rec.key.bytes = key := by
  constructor
  · intro heq key hkey
    by_contra hnone
    have hout : ∀ rec ∈ recs, rec.key.bytes ≠ key := fun rec hrec hk => hnone ⟨rec, hrec, hk⟩
    have hsame := congrFun heq key
    rw [replayed_of_not_mem hout, replayed_of_not_mem hout] at hsame
    exact hkey hsame.symm
  · intro hcovers
    refine funext fun key => replayed_congr fun hout => ?_
    by_contra hkey
    obtain ⟨rec, hrec, hk⟩ := hcovers key (Ne.symm hkey)
    exact hout rec hrec hk

theorem NilSafe.mono : ∀ {recs : List WALRecord} {M M' : Bytes → Option Handle}, NilSafe M recs →
    (M [] = none → M' [] = none) → NilSafe M' recs := by
  intro recs
  induction recs with
  | nil => exact fun _ _ => trivial
  | cons rec recs ih =>
    intro M M' h hle
    refine ⟨fun hop hkey => hle (h.1 hop hkey), ih h.2 ?_⟩
    unfold WALRecord.effect
    by_cases hkey : [] = rec.key.bytes
    · simp [← hkey]
    · rw [Function.update_of_ne hkey, Function.update_of_ne hkey]
      exact hle

/-- Every handle of the rebuilt map is one of the checkpoint or of a record. -/
theorem replayed_forall {P : Handle → Prop} (hrecs : ∀ r ∈ recs, P r.handle) :
    ∀ {M : Bytes → Option Handle},
    (∀ k h, M k = some h → P h) → ∀ k h, replayed M recs k = some h → P h := by
  induction recs with
  | nil => exact fun hM => hM
  | cons r recs ih =>
    intro M hM
    refine ih (fun r' hr' => hrecs r' (List.mem_cons_of_mem r hr')) fun k h hk => ?_
    unfold WALRecord.effect at hk
    by_cases hkk : k = r.key.bytes
    · rw [hkk, Function.update_self] at hk
      split at hk
      · cases hk
      · cases hk
        exact hrecs r List.mem_cons_self
    · rw [Function.update_of_ne hkk] at hk
      exact hM k h hk

/-! ## Rebuilding the index -/

theorem applyRecord_spec (h : idx.Roomy) {r : WALRecord} (hnil : r.NilSafe idx.handles) :
    ∃ idx', applyRecord idx r = some idx' ∧ idx'.Roomy ∧ idx'.handles = r.effect idx.handles := by
  unfold applyRecord WALRecord.effect
  cases hop : r.op with
  | del =>
    obtain ⟨_, idx', hdel, hroomy, hhandles⟩ := h.delete r.key.bytes
    exact ⟨idx', by rw [hdel]; rfl, hroomy, hhandles⟩
  | set =>
    obtain ⟨_, idx', hput, hroomy, hhandles⟩ :=
      h.put r.key r.handle 0 (hnil (by rw [hop]; decide))
    exact ⟨idx', by rw [hput]; rfl, hroomy, hhandles⟩
  | setEx =>
    obtain ⟨_, idx', hput, hroomy, hhandles⟩ :=
      h.put r.key r.handle r.expiresAt (hnil (by rw [hop]; decide))
    exact ⟨idx', by rw [hput]; rfl, hroomy, hhandles⟩

theorem foldlM_applyRecord (recs : List WALRecord) (h : idx.Roomy) (hnil : NilSafe idx.handles recs)
    :
    ∃ idx', recs.foldlM applyRecord idx = some idx' ∧ idx'.Roomy ∧
      idx'.handles = replayed idx.handles recs := by
  obtain ⟨idx', hfold, hroomy, _, hall⟩ := foldlM_total (fun rest idx' => idx'.Roomy ∧
    NilSafe idx'.handles rest ∧ replayed idx'.handles rest = replayed idx.handles recs)
    (fun r rest mid ⟨hmid, hnil, hall⟩ => by
      obtain ⟨idx', happ, hroomy, hhandles⟩ := applyRecord_spec hmid hnil.1
      exact ⟨idx', happ, hroomy, hhandles ▸ hnil.2, hhandles ▸ hall⟩) recs idx ⟨h, hnil, rfl⟩
  exact ⟨idx', hfold, hroomy, hall⟩

/-- A replay that returns has done this, however few buckets the table has. -/
theorem handles_foldlM_applyRecord (recs : List WALRecord) : ∀ {idx idx' : HashIndex}, idx.Loose →
    NilSafe idx.handles recs → recs.foldlM applyRecord idx = some idx' →
    idx'.Loose ∧ idx'.handles = replayed idx.handles recs := by
  induction recs with
  | nil =>
    intro idx idx' h _ hfold
    cases hfold
    exact ⟨h, rfl⟩
  | cons r recs ih =>
    intro idx idx' h hnil hfold
    rw [List.foldlM_cons] at hfold
    obtain ⟨mid, happ, hfold⟩ := Option.bind_eq_some_iff.mp hfold
    have hmid : mid.Loose ∧ mid.handles = r.effect idx.handles := by
      unfold applyRecord at happ
      unfold WALRecord.effect
      cases hop : r.op with
      | del =>
        obtain ⟨⟨out, t⟩, hcall, rfl⟩ := Option.map_eq_some_iff.mp (hop ▸ happ)
        exact h.delete hcall
      | set =>
        obtain ⟨⟨out, t⟩, hcall, rfl⟩ := Option.map_eq_some_iff.mp (hop ▸ happ)
        exact h.put hcall (hnil.1 (by rw [hop]; decide))
      | setEx =>
        obtain ⟨⟨out, t⟩, hcall, rfl⟩ := Option.map_eq_some_iff.mp (hop ▸ happ)
        exact h.put hcall (hnil.1 (by rw [hop]; decide))
    obtain ⟨hloose, hall⟩ := ih hmid.1 (hmid.2 ▸ hnil.2) hfold
    exact ⟨hloose, by rw [hall, hmid.2]; rfl⟩

theorem addEntries_lookup (hroom : es.length + 4 ≤ n) (hn : n ≤ 2 ^ 64) :
    ∃ idx, addEntries es (Index.new n) = some idx ∧ idx.Roomy ∧
      idx.lookup = HashIndex.firstOf es := by
  have hcount : (Index.new n).count = 0 := rfl
  have hlen := (HashIndex.wf_new hn).2
  obtain ⟨idx, hadd, hroomy, hlook⟩ :=
    HashIndex.Roomy.addAll es (HashIndex.roomy_new (by omega) hn) (by omega)
  refine ⟨idx, hadd, hroomy, funext fun k => ?_⟩
  rw [hlook, show (Index.new n).lookup k = none from HashIndex.lookup_sized _ k, Option.none_or]

theorem addEntries_new (hroom : es.length + 4 ≤ n) (hn : n ≤ 2 ^ 64) :
    ∃ idx, addEntries es (Index.new n) = some idx ∧ idx.Roomy ∧ idx.handles = listed es := by
  obtain ⟨idx, hadd, hroomy, hlook⟩ := addEntries_lookup hroom hn
  exact ⟨idx, hadd, hroomy, funext fun k => by rw [HashIndex.handles, hlook, listed]⟩

/-- The checkpoint area holds these entries, or nothing yet. -/
def HasCheckpoint (m : Manager) (regionSize : Nat) (es : List Entry) : Prop :=
  loadCheckpoint m regionSize = .ok es ∨
    loadCheckpoint m regionSize = .error .checkpointBadMagic ∧ es = []

theorem HasCheckpoint.length_le (h : HasCheckpoint m regionSize es) : es.length + 4 ≤ 2 ^ 16 := by
  rcases h with hok | ⟨_, rfl⟩
  · exact (loadCheckpoint_ok hok).1
  · decide

/-- A checkpoint area that can be read is inside the region. -/
theorem HasCheckpoint.area {reg : Region} (h : HasCheckpoint m regionSize es)
    (hreg : m.regions[0]? = some reg) : areaEnd regionSize ≤ reg.data.size := by
  by_contra hout
  have herr : loadCheckpoint m regionSize = .error .readPastEnd := by
    have hpast : superblockSize + indexCheckpointMaxLen regionSize > reg.data.size :=
      Nat.lt_of_not_le hout
    rw [loadCheckpoint, copyArenaTo_eq hreg, if_pos hpast]
    rfl
  rcases h with hok | ⟨hbad, _⟩
  · cases herr.symm.trans hok
  · cases herr.symm.trans hbad

/-- `LoadIndex` gives the map of the checkpoint with the records of the log applied. -/
theorem loadIndex_spec {pm : PersistentManager} {stop : Nat × WalError}
    (hck : HasCheckpoint pm.mgr pm.regionSize es)
    (hiter : pm.wal.iterate 0 = some (recs, stop)) (hnil : NilSafe (listed es) recs)
    (hroom : es.length + 4 ≤ n) (hn : n ≤ 2 ^ 64) :
    ∃ idx, pm.loadIndex (Index.new n) = some (.ok (), idx, pm.syncLiveObjects idx) ∧
      idx.Roomy ∧ idx.handles = replayed (listed es) recs := by
  obtain ⟨mid, hadd, hmid, hlisted⟩ := addEntries_new hroom hn
  obtain ⟨idx, hfold, hroomy, hhandles⟩ := foldlM_applyRecord recs hmid (hlisted ▸ hnil)
  have hreplay : replayTo pm.wal mid = some idx := by
    rw [replayTo, hiter]
    exact hfold
  refine ⟨idx, ?_, hroomy, hlisted ▸ hhandles⟩
  rcases hck with hok | ⟨hbad, rfl⟩
  · rw [PersistentManager.loadIndex, hok]
    simp [hadd, hreplay]
  · obtain rfl : mid = Index.new n := (Option.some.inj hadd).symm
    rw [PersistentManager.loadIndex, hbad]
    simp [hreplay]

/-! ## Opening the files -/

/-- The manager of a new file or of an old one; its superblock can be read. -/
theorem openArena_cases {arena : Option (Cells UInt8)} (h : openArena arena regionSize = .ok m) :
    (∃ sb, readSuperblock m = .ok sb) ∧
      ((arena = none ∧ ∃ sb, m = (openFileManager regionSize (Cells.fill regionSize 0)).poke origin 0
          (encodeSuperblock sb)) ∨
        ∃ data : Cells UInt8, arena = some data ∧
          m = openFileManager regionSize { data with size := regionSize }) := by
  unfold openArena at h
  split at h
  · have hreg : (openFileManager regionSize (Cells.fill regionSize 0)).regions[0]? = some
        ⟨Cells.fill regionSize 0, _, _⟩ := rfl
    rw [writeFreshSuperblock, setSuperblock, copyToArena_eq hreg] at h
    split at h
    · cases h
    · rename_i hroom
      cases h
      rw [length_encodeSuperblock, Nat.zero_add] at hroom
      exact ⟨⟨_, readSuperblock_poke hreg (Nat.le_of_not_lt hroom) rfl⟩, .inl ⟨rfl, _, rfl⟩⟩
  · rename_i data
    obtain ⟨sb, hsb, hm⟩ := bind_eq_ok h
    cases hm
    exact ⟨⟨sb, hsb⟩, .inr ⟨data, rfl, rfl⟩⟩

theorem new_cases {d : Disk} {durable : Bool} {pm : PersistentManager}
    (h : PersistentManager.new d regionSize durable = .ok pm) :
    0 < regionSize ∧ ∃ m, openArena d.arena regionSize = .ok m ∧
      pm = ⟨m, WAL.openWAL (WAL.openWAL d.wal (walMaxLen regionSize)).file (walMaxLen regionSize),
        regionSize, durable⟩ := by
  rw [PersistentManager.new] at h
  split at h
  · cases h
  · rename_i hpos
    obtain ⟨⟨mgr, file⟩, hcold, h⟩ := bind_eq_ok h
    obtain ⟨m, harena, hpair⟩ := bind_eq_ok hcold
    cases hpair
    cases h
    exact ⟨Nat.pos_of_ne_zero hpos, mgr, harena, rfl⟩

/-! ## Restarting -/

theorem syncLiveObjects_head (pm : PersistentManager) (idx : HashIndex) {reg : Region}
    (h : pm.mgr.regions[0]? = some reg) :
    ∃ reg', (pm.syncLiveObjects idx).mgr.regions[0]? = some reg' ∧ reg'.data = reg.data := by
  simp only [PersistentManager.syncLiveObjects, Manager.setLiveObjects, Manager.setUsedBytes]
  cases hregs : pm.mgr.regions with
  | nil => simp [hregs] at h
  | cons r rest =>
    obtain rfl : r = reg := by simpa [hregs] using h
    exact ⟨_, rfl, rfl⟩

section Restart

variable {pm : PersistentManager} {as : List WAL.Append} {es : List Entry}

/-- What `New` needs on the disk of a manager: the size of the first region, the superblock,
and a log that is a list of complete records up to where the repair scan stops. -/
structure Openable (pm : PersistentManager) (as : List WAL.Append) : Prop where
  pos : 0 < pm.regionSize
  size : ∃ reg, pm.mgr.regions[0]? = some reg ∧ reg.data.size = pm.regionSize
  superblock : ∃ sb, readSuperblock pm.mgr = .ok sb
  fits : ∀ a ∈ as, a.Fits
  log : ∃ tail, pm.wal.file = WAL.logBytes as ++ tail ∧
    WAL.recordLen (WAL.logBytes as ++ tail) (WAL.logBytes as).length = none

/-- `New` on what a crash has left: the first region is mapped again, and the log is opened by
the cold start and once more. -/
theorem new_disk (hpos : 0 < pm.regionSize)
    (hsize : ∃ reg, pm.mgr.regions[0]? = some reg ∧ reg.data.size = pm.regionSize)
    (hsuper : ∃ sb, readSuperblock pm.mgr = .ok sb) :
    ∃ pm', PersistentManager.new pm.disk pm.regionSize pm.durable = .ok pm' ∧
      pm'.regionSize = pm.regionSize ∧
      pm'.wal = WAL.openWAL (WAL.openWAL pm.wal.file (walMaxLen pm.regionSize)).file
        (walMaxLen pm.regionSize) ∧
      ∃ reg reg', pm.mgr.regions[0]? = some reg ∧ pm'.mgr.regions[0]? = some reg' ∧
        reg'.data = reg.data := by
  obtain ⟨reg, hreg, hsize⟩ := hsize
  obtain ⟨sb, hsb⟩ := hsuper
  have hdata : ({ reg.data with size := pm.regionSize } : Cells UInt8) = reg.data := by rw [← hsize]
  have hagrees : HeadAgrees superblockSize pm.mgr (openFileManager pm.regionSize reg.data) :=
    ⟨reg, _, hreg, rfl, rfl, fun _ _ => rfl⟩
  have hread : readSuperblock (openFileManager pm.regionSize reg.data) = .ok sb := by
    rw [hagrees.readSuperblock (Nat.le_refl _), hsb]
  have hdisk : pm.disk = ⟨some reg.data, pm.wal.file⟩ := by
    rw [PersistentManager.disk, List.head?_eq_getElem?, hreg]
    rfl
  refine ⟨⟨openFileManager pm.regionSize reg.data, WAL.openWAL
    (WAL.openWAL pm.wal.file (walMaxLen pm.regionSize)).file (walMaxLen pm.regionSize),
    pm.regionSize, pm.durable⟩, ?_, rfl, rfl, reg, _, hreg, rfl, rfl⟩
  rw [PersistentManager.new, if_neg (Nat.ne_of_gt hpos), hdisk, coldStart, openArena]
  simp only [hdata, hread, bind, Except.bind]

theorem Openable.new (h : Openable pm as) :
    ∃ pm', PersistentManager.new pm.disk pm.regionSize pm.durable = .ok pm' ∧
      pm'.regionSize = pm.regionSize ∧ pm'.wal.Logs as ∧
      ∃ reg reg', pm.mgr.regions[0]? = some reg ∧ pm'.mgr.regions[0]? = some reg' ∧
        reg'.data = reg.data := by
  obtain ⟨tail, hfile, hstop⟩ := h.log
  obtain ⟨pm', hnew, hrs, hwal, hregs⟩ := new_disk h.pos h.size h.superblock
  have hlogs := WAL.openWAL_logs (walMaxLen pm.regionSize) h.fits hstop
  have hend : WAL.recordLen (WAL.logBytes as ++ []) (WAL.logBytes as).length = none := by
    rw [List.append_nil]
    exact WAL.recordLen_end _
  have hlogs' := WAL.openWAL_logs (walMaxLen pm.regionSize) h.fits hend
  rw [List.append_nil, ← hlogs.file, ← hfile, ← hwal] at hlogs'
  exact ⟨pm', hnew, hrs, hlogs', hregs⟩

/-- A restart is `LoadIndex` on the same first region and the same records. -/
theorem Openable.restart_eq (h : Openable pm as) :
    ∃ pm' : PersistentManager, (∀ n, PersistentManager.restart pm.disk pm.regionSize pm.durable n =
        (pm'.loadIndex (Index.new n)).map fun (res, idx, pm) => res.map fun _ => (idx, pm)) ∧
      pm'.regionSize = pm.regionSize ∧ pm'.wal.Logs as ∧
      loadCheckpoint pm'.mgr pm'.regionSize = loadCheckpoint pm.mgr pm.regionSize ∧
      ∃ reg reg', pm.mgr.regions[0]? = some reg ∧ pm'.mgr.regions[0]? = some reg' ∧
        reg'.data = reg.data := by
  obtain ⟨pm', hnew, hrs, hlogs, reg, reg', hreg, hreg', hdata⟩ := h.new
  have hagrees : HeadAgrees (areaEnd pm.regionSize) pm.mgr pm'.mgr :=
    ⟨reg, reg', hreg, hreg', by rw [hdata], fun _ _ => by rw [hdata]⟩
  refine ⟨pm', fun n => ?_, hrs, hlogs, ?_, reg, reg', hreg, hreg', hdata⟩
  · rw [PersistentManager.restart, hnew]
  · rw [hrs, hagrees.loadCheckpoint (Nat.le_refl _)]

/-- A restart returns, gives the map of the checkpoint with the log applied, and what a handle
of the first region reads is what it read before. -/
theorem Openable.restart (h : Openable pm as) (hck : HasCheckpoint pm.mgr pm.regionSize es)
    (hnil : NilSafe (listed es) (as.map WAL.Append.record))
    (hroom : es.length + 4 ≤ n) (hn : n ≤ 2 ^ 64) :
    ∃ idx pm', PersistentManager.restart pm.disk pm.regionSize pm.durable n = some (.ok (idx, pm')) ∧
      idx.Roomy ∧ idx.handles = replayed (listed es) (as.map WAL.Append.record) ∧
      ∀ g : Handle, g.region = 0 → pm'.view g = pm.view g := by
  obtain ⟨pm', hrestart, hrs, hlogs, hload, reg, reg', hreg, hreg', hdata⟩ := h.restart_eq
  have hck' : HasCheckpoint pm'.mgr pm'.regionSize es := by
    rw [HasCheckpoint, hload]
    exact hck
  obtain ⟨idx, hidx, hroomy, hhandles⟩ := loadIndex_spec hck' (hlogs.iterate h.fits) hnil hroom hn
  obtain ⟨last, hlast, hlastData⟩ := syncLiveObjects_head pm' idx hreg'
  refine ⟨idx, pm'.syncLiveObjects idx, ?_, hroomy, hhandles, fun g hg => ?_⟩
  · rw [hrestart, hidx]
    rfl
  · exact view_first hreg hlast (hlastData.trans hdata) hg

/-- A checkpoint that cannot be decoded stops the restart. -/
theorem Openable.restart_error (h : Openable pm as) {e : Error}
    (hck : loadCheckpoint pm.mgr pm.regionSize = .error e) (he : e ≠ .checkpointBadMagic) (n : Nat) :
    PersistentManager.restart pm.disk pm.regionSize pm.durable n = some (.error e) := by
  obtain ⟨pm', hrestart, _, _, hload, _⟩ := h.restart_eq
  rw [hrestart, PersistentManager.loadIndex, hload, hck]
  split
  · rename_i heq
    cases heq
    exact absurd rfl he
  · rename_i heq
    cases heq
    rfl
  · rename_i heq
    cases heq

end Restart

end Horreum.Persist
