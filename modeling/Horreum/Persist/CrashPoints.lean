/-
  Persist/CrashPoints.lean --- a crash in the middle of a checkpoint.

  A checkpoint copies its body over the old one, syncs, updates the superblock, syncs, and
  truncates the log.  From the complete body on every crash is harmless: the records that are
  still in the log are replayed over a checkpoint that has their effect already.  Before that
  the area has a prefix of the new body and the rest of the old one, and nothing tells so.
-/
import Horreum.Persist.Durability
import Horreum.Persist.Replay

set_option autoImplicit false

namespace Horreum.Persist

open Foundation
open Arena (Manager Handle)
open Index (HashIndex Entry)
open WAL.Append (record)

/-- Where a `Checkpoint` can be cut off. -/
inductive CrashPoint where
  /-- `n` bytes of the body are copied. -/
  | body (n : Nat)
  /-- The body is complete, the superblock is the old one. -/
  | bodyDone
  /-- The superblock is new, the log is still there. -/
  | superblockDone
  | rotated
  deriving DecidableEq, Repr

/-- What is in the log at that point. -/
def CrashPoint.log (p : CrashPoint) (as : List WAL.Append) : List WAL.Append :=
  match p with
  | .rotated => []
  | _ => as

/-- The state in which a checkpoint of `idx` is caught.  From the complete body on it is the
state in which the call returns when the next sync or the truncation fails. -/
def PersistentManager.crashAt (pm : PersistentManager) (idx : HashIndex) :
    CrashPoint → PersistentManager
  | .body n =>
    match encodeCheckpoint (indexCheckpointMaxLen pm.regionSize) idx.snapshot with
    | .error _ => pm
    | .ok body =>
      match copyToArena pm.mgr superblockSize (body.take n) with
      | .error _ => pm
      | .ok mgr => { pm with mgr := mgr }
  | .bodyDone => (pm.checkpoint ⟨false, true, true⟩ idx).2
  | .superblockDone => (pm.checkpoint ⟨true, true, false⟩ idx).2
  | .rotated => (pm.checkpoint .fine idx).2

/-- A restart into a large enough index gives the map `M`. -/
def Restores (pm : PersistentManager) (M : Bytes → Option Handle) : Prop :=
  ∃ N, N ≤ 2 ^ 16 ∧ ∀ n, N ≤ n → n ≤ 2 ^ 63 → ∃ idx pm',
    PersistentManager.restart pm.disk pm.regionSize pm.durable n = some (.ok (idx, pm')) ∧
    ∀ k, idx.get k 0 = some (M k)

/-- The manager with its log cut off behind the first `k` of these records. -/
def PersistentManager.cutLog (pm : PersistentManager) (as : List WAL.Append) (k : Nat) :
    PersistentManager :=
  { pm with wal := { pm.wal with file := WAL.logBytes (as.take k) } }

/-- A restart gives `M`, and with the log cut off behind any of its records what the checkpoint
lists with the records so far applied. -/
def RestoresAlong (pm : PersistentManager) (as : List WAL.Append) (M : Bytes → Option Handle) :
    Prop :=
  ∃ M₀, replayed M₀ (as.map record) = M ∧
    ∀ k, Restores (pm.cutLog as k) (replayed M₀ ((as.take k).map record))

/-- What `loadCheckpoint` makes of the bytes of the checkpoint area. -/
def areaEntries (area : Bytes) : Except Error (List Entry) :=
  if area.take 4 ≠ checkpointMagic then .error .checkpointBadMagic
  else (decodeCheckpoint area).map Prod.fst

/-- A restart finds these entries in the bytes of the area, and none where the magic is lost. -/
def Reads (area : Bytes) (es : List Entry) : Prop :=
  areaEntries area = .ok es ∨ areaEntries area = .error .checkpointBadMagic ∧ es = []

/-- The two maps agree on every key that no record of the log mentions. -/
def AgreeOutside (as : List WAL.Append) (M M' : Bytes → Option Handle) : Prop :=
  ∀ k, (∀ a ∈ as, a.key ≠ k) → M k = M' k

variable {pm : PersistentManager} {es es' : List Entry} {as : List WAL.Append} {idx : HashIndex}
  {M M' : Bytes → Option Handle}

theorem hasCheckpoint_iff_reads {m : Manager} {regionSize : Nat} {area : Bytes}
    (h : copyArenaTo m superblockSize (indexCheckpointMaxLen regionSize) = .ok area) :
    HasCheckpoint m regionSize es ↔ Reads area es := by
  have hload : loadCheckpoint m regionSize = areaEntries area := by
    rw [loadCheckpoint, h, areaEntries]
    simp only [bind, Except.bind]
    split
    · rfl
    · cases decodeCheckpoint area <;> rfl
  rw [HasCheckpoint, hload, Reads]

theorem HasCheckpoint.unique {m : Manager} {regionSize : Nat} (h : HasCheckpoint m regionSize es)
    (h' : HasCheckpoint m regionSize es') : es = es' := by
  rcases h with hok | ⟨hbad, rfl⟩ <;> rcases h' with hok' | ⟨hbad', rfl⟩
  · cases hok.symm.trans hok'
    rfl
  · cases hok.symm.trans hbad'
  · cases hbad.symm.trans hok'
  · rfl

/-! ## What a restart gives -/

theorem Restores.unique (h : Restores pm M) (h' : Restores pm M') : M = M' := by
  obtain ⟨N, hN, hall⟩ := h
  obtain ⟨N', hN', hall'⟩ := h'
  obtain ⟨idx, pm₁, hrestart, hget⟩ := hall (2 ^ 16) hN (by decide)
  obtain ⟨idx', pm₂, hrestart', hget'⟩ := hall' (2 ^ 16) hN' (by decide)
  cases hrestart.symm.trans hrestart'
  exact funext fun k => Option.some.inj ((hget k).symm.trans (hget' k))

theorem Openable.hasCheckpoint (h : Openable pm as) (hr : Restores pm M) :
    ∃ es, HasCheckpoint pm.mgr pm.regionSize es := by
  obtain ⟨N, hN, hall⟩ := hr
  obtain ⟨idx, pm', hrestart, _⟩ := hall (2 ^ 16) hN (by decide)
  cases hload : loadCheckpoint pm.mgr pm.regionSize with
  | ok es => exact ⟨es, .inl hload⟩
  | error e =>
    by_cases he : e = .checkpointBadMagic
    · exact ⟨[], .inr ⟨he ▸ hload, rfl⟩⟩
    · cases hrestart.symm.trans (h.restart_error hload he _)

theorem Openable.restores (h : Openable pm as) (hck : HasCheckpoint pm.mgr pm.regionSize es)
    (hnil : NilSafe (listed es) (as.map record)) :
    Restores pm (replayed (listed es) (as.map record)) := by
  refine ⟨es.length + 4, hck.length_le, fun n hroom hn => ?_⟩
  obtain ⟨idx, pm', hrestart, hroomy, hhandles, _⟩ := h.restart hck hnil hroom (by omega)
  exact ⟨idx, pm', hrestart, fun k => by rw [hroomy.get_zero, hhandles]⟩

/-- What is restored is what the checkpoint area lists with the log applied. -/
theorem Openable.restores_iff (h : Openable pm as)
    (hnil : ∀ es, HasCheckpoint pm.mgr pm.regionSize es →
      NilSafe (listed es) (as.map record)) :
    Restores pm M ↔ ∃ es, HasCheckpoint pm.mgr pm.regionSize es ∧
      replayed (listed es) (as.map record) = M := by
  constructor
  · intro hr
    obtain ⟨es, hck⟩ := h.hasCheckpoint hr
    exact ⟨es, hck, (h.restores hck (hnil es hck)).unique hr⟩
  · rintro ⟨es, hck, rfl⟩
    exact h.restores hck (hnil es hck)

/-- A log that ends with a SET of the empty key over an entry for it: the key is gone. -/
theorem Openable.not_restores_spoiled {a : WAL.Append} (h : Openable pm (as ++ [a]))
    (hck : HasCheckpoint pm.mgr pm.regionSize es)
    (hnil : NilSafe (listed es) (as.map record))
    (hspoil : ¬ a.record.NilSafe (replayed (listed es) (as.map record))) :
    ¬ Restores pm (replayed (listed es) ((as ++ [a]).map record)) := by
  rintro ⟨N, hN, hall⟩
  obtain ⟨idx, pm', hrestart, hget⟩ := hall (2 ^ 16) hN (by decide)
  have hrebuild := (restart_iff (h.contents hck)).mp ⟨pm', hrestart⟩
  obtain ⟨start, hadd, hroomy, hlisted⟩ := addEntries_new hck.length_le (by decide)
  obtain ⟨mid, hfold, hmid, hhandles⟩ := foldlM_applyRecord _ hroomy (hlisted ▸ hnil)
  rw [rebuild, hadd, Option.bind_some, List.map_append, List.foldlM_append, hfold] at hrebuild
  simp only [Option.bind_eq_bind, Option.bind_some, List.map_cons, List.map_nil, List.foldlM_cons,
    List.foldlM_nil] at hrebuild
  obtain ⟨last, happ, hlast⟩ := Option.bind_eq_some_iff.mp hrebuild
  cases hlast
  rw [hlisted] at hhandles
  obtain ⟨hkey, hop, hgone⟩ := applyRecord_nil hmid.wf (hhandles ▸ hspoil) happ
  refine HashIndex.get_of_lookup_none hgone 0 a.record.handle ?_
  rw [hget, replayed_snoc, hkey, Function.update_self, if_neg (show a.op ≠ .del from hop)]

theorem Openable.cutLog (h : Openable pm as) (k : Nat) :
    Openable (pm.cutLog as k) (as.take k) := by
  refine ⟨h.pos, h.size, h.superblock, fun a ha => h.fits a (List.mem_of_mem_take ha), [], ?_, ?_⟩
  · rw [List.append_nil]
    rfl
  · rw [List.append_nil]
    exact WAL.recordLen_end _

/-- Along the log, every record has to be safe where it is applied. -/
theorem Openable.nilSafe_of_restores (h : Openable pm as)
    (hck : HasCheckpoint pm.mgr pm.regionSize es)
    (hall : ∀ k, Restores (pm.cutLog as k)
      (replayed (listed es) ((as.take k).map record))) (k : Nat) :
    NilSafe (listed es) ((as.take k).map record) := by
  induction k with
  | zero => exact trivial
  | succ k ih =>
    rcases Nat.lt_or_ge k as.length with hk | hk
    · have hopen := h.cutLog (k + 1)
      have hrestores := hall (k + 1)
      rw [List.take_succ_eq_append_getElem hk] at hopen hrestores ⊢
      rw [List.map_append, nilSafe_append]
      refine ⟨ih, ?_, trivial⟩
      by_contra hspoil
      exact hopen.not_restores_spoiled hck ih hspoil hrestores
    · rw [List.take_of_length_le (by omega)]
      rwa [List.take_of_length_le hk] at ih

theorem Openable.restoresAlong_iff (h : Openable pm as) :
    RestoresAlong pm as M ↔ ∃ es, HasCheckpoint pm.mgr pm.regionSize es ∧
      NilSafe (listed es) (as.map record) ∧
      replayed (listed es) (as.map record) = M := by
  constructor
  · rintro ⟨M₀, rfl, hall⟩
    obtain ⟨es, hck⟩ := (h.cutLog 0).hasCheckpoint (hall 0)
    -- with the whole log cut off, the checkpoint alone is restored
    obtain rfl : listed es = M₀ := ((h.cutLog 0).restores hck trivial).unique (hall 0)
    have hsafe := h.nilSafe_of_restores hck hall as.length
    rw [List.take_length] at hsafe
    exact ⟨es, hck, hsafe, rfl⟩
  · rintro ⟨es, hck, hnil, rfl⟩
    refine ⟨listed es, rfl, fun k => (h.cutLog k).restores hck ?_⟩
    rw [← List.take_append_drop k as, List.map_append, nilSafe_append] at hnil
    exact hnil.1

/-! ## The stages -/

/-- Replaying the log over an area that agrees outside of it. -/
theorem replayed_of_agree (h : AgreeOutside as (listed es') (listed es)) :
    replayed (listed es') (as.map record) =
      replayed (listed es) (as.map record) := by
  funext k
  refine replayed_congr fun hk => h k fun a ha heq => ?_
  refine hk a.record (List.mem_map_of_mem ha) ?_
  rw [← heq]
  exact Slice.bytes_ofRead a.key

theorem agree_of_replayed (h : replayed (listed es') (as.map record) =
    replayed (listed es) (as.map record)) :
    AgreeOutside as (listed es') (listed es) := by
  intro k hk
  have hnot : ∀ r ∈ as.map record, r.key.bytes ≠ k := by
    intro r hr
    obtain ⟨a, ha, rfl⟩ := List.mem_map.mp hr
    rw [show a.record.key.bytes = a.key from Slice.bytes_ofRead a.key]
    exact hk a ha
  rw [← replayed_of_not_mem (M := listed es') hnot, ← replayed_of_not_mem (M := listed es) hnot, h]

/-- The body of a checkpoint being written over the bytes `area` of an intact one, with an index
that is up to date. -/
structure Checkpointing (pm : PersistentManager) (es : List Entry) (as : List WAL.Append)
    (idx : HashIndex) (area body : Bytes) : Prop where
  intact : Intact pm es as
  bytes : copyArenaTo pm.mgr superblockSize (indexCheckpointMaxLen pm.regionSize) = .ok area
  old : loadCheckpoint pm.mgr pm.regionSize = .ok es
  loose : idx.Loose
  current : idx.handles = replayed (listed es) (as.map record)
  encoded : encodeCheckpoint (indexCheckpointMaxLen pm.regionSize) idx.snapshot = .ok body

namespace Checkpointing

variable {area body : Bytes}

theorem listed_new (h : Checkpointing pm es as idx area body) :
    listed (idx.snapshot.map saved) = idx.handles := by
  refine listed_snapshot h.loose.wf ?_
  rw [h.current]
  refine replayed_forall ?_ fun k g hk => ?_
  · intro r hr
    obtain ⟨a, _, rfl⟩ := List.mem_map.mp hr
    exact (by decide : (0 : UInt16).toNat < 256)
  · obtain ⟨e, he, rfl⟩ := Option.map_eq_some_iff.mp hk
    exact (loadCheckpoint_ok h.old).2 e (List.mem_of_find?_eq_some he)

/-- The new entries agree with the old ones outside of the log. -/
theorem agree_new (h : Checkpointing pm es as idx area body) :
    replayed (listed (idx.snapshot.map saved)) (as.map record) = idx.handles := by
  rw [h.listed_new, h.current]
  funext k
  refine replayed_congr fun hk => ?_
  exact replayed_of_not_mem hk

/-- While the body is copied, superblock and log are the old ones. -/
theorem crashAt_body (h : Checkpointing pm es as idx area body) (n : Nat) :
    pm.crashAt idx (.body n) =
        { pm with mgr := pm.mgr.poke origin superblockSize (body.take n) } ∧
      Openable (pm.crashAt idx (.body n)) as := by
  obtain ⟨reg, hreg, hsize, harea⟩ := h.intact.area
  have hlen := length_encodeCheckpoint h.encoded
  have hroom : ¬ superblockSize + (body.take n).length > reg.data.size := by
    simp only [areaEnd] at harea
    rw [List.length_take]
    omega
  have hcrash : pm.crashAt idx (.body n) =
      { pm with mgr := pm.mgr.poke origin superblockSize (body.take n) } := by
    simp only [PersistentManager.crashAt, h.encoded, copyToArena_eq hreg, if_neg hroom]
  have hopen := h.intact.openable
  obtain ⟨sb, hsb⟩ := hopen.superblock
  rw [hcrash]
  exact ⟨rfl, hopen.pos, ⟨_, poke_origin_first hreg _ _, hsize⟩,
    ⟨sb, ((headAgrees_body hreg _).readSuperblock (Nat.le_refl _)).trans hsb⟩, hopen.fits,
    hopen.log⟩

/-- The area while the body is copied: what is there of the new body, and the rest of the old
bytes. -/
theorem hasCheckpoint_torn (h : Checkpointing pm es as idx area body) {n : Nat}
    (hn : n < body.length) :
    HasCheckpoint (pm.crashAt idx (.body n)).mgr pm.regionSize es' ↔
      Reads (body.take n ++ area.drop n) es' := by
  obtain ⟨reg, hreg, _, harea⟩ := h.intact.area
  have hlen := length_encodeCheckpoint h.encoded
  have htake : (body.take n).length = n := List.length_take_of_le (Nat.le_of_lt hn)
  have hroom : ¬ superblockSize + indexCheckpointMaxLen pm.regionSize > reg.data.size :=
    Nat.not_lt.mpr harea
  have hold : reg.data.read superblockSize (indexCheckpointMaxLen pm.regionSize) = area := by
    have hbytes := h.bytes
    rw [copyArenaTo_eq hreg, if_neg hroom] at hbytes
    exact Except.ok.inj hbytes
  refine hasCheckpoint_iff_reads ?_
  rw [(h.crashAt_body n).1, copyArenaTo_eq (poke_origin_first hreg _ _)]
  refine (if_neg hroom).trans ?_
  have hread : (reg.data.write (superblockSize + 0) (body.take n)).read superblockSize
      (indexCheckpointMaxLen pm.regionSize) = _ := Cells.read_write_inside reg.data (by omega)
  simp only [Nat.add_zero, Nat.zero_add, List.take_zero, List.nil_append, htake, hold] at hread
  exact congrArg Except.ok hread

theorem hasCheckpoint_body (h : Checkpointing pm es as idx area body) {n : Nat}
    (hn : body.length ≤ n) :
    HasCheckpoint (pm.crashAt idx (.body n)).mgr pm.regionSize (idx.snapshot.map saved) := by
  obtain ⟨reg, hreg, _, harea⟩ := h.intact.area
  rw [(h.crashAt_body n).1, List.take_of_length_le hn]
  exact .inl (loadCheckpoint_body (poke_origin_first hreg _ _) harea h.encoded
    (Cells.read_write _ _ _))

theorem crashAt_bodyDone (h : Checkpointing pm es as idx area body) :
    pm.crashAt idx .bodyDone = pm.crashAt idx (.body body.length) := by
  obtain ⟨sb, _, heq⟩ := h.intact.checkpoint_eq h.encoded
  rw [(h.crashAt_body _).1, List.take_length]
  exact congrArg Prod.snd (heq ⟨false, true, true⟩)

/-- The superblock does not touch the body. -/
theorem crashAt_superblockDone (h : Checkpointing pm es as idx area body) :
    Openable (pm.crashAt idx .superblockDone) as ∧
      (pm.crashAt idx .superblockDone).regionSize = pm.regionSize ∧
      HasCheckpoint (pm.crashAt idx .superblockDone).mgr pm.regionSize (idx.snapshot.map saved) := by
  obtain ⟨reg, hreg, hsize, harea⟩ := h.intact.area
  obtain ⟨sb, hver, heq⟩ := h.intact.checkpoint_eq h.encoded
  have hdone := checkpointed hreg harea h.encoded hver
  obtain ⟨reg', hreg', hsame⟩ := hdone.size
  have hopen := h.intact.openable
  have hcrash : pm.crashAt idx .superblockDone = _ :=
    congrArg Prod.snd (heq ⟨true, true, false⟩)
  rw [hcrash]
  exact ⟨⟨hopen.pos, ⟨reg', hreg', (hsame reg hreg).trans hsize⟩, hdone.superblock, hopen.fits,
    hopen.log⟩, rfl, .inl hdone.checkpoint⟩

theorem crashAt_rotated (h : Checkpointing pm es as idx area body) :
    Intact (pm.crashAt idx .rotated) (idx.snapshot.map saved) [] := by
  obtain ⟨sb, _, heq⟩ := h.intact.checkpoint_eq h.encoded
  have hcrash : pm.crashAt idx .rotated = _ := congrArg Prod.snd (heq .fine)
  rw [hcrash]
  exact (h.intact.checkpoint_ok (heq .fine)).1

/-- From the complete body on the area has the new entries. -/
theorem settled (h : Checkpointing pm es as idx area body) {p : CrashPoint}
    (hp : ∀ n, p = .body n → body.length ≤ n) :
    Openable (pm.crashAt idx p) (p.log as) ∧ (pm.crashAt idx p).regionSize = pm.regionSize ∧
      HasCheckpoint (pm.crashAt idx p).mgr pm.regionSize (idx.snapshot.map saved) := by
  have hbody : ∀ n, body.length ≤ n → Openable (pm.crashAt idx (.body n)) as ∧
      (pm.crashAt idx (.body n)).regionSize = pm.regionSize ∧
      HasCheckpoint (pm.crashAt idx (.body n)).mgr pm.regionSize (idx.snapshot.map saved) :=
    fun n hn => ⟨(h.crashAt_body n).2, by rw [(h.crashAt_body n).1], h.hasCheckpoint_body hn⟩
  cases p with
  | body n => exact hbody n (hp n rfl)
  | bodyDone =>
    rw [h.crashAt_bodyDone]
    exact hbody _ (Nat.le_refl _)
  | superblockDone => exact h.crashAt_superblockDone
  | rotated =>
    obtain ⟨sb, _, heq⟩ := h.intact.checkpoint_eq h.encoded
    have hsize : (pm.crashAt idx .rotated).regionSize = pm.regionSize :=
      congrArg (fun out => out.2.regionSize) (heq .fine)
    have hintact := h.crashAt_rotated
    exact ⟨hintact.openable, hsize, hsize ▸ hintact.checkpoint⟩

theorem replayed_settled (h : Checkpointing pm es as idx area body) (p : CrashPoint) :
    replayed (listed (idx.snapshot.map saved)) ((p.log as).map record) = idx.handles := by
  cases p with
  | rotated => exact h.listed_new
  | body | bodyDone | superblockDone => exact h.agree_new

end Checkpointing

/-- A crash at any point of a checkpoint is harmless, up to every record of the log, exactly when
no record sets the empty key over an entry and every torn body lists, for the keys that the log
does not mention, what the old body lists.  Where no restart meets such a record, the second half
is also what the whole log needs. -/
theorem restores_at_every_point_iff {area body : Bytes}
    (h : Checkpointing pm es as idx area body) :
    ((∀ p, RestoresAlong (pm.crashAt idx p) (p.log as) idx.handles) ↔
      NilSafe idx.handles (as.map WAL.Append.record) ∧
        ∀ n, n < body.length → ∃ torn, Reads (body.take n ++ area.drop n) torn ∧
          NilSafe (listed torn) (as.map WAL.Append.record) ∧
          AgreeOutside as (listed torn) (listed es)) ∧
    (NilSafe idx.handles (as.map WAL.Append.record) →
      (∀ n torn, n < body.length → Reads (body.take n ++ area.drop n) torn →
        NilSafe (listed torn) (as.map WAL.Append.record)) →
      ((∀ p, Restores (pm.crashAt idx p) idx.handles) ↔
        ∀ n, n < body.length → ∃ torn, Reads (body.take n ++ area.drop n) torn ∧
          AgreeOutside as (listed torn) (listed es))) := by
  have hopen : ∀ n, Openable (pm.crashAt idx (.body n)) as := fun n => (h.crashAt_body n).2
  have hsize : ∀ n, (pm.crashAt idx (.body n)).regionSize = pm.regionSize := fun n => by
    rw [(h.crashAt_body n).1]
  have hagree : ∀ torn, replayed (listed torn) (as.map WAL.Append.record) = idx.handles ↔
      AgreeOutside as (listed torn) (listed es) := fun torn => by
    rw [h.current]
    exact ⟨agree_of_replayed, replayed_of_agree⟩
  have hsafe : NilSafe idx.handles (as.map WAL.Append.record) → ∀ p : CrashPoint,
      NilSafe (listed (idx.snapshot.map saved)) ((p.log as).map WAL.Append.record) := by
    rw [h.listed_new]
    rintro hnil (n | _ | _ | _)
    · exact hnil
    · exact hnil
    · exact hnil
    · exact trivial
  -- the points at which the body is not complete, and all others
  have hcases : ∀ p : CrashPoint, (∃ n, p = .body n ∧ n < body.length) ∨
      ∀ n, p = .body n → body.length ≤ n := fun p => by
    by_cases hp : ∃ n, p = .body n ∧ n < body.length
    · exact .inl hp
    · exact .inr fun n hn => Nat.le_of_not_lt fun hlt => hp ⟨n, hn, hlt⟩
  refine ⟨⟨fun hall => ⟨?_, fun n hn => ?_⟩, fun ⟨hnil, htorn⟩ p => ?_⟩,
    fun hnil htornSafe => ⟨fun hall n hn => ?_, fun htorn p => ?_⟩⟩
  · obtain ⟨hdone, hrs, hck⟩ := h.settled (p := .bodyDone) fun _ hp => nomatch hp
    obtain ⟨es', hck', hnil, _⟩ := hdone.restoresAlong_iff.mp (hall .bodyDone)
    rw [hrs] at hck'
    rw [← h.listed_new, hck.unique hck']
    exact hnil
  · obtain ⟨torn, hck, hnil, heq⟩ := (hopen n).restoresAlong_iff.mp (hall (.body n))
    rw [hsize] at hck
    exact ⟨torn, (h.hasCheckpoint_torn hn).mp hck, hnil, (hagree torn).mp heq⟩
  · rcases hcases p with ⟨n, rfl, hn⟩ | hp
    · obtain ⟨torn, hreads, hnilTorn, hout⟩ := htorn n hn
      have hck := (h.hasCheckpoint_torn hn).mpr hreads
      exact (hopen n).restoresAlong_iff.mpr
        ⟨torn, (hsize n).symm ▸ hck, hnilTorn, (hagree torn).mpr hout⟩
    · obtain ⟨hdone, hrs, hck⟩ := h.settled hp
      exact hdone.restoresAlong_iff.mpr
        ⟨_, hrs.symm ▸ hck, hsafe hnil p, h.replayed_settled p⟩
  · have hread : ∀ torn, HasCheckpoint (pm.crashAt idx (.body n)).mgr
        (pm.crashAt idx (.body n)).regionSize torn → Reads (body.take n ++ area.drop n) torn := by
      intro torn hck
      rw [hsize] at hck
      exact (h.hasCheckpoint_torn hn).mp hck
    obtain ⟨torn, hck, heq⟩ := ((hopen n).restores_iff fun torn hck =>
      htornSafe n torn hn (hread torn hck)).mp (hall (.body n))
    exact ⟨torn, hread torn hck, (hagree torn).mp heq⟩
  · rcases hcases p with ⟨n, rfl, hn⟩ | hp
    · obtain ⟨torn, hreads, hout⟩ := htorn n hn
      rw [← (hagree torn).mpr hout]
      exact (hopen n).restores ((hsize n).symm ▸ (h.hasCheckpoint_torn hn).mpr hreads)
        (htornSafe n torn hn hreads)
    · obtain ⟨hdone, hrs, hck⟩ := h.settled hp
      rw [← h.replayed_settled p]
      exact hdone.restores (hrs.symm ▸ hck) (hsafe hnil p)

/-- A checkpoint of an index that has not changed since the last one can be torn anywhere,
here with the deletion of a missing key in the log. -/
theorem restores_at_every_point_unchanged :
    ∃ c pm₁ pm₂, (Client.start 16384 true 16).bind (fun c =>
        run Client.step c [.put [97] [1]]) = some c ∧
      c.pm.checkpoint .fine c.idx = (.ok (), pm₁) ∧ pm₁.delete .fine [98] = (.ok (), pm₂) ∧
      (∀ p, Restores (pm₂.crashAt c.idx p) c.idx.handles) ∧
      c.idx.handles [97] = some ⟨8192, 1, 0, 0⟩ := by
  obtain ⟨c₀, hstart, hguard, c, hrun, ⟨ha, hb⟩, pm₁, hck, pm₂, hdel, _⟩ : ∃ c₀,
      Client.start 16384 true 16 = some c₀ ∧
      Guarded Client.step Client.Safe c₀ [.put [97] [1]] ∧
      ∃ c, run Client.step c₀ [.put [97] [1]] = some c ∧
        (c.idx.handles [97] = some ⟨8192, 1, 0, 0⟩ ∧ c.idx.handles [98] = none) ∧
        ∃ pm₁, c.pm.checkpoint .fine c.idx = (.ok (), pm₁) ∧
          ∃ pm₂, pm₁.delete .fine [98] = (.ok (), pm₂) ∧ True := by
    decide +kernel
  obtain ⟨⟨es, as, hcons⟩, _, _⟩ :=
    Client.consistent_run (by decide) (by decide) hstart hguard hrun
  obtain ⟨h₁, hdone, hrs₁, _⟩ := hcons.intact.checkpoint_ok hck
  obtain ⟨h₂, hmgr, hrs, _⟩ := h₁.delete hdel fun _ => by decide
  obtain ⟨reg, body, hreg, henc, hread⟩ := hdone.written
  have hlisted := listed_snapshot hcons.loose.wf fun k g hk => by
    rw [(hcons.inFile k g hk).word]
    decide
  obtain ⟨reg', hreg', _, harea⟩ := h₂.area
  cases hreg.symm.trans (hmgr ▸ hreg')
  have hfits : ¬ superblockSize + indexCheckpointMaxLen pm₂.regionSize > reg.data.size :=
    Nat.not_lt.mpr harea
  rw [← hrs₁, ← hrs] at henc
  -- the area starts with the body that is copied over it
  obtain ⟨rest, hbytes⟩ : ∃ rest, copyArenaTo pm₂.mgr superblockSize
      (indexCheckpointMaxLen pm₂.regionSize) = .ok (body ++ rest) := by
    rw [hmgr, copyArenaTo_eq hreg, if_neg hfits,
      ← Nat.add_sub_of_le (length_encodeCheckpoint henc), Cells.read_add, hread]
    exact ⟨_, rfl⟩
  have h : Checkpointing pm₂ (c.idx.snapshot.map saved) [.del [98]] c.idx (body ++ rest) body := by
    refine ⟨h₂, hbytes, ?_, hcons.loose, ?_, henc⟩
    · rw [hmgr, hrs, hrs₁]
      exact hdone.checkpoint
    · rw [hlisted]
      exact (Function.update_eq_self_iff.mpr hb.symm).symm
  refine ⟨c, pm₁, pm₂, by rw [hstart]; exact hrun, hck, hdel, ?_, ha⟩
  have hnil : ∀ M, NilSafe M [WAL.Append.record (.del [98])] :=
    fun M => ⟨fun hop => absurd rfl hop, trivial⟩
  refine ((restores_at_every_point_iff h).2 (hnil _) fun _ torn _ _ => hnil (listed torn)).mpr
    fun n hn => ⟨_, ?_, fun _ _ => rfl⟩
  rw [List.drop_append_of_le_length (Nat.le_of_lt hn), ← List.append_assoc,
    List.take_append_drop]
  exact (hasCheckpoint_iff_reads hbytes).mp (.inl h.old)

/-- The checkpoint of an empty index, a key in the log, and a crash when the header of the next
checkpoint is written: its count makes an entry of the zeros behind the old header. -/
theorem torn_header_adds_key :
    ∃ c idx pm, (Client.start 16384 true 16).bind (fun c =>
        run Client.step c [.checkpoint, .put [97] [1]]) = some c ∧
      c.idx.handles [] = none ∧
      PersistentManager.restart (c.pm.crashAt c.idx (.body 12)).disk 16384 true 16 =
        some (.ok (idx, pm)) ∧
      idx.get [] 0 = some (some ⟨0, 0, 0, 0⟩) := by
  simp only [exists_and_left]
  decide +kernel

end Horreum.Persist
