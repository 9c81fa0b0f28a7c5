/-
  Persist/Durability.lean --- what a crash leaves of the values that were stored.

  A client stores, deletes and takes checkpoints through a persistent manager, and keeps the index.  The
  restart gives back the last value of every key (`Client.last`), provided that every value went into
  the file, behind the checkpoint area; further regions are anonymous mappings.
-/
import Horreum.Foundation.Runs
import Horreum.Persist.Intact

set_option autoImplicit false

namespace Horreum.Persist

open Foundation
open Arena (Manager Handle)
open Index (HashIndex Entry)

/-- The calls of a client. -/
inductive Call where
  | put (key value : Bytes)
  | putEx (key value : Bytes) (expiresAt : UInt32)
  | delete (key : Bytes)
  | checkpoint
  deriving DecidableEq, Repr

/-- A manager with its index, and the value stored last under each key. -/
structure Client where
  pm : PersistentManager
  idx : HashIndex
  last : Bytes → Option Bytes

namespace Client

/-- A client of a new directory, with an index of `buckets`. -/
def start (regionSize : Nat) (durable : Bool) (buckets : Nat) : Option Client :=
  match PersistentManager.new ⟨none, []⟩ regionSize durable with
  | .ok pm => some ⟨pm, Index.new buckets, fun _ => none⟩
  | .error _ => none

/-- Enter the handle of a successful call into the index. -/
def entered (c : Client) (key value : Bytes) (expiresAt : UInt32)
    (out : Option (Except Error (Handle × Bytes) × PersistentManager)) : Option Client :=
  match out with
  | some (.ok (h, _), pm) => (c.idx.put (some key) h expiresAt).map fun (_, idx) =>
    ⟨pm, idx, Function.update c.last key (some value)⟩
  | _ => none

/-- One successful call and the update of the index.  A run ends at a call that fails. -/
def step (c : Client) : Call → Option Client
  | .put key value => c.entered key value 0 (c.pm.put .fine key value)
  | .putEx key value expiresAt =>
    c.entered key value expiresAt (c.pm.putEx .fine key value expiresAt)
  | .delete key =>
    match c.pm.delete .fine key with
    | (.ok (), pm) => (c.idx.delete key).map fun (_, idx) =>
      ⟨pm, idx, Function.update c.last key none⟩
    | _ => none
  | .checkpoint =>
    match c.pm.checkpoint .fine c.idx with
    | (.ok (), pm) => some { c with pm := pm }
    | _ => none

/-- The next value goes into the first region, behind the checkpoint area. -/
def landsInFile (pm : PersistentManager) (value : Bytes) : Bool :=
  match pm.mgr.put value true with
  | some (.ok h, _) => h.region == 0 && areaEnd pm.regionSize ≤ h.offset.toNat
  | _ => true

/-- The length of the key fits in a record that is written, the empty key is not stored over
itself, and the value goes into the file. -/
structure StoresSafely (c : Client) (op : WalOp) (key value : Bytes) : Prop where
  short : c.pm.wal.KeyFits op key value
  nonempty : key = [] → c.idx.handles [] = none
  lands : landsInFile c.pm value = true

instance (c : Client) (op : WalOp) (key value : Bytes) : Decidable (c.StoresSafely op key value) :=
  decidable_of_iff (c.pm.wal.KeyFits op key value ∧ (key = [] → c.idx.handles [] = none) ∧
      landsInFile c.pm value = true)
    ⟨fun h => ⟨h.1, h.2.1, h.2.2⟩, fun h => ⟨h.1, h.2, h.3⟩⟩

/-- What a call has to respect for its record to be read back. -/
def Safe (c : Client) : Call → Prop
  | .put key value => c.StoresSafely .set key value
  | .putEx key value _ => c.StoresSafely .setEx key value
  | .delete key => c.pm.wal.KeyFits .del key []
  | .checkpoint => True

instance : ∀ (c : Client) (call : Call), Decidable (c.Safe call)
  | c, .put key value => inferInstanceAs (Decidable (c.StoresSafely .set key value))
  | c, .putEx key value _ => inferInstanceAs (Decidable (c.StoresSafely .setEx key value))
  | c, .delete key => inferInstanceAs (Decidable (c.pm.wal.KeyFits .del key []))
  | _, .checkpoint => isTrue trivial

/-! ## The invariant -/

/-- The handle is in the file, behind the checkpoint area. -/
structure InFile (regionSize : Nat) (h : Handle) : Prop where
  region : h.region = 0
  behind : areaEnd regionSize ≤ h.offset.toNat
  word : h.metaWord = 0

/-- The files list the index, and the index holds the values stored last. -/
structure Consistent (c : Client) (es : List Entry) (as : List WAL.Append) : Prop where
  intact : Intact c.pm es as
  nilSafe : NilSafe (listed es) (as.map WAL.Append.record)
  replays : replayed (listed es) (as.map WAL.Append.record) = c.idx.handles
  loose : c.idx.Loose
  owns : c.pm.mgr.Owns {h | ∃ k, c.idx.handles k = some h}
  inFile : ∀ k h, c.idx.handles k = some h → InFile c.pm.regionSize h
  absent : ∀ k, c.last k = none → c.idx.handles k = none
  present : ∀ k v, c.last k = some v →
    ∃ h, c.idx.handles k = some h ∧ c.pm.mgr.view h = some (.ok v)

variable {c c' : Client} {es : List Entry} {as : List WAL.Append}

theorem consistent_start {regionSize buckets : Nat} {durable : Bool} (hlarge : 8192 ≤ regionSize)
    (hbuckets : buckets ≤ 2 ^ 64) (h : start regionSize durable buckets = some c) :
    Consistent c [] [] ∧ c.pm.regionSize = regionSize ∧ c.pm.durable = durable := by
  unfold start at h
  split at h
  · rename_i pm hnew
    cases h
    obtain ⟨hintact, hown, hrs, hdur⟩ := intact_new hlarge hnew
    have hnone := HashIndex.handles_new buckets
    refine ⟨⟨hintact, trivial, funext fun k => (hnone k).symm, HashIndex.loose_new hbuckets,
      hown.mono ?_, fun k h hk => ?_, fun k _ => hnone k, fun k v hv => nomatch hv⟩, hrs, hdur⟩
    · rintro h ⟨k, hk⟩
      cases (hnone k).symm.trans hk
    · cases (hnone k).symm.trans hk
  · cases h

theorem inFile_of_lands {pm : PersistentManager} {value : Bytes} {h : Handle} {mgr : Manager}
    (hlands : landsInFile pm value = true) (hput : pm.mgr.put value true = some (.ok h, mgr)) :
    h.region = 0 ∧ areaEnd pm.regionSize ≤ h.offset.toNat := by
  simpa [landsInFile, hput] using hlands

/-- Storing a value and entering its handle. -/
theorem Consistent.entered (h : Consistent c es as) {key value : Bytes} {expiresAt : UInt32}
    {op : WalOp} {record : ArenaHandleLike → WAL.Append} (hsafe : c.StoresSafely op key value)
    (hrecord : ∀ l, (record l).key = key ∧ (record l).value = value ∧ (record l).handle = l ∧
      (record l).op = op) (hop : op ≠ .del)
    (hstep : c.entered key value expiresAt (c.pm.putWith .fine value record) = some c') :
    (∃ hd, Consistent c' es (as ++ [record (logged hd)])) ∧ c'.pm.regionSize = c.pm.regionSize ∧
      c'.pm.durable = c.pm.durable := by
  unfold Client.entered at hstep
  split at hstep
  · rename_i hd view pm hput
    obtain ⟨⟨b, idx⟩, hidx, heq⟩ := Option.map_eq_some_iff.mp hstep
    cases heq
    obtain ⟨mgr, off, wal, hmgr, _, _⟩ := putWith_ok hput
    obtain ⟨hregion, hbehind⟩ := inFile_of_lands hsafe.lands hmgr
    obtain ⟨hintact, hstored, hrs, hdur⟩ := h.intact.putWith h.owns hput
      (fun l => by
        obtain ⟨hkey, hvalue, _, hop⟩ := hrecord l
        rw [hkey, hvalue, hop]
        exact hsafe.short)
      (fun l => (hrecord l).2.1) (fun _ => hbehind)
    obtain ⟨hloose, hhandles⟩ := h.loose.put hidx fun hnil => nomatch hnil
    simp only [Slice.bytes_some] at hhandles
    obtain ⟨hkey, _, hlike, hop'⟩ := hrecord (logged hd)
    have hrecHandle := handle_of_logged hlike hstored.word
    have hold : ∀ k g, idx.handles k = some g → hd = g ∨ c.idx.handles k = some g := by
      intro k g hk
      rw [hhandles] at hk
      exact (eq_or_of_update hk).imp_left Option.some.inj
    refine ⟨⟨hd, hintact, ?_, ?_, hloose, ?_, ?_, ?_, ?_⟩, hrs, hdur⟩
    · refine nilSafe_snoc h.nilSafe fun _ hempty => ?_
      rw [h.replays]
      exact hsafe.nonempty (hkey ▸ hempty)
    · rw [replayed_snoc, h.replays, hkey, hrecHandle, hop', if_neg hop]
      exact hhandles.symm
    · exact hstored.owns.mono fun g ⟨k, hk⟩ => (hold k g hk).imp Eq.symm fun hk => ⟨k, hk⟩
    · intro k g hk
      rw [hrs]
      rcases hold k g hk with rfl | hk
      · exact ⟨hregion, hbehind, hstored.word⟩
      · exact h.inFile k g hk
    · rw [hhandles]
      exact forall_update_both (p := fun v hd => v = none → hd = none) (fun hv => nomatch hv) h.absent
    · rw [hhandles]
      refine forall_update_both (p := fun last o => ∀ v, last = some v →
        ∃ g, o = some g ∧ pm.mgr.view g = some (.ok v)) ?_ fun k v hk => ?_
      · rintro v ⟨⟩
        exact ⟨hd, rfl, hstored.view⟩
      · obtain ⟨g, hg, hview⟩ := h.present k v hk
        exact ⟨g, hg, (hstored.frame g ⟨k, hg⟩).1.trans hview⟩
  · cases hstep

theorem Consistent.deleted (h : Consistent c es as) {key : Bytes}
    (hshort : c.pm.wal.KeyFits .del key []) (hstep : c.step (.delete key) = some c') :
    Consistent c' es (as ++ [.del key]) ∧ c'.pm.regionSize = c.pm.regionSize ∧
      c'.pm.durable = c.pm.durable := by
  simp only [Client.step] at hstep
  split at hstep
  · rename_i pm hdel
    obtain ⟨⟨old, idx⟩, hidx, heq⟩ := Option.map_eq_some_iff.mp hstep
    cases heq
    obtain ⟨hintact, hmgr, hrs, hdur⟩ := h.intact.delete hdel hshort
    obtain ⟨hloose, hhandles⟩ := h.loose.delete hidx
    have hsub : ∀ k g, idx.handles k = some g → c.idx.handles k = some g := by
      intro k g hk
      rw [hhandles] at hk
      exact (eq_or_of_update hk).resolve_left (by simp)
    refine ⟨⟨hintact, ?_, ?_, hloose, ?_, ?_, ?_, ?_⟩, hrs, hdur⟩
    · exact nilSafe_snoc h.nilSafe fun hop _ => absurd rfl hop
    · rw [replayed_snoc, h.replays]
      exact hhandles.symm
    · simp only [hmgr]
      exact h.owns.mono fun g ⟨k, hk⟩ => ⟨k, hsub k g hk⟩
    · intro k g hk
      simp only [hrs]
      exact h.inFile k g (hsub k g hk)
    · rw [hhandles]
      exact forall_update_both (p := fun v hd => v = none → hd = none) (fun _ => rfl) h.absent
    · rw [hhandles, hmgr]
      exact forall_update_both (p := fun last o => ∀ v, last = some v →
        ∃ g, o = some g ∧ c.pm.mgr.view g = some (.ok v)) (fun v hv => nomatch hv) h.present
  · cases hstep

theorem Consistent.checkpointed (h : Consistent c es as) (hstep : c.step .checkpoint = some c') :
    Consistent c' (c.idx.snapshot.map saved) [] ∧ c'.pm.regionSize = c.pm.regionSize ∧
      c'.pm.durable = c.pm.durable := by
  simp only [Client.step] at hstep
  split at hstep
  · rename_i pm hck
    cases hstep
    obtain ⟨hintact, hdone, hrs, hdur⟩ := h.intact.checkpoint_ok hck
    have hlisted := listed_snapshot h.loose.wf fun k g hk => by
      rw [(h.inFile k g hk).word]
      decide
    refine ⟨⟨hintact, trivial, hlisted, h.loose, hdone.owns _ h.owns, ?_, h.absent, ?_⟩, hrs, hdur⟩
    · simp only [hrs]
      exact h.inFile
    · intro k v hk
      obtain ⟨g, hg, hview⟩ := h.present k v hk
      refine ⟨g, hg, ?_⟩
      rw [hdone.view g fun _ => (h.inFile k g hg).behind]
      exact hview
  · cases hstep

theorem consistent_step {call : Call} (h : ∃ es as, Consistent c es as) (hsafe : c.Safe call)
    (hstep : c.step call = some c') :
    (∃ es as, Consistent c' es as) ∧ c'.pm.regionSize = c.pm.regionSize ∧
      c'.pm.durable = c.pm.durable := by
  obtain ⟨es, as, h⟩ := h
  cases call with
  | put key value =>
    obtain ⟨⟨_, hc⟩, hsame⟩ :=
      h.entered hsafe (fun _ => ⟨rfl, rfl, rfl, rfl⟩) (by decide) hstep
    exact ⟨⟨es, _, hc⟩, hsame⟩
  | putEx key value expiresAt =>
    obtain ⟨⟨_, hc⟩, hsame⟩ :=
      h.entered hsafe (fun _ => ⟨rfl, rfl, rfl, rfl⟩) (by decide) hstep
    exact ⟨⟨es, _, hc⟩, hsame⟩
  | delete key =>
    obtain ⟨hc, hsame⟩ := h.deleted hsafe hstep
    exact ⟨⟨es, _, hc⟩, hsame⟩
  | checkpoint =>
    obtain ⟨hc, hsame⟩ := h.checkpointed hstep
    exact ⟨⟨_, _, hc⟩, hsame⟩

/-- Every run of safe calls keeps files, index and history together. -/
theorem consistent_run {regionSize buckets : Nat} {durable : Bool} {c₀ : Client} {calls : List Call}
    (hlarge : 8192 ≤ regionSize) (hbuckets : buckets ≤ 2 ^ 63)
    (hstart : start regionSize durable buckets = some c₀)
    (hsafe : Guarded step Safe c₀ calls) (hrun : run step c₀ calls = some c) :
    (∃ es as, Consistent c es as) ∧ c.pm.regionSize = regionSize ∧ c.pm.durable = durable := by
  obtain ⟨h₀, hrs₀, hdur₀⟩ := consistent_start hlarge (by omega) hstart
  refine run_invariant
    (fun c => (∃ es as, Consistent c es as) ∧ c.pm.regionSize = regionSize ∧
      c.pm.durable = durable)
    (fun s call s' hs hok hstep => ?_) calls c₀ c ⟨⟨[], [], h₀⟩, hrs₀, hdur₀⟩ hsafe hrun
  obtain ⟨hc, hrs, hdur⟩ := consistent_step hs.1 hok hstep
  exact ⟨hc, hrs.trans hs.2.1, hdur.trans hs.2.2⟩

/-- What a restart gives for a key. -/
def Recovers (idx : HashIndex) (pm : PersistentManager) (key : Bytes) : Option Bytes → Prop
  | some v => ∃ h, idx.get key 0 = some (some h) ∧ pm.view h = some (.ok v)
  | none => idx.get key 0 = some none

theorem Consistent.restart (h : Consistent c es as) {n : Nat} (hroom : es.length + 4 ≤ n)
    (hn : n ≤ 2 ^ 64) :
    ∃ idx pm, PersistentManager.restart c.pm.disk c.pm.regionSize c.pm.durable n =
        some (.ok (idx, pm)) ∧ ∀ k, Recovers idx pm k (c.last k) := by
  obtain ⟨idx, pm, hrestart, hroomy, hhandles, hview⟩ :=
    h.intact.openable.restart h.intact.checkpoint h.nilSafe hroom hn
  rw [h.replays] at hhandles
  refine ⟨idx, pm, hrestart, fun k => ?_⟩
  have hget := hroomy.get_zero k
  rw [hhandles] at hget
  cases hlast : c.last k with
  | none =>
    rw [h.absent k hlast] at hget
    exact hget
  | some v =>
    obtain ⟨g, hg, hseen⟩ := h.present k v hlast
    rw [hg] at hget
    exact ⟨g, hget, (hview g (h.inFile k g hg).region).trans hseen⟩

/-- After a run of calls whose values all go into the file, a crash and a restart into a
large enough index give every key its last value, and no key that was deleted last. -/
theorem restart_recovers_last (regionSize buckets : Nat) (durable : Bool) {c₀ : Client}
    (hlarge : 8192 ≤ regionSize) (hbuckets : buckets ≤ 2 ^ 63)
    (hstart : start regionSize durable buckets = some c₀) (calls : List Call)
    (hsafe : Guarded step Safe c₀ calls) (hrun : run step c₀ calls = some c) :
    ∃ N, N ≤ 2 ^ 16 ∧ ∀ n, N ≤ n → n ≤ 2 ^ 63 → ∃ idx pm,
      PersistentManager.restart c.pm.disk regionSize durable n = some (.ok (idx, pm)) ∧
      ∀ k, Recovers idx pm k (c.last k) := by
  obtain ⟨⟨es, as, hc⟩, rfl, rfl⟩ := consistent_run hlarge hbuckets hstart hsafe hrun
  exact ⟨es.length + 4, hc.intact.checkpoint.length_le, fun n hroom hn => hc.restart hroom (by omega)⟩

/-- A checkpoint in the middle, an overwritten and a deleted key of the checkpoint, an expiry
time and the empty key. -/
theorem restart_recovers_last_mixed :
    ∃ c₀ c, start 16384 true 2 = some c₀ ∧
      run step c₀ [.put [97] [1, 2], .putEx [98] [3] 7, .checkpoint, .put [97] [4], .delete [98],
        .put [] [5]] = some c ∧
      ∃ N, N ≤ 2 ^ 16 ∧ ∀ n, N ≤ n → n ≤ 2 ^ 63 → ∃ idx pm,
        PersistentManager.restart c.pm.disk 16384 true n = some (.ok (idx, pm)) ∧
        Recovers idx pm [97] (some [4]) ∧ Recovers idx pm [98] none ∧
        Recovers idx pm [] (some [5]) := by
  obtain ⟨c₀, hstart, hguard, c, hrun, ha, hb, hempty⟩ : ∃ c₀, start 16384 true 2 = some c₀ ∧
      Guarded step Safe c₀ [.put [97] [1, 2], .putEx [98] [3] 7, .checkpoint, .put [97] [4],
        .delete [98], .put [] [5]] ∧
      ∃ c, run step c₀ [.put [97] [1, 2], .putEx [98] [3] 7, .checkpoint, .put [97] [4],
          .delete [98], .put [] [5]] = some c ∧
        c.last [97] = some [4] ∧ c.last [98] = none ∧ c.last [] = some [5] := by
    decide +kernel
  obtain ⟨N, hle, hN⟩ :=
    restart_recovers_last 16384 2 true (by decide) (by decide) hstart _ hguard hrun
  refine ⟨c₀, c, hstart, hrun, N, hle, fun n hroom hn => ?_⟩
  obtain ⟨idx, pm, hrestart, hkeys⟩ := hN n hroom hn
  exact ⟨idx, pm, hrestart, ha ▸ hkeys [97], hb ▸ hkeys [98], hempty ▸ hkeys []⟩

/-- Two values fill the first region of 16384 bytes; the third goes into a second one, and
after the restart its handle names a region that is not there. -/
theorem spilled_value_lost :
    ∃ c idx pm h, (start 16384 false 16).bind (fun c => run step c
        [.put [97] (List.replicate 2049 1), .checkpoint, .put [98] (List.replicate 2049 2),
          .checkpoint, .put [99] [3]]) = some c ∧
      c.last [99] = some [3] ∧
      PersistentManager.restart c.pm.disk 16384 false 16 = some (.ok (idx, pm)) ∧
      idx.get [99] 0 = some (some h) ∧ pm.view h = some (.error .offsetInvalid) := by
  obtain ⟨c, hc, hlast, idx, pm, hrestart, hget, hview⟩ : ∃ c : Client,
      ((start 16384 false 16).bind fun c => run step c [.put [97] (List.replicate 2049 1),
        .checkpoint, .put [98] (List.replicate 2049 2), .checkpoint, .put [99] [3]]) = some c ∧
      c.last [99] = some [3] ∧ ∃ idx pm,
        PersistentManager.restart c.pm.disk 16384 false 16 = some (.ok (idx, pm)) ∧
        idx.get [99] 0 = some (some ⟨0, 1, 0, 1⟩) ∧
        pm.view ⟨0, 1, 0, 1⟩ = some (.error .offsetInvalid) := by
    decide +kernel
  exact ⟨c, idx, pm, _, hc, hlast, hrestart, hget, hview⟩

end Client

end Horreum.Persist
