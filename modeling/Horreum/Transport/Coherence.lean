/-
  Transport/Coherence.lean --- what ties the index of a shard to its arena.

  `Coherent`: the handles in the index own their blocks, and no two keys share one.  A call leaves the
  pair alone (`Kept`), enters one key (`Written`) or takes entries out (`Dropped`), and each comes with
  what the other keys still see.  `Written` is conditional: a handle that the policy gives up is freed
  and stays in the index, so the allocator must not be able to hand it out again.
-/
import Horreum.Transport.ShardCache

set_option autoImplicit false

namespace Horreum.Transport

open Foundation
open Arena (Handle Manager compressedFlag encryptedFlag)
open Arena.Manager (Owns Frame SameStore SameBlocks Stored flagMask)
open S3Fifo (Eviction RingBuffer)

/-- The handles an index refers to. -/
def ShardIndex.owned (idx : ShardIndex) : Set Handle :=
  { h | ∃ k e, idx.lookup k = some e ∧ e.handle = h }

/-- The codec bits of a payload. -/
def Payload.flags (p : Payload) : UInt16 :=
  (if p.compressed then compressedFlag else 0) ||| (if p.encrypted then encryptedFlag else 0)

namespace ShardCache

variable {H : Hashes} {s s' : ShardCache} {L : Set Handle} {key : Bytes} {idx : ShardIndex}
  {es : List Entry} {h : Handle}

/-- Every entry has a block of its own. -/
structure Coherent (H : Hashes) (s : ShardCache) : Prop where
  idx : s.idx.Wf H.hashKey
  owns : s.mgr.Owns s.idx.owned
  inj : ∀ k k' e e', s.idx.lookup k = some e → s.idx.lookup k' = some e' →
    e.handle = e'.handle → k = k'

/-- No stored value has changed. -/
structure Kept (H : Hashes) (s s' : ShardCache) : Prop where
  coherent : Coherent H s'
  idx : s'.idx = s.idx
  frame : Frame s.idx.owned s.mgr s'.mgr
  comp : s'.comp = s.comp
  cipher : s'.cipher = s.cipher
  live : s'.mgr.liveObjs = s.mgr.liveObjs

theorem Kept.refl (h : Coherent H s) : Kept H s s :=
  ⟨h, rfl, Frame.refl _ _, rfl, rfl, rfl⟩

theorem Kept.trans {s'' : ShardCache} (h : Kept H s s') (h' : Kept H s' s'') : Kept H s s'' :=
  ⟨h'.coherent, h'.idx.trans h.idx, h.frame.trans (h.idx ▸ h'.frame), h'.comp.trans h.comp,
    h'.cipher.trans h.cipher, h'.live.trans h.live⟩

theorem Kept.of_sameStore {mgr : Manager} (h : Coherent H s) (hs : SameStore s.mgr mgr) :
    Kept H s { s with mgr := mgr } :=
  ⟨⟨h.idx, hs.owns h.owns, h.inj⟩, rfl, hs.frame _, rfl, rfl, hs.liveObjs⟩

theorem coherent_new {regionSize evictCapacity : Nat} {comp : Compress.Compressor}
    {cipher : Encrypt.Cipher} (h : newShardCache regionSize evictCapacity comp cipher = some s) :
    Coherent H s ∧ ∀ k, s.idx.lookup k = none := by
  obtain ⟨ev, _, h⟩ := Option.bind_eq_some_iff.mp h
  cases h
  have hnone : ∀ k, newShardIndex.lookup k = none := fun k => ShardIndex.lookup_blank k
  refine ⟨⟨ShardIndex.wf_new, ?_, ?_⟩, hnone⟩
  · refine (Arena.Manager.owns_newManager _).mono ?_
    rintro g ⟨k, e, hk, _⟩
    simp [hnone] at hk
  · intro k k' e e' hk
    simp [hnone] at hk

/-! ## Writing -/

theorem flag_eq (m : Manager) (h : Handle) (p : Payload) :
    flag m h p = m.modifyMeta h (· ||| p.flags) := by
  unfold flag Payload.flags Manager.orMetaBits
  cases p.compressed <;> cases p.encrypted <;>
    simp [Manager.modifyMeta_modifyMeta, Manager.modifyMeta_self, UInt16.or_assoc]

/-- The meta word of a fresh handle holds the codec bits, and no other word changes. -/
theorem flag_spec {m : Manager} (hown : m.Owns L) (hh : h ∈ L) (hzero : m.getMeta h = 0)
    (p : Payload) :
    SameBlocks m (flag m h p) ∧ (flag m h p).getMeta h = p.flags ∧
      ∀ g ∈ L, g ≠ h → (flag m h p).getMeta g = m.getMeta g := by
  have hmod := fun g (hg : g ∈ L) => hown.getMeta_modifyMeta hh hg (· ||| p.flags)
  rw [flag_eq]
  refine ⟨Manager.sameBlocks_modifyMeta m h _, ?_, fun g hg hne => ?_⟩
  · rw [hmod h hh, if_pos rfl, hzero, UInt16.zero_or]
  · rw [hmod g hg, if_neg hne]

/-- The handle that the policy gives up when this payload is stored now, if any. -/
def storeVictim (H : Hashes) (s : ShardCache) (env : Env) (key : Bytes) (p : Payload) :
    Option Handle :=
  match s.mgr.put p.bytes env.mmapOk with
  | some (.ok h, mgr) => s.ev.victim? H.fingerprintOf (flag mgr h p) key
  | _ => none

/-- The key has its new entry and every other entry is as before. -/
structure Written (H : Hashes) (s : ShardCache) (key : Bytes) (p : Payload)
    (expiresAt : UInt32) (h : Handle) (s' : ShardCache) : Prop where
  coherent : Coherent H s'
  lookup : s'.idx.lookup = Function.update s.idx.lookup key (some ⟨key, h, expiresAt⟩)
  count : s'.idx.count = s.idx.count + (if (s.idx.lookup key).isNone then 1 else 0)
  view : s'.mgr.view h = some (.ok p.bytes)
  flags : s'.mgr.getMeta h &&& flagMask = p.flags
  frame : Frame (s'.idx.owned \ {h}) s.mgr s'.mgr
  comp : s'.comp = s.comp
  cipher : s'.cipher = s.cipher

/-- Large blocks are not recycled, so freeing them leaves every owner in place. -/
theorem owns_freeAll_large : ∀ (vs : List Handle) {m : Manager}, m.Owns L →
    (∀ v ∈ vs, 8192 < v.size.toNat) → (m.freeAll vs).Owns L := by
  intro vs
  induction vs with
  | nil => exact fun hown _ => hown
  | cons v vs ih =>
    intro m hown hbig
    exact ih (Manager.owns_free_large hown (hbig v List.mem_cons_self))
      fun w hw => hbig w (List.mem_cons_of_mem _ hw)

theorem frame_freeAll : ∀ (vs : List Handle) (m : Manager), Frame L m (m.freeAll vs) := by
  intro vs
  induction vs with
  | nil => exact fun m => Frame.refl L m
  | cons v vs ih => exact fun m => (Manager.frame_free L m v).trans (ih (m.free v).2)

theorem flags_and_mask (p : Payload) : p.flags &&& flagMask = p.flags := by
  unfold Payload.flags
  cases p.compressed <;> cases p.encrypted <;> decide

/-- The manager after the payload is stored, tagged and queued and what the policy gave up
is freed: the new handle is one more owner. -/
theorem queued_spec {env : Env} {p : Payload} {mgr : Manager} (hc : Coherent H s)
    (hlen : p.bytes.length < 2 ^ 32)
    (hput : s.mgr.put p.bytes env.mmapOk = some (.ok h, mgr))
    (hspare : ∀ v, s.storeVictim H env key p = some v → 8192 < v.size.toNat) :
    let m := ((s.ev.add H.fingerprintOf (flag mgr h p) key h).2.2).freeAll
      (s.ev.add H.fingerprintOf (flag mgr h p) key h).1
    h ∉ s.idx.owned ∧ m.Owns (insert h s.idx.owned) ∧ m.view h = some (.ok p.bytes) ∧
      m.getMeta h &&& flagMask = p.flags ∧ Frame s.idx.owned s.mgr m ∧
      (s.storeVictim H env key p = none → m.liveObjs = s.mgr.liveObjs + 1) := by
  intro m
  have hst := Manager.stored_of_put hc.owns hput
  rw [Nat.mod_eq_of_lt hlen, List.take_length] at hst
  have hmem : h ∈ insert h s.idx.owned := Set.mem_insert _ _
  obtain ⟨hblocks, hword, hwords⟩ := flag_spec hst.owns hmem hst.getMeta p
  have hsame := Eviction.sameStore_add H.fingerprintOf s.ev (flag mgr h p) key h
  have hfree := frame_freeAll (L := insert h s.idx.owned)
    (s.ev.add H.fingerprintOf (flag mgr h p) key h).1
    (s.ev.add H.fingerprintOf (flag mgr h p) key h).2.2
  have hvictims : (s.ev.add H.fingerprintOf (flag mgr h p) key h).1 =
      (s.storeVictim H env key p).toList := by
    simp only [Eviction.add_fst, storeVictim, hput]
  refine ⟨hst.fresh, ?_, ?_, ?_, ?_, ?_⟩
  · refine owns_freeAll_large _ (hsame.owns (hblocks.owns hst.owns)) ?_
    intro v hv
    rw [hvictims, Option.mem_toList] at hv
    exact hspare v hv
  · rw [(hfree h hmem).1, hsame.view, hblocks.view, hst.view]
  · rw [(hfree h hmem).2, hsame.flags, hword, flags_and_mask]
  · intro g hg
    have hin : g ∈ insert h s.idx.owned := Set.mem_insert_of_mem _ hg
    have hne : g ≠ h := by
      rintro rfl
      exact hst.fresh hg
    constructor
    · rw [(hfree g hin).1, hsame.view, hblocks.view, (hst.frame g hg).1]
    · rw [(hfree g hin).2, hsame.flags, hwords g hin hne, (hst.frame g hg).2]
  · intro hnone
    simp only [m, hvictims, hnone, Option.toList_none]
    exact (hsame.liveObjs.trans hblocks.liveObjs).trans hst.live

/-- The handles of an index with one entry replaced. -/
theorem owned_update {idx idx' : ShardIndex} {e : Entry} {g : Handle}
    (hlook : idx'.lookup = Function.update idx.lookup key (some e)) (hg : g ∈ idx'.owned) :
    g = e.handle ∨ ∃ k e', k ≠ key ∧ idx.lookup k = some e' ∧ e'.handle = g := by
  obtain ⟨k, e', hk, rfl⟩ := hg
  rw [hlook] at hk
  by_cases hkk : k = key
  · subst hkk
    rw [Function.update_self] at hk
    cases hk
    exact Or.inl rfl
  · rw [Function.update_of_ne hkk] at hk
    exact Or.inr ⟨k, e', hkk, hk, rfl⟩

/-- The entry being replaced, if any, gives its block back; the new handle and all other
entries keep theirs. -/
theorem replace_spec {m : Manager} {expiresAt : UInt32} (hc : Coherent H s)
    (hfresh : h ∉ s.idx.owned)
    (hown : m.Owns (insert h s.idx.owned))
    (hlook : idx.lookup = Function.update s.idx.lookup key (some ⟨key, h, expiresAt⟩)) :
    let m' := release m ((s.idx.lookup key).map Entry.handle)
    m'.Owns idx.owned ∧ Frame (insert h s.idx.owned) m m' ∧
      m'.liveObjs = m.liveObjs - (if (s.idx.lookup key).isSome then 1 else 0) ∧
      (∀ k k' e e', idx.lookup k = some e → idx.lookup k' = some e' → e.handle = e'.handle →
        k = k') := by
  intro m'
  refine ⟨?_, ?_, ?_, ?_⟩
  · cases hold : s.idx.lookup key with
    | none =>
      simp only [m', hold, Option.map_none, release]
      refine hown.mono fun g hg => ?_
      rcases owned_update hlook hg with rfl | ⟨k, e', _, hk, rfl⟩
      · exact Set.mem_insert _ _
      · exact Set.mem_insert_of_mem _ ⟨k, e', hk, rfl⟩
    | some e =>
      simp only [m', hold, Option.map_some, release]
      have hin : e.handle ∈ s.idx.owned := ⟨key, e, hold, rfl⟩
      obtain ⟨_, hfree, _⟩ := Manager.free_spec hown (Set.mem_insert_of_mem h hin)
      refine hfree.mono fun g hg => ?_
      rcases owned_update hlook hg with hgh | ⟨k, e', hne, hk, rfl⟩
      · rw [hgh]
        exact ⟨Set.mem_insert _ _, fun heq : h = e.handle => hfresh (heq ▸ hin)⟩
      · exact ⟨Set.mem_insert_of_mem _ ⟨k, e', hk, rfl⟩,
          fun heq : e'.handle = e.handle => hne (hc.inj k key e' e hk hold heq)⟩
  · cases hold : s.idx.lookup key with
    | none =>
      simp only [m', hold, Option.map_none, release]
      exact Frame.refl _ _
    | some e =>
      simp only [m', hold, Option.map_some, release]
      exact Manager.frame_free _ m e.handle
  · cases hold : s.idx.lookup key with
    | none => simp [m', hold, release]
    | some e =>
      have hin : e.handle ∈ s.idx.owned := ⟨key, e, hold, rfl⟩
      simpa [m', hold, release] using
        (Manager.free_spec hown (Set.mem_insert_of_mem h hin)).2.2
  · intro k k' e e' hk hk' heq
    rw [hlook] at hk hk'
    by_cases hkk : k = key <;> by_cases hkk' : k' = key
    · exact hkk.trans hkk'.symm
    · subst hkk
      rw [Function.update_self] at hk
      rw [Function.update_of_ne hkk'] at hk'
      cases hk
      exact absurd ⟨k', e', hk', heq.symm⟩ hfresh
    · subst hkk'
      rw [Function.update_self] at hk'
      rw [Function.update_of_ne hkk] at hk
      cases hk'
      exact absurd ⟨k, e, hk, heq⟩ hfresh
    · rw [Function.update_of_ne hkk] at hk
      rw [Function.update_of_ne hkk'] at hk'
      exact hc.inj k k' e e' hk hk' heq

/-- The tail of the writing calls, as long as the policy gives up no recyclable block. -/
theorem store_spec {env : Env} {p : Payload} (expiresAt : UInt32) (hc : Coherent H s)
    (hlen : p.bytes.length < 2 ^ 32)
    (hspare : ∀ v, s.storeVictim H env key p = some v → 8192 < v.size.toNat) :
    ∃ res s', s.store H env key p expiresAt = some (res, s') ∧
      match res with
      | .ok h => Written H s key p expiresAt h s' ∧
          (s.storeVictim H env key p = none → s'.mgr.liveObjs =
            s.mgr.liveObjs + 1 - (if (s.idx.lookup key).isSome then 1 else 0))
      | .error _ => Kept H s s' := by
  obtain ⟨res, mgr, hput, hspec⟩ := Manager.put_spec hc.owns p.bytes env.mmapOk
  cases res with
  | error e =>
    refine ⟨.error (.arena e), { s with mgr := mgr }, by simp [store, hput], ?_⟩
    exact ⟨⟨hc.idx, hspec.1, hc.inj⟩, rfl, hspec.2.1, rfl, rfl, hspec.2.2⟩
  | ok h =>
    obtain ⟨hfresh, hown, hview, hflags, hframe, hlive⟩ := queued_spec hc hlen hput hspare
    obtain ⟨idx, hidx, hwf, hlook, hcount⟩ := hc.idx.put key h expiresAt
    obtain ⟨hown', hframe', hlive', hinj⟩ := replace_spec hc hfresh hown hlook
    refine ⟨.ok h, _, by simp only [store, hput, hidx, Option.bind_eq_bind,
      Option.bind_some]; rfl, ?_⟩
    have hmem : h ∈ insert h s.idx.owned := Set.mem_insert _ _
    refine ⟨⟨⟨hwf, hown', hinj⟩, hlook, hcount, ?_, ?_, ?_, rfl, rfl⟩,
      fun hnone => by rw [hlive', hlive hnone]⟩
    · exact (hframe' h hmem).1.trans hview
    · exact (hframe' h hmem).2.trans hflags
    · rintro g ⟨hg, hne⟩
      rcases owned_update hlook hg with rfl | ⟨k, e', _, hk, rfl⟩
      · exact absurd rfl hne
      · have hin : e'.handle ∈ s.idx.owned := ⟨k, e', hk, rfl⟩
        have hlast := hframe' _ (Set.mem_insert_of_mem h hin)
        exact ⟨hlast.1.trans (hframe _ hin).1, hlast.2.trans (hframe _ hin).2⟩

/-! ## Removing -/

/-- The entries `es` are gone and every other entry is as before. -/
structure Dropped (H : Hashes) (s : ShardCache) (es : List Entry) (s' : ShardCache) : Prop where
  coherent : Coherent H s'
  removed : ShardIndex.Removed H.hashKey s.idx es s'.idx
  frame : Frame s'.idx.owned s.mgr s'.mgr
  comp : s'.comp = s.comp
  cipher : s'.cipher = s.cipher
  live : s'.mgr.liveObjs = s.mgr.liveObjs - UInt64.ofNat es.length

/-- Freeing owned handles one after another, with the policy forgetting each first. -/
theorem dropAll_spec {α : Type} {forget : Eviction → Manager → α → Eviction × Manager}
    {handle : α → Handle} (hforget : ∀ ev mgr x, SameStore mgr (forget ev mgr x).2) :
    ∀ (xs : List α) (ev : Eviction) (m : Manager) (L : Set Handle), m.Owns L →
      (xs.map handle).Nodup → (∀ x ∈ xs, handle x ∈ L) →
      (dropAll forget handle ev m xs).2.Owns (L \ { h | h ∈ xs.map handle }) ∧
        Frame Set.univ m (dropAll forget handle ev m xs).2 ∧
        (dropAll forget handle ev m xs).2.liveObjs = m.liveObjs - UInt64.ofNat xs.length
  | [], _, m, L, hown, _, _ => ⟨by simpa [dropAll] using hown, Frame.refl _ _, by simp [dropAll]⟩
  | x :: xs, ev, m, L, hown, hnd, hin => by
    have hsame := hforget ev m x
    simp only [List.map_cons, List.nodup_cons] at hnd
    obtain ⟨_, hfree, hlive⟩ :=
      Manager.free_spec (hsame.owns hown) (hin x List.mem_cons_self)
    have hrest : ∀ y ∈ xs, handle y ∈ L \ {handle x} := fun y hy =>
      ⟨hin y (List.mem_cons_of_mem _ hy),
        fun heq : handle y = handle x => hnd.1 (heq ▸ List.mem_map_of_mem hy)⟩
    obtain ⟨hown', hframe', hlive'⟩ :=
      dropAll_spec hforget xs (forget ev m x).1 _ _ hfree hnd.2 hrest
    refine ⟨hown'.mono ?_, ?_, ?_⟩
    · rintro g ⟨hg, hout⟩
      simp only [List.map_cons, List.mem_cons, Set.mem_ofPred_eq, not_or] at hout
      exact ⟨⟨hg, hout.1⟩, hout.2⟩
    · exact ((hsame.frame _).trans (Manager.frame_free _ _ (handle x))).trans hframe'
    · refine hlive'.trans ?_
      rw [hlive, hsame.liveObjs, List.length_cons, UInt64.ofNat_add, UInt64.ofNat_one]
      grind

/-- Entries of an index have different handles. -/
theorem Coherent.nodup_handles (hc : Coherent H s)
    (hrem : ShardIndex.Removed H.hashKey s.idx es idx) : (es.map Entry.handle).Nodup := by
  refine List.Nodup.map_on ?_ (List.Nodup.of_map _ hrem.nodup)
  intro e he e' he' heq
  have hkey := hc.inj _ _ e e' (hrem.found e he) (hrem.found e' he') heq
  have hsame := (hrem.found e he).symm.trans (hkey ▸ hrem.found e' he')
  exact Option.some.inj hsame

/-- The entries `es` are taken out of the index, and for each the policy forgets the handle and the
arena gets the block back. -/
inductive Drops (H : Hashes) (s : ShardCache) (es : List Entry) : ShardCache → Prop where
  | intro {α : Type} {forget : Eviction → Manager → α → Eviction × Manager} (handle : α → Handle)
      (xs : List α) (idx : ShardIndex) (hrem : ShardIndex.Removed H.hashKey s.idx es idx)
      (hxs : xs.map handle = es.map Entry.handle)
      (hforget : ∀ ev mgr x, SameStore mgr (forget ev mgr x).2)
      (hkeep : ∀ P ev mgr x, ev.Both (RingBuffer.Holds P) →
        (forget ev mgr x).1.Both (RingBuffer.Holds P)) :
      Drops H s es { s with
        mgr := (dropAll forget handle s.ev s.mgr xs).2
        ev := (dropAll forget handle s.ev s.mgr xs).1
        idx := idx }

theorem drops_deleted (xs : List (Bytes × Handle))
    (hrem : ShardIndex.Removed H.hashKey s.idx es idx)
    (hxs : xs.map Prod.snd = es.map Entry.handle) :
    Drops H s es { s with
      mgr := (dropAll (fun ev mgr x => ev.delete H.fingerprintOf mgr x.1 x.2) Prod.snd s.ev s.mgr
        xs).2
      ev := (dropAll (fun ev mgr x => ev.delete H.fingerprintOf mgr x.1 x.2) Prod.snd s.ev s.mgr
        xs).1
      idx := idx } :=
  .intro Prod.snd xs idx hrem hxs
    (fun ev mgr x => Eviction.sameStore_delete H.fingerprintOf ev mgr x.1 x.2)
    fun P _ mgr x hev => (Eviction.keeps_holds P).delete H.fingerprintOf hev mgr x.1 x.2

theorem delete_drops (hwf : s.idx.Wf H.hashKey) (key : Bytes) :
    ∃ res s', s.delete H key = some (res, s') ∧ Drops H s (s.idx.lookup key).toList s' := by
  obtain ⟨idx, hdel, hrem⟩ := hwf.delete_removed key
  unfold delete
  simp only [hdel, Option.bind_eq_bind, Option.bind_some]
  cases hold : s.idx.lookup key with
  | none => exact ⟨_, _, rfl, drops_deleted [] (hold ▸ hrem) rfl⟩
  | some e => exact ⟨_, _, rfl, drops_deleted [(key, e.handle)] (hold ▸ hrem) rfl⟩

theorem deleteExpired_drops (hwf : s.idx.Wf H.hashKey) (now : UInt32) (limit : Int) :
    ∃ es s', s.deleteExpired H now limit = some s' ∧ Drops H s es s' ∧
      ∀ e ∈ es, e.expired now = true := by
  obtain ⟨es, idx, hdel, hrem, hexp⟩ := hwf.deleteExpired now limit
  simp only [deleteExpired, hdel, Option.bind_eq_bind, Option.bind_some]
  exact ⟨es, _, rfl, .intro id _ idx hrem (List.map_id _) Eviction.sameStore_remove
    fun P ev mgr x hev => (Eviction.keeps_holds P).remove hev mgr x, hexp⟩

theorem delPrefix_drops (hwf : s.idx.Wf H.hashKey) (pre : Bytes) :
    ∃ es n s', s.delPrefix H pre = some (n, s') ∧ Drops H s es s' ∧ (∀ e ∈ es, pre <+: e.key) ∧
      ∀ k, pre <+: k → s'.idx.lookup k = none := by
  obtain ⟨es, idx, hdel, hrem, hpre, hgone⟩ := hwf.deletePrefix pre
  simp only [delPrefix, hdel, Option.bind_eq_bind, Option.bind_some]
  exact ⟨es, _, _, rfl, drops_deleted _ hrem (List.map_snd_zip (by simp)), hpre, hgone⟩

theorem Drops.dropped (h : Drops H s es s') (hc : Coherent H s) : Dropped H s es s' := by
  obtain ⟨handle, xs, idx, hrem, hxs, hforget, _⟩ := h
  have hlen : xs.length = es.length := by simpa using congrArg List.length hxs
  have hin : ∀ x ∈ xs, handle x ∈ s.idx.owned := by
    intro x hx
    have hmem : handle x ∈ es.map Entry.handle := hxs ▸ List.mem_map_of_mem hx
    obtain ⟨e, he, heq⟩ := List.mem_map.mp hmem
    exact ⟨e.key, e, hrem.found e he, heq⟩
  obtain ⟨hown, hframe, hlive⟩ := dropAll_spec hforget xs s.ev s.mgr s.idx.owned hc.owns
    (hxs ▸ hc.nodup_handles hrem) hin
  have hstays : ∀ k e, idx.lookup k = some e → s.idx.lookup k = some e ∧
      k ∉ es.map Entry.key := by
    intro k e hk
    rw [hrem.lookup] at hk
    split at hk
    · cases hk
    · exact ⟨hk, ‹_›⟩
  refine ⟨⟨hrem.wf, ?_, ?_⟩, hrem, hframe.mono (Set.subset_univ _), rfl, rfl, by rw [hlive, hlen]⟩
  · refine hown.mono ?_
    rintro g ⟨k, e, hk, rfl⟩
    obtain ⟨hk, hkeep⟩ := hstays k e hk
    refine ⟨⟨k, e, hk, rfl⟩, fun hgone => hkeep ?_⟩
    rw [Set.mem_ofPred_eq, hxs] at hgone
    obtain ⟨e', he', heq⟩ := List.mem_map.mp hgone
    rw [hc.inj k e'.key e e' hk (hrem.found e' he') heq.symm]
    exact List.mem_map_of_mem he'
  · intro k k' e e' hk hk'
    exact hc.inj k k' e e' (hstays k e hk).1 (hstays k' e' hk').1

end ShardCache

end Horreum.Transport
