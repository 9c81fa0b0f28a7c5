/-
  Transport/Restores.lean --- when a call on a shard leaves its arena as it is.

  A read counts the hit, a removal frees a block, and a write takes a block, frees what it replaces
  or what the policy gives up, and sets meta words.  Which of these a call does, and whether they
  cancel, is known from the shard before the call.
-/
import Horreum.Eviction.Restores
import Horreum.Transport.FailedWrites

set_option autoImplicit false

namespace Horreum.Transport

open Foundation
open Foundation.Probing (cell)
open Arena (Handle Manager Region maxObjectSize queueTagMask queueTagS queueTagM)
open Arena.Manager (SameBlocks SameRoom wordOf)
open S3Fifo (Eviction RingBuffer)

namespace ShardCache

variable {H : Hashes} {s s' t : ShardCache} {env : Env} {key value : Bytes} {p : Payload}
  {expiresAt : UInt32}

/-! ## A stored value -/

theorem flags_fields (p : Payload) : p.flags &&& ~~~Arena.freqMask = p.flags ∧
    p.flags &&& ~~~queueTagMask = p.flags ∧ p.flags &&& Arena.freqMask = 0 := by
  unfold Payload.flags
  cases p.compressed <;> cases p.encrypted <;> decide

/-- The block `g` is given back by a write of `p` under `key`, and comes out as it was: the handle
of the key where there is room in the queue, otherwise the head of the queue. -/
def GivesBack (H : Hashes) (s : ShardCache) (key : Bytes) (p : Payload) (g : Handle) : Prop :=
  if (s.ev.queueFor H.fingerprintOf key).full then
    s.idx.lookup key = none ∧ Eviction.head (s.ev.queueFor H.fingerprintOf key) = g ∧
      s.mgr.getMeta g = p.flags
  else (s.idx.lookup key).map Entry.handle = some g ∧
    s.mgr.getMeta g = p.flags ||| s.ev.tagFor H.fingerprintOf key

/-- `t` is `s` after the hit on `key` and a write through its view. -/
structure Readied (s t : ShardCache) (key : Bytes) : Prop where
  ev : t.ev = s.ev
  idx : t.idx = s.idx
  room : SameRoom s.mgr t.mgr
  live : t.mgr.liveObjs = s.mgr.liveObjs
  words : ∀ w, (∀ e, s.idx.lookup key = some e → w ≠ wordOf e.handle) →
    t.mgr.word w = s.mgr.word w
  comp : t.comp = s.comp
  cipher : t.cipher = s.cipher

theorem Readied.grows (hr : Readied s t key) : Manager.Grows s.mgr t.mgr :=
  ⟨hr.room.size, Nat.le_of_eq (by simpa using (congrArg List.length hr.room.allocs).symm)⟩

theorem Readied.refl (s : ShardCache) (key : Bytes) : Readied s s key :=
  ⟨rfl, rfl, ⟨rfl, rfl, rfl⟩, rfl, fun _ _ => rfl, rfl, rfl⟩

theorem Readied.old_word {g : Handle} {w : Nat × Nat} (hr : Readied s t key)
    (hold : ∀ e, s.idx.lookup key = some e → e.handle = g) (hw : w ≠ wordOf g) :
    t.mgr.word w = s.mgr.word w :=
  hr.words w fun e he heq => hw (by rw [heq, hold e he])

theorem Safe.within_head (hs : Safe H s)
    (hfull : (s.ev.queueFor H.fingerprintOf key).full = true) :
    s.mgr.Within (Eviction.head (s.ev.queueFor H.fingerprintOf key)) := by
  obtain ⟨q, hpop, _⟩ := RingBuffer.pop_of_full hfull
  refine ((Eviction.keeps_holds _).onPop _ _ _ ?_ hpop).2
  unfold Eviction.queueFor
  split
  · exact hs.queued.2
  · exact hs.queued.1

/-- The words once the new handle has its tag. -/
theorem word_tagged {m : Manager} {hd : Handle} (hin : m.hasWord hd = true)
    (hzero : m.getMeta hd = 0) (tag : UInt16) (w : Nat × Nat) :
    (((flag m hd p).setFreq hd 0).orMetaBits hd tag).word w =
      if w = wordOf hd then some (p.flags ||| tag) else (flag m hd p).word w := by
  rw [Manager.orMetaBits, Manager.setFreq, Manager.modifyMeta_modifyMeta, flag_eq,
    Manager.modifyMeta_modifyMeta, Manager.word_modifyMeta, Manager.word_modifyMeta]
  by_cases hw : w = wordOf hd
  · simp [hw, hin, Manager.word_eq hin, hzero, (flags_fields p).1]
  · simp [hw]

section Put

variable {hd g : Handle} {m₂ m₄ : Manager} {evicted : List Handle} {ev : Eviction}
  (hs : Safe H s) (ht : Safe H t) (hr : Readied s t key) (hlen : p.bytes.length < 2 ^ 32)
  (hput : t.mgr.put p.bytes env.mmapOk = some (.ok hd, m₂))

include hs ht hr hlen hput

/-- Where the block is the one that is given back, the words once the value has its flags. -/
theorem Safe.word_flag (hundoes : s.mgr.Undoes (t.mgr.regions.map Region.data) p.bytes g) :
    wordOf g = wordOf hd ∧ ∀ w, (flag m₂ hd p).word w =
      if w = wordOf g then some p.flags else t.mgr.word w := by
  obtain ⟨hb₂, _, hin, _⟩ := ht.arena.put_ok hput
  obtain ⟨hword, hplaced⟩ := hs.arena.put_words ht.arena hr.room hlen hput hundoes
  refine ⟨hword, fun w => ?_⟩
  rw [flag_eq, Manager.word_modifyMeta, hplaced, hword]
  by_cases hw : w = wordOf hd
  · simp [hw, hin.hasWord hb₂]
  · simp [hw]

/-- If it has the word `v` then, all words are as they were exactly if it had `v` before. -/
theorem Safe.words_back_iff (hundoes : s.mgr.Undoes (t.mgr.regions.map Region.data) p.bytes g)
    (hg : s.mgr.Within g) {v : UInt16} (hold : ∀ e, s.idx.lookup key = some e → e.handle = g)
    (hnew : ∀ w, m₄.word w = if w = wordOf g then some v else (flag m₂ hd p).word w) :
    (∀ w, m₄.word w = s.mgr.word w) ↔ s.mgr.getMeta g = v := by
  have hself := Manager.word_eq (hg.hasWord hs.arena)
  refine ⟨fun hall => ?_, fun hmeta w => ?_⟩
  · have hat := hall (wordOf g)
    rw [hnew, if_pos rfl, hself] at hat
    exact (Option.some.inj hat).symm
  · rw [hnew, (hs.word_flag ht hr hlen hput hundoes).2]
    by_cases hw : w = wordOf g
    · rw [if_pos hw, hw, hself, hmeta]
    · rw [if_neg hw, if_neg hw, hr.old_word hold hw]

/-- The head is kept: its frequency was not zero, so its word is not that of the new handle, and it
is another one now. -/
theorem Safe.not_back_of_kept {v : Handle} (hhas : (flag m₂ hd p).hasWord v = true)
    (hhas₄ : m₄.hasWord v = true) (hfreq : (flag m₂ hd p).getFreq v ≠ 0)
    (hlower : m₄.getFreq v ≠ (flag m₂ hd p).getFreq v)
    (hundoes : s.mgr.Undoes (t.mgr.regions.map Region.data) p.bytes g) :
    wordOf v ≠ wordOf g ∧ ((∀ e, s.idx.lookup key = some e → e.handle = g) →
      ¬ ∀ w, m₄.word w = s.mgr.word w) := by
  have hself := Manager.word_eq hhas
  rw [(hs.word_flag ht hr hlen hput hundoes).2] at hself
  have hne : wordOf v ≠ wordOf g := by
    intro heq
    rw [if_pos heq, Option.some.injEq] at hself
    exact hfreq (by rw [Manager.getFreq, ← hself]; exact (flags_fields p).2.2)
  refine ⟨hne, fun hold hall => ?_⟩
  have hat := Manager.word_eq hhas₄
  rw [hall, ← hr.old_word hold hne] at hat
  rw [if_neg hne, hat, Option.some.injEq] at hself
  exact hlower (by rw [Manager.getFreq, hself, Manager.getFreq])

/-- `Add` in the state `t`, and what is given back: the three things that it can do. -/
theorem Safe.words_add_iff
    (hadd : t.ev.add H.fingerprintOf (flag m₂ hd p) key hd = (evicted, ev, m₄)) :
    (∃ g, evicted ++ ((s.idx.lookup key).map Entry.handle).toList = [g] ∧
      s.mgr.Undoes (t.mgr.regions.map Region.data) p.bytes g ∧ ∀ w, m₄.word w = s.mgr.word w) ↔
    ∃ g, s.mgr.Undoes (t.mgr.regions.map Region.data) p.bytes g ∧ s.GivesBack H key p g := by
  obtain ⟨hb₂, hg₂, hin, hzero⟩ := ht.arena.put_ok hput
  have hflag := sameBlocks_flag m₂ hd p
  have hhas : (s.ev.queueFor H.fingerprintOf key).full = true →
      (flag m₂ hd p).hasWord (Eviction.head (s.ev.queueFor H.fingerprintOf key)) = true :=
    fun hfull => ((hs.within_head hfull).mono
      (hr.grows.trans (hg₂.trans hflag.grows))).hasWord (hflag.bounded hb₂)
  have hsame := (Eviction.sameStore_add H.fingerprintOf t.ev (flag m₂ hd p) key hd).toSameBlocks
  have hcases := Eviction.add_words H.fingerprintOf hadd
  rw [hadd] at hsame
  rw [hr.ev] at hcases
  unfold GivesBack
  rcases hcases with ⟨hfull, rfl, rfl⟩ | ⟨hfull, ⟨rfl, hm₄⟩ | ⟨hfreq, hlower⟩⟩
  · simp only [hfull, Bool.false_eq_true, if_false, List.nil_append, Option.toList_eq_singleton_iff]
    refine exists_congr fun g => ?_
    rw [and_left_comm]
    refine and_congr_right fun hundoes => and_congr_right fun hold => ?_
    obtain ⟨e, he, rfl⟩ := Option.map_eq_some_iff.mp hold
    refine hs.words_back_iff ht hr hlen hput hundoes (hs.indexed e.handle ⟨key, e, he, rfl⟩)
      (fun e' he' => by cases he.symm.trans he'; rfl) fun w => ?_
    rw [(hs.word_flag ht hr hlen hput hundoes).1, word_tagged (hin.hasWord hb₂) hzero]
  · simp only [hfull, if_true]
    refine exists_congr fun g => ?_
    rw [and_left_comm]
    refine and_congr_right fun hundoes => ?_
    have hone : [Eviction.head (s.ev.queueFor H.fingerprintOf key)] ++
        ((s.idx.lookup key).map Entry.handle).toList = [g] ↔
        s.idx.lookup key = none ∧ Eviction.head (s.ev.queueFor H.fingerprintOf key) = g := by
      cases s.idx.lookup key <;> simp
    rw [← and_assoc, ← hone]
    refine and_congr_right fun hlast => ?_
    obtain ⟨hnone, rfl⟩ := hone.mp hlast
    refine hs.words_back_iff ht hr hlen hput hundoes (hs.within_head hfull)
      (fun e he => nomatch hnone.symm.trans he) fun w => ?_
    have hplaced := (hs.word_flag ht hr hlen hput hundoes).2
    rcases hm₄ with rfl | rfl
    · rw [hplaced]
      split <;> rfl
    · rw [Manager.clearMetaBits, Manager.word_modifyMeta, hplaced]
      by_cases hw : w = wordOf (Eviction.head (s.ev.queueFor H.fingerprintOf key))
      · simp [hw, hhas hfull, (flags_fields p).2.1]
      · simp [hw]
  · simp only [hfull, if_true]
    have hnot := fun g => hs.not_back_of_kept ht hr hlen hput (g := g) (hhas hfull)
      (hsame.hasWord (hhas hfull)) hfreq (hlower (hhas hfull))
    refine iff_of_false ?_ ?_
    · rintro ⟨g, hone, hundoes, hall⟩
      refine (hnot g hundoes).2 (fun e he => ?_) hall
      have hmem : e.handle ∈ [g] := by
        rw [← hone, he]
        simp
      exact List.mem_singleton.mp hmem
    · rintro ⟨g, hundoes, _, rfl, _⟩
      exact (hnot _ hundoes).1 rfl

end Put

theorem Safe.store_mgr_iff {hd : Handle} (hs : Safe H s) (ht : Safe H t) (hr : Readied s t key)
    (hlen : p.bytes.length < 2 ^ 32)
    (h : t.store H env key p expiresAt = some (.ok hd, s')) :
    s'.mgr = s.mgr ↔ ∃ g, s.mgr.Undoes (t.mgr.regions.map Region.data) p.bytes g ∧
      s.GivesBack H key p g := by
  obtain ⟨⟨put, m₂⟩, hput, h⟩ := Option.bind_eq_some_iff.mp h
  cases put with
  | error e => cases h
  | ok hd' =>
    obtain ⟨idx, hidx, _⟩ := ht.idx.put key hd' expiresAt
    obtain ⟨_, hg₂, hin, _⟩ := ht.arena.put_ok hput
    have hflag := sameBlocks_flag m₂ hd' p
    have hblocks := hflag.trans
      (Eviction.sameStore_add H.fingerprintOf t.ev (flag m₂ hd' p) key hd').toSameBlocks
    have hwithin := ht.gone_within (hg₂.trans hflag.grows) (hin.mono hflag.grows) key
    have hfew := Eviction.add_fst H.fingerprintOf t.ev (flag m₂ hd' p) key hd'
    have hwords := hs.words_add_iff (H := H) ht hr hlen hput rfl
    simp only [hidx, release_freeAll, Option.bind_eq_bind, Option.bind_some, Option.some.injEq,
      Prod.mk.injEq, Except.ok.injEq] at h
    obtain ⟨rfl, rfl⟩ := h
    have hlist : ((t.ev.add H.fingerprintOf (flag m₂ hd' p) key hd').1 ++
        ((t.idx.lookup key).map Entry.handle).toList).length ≤ 2 := by
      rw [hfew, List.length_append]
      cases Eviction.victim? .. <;> cases t.idx.lookup key <;> simp
    rw [hs.arena.put_freeAll_iff ht.arena hr.room hlen hput hr.live hblocks hwithin hlist, hr.idx]
    exact hwords

/-- A write that is made in the state `t`. -/
theorem Safe.save_mgr_iff {again : Bool} {res : Except Error (Payload × Handle)} (hs : Safe H s)
    (ht : Safe H t) (hr : Readied s t key)
    (h : t.save H env again key value expiresAt = some (res, s')) :
    s'.mgr = s.mgr ↔
      if s.stores env value then ∃ p g, s.encode env value = some (.ok p) ∧
        s.mgr.Undoes (t.mgr.regions.map Region.data) p.bytes g ∧ s.GivesBack H key p g
      else t.mgr = s.mgr ∧ ∀ p, value.length ≤ maxObjectSize →
        s.encode env value = some (.ok p) → ¬ s.mgr.InVain p.bytes.length env.mmapOk := by
  have hstores := hs.stores_congr ht hr.room hr.comp hr.cipher env value
  have hencode : t.encode env value = s.encode env value := encode_congr hr.comp hr.cipher
  obtain ⟨_, _, h', _, hspec⟩ := ht.save env again key value expiresAt
  cases h.symm.trans h'
  rw [hstores] at hspec
  rcases save_cases h with ⟨e, rfl, rfl, hno⟩ | ⟨p, stored, hvalue, henc, hstore, rfl⟩
  · rw [hspec.1, hencode] at *
    refine ⟨fun heq => ⟨heq, fun p hvalue henc hv => ?_⟩, And.left⟩
    exact Nat.not_le.mpr (hno p hvalue henc).2 hv.1
  have hlen := encode_length henc hvalue
  cases stored with
  | ok hd =>
    simp only [hspec.1, if_true, ← hencode, henc, Option.some.injEq, Except.ok.injEq,
      exists_and_left, exists_eq_left']
    exact hs.store_mgr_iff ht hr hlen hstore
  | error e =>
    simp only [hspec.1, Bool.false_eq_true, if_false, ← hencode, henc, Option.some.injEq,
      Except.ok.injEq, forall_eq', hvalue, true_imp_iff]
    obtain ⟨⟨put, m'⟩, hput, hstore⟩ := Option.bind_eq_some_iff.mp hstore
    cases put with
    | ok hd =>
      obtain ⟨_, _, hstore⟩ := Option.bind_eq_some_iff.mp hstore
      cases hstore
    | error e' =>
      cases hstore
      have hmgr := Manager.put_error_mgr hput
      rw [Nat.mod_eq_of_lt hlen] at hmgr
      rcases hmgr with ⟨rfl, hno⟩ | ⟨rfl, hv⟩
      · exact ⟨fun heq => ⟨heq, heq ▸ hno⟩, And.left⟩
      · refine iff_of_false (fun heq => ?_) fun hsame => hsame.2 (hsame.1 ▸ hv)
        have hregions := congrArg List.length hr.room.allocs
        rw [← heq] at hregions
        simp [Manager.addRegion] at hregions

/-! ## The state that a write is made in -/

/-- The hit on `key` is counted. -/
def counts (s : ShardCache) (now : UInt32) (key : Bytes) : Bool :=
  (s.hit now key).any fun e => s.ev.counted s.mgr e.handle

/-- The bytes of the regions, with what was written through the view of `key`. -/
def patched (H : Hashes) (s : ShardCache) (now : UInt32) (key : Bytes)
    (inPlace : Option (Nat × Bytes)) : List (Cells UInt8) :=
  match inPlace, s.viewed H now key with
  | some (off, bytes), some g => (s.mgr.regions.map Region.data).modify g.region.toNat
      fun c => c.write (g.offset.toNat + off) bytes
  | _, _ => s.mgr.regions.map Region.data

theorem Safe.word_scribbled (h : Safe H s) (env : Env) (key : Bytes)
    (inPlace : Option (Nat × Bytes)) (w : Nat × Nat) :
    (s.scribbled H env key inPlace).mgr.word w =
      match s.hit env.now key with
      | none => s.mgr.word w
      | some e => if s.ev.counted s.mgr e.handle ∧ w = wordOf e.handle then
          some (Manager.hitWord (s.mgr.getMeta e.handle)) else s.mgr.word w := by
  have hasked : (s.scribbled H env key inPlace).mgr.word w = (s.asked env.now key).mgr.word w := by
    rcases (s.asked env.now key).scribble_poked env.now key inPlace with heq | ⟨g, off, bytes, heq⟩
    · rw [ShardCache.scribbled, heq]
    · rw [ShardCache.scribbled, heq, Manager.word_congr (Manager.metas_poke _ g off bytes)]
  rw [hasked, ShardCache.asked]
  cases hhit : s.hit env.now key with
  | none => rfl
  | some e =>
    simp only [ShardCache.touched, Eviction.touch_eq]
    split
    · rename_i hcount
      have hhas := (h.within_hit hhit).hasWord h.arena
      rw [Manager.incFreq, Manager.word_modifyMeta]
      by_cases hw : w = wordOf e.handle
      · simp [hw, hhas, hcount, Manager.word_eq hhas, Manager.hitWord]
      · simp [hw]
    · rename_i hcount
      simp [hcount]

theorem Safe.data_scribbled (h : Safe H s) (env : Env) (key : Bytes)
    (inPlace : Option (Nat × Bytes)) :
    (s.scribbled H env key inPlace).mgr.regions.map Region.data =
      s.patched H env.now key inPlace := by
  have hdata : (s.asked env.now key).mgr.regions.map Region.data =
      s.mgr.regions.map Region.data := by
    obtain ⟨mgr, heq, hs⟩ := s.asked_sameStore env.now key
    rw [heq]
    exact hs.data
  unfold ShardCache.scribbled ShardCache.scribble patched
  rw [h.viewed_asked]
  rcases inPlace with _ | ⟨off, bytes⟩
  · exact hdata
  · cases s.viewed H env.now key with
    | none => exact hdata
    | some g =>
      rw [← hdata]
      exact Manager.data_poke _ g off bytes

theorem Safe.readied (h : Safe H s) (env : Env) (key : Bytes) (inPlace : Option (Nat × Bytes)) :
    Readied s (s.scribbled H env key inPlace) key := by
  obtain ⟨hprog, hroom, hidx⟩ := h.scribbled env key inPlace
  obtain ⟨mgr, hasked, hsame⟩ := s.asked_sameStore env.now key
  have hpoked := (s.asked env.now key).scribble_poked (H := H) env.now key inPlace
  refine ⟨?_, hidx, hroom, ?_, fun w hw => ?_, hprog.comp, hprog.cipher⟩
  · rcases hpoked with heq | ⟨g, off, bytes, heq⟩ <;> rw [ShardCache.scribbled, heq, hasked]
  · rcases hpoked with heq | ⟨g, off, bytes, heq⟩ <;> rw [ShardCache.scribbled, heq, hasked]
    · exact hsame.liveObjs
    · rw [Manager.liveObjs_poke]
      exact hsame.liveObjs
  · rw [h.word_scribbled]
    split
    · rfl
    · rename_i e hhit
      exact if_neg fun hboth => hw e (lookup_of_hit hhit).1 hboth.2

theorem Safe.scribbled_mgr_iff (h : Safe H s) (env : Env) (key : Bytes)
    (inPlace : Option (Nat × Bytes)) :
    (s.scribbled H env key inPlace).mgr = s.mgr ↔
      s.counts env.now key = false ∧
        s.patched H env.now key inPlace = s.mgr.regions.map Region.data := by
  have hword := h.word_scribbled env key inPlace
  have hdata := h.data_scribbled env key inPlace
  have hr := h.readied env key inPlace
  unfold counts
  constructor
  · intro heq
    rw [heq] at hword hdata
    refine ⟨?_, hdata.symm⟩
    cases hhit : s.hit env.now key with
    | none => rfl
    | some e =>
      rw [Option.any_some, Bool.eq_false_iff]
      intro hcount
      have hself := hword (wordOf e.handle)
      rw [hhit, Manager.word_eq ((h.within_hit hhit).hasWord h.arena)] at hself
      simp only [hcount, and_self, if_true, Option.some.injEq] at hself
      exact Manager.hitWord_ne _ hself.symm
  · rintro ⟨hcount, hsame⟩
    have hb := (h.scribbled env key inPlace).1.safe.arena
    refine h.arena.eq_of_parts hb hr.room hr.live (hdata.trans hsame) fun w => ?_
    rw [hword]
    split
    · rfl
    · rename_i e hhit
      rw [hhit, Option.any_some] at hcount
      simp [hcount]

theorem Safe.asked_mgr_iff (h : Safe H s) (env : Env) (key : Bytes) :
    (s.asked env.now key).mgr = s.mgr ↔ s.counts env.now key = false := by
  have hiff := h.scribbled_mgr_iff env key none
  simp only [patched, and_true] at hiff
  exact hiff

/-! ## Calls -/

/-- A write of `value` leaves the arena as it is.  Where it is stored, it takes the block that it
gives back.  Where it fails, no region is mapped, and what came before has changed nothing. -/
def SparesWrite (H : Hashes) (s : ShardCache) (env : Env) (asks : Bool) (key value : Bytes)
    (inPlace : Option (Nat × Bytes)) : Prop :=
  if s.stores env value then ∃ p g, s.encode env value = some (.ok p) ∧
    s.mgr.Undoes (s.patched H env.now key inPlace) p.bytes g ∧ s.GivesBack H key p g
  else ((asks && s.counts env.now key) = false ∧
      s.patched H env.now key inPlace = s.mgr.regions.map Region.data) ∧
    ∀ p, value.length ≤ maxObjectSize → s.encode env value = some (.ok p) →
      ¬ s.mgr.InVain p.bytes.length env.mmapOk

theorem Safe.save_spares {again : Bool} {inPlace : Option (Nat × Bytes)}
    {res : Except Error (Payload × Handle)} (h : Safe H s)
    (hsave : (s.scribbled H env key inPlace).save H env again key value expiresAt =
      some (res, s')) :
    s'.mgr = s.mgr ↔ s.SparesWrite H env true key value inPlace := by
  rw [h.save_mgr_iff (h.scribbled env key inPlace).1.safe (h.readied env key inPlace) hsave,
    h.data_scribbled, h.scribbled_mgr_iff]
  simp only [SparesWrite, Bool.true_and]

/-- A collection call leaves the arena as it is, by its plan for what the key shows. -/
def SparesUpdate {α : Type} (H : Hashes) (s : ShardCache) (env : Env) (key : Bytes)
    (plan : Except Error Bytes → Plan α) : Prop :=
  match (s.seen env.now key).map plan with
  | some (.write newRaw inPlace _) => s.SparesWrite H env true key newRaw inPlace
  | some (.remove _) => s.idx.lookup key = none
  | _ => s.counts env.now key = false

/-- The counter that `Incr` finds. -/
def tally (s : ShardCache) (now : UInt32) (key : Bytes) : Int64 :=
  match s.hit now key with
  | none => 0
  | some e => (s.counter s.mgr e.handle).getD 0

/-- The call leaves the arena as it is. -/
def SparesArena (H : Hashes) (s : ShardCache) : AnyCall → Prop
  | (env, .inl (.set key value _)) => s.SparesWrite H env false key value none
  | (env, .inl (.get key)) => s.counts env.now key = false
  | (env, .inl (.cas key expectedValue newValue)) =>
    if s.seen env.now key = some (.ok expectedValue) then
      s.SparesWrite H env true key newValue none
    else s.counts env.now key = false
  | (env, .inl (.incr key delta)) =>
    s.SparesWrite H env true key (counterBytes (s.tally env.now key + delta)) none
  | (_, .inl (.delete key)) => s.idx.lookup key = none
  | (_, .inl (.delPrefix pre)) => ∀ k, pre <+: k → s.idx.lookup k = none
  | (env, .inl (.deleteExpired limit)) => ∀ freed idx,
      s.idx.deleteExpired H.hashKey env.now limit = some (freed, idx) → freed = []
  | (env, .inr (.hSet key field value)) => s.SparesUpdate H env key (hSetPlan field value)
  | (env, .inr (.hGet key field)) => s.SparesUpdate H env key (hGetPlan field)
  | (env, .inr (.hDel key field)) => s.SparesUpdate H env key (hDelPlan field)
  | (env, .inr (.hGetAll key)) => s.SparesUpdate H env key hGetAllPlan
  | (env, .inr (.lPush key elem)) => s.SparesUpdate H env key (lPushPlan elem)
  | (env, .inr (.lPop key)) => s.SparesUpdate H env key (popPlan Ds.lPop)
  | (env, .inr (.rPush key elem)) => s.SparesUpdate H env key (rPushPlan elem)
  | (env, .inr (.rPop key)) => s.SparesUpdate H env key (popPlan Ds.rPop)
  | (env, .inr (.lLen key)) => s.SparesUpdate H env key lLenPlan
  | (env, .inr (.sAdd key member)) => s.SparesUpdate H env key (sAddPlan member)
  | (env, .inr (.sRem key member)) => s.SparesUpdate H env key (sRemPlan member)
  | (env, .inr (.sIsMember key member)) => s.SparesUpdate H env key (sIsMemberPlan member)
  | (env, .inr (.sMembers key)) => s.SparesUpdate H env key sMembersPlan

theorem sub_ofNat_ne {a : UInt64} {n : Nat} (hpos : n ≠ 0) (hlt : n < 2 ^ 64) :
    a - UInt64.ofNat n ≠ a := by
  intro heq
  have hzero : UInt64.ofNat n = 0 := by
    rw [UInt64.sub_eq_iff_eq_add] at heq
    simpa using heq
  have hnat := congrArg UInt64.toNat hzero
  rw [UInt64.toNat_ofNat_of_lt' hlt] at hnat
  exact hpos hnat

/-- Whatever is removed gives its block back. -/
theorem Erased.mgr_ne {es : List Entry} (her : Erased H s es s') (hne : es ≠ [])
    (hcount : s.idx.count < 2 ^ 64) : s'.mgr ≠ s.mgr := by
  intro heq
  have hlive := her.live
  have hle := her.removed.count
  rw [heq] at hlive
  exact sub_ofNat_ne (by simpa using hne) (by omega) hlive.symm

theorem Safe.delete_spares {res : Except Error Unit} (h : Safe H s)
    (hcount : s.idx.count < 2 ^ 64) (hdel : s.delete H key = some (res, s')) :
    s'.mgr = s.mgr ↔ s.idx.lookup key = none := by
  obtain ⟨_, _, hdel', _, her⟩ := h.delete key
  cases hdel.symm.trans hdel'
  cases hl : s.idx.lookup key with
  | some e => exact iff_of_false ((hl ▸ her).mgr_ne (by simp) hcount) (by simp)
  | none =>
    obtain ⟨idx, hidx, _⟩ := h.idx.delete_removed key
    simp only [ShardCache.delete, hidx, hl, Option.bind_eq_bind, Option.bind_some,
      Option.map_none] at hdel
    cases hdel
    exact iff_of_true rfl rfl

theorem Safe.update_spares {α : Type} {plan : Except Error Bytes → Plan α}
    {out : α × Option Error} (h : Safe H s) (hcount : s.idx.count < 2 ^ 64)
    (hup : s.update H env key plan = some (out, s')) :
    s'.mgr = s.mgr ↔ s.SparesUpdate H env key plan := by
  obtain ⟨read, hget, hread⟩ := h.get env.now key
  have hasked := h.asked env.now key
  unfold ShardCache.update at hup
  simp only [hget, Option.bind_eq_bind, Option.bind_some] at hup
  simp only [SparesUpdate, hread, Option.map_some]
  cases hcase : plan read with
  | answer value err =>
    rw [hcase] at hup
    cases hup
    exact h.asked_mgr_iff env key
  | write newRaw inPlace reply =>
    rw [hcase] at hup
    obtain ⟨⟨res, t⟩, hset, heq⟩ := Option.bind_eq_some_iff.mp hup
    cases heq
    obtain ⟨r, hsave, _⟩ := set_save hset
    exact h.save_spares hsave
  | remove value =>
    rw [hcase] at hup
    obtain ⟨⟨res, t⟩, hdel, heq⟩ := Option.bind_eq_some_iff.mp hup
    cases heq
    have hidx := (undisturbed_asked s env.now key).idx
    cases hl : s.idx.lookup key with
    | none =>
      have hsame : s.asked env.now key = s := by simp [ShardCache.asked, hit, hl]
      rw [hsame] at hdel
      exact iff_of_true ((h.delete_spares hcount hdel).mpr hl) rfl
    | some e =>
      refine iff_of_false (fun heq => ?_) (by simp)
      obtain ⟨_, _, hdel', _, her⟩ := hasked.safe.delete key
      cases hdel.symm.trans hdel'
      have hlive := her.live
      have hasked : (s.asked env.now key).mgr.liveObjs = s.mgr.liveObjs :=
        (h.readied env key none).live
      rw [hidx, hl, heq, hasked] at hlive
      exact sub_ofNat_ne (by simp) (by simp) hlive.symm
  | crash =>
    rw [hcase] at hup
    cases hup

theorem asked_of_hit {now : UInt32} {e : Entry} (hhit : s.hit now key = some e) :
    s.asked now key = s.touched e.handle := by
  simp only [asked, hhit]

theorem Safe.cas_spares {expectedValue newValue : Bytes} {res : Except Error CasResult}
    (h : Safe H s) (hcas : s.cas H env key expectedValue newValue = some (res, s')) :
    s'.mgr = s.mgr ↔ s.SparesArena H (env, .inl (.cas key expectedValue newValue)) := by
  have hasked := h.asked_mgr_iff env key
  rw [cas_eq, index_get h.idx] at hcas
  simp only [Option.bind_eq_bind, Option.bind_some] at hcas
  simp only [SparesArena]
  cases hhit : s.hit env.now key with
  | none =>
    have hseen : s.seen env.now key = some (.error .notFound) := by rw [seen, hhit]
    rw [hhit] at hcas
    cases hcas
    rw [if_neg (by simp [hseen])]
    simp [counts, hhit]
  | some e =>
    rw [asked_of_hit hhit] at hasked
    simp only [hhit, Option.map_some, load_touched] at hcas
    obtain ⟨loaded, hload, hcas⟩ := Option.bind_eq_some_iff.mp hcas
    have hseen : s.seen env.now key = some loaded := by rw [seen, hhit]; exact hload
    cases loaded with
    | error err =>
      cases hcas
      rw [if_neg (by simp [hseen])]
      exact hasked
    | ok currentValue =>
      simp only [ne_eq, ite_not] at hcas
      split at hcas
      · rename_i heq
        obtain ⟨⟨r, t⟩, hsave, hout⟩ := Option.map_eq_some_iff.mp hcas
        cases hout
        rw [if_pos (heq ▸ hseen)]
        rw [← asked_of_hit hhit] at hsave
        exact h.save_spares hsave
      · rename_i hne
        cases hcas
        rw [if_neg (by simpa [hseen] using hne)]
        exact hasked

theorem Safe.incr_spares {delta : Int64} {res : Except Error Int64} (h : Safe H s)
    (hincr : s.incr H env key delta = some (res, s')) :
    s'.mgr = s.mgr ↔ s.SparesArena H (env, .inl (.incr key delta)) := by
  unfold ShardCache.incr at hincr
  rw [index_get h.idx] at hincr
  simp only [Option.bind_eq_bind, Option.bind_some] at hincr
  simp only [SparesArena]
  cases hhit : s.hit env.now key with
  | none =>
    have htally : s.tally env.now key = 0 := by simp only [tally, hhit]
    have hasked : s.asked env.now key = s := by simp only [ShardCache.asked, hhit]
    rw [hhit] at hincr
    simp only [Option.map_none, writeCounter_eq] at hincr
    obtain ⟨⟨r, t⟩, hsave, hout⟩ := Option.map_eq_some_iff.mp hincr
    cases hout
    rw [htally]
    rw [← hasked] at hsave
    exact h.save_spares hsave
  | some e =>
    have hs := Eviction.sameStore_touch s.ev s.mgr e.handle
    have hcur : (s.touched e.handle).counter (s.touched e.handle).mgr e.handle =
        s.counter s.mgr e.handle := counter_congr rfl rfl (hs.view e.handle) (hs.flags e.handle)
    simp only [hhit, Option.map_some] at hincr
    obtain ⟨current, hcount, hincr⟩ := Option.bind_eq_some_iff.mp hincr
    rw [writeCounter_eq] at hincr
    obtain ⟨⟨r, t⟩, hsave, hout⟩ := Option.map_eq_some_iff.mp hincr
    cases hout
    have htally : s.tally env.now key = current := by
      simp only [tally, hhit, hcur.symm.trans hcount, Option.getD_some]
    rw [htally]
    have hsave' : (s.touched e.handle).save H env true key (counterBytes (current + delta))
        e.expiresAt = some (r, s') := hsave
    rw [← asked_of_hit hhit] at hsave'
    exact h.save_spares hsave'

theorem delPrefix_of_none {pre : Bytes}
    (h : ∀ i e, cell s.idx.slots i = some e → ¬ pre <+: e.key) :
    s.delPrefix H pre = some (0, s) := by
  rw [delPrefix, ShardIndex.deletePrefix_of_none h]
  rfl

theorem Safe.delPrefix_spares {pre : Bytes} {n : Nat} (h : Safe H s)
    (hcount : s.idx.count < 2 ^ 64) (hdel : s.delPrefix H pre = some (n, s')) :
    s'.mgr = s.mgr ↔ ∀ k, pre <+: k → s.idx.lookup k = none := by
  obtain ⟨es, _, _, hdel', _, her, _, hgone⟩ := h.delPrefix pre
  cases hdel.symm.trans hdel'
  constructor
  · intro heq k hk
    have hnil : es = [] := not_not.mp fun hne => her.mgr_ne hne hcount heq
    have hlook := hgone k hk
    rw [her.removed.lookup, hnil] at hlook
    exact hlook
  · intro hnone
    have hsame : s.delPrefix H pre = some (0, s) := delPrefix_of_none fun i e hcell hpre => by
      cases (h.idx.lookup_of_cell hcell).symm.trans (hnone e.key hpre)
    cases hsame.symm.trans hdel
    rfl

theorem Safe.deleteExpired_spares {limit : Int} (h : Safe H s) (hcount : s.idx.count < 2 ^ 64)
    (hdel : s.deleteExpired H env.now limit = some s') :
    s'.mgr = s.mgr ↔ s.SparesArena H (env, .inl (.deleteExpired limit)) := by
  obtain ⟨es, idx, hidx, hrem, _⟩ := h.idx.deleteExpired env.now limit
  have her := ((Drops.intro id _ idx hrem (List.map_id _) Eviction.sameStore_remove
    fun P ev mgr x hev => (Eviction.keeps_holds P).remove hev mgr x).safe h).2
  simp only [ShardCache.deleteExpired, hidx, Option.bind_eq_bind, Option.bind_some] at hdel
  cases hdel
  simp only [SparesArena, hidx, Option.some.injEq, Prod.mk.injEq, and_imp, forall_apply_eq_imp_iff,
    forall_eq', List.map_eq_nil_iff]
  constructor
  · exact fun heq => not_not.mp fun hne => her.mgr_ne hne hcount heq
  · rintro rfl
    rfl

/-- **When a call leaves the arena as it is**, by what is in the shard before it.  The index has
fewer than 2^64 keys, as `count` is an `int`. -/
theorem Safe.step_spares {call : AnyCall} (h : Safe H s) (hcount : s.idx.count < 2 ^ 64)
    (hstep : s.step H call = some s') : s'.mgr = s.mgr ↔ s.SparesArena H call := by
  have hupdate : ∀ {α : Type} {env key} {plan : Except Error Bytes → Plan α},
      (s.update H env key plan).map Prod.snd = some s' →
      (s'.mgr = s.mgr ↔ s.SparesUpdate H env key plan) := by
    intro α env key plan hmap
    obtain ⟨⟨out, t⟩, hup, rfl⟩ := Option.map_eq_some_iff.mp hmap
    exact h.update_spares hcount hup
  have hpop : ∀ {env key} {pop : Bytes → Option Ds.Popped},
      (s.popWith H env key pop).map Prod.snd = some s' →
      (s'.mgr = s.mgr ↔ s.SparesUpdate H env key (popPlan pop)) := by
    intro env key pop hmap
    obtain ⟨out, hpop, rfl⟩ := Option.map_eq_some_iff.mp hmap
    obtain ⟨out', hup, heq⟩ := popWith_update hpop
    rw [heq]
    exact h.update_spares hcount hup
  obtain ⟨env, call | call⟩ := call
  · cases call with
    | deleteExpired limit => exact h.deleteExpired_spares hcount hstep
    | set key value ttl =>
      obtain ⟨⟨res, t⟩, hset, rfl⟩ := Option.map_eq_some_iff.mp hstep
      obtain ⟨r, hsave, _⟩ := set_save hset
      rw [h.save_mgr_iff h (Readied.refl s key) hsave]
      simp [SparesArena, SparesWrite, patched]
    | get key =>
      obtain ⟨⟨res, t⟩, hget, rfl⟩ := Option.map_eq_some_iff.mp hstep
      obtain ⟨_, hget', _⟩ := h.get env.now key
      cases hget.symm.trans hget'
      exact h.asked_mgr_iff env key
    | cas key expectedValue newValue =>
      obtain ⟨⟨res, t⟩, hcas, rfl⟩ := Option.map_eq_some_iff.mp hstep
      exact h.cas_spares hcas
    | incr key delta =>
      obtain ⟨⟨res, t⟩, hincr, rfl⟩ := Option.map_eq_some_iff.mp hstep
      exact h.incr_spares hincr
    | delete key =>
      obtain ⟨⟨res, t⟩, hdel, rfl⟩ := Option.map_eq_some_iff.mp hstep
      exact h.delete_spares hcount hdel
    | delPrefix pre =>
      obtain ⟨⟨n, t⟩, hdel, rfl⟩ := Option.map_eq_some_iff.mp hstep
      exact h.delPrefix_spares hcount hdel
  · cases call with
    | lPop | rPop => exact hpop hstep
    | _ => exact hupdate hstep

end ShardCache

end Horreum.Transport
