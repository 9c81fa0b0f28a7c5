/-
  Transport/Safety.lean --- what every call of a shard keeps, evictions or not.

  The policy frees blocks that the index still refers to.  What is never lost is `Safe`: every handle in
  the index and in the queues stands for a block inside the arena.  So every call returns, `RPush` onto
  a short payload apart, and leaves what the entries see as it was (`Undisturbed`), enters one key
  (`Stores`), or takes entries out.
-/
import Horreum.Compress.Capacity
import Horreum.Transport.Blocks
import Horreum.Transport.IndexEffects
import Horreum.Transport.Values

set_option autoImplicit false

namespace Horreum.Transport

open Foundation
open Arena (Handle Manager maxObjectSize)
open Arena.Manager (Frame SameStore SameBlocks Grows flagMask)
open S3Fifo (Eviction RingBuffer)

namespace ShardCache

variable {H : Hashes} {s s' : ShardCache} {env : Env} {key value : Bytes} {p : Payload} {α : Type}
  {expiresAt : UInt32} {mgr : Manager} {e : Entry}

/-- Whatever index and queues hold lies in the arena. -/
structure Safe (H : Hashes) (s : ShardCache) : Prop where
  idx : s.idx.Wf H.hashKey
  arena : s.mgr.Bounded
  indexed : ∀ g ∈ s.idx.owned, s.mgr.Within g
  queued : s.ev.Both (RingBuffer.Holds s.mgr.Within)

/-- From `s` to `s'`: still safe, and a handle that was good for the arena is good for it now. -/
structure Progress (H : Hashes) (s s' : ShardCache) : Prop where
  safe : Safe H s'
  grows : Grows s.mgr s'.mgr
  comp : s'.comp = s.comp
  cipher : s'.cipher = s.cipher

theorem Progress.refl (h : Safe H s) : Progress H s s := ⟨h, Grows.refl _, rfl, rfl⟩

theorem Progress.trans {s'' : ShardCache} (h : Progress H s s') (h' : Progress H s' s'') :
    Progress H s s'' :=
  ⟨h'.safe, h.grows.trans h'.grows, h'.comp.trans h.comp, h'.cipher.trans h.cipher⟩

/-- The handles in the queues stay good while the arena grows. -/
theorem holds_within_mono {ev : Eviction} {m m' : Manager} (h : ev.Both (RingBuffer.Holds m.Within))
    (hg : Grows m m') : ev.Both (RingBuffer.Holds m'.Within) :=
  ⟨h.1.mono fun _ hw => hw.mono hg, h.2.mono fun _ hw => hw.mono hg⟩

theorem Safe.with_mgr (h : Safe H s) (hb : mgr.Bounded) (hg : Grows s.mgr mgr) :
    Progress H s { s with mgr := mgr } :=
  ⟨⟨h.idx, hb, fun g hg' => (h.indexed g hg').mono hg, holds_within_mono h.queued hg⟩, hg, rfl, rfl⟩

theorem Safe.sameStore (h : Safe H s) (hs : SameStore s.mgr mgr) :
    Progress H s { s with mgr := mgr } :=
  h.with_mgr (hs.bounded h.arena) hs.grows

/-- What every `Get` answers is the same. -/
structure Undisturbed (s s' : ShardCache) : Prop where
  idx : s'.idx = s.idx
  frame : Frame s.idx.owned s.mgr s'.mgr
  comp : s'.comp = s.comp
  cipher : s'.cipher = s.cipher

theorem Undisturbed.refl (s : ShardCache) : Undisturbed s s := ⟨rfl, Frame.refl _ _, rfl, rfl⟩

theorem Undisturbed.trans {s'' : ShardCache} (h : Undisturbed s s') (h' : Undisturbed s' s'') :
    Undisturbed s s'' :=
  ⟨h'.idx.trans h.idx, h.frame.trans (h.idx ▸ h'.frame), h'.comp.trans h.comp,
    h'.cipher.trans h.cipher⟩

theorem undisturbed_of_sameStore (hs : SameStore s.mgr mgr) : Undisturbed s { s with mgr := mgr } :=
  ⟨rfl, hs.frame _, rfl, rfl⟩

/-! ## Get -/

/-- The entry that the index returns for `key`. -/
def hit (s : ShardCache) (now : UInt32) (key : Bytes) : Option Entry :=
  (s.idx.lookup key).filter fun e => !e.expired now

theorem lookup_of_hit {now : UInt32} (h : s.hit now key = some e) :
    s.idx.lookup key = some e ∧ e.expired now = false := by
  obtain ⟨hl, hexp⟩ := Option.filter_eq_some_iff.mp h
  exact ⟨hl, by simpa using hexp⟩

theorem index_get (hwf : s.idx.Wf H.hashKey) (now : UInt32) (key : Bytes) :
    s.idx.get H.hashKey key now = some ((s.hit now key).map fun e => (e.handle, e.expiresAt)) := by
  rw [hwf.get, hit]
  cases s.idx.lookup key with
  | none => rfl
  | some e => cases hexp : e.expired now <;> simp [Option.filter, hexp]

/-- What `Get` answers. -/
def seen (s : ShardCache) (now : UInt32) (key : Bytes) : Option (Except Error Bytes) :=
  match s.hit now key with
  | none => some (.error .notFound)
  | some e => s.load s.mgr e.handle

/-- The shard after the index was asked for `key`, with the hit counted. -/
def asked (s : ShardCache) (now : UInt32) (key : Bytes) : ShardCache :=
  match s.hit now key with
  | none => s
  | some e => s.touched e.handle

theorem load_touched (s : ShardCache) (h g : Handle) :
    (s.touched h).load (s.touched h).mgr g = s.load s.mgr g := by
  have hs := Eviction.sameStore_touch s.ev s.mgr h
  exact load_congr rfl rfl (hs.view g) (hs.flags g)

theorem get_eq (hwf : s.idx.Wf H.hashKey) (now : UInt32) (key : Bytes) :
    s.get H now key = (s.seen now key).map fun res => (res, s.asked now key) := by
  unfold get seen asked
  rw [index_get hwf]
  simp only [Option.bind_eq_bind, Option.bind_some]
  cases s.hit now key with
  | none => rfl
  | some e =>
    have hload := load_touched s e.handle e.handle
    simp only [touched] at hload
    simp only [Option.map_some, hload, touched]
    cases s.load s.mgr e.handle <;> rfl

theorem asked_sameStore (s : ShardCache) (now : UInt32) (key : Bytes) :
    ∃ mgr, s.asked now key = { s with mgr := mgr } ∧ SameStore s.mgr mgr := by
  unfold asked
  split
  · exact ⟨s.mgr, rfl, SameStore.refl s.mgr⟩
  · exact ⟨_, rfl, Eviction.sameStore_touch ..⟩

theorem undisturbed_asked (s : ShardCache) (now : UInt32) (key : Bytes) :
    Undisturbed s (s.asked now key) := by
  obtain ⟨mgr, heq, hs⟩ := s.asked_sameStore now key
  rw [heq]
  exact undisturbed_of_sameStore hs

theorem Safe.asked (h : Safe H s) (now : UInt32) (key : Bytes) : Progress H s (s.asked now key) := by
  obtain ⟨mgr, heq, hs⟩ := s.asked_sameStore now key
  rw [heq]
  exact h.sameStore hs

theorem Undisturbed.hit (h : Undisturbed s s') (now : UInt32) (key : Bytes) :
    s'.hit now key = s.hit now key := by
  simp only [ShardCache.hit, h.idx]

theorem Undisturbed.seen (h : Undisturbed s s') (now : UInt32) (key : Bytes) :
    s'.seen now key = s.seen now key := by
  unfold ShardCache.seen
  rw [h.hit]
  cases hhit : s.hit now key with
  | none => rfl
  | some e =>
    obtain ⟨hview, hflags⟩ := h.frame e.handle ⟨key, e, (lookup_of_hit hhit).1, rfl⟩
    exact load_congr h.comp h.cipher hview hflags

theorem Safe.within_hit (h : Safe H s) {now : UInt32} (hhit : s.hit now key = some e) :
    s.mgr.Within e.handle :=
  h.indexed e.handle ⟨key, e, (lookup_of_hit hhit).1, rfl⟩

theorem Safe.load_total (h : Safe H s) {g : Handle} (hg : s.mgr.Within g) :
    ∃ res, s.load s.mgr g = some res := by
  obtain ⟨bytes, hview, _⟩ := hg.view_ok h.arena
  exact ⟨s.decode s.mgr g bytes, by simp only [load, hview, Option.bind_eq_bind, Option.bind_some]⟩

theorem Safe.seen_total (h : Safe H s) (now : UInt32) (key : Bytes) :
    ∃ res, s.seen now key = some res := by
  unfold seen
  cases hhit : s.hit now key with
  | none => exact ⟨_, rfl⟩
  | some e => exact h.load_total (h.within_hit hhit)

theorem Safe.get (h : Safe H s) (now : UInt32) (key : Bytes) :
    ∃ res, s.get H now key = some (res, s.asked now key) ∧ s.seen now key = some res := by
  obtain ⟨res, hres⟩ := h.seen_total now key
  exact ⟨res, by rw [get_eq h.idx, hres]; rfl, hres⟩

theorem Safe.touched (h : Safe H s) (g : Handle) : Progress H s (s.touched g) :=
  h.sameStore (Eviction.sameStore_touch s.ev s.mgr g)

theorem undisturbed_touched (s : ShardCache) (g : Handle) : Undisturbed s (s.touched g) :=
  undisturbed_of_sameStore (Eviction.sameStore_touch s.ev s.mgr g)

/-! ## Writing -/

theorem sameBlocks_flag (m : Manager) (h : Handle) (p : Payload) : SameBlocks m (flag m h p) := by
  rw [flag_eq]
  exact Manager.sameBlocks_modifyMeta m h _

theorem release_freeAll (m : Manager) (hs : List Handle) (old : Option Handle) :
    release (m.freeAll hs) old = m.freeAll (hs ++ old.toList) := by
  cases old <;> simp [release, Manager.freeAll]

/-- What the policy gives up and what the key had are blocks of the arena. -/
theorem Safe.gone_within (h : Safe H s) {m : Manager} {hd : Handle} (hg : Manager.Grows s.mgr m)
    (hin : m.Within hd) (key : Bytes) :
    ∀ v ∈ (s.ev.add H.fingerprintOf m key hd).1 ++ ((s.idx.lookup key).map Entry.handle).toList,
      (s.ev.add H.fingerprintOf m key hd).2.2.Within v := by
  have hgrow := (Eviction.sameStore_add H.fingerprintOf s.ev m key hd).grows
  intro v hv
  rcases List.mem_append.mp hv with hv | hv
  · have hout := (Eviction.keeps_holds m.Within).add H.fingerprintOf
      (holds_within_mono h.queued hg) hin m key
    exact (hout.2 v hv).mono hgrow
  · obtain ⟨e, he, rfl⟩ := Option.map_eq_some_iff.mp (Option.mem_toList.mp hv)
    exact (h.indexed e.handle ⟨key, e, he, rfl⟩).mono (hg.trans hgrow)

/-- The payload is stored under `hd` and the key has it. -/
structure Entered (s : ShardCache) (key : Bytes) (p : Payload) (expiresAt : UInt32) (hd : Handle)
    (s' : ShardCache) : Prop where
  lookup : s'.idx.lookup = Function.update s.idx.lookup key (some ⟨key, hd, expiresAt⟩)
  view : s'.mgr.view hd = some (.ok p.bytes)
  flags : s'.mgr.getMeta hd &&& flagMask = p.flags
  comp : s'.comp = s.comp
  cipher : s'.cipher = s.cipher

/-- The tail of the writing calls.  It returns; what it reads and writes beyond the block that
`Put` hands out are the eviction policy's bits and the freelists. -/
theorem Safe.store (h : Safe H s) (hlen : p.bytes.length < 2 ^ 32) (env : Env) (key : Bytes)
    (expiresAt : UInt32) :
    ∃ res s', s.store H env key p expiresAt = some (res, s') ∧ Progress H s s' ∧
      match res with
      | .error _ => (∃ e mgr, s.mgr.put p.bytes env.mmapOk = some (.error e, mgr)) ∧
          Undisturbed s s'
      | .ok hd => (∃ mgr, s.mgr.put p.bytes env.mmapOk = some (.ok hd, mgr) ∧
            ∀ g, s'.mgr.view g = mgr.view g) ∧
          Entered s key p expiresAt hd s' := by
  obtain ⟨res, mgr, hput, hb, hg, hspec⟩ := h.arena.put p.bytes env.mmapOk
  cases res with
  | error e =>
    refine ⟨.error (.arena e), { s with mgr := mgr }, by simp [ShardCache.store, hput],
      h.with_mgr hb hg, ⟨e, mgr, hput⟩, rfl, ?_, rfl, rfl⟩
    intro g hgo
    obtain ⟨hview, hmeta⟩ := hspec g (h.indexed g hgo)
    exact ⟨hview, by rw [hmeta]⟩
  | ok hd =>
    obtain ⟨hin, hzero, hview⟩ := hspec
    rw [Nat.mod_eq_of_lt hlen, List.take_length] at hview
    have hflag := sameBlocks_flag mgr hd p
    have hword : (flag mgr hd p).getMeta hd = p.flags := by
      rw [flag_eq, Manager.getMeta_modifyMeta_self (hin.hasWord hb), hzero, UInt16.zero_or]
    have hgf := hg.trans hflag.grows
    -- everything queued or indexed before, and the new handle, is inside the arena by now
    have hinf := hin.mono hflag.grows
    have hev := ((Eviction.keeps_holds (flag mgr hd p).Within).add H.fingerprintOf
      (holds_within_mono h.queued hgf) hinf (flag mgr hd p) key).1
    have hgone := h.gone_within hgf hinf key
    have hsame := Eviction.sameStore_add H.fingerprintOf s.ev (flag mgr hd p) key hd
    obtain ⟨idx, hidx, hwf, hlook, _⟩ := h.idx.put key hd expiresAt
    have hrun : s.store H env key p expiresAt = some (.ok hd, { s with
        mgr := (s.ev.add H.fingerprintOf (flag mgr hd p) key hd).2.2.freeAll
          ((s.ev.add H.fingerprintOf (flag mgr hd p) key hd).1 ++
            ((s.idx.lookup key).map Entry.handle).toList)
        ev := (s.ev.add H.fingerprintOf (flag mgr hd p) key hd).2.1
        idx := idx }) := by
      simp only [ShardCache.store, hput, hidx, Option.bind_eq_bind, Option.bind_some, release_freeAll]
    generalize s.ev.add H.fingerprintOf (flag mgr hd p) key hd = out at *
    obtain ⟨hfb, hfg⟩ := (hsame.bounded (hflag.bounded hb)).freeAll hgone
    have hframe := (hsame.frame Set.univ).trans (frame_freeAll
      (out.1 ++ ((s.idx.lookup key).map Entry.handle).toList) out.2.2)
    have hgall := hsame.grows.trans hfg
    refine ⟨.ok hd, _, hrun, ⟨⟨hwf, hfb, ?_, ?_⟩, hgf.trans hgall, rfl, rfl⟩,
      ⟨mgr, hput, fun g => (hframe g trivial).1.trans (hflag.view g)⟩, hlook, ?_, ?_, rfl, rfl⟩
    · intro g hgo
      rcases owned_update hlook hgo with rfl | ⟨k, e', _, hk, rfl⟩
      · exact hin.mono (hflag.grows.trans hgall)
      · exact (h.indexed e'.handle ⟨k, e', hk, rfl⟩).mono (hgf.trans hgall)
    · exact holds_within_mono hev hgall
    · rw [(hframe hd trivial).1, hflag.view, hview]
    · rw [(hframe hd trivial).2, hword, flags_and_mask]

theorem encode_total (s : ShardCache) (env : Env) (value : Bytes) :
    ∃ enc, s.encode env value = some enc := by
  obtain ⟨cBuf, hcomp⟩ := s.comp.compress_total value
  simp only [encode, hcomp, Option.bind_eq_bind, Option.bind_some]
  split
  · exact ⟨_, rfl⟩
  · split <;> exact ⟨_, rfl⟩

/-- `value` is encoded and entered under `key`. -/
def Stores (s : ShardCache) (env : Env) (key value : Bytes) (expiresAt : UInt32)
    (s' : ShardCache) : Prop :=
  ∃ p hd, s.encode env value = some (.ok p) ∧ Entered s key p expiresAt hd s'

theorem Stores.load (h : Stores s env key value expiresAt s') :
    ∃ hd, s'.idx.lookup = Function.update s.idx.lookup key (some ⟨key, hd, expiresAt⟩) ∧
      s'.load s'.mgr hd = some (.ok value) := by
  obtain ⟨p, hd, henc, hent⟩ := h
  refine ⟨hd, hent.lookup, ?_⟩
  have hdec : s'.decode s'.mgr hd p.bytes = .ok value := by
    rw [decode_congr (s := s) (m := s'.mgr) (h := hd) p.bytes hent.comp hent.cipher rfl]
    exact decode_encode henc hent.flags
  simp only [ShardCache.load, hent.view, Option.bind_eq_bind, Option.bind_some, hdec]

theorem Stores.seen (h : Stores s env key value expiresAt s') (now : UInt32) :
    s'.seen now key = some (if expiresAt ≠ 0 ∧ expiresAt ≤ now then .error .notFound
      else .ok value) := by
  obtain ⟨hd, hlook, hload⟩ := h.load
  unfold ShardCache.seen ShardCache.hit
  rw [hlook, Function.update_self]
  by_cases hexp : expiresAt ≠ 0 ∧ expiresAt ≤ now
  · simp [Option.filter, Entry.expired, hexp]
  · rw [if_neg hexp]
    have hlive : Entry.expired ⟨key, hd, expiresAt⟩ now = false := by
      simpa [Entry.expired] using hexp
    simpa [Option.filter, hlive] using hload

theorem encode_congr (hcomp : s'.comp = s.comp) (hcipher : s'.cipher = s.cipher) :
    s'.encode env value = s.encode env value := by
  simp only [encode, hcomp, hcipher]

/-- A write after calls that changed nothing but the arena. -/
theorem Stores.congr {t : ShardCache} (h : Stores t env key value expiresAt s')
    (hidx : t.idx = s.idx) (hcomp : t.comp = s.comp) (hcipher : t.cipher = s.cipher) :
    Stores s env key value expiresAt s' := by
  obtain ⟨p, hd, henc, hent⟩ := h
  refine ⟨p, hd, (encode_congr hcomp hcipher).symm.trans henc, ?_, hent.view, hent.flags,
    hent.comp.trans hcomp, hent.cipher.trans hcipher⟩
  rw [hent.lookup, hidx]

/-- The arena after `Put` of what `Set` makes of the value. -/
def afterPut (s : ShardCache) (env : Env) (value : Bytes) : Manager :=
  match s.encode env value with
  | some (.ok p) => ((s.mgr.put p.bytes env.mmapOk).map Prod.snd).getD s.mgr
  | _ => s.mgr

/-- Whether `Set` takes the value, from the allocators alone. -/
theorem Safe.stores_iff (h : Safe H s) (env : Env) (value : Bytes) :
    s.stores env value = true ↔ value.length ≤ maxObjectSize ∧
      ∃ p, s.encode env value = some (.ok p) ∧
        s.mgr.takes (p.bytes.length % 2 ^ 32) env.mmapOk = true := by
  unfold stores
  split
  · rename_i hbig
    exact ⟨fun hf => (by cases hf), fun hle => absurd hle.1 (Nat.not_le.mpr hbig)⟩
  · rename_i hsmall
    simp only [Nat.le_of_not_lt hsmall, true_and]
    split
    · rename_i p henc
      have hiff := h.arena.put_ok_iff p.bytes env.mmapOk
      simp only [henc, Option.some.injEq, Except.ok.injEq, exists_eq_left', ← hiff]
      split
      · rename_i hd mgr hput
        exact ⟨fun _ => ⟨hd, mgr, hput⟩, fun _ => rfl⟩
      · rename_i hno
        refine ⟨fun hf => (by cases hf), ?_⟩
        rintro ⟨hd, mgr, hput⟩
        exact absurd hput (hno hd mgr)
    · rename_i hno
      refine ⟨fun hf => (by cases hf), ?_⟩
      rintro ⟨p, henc, _⟩
      exact absurd henc (hno p)

/-- The hit and a write through a view do not change what the arena takes. -/
theorem Safe.stores_congr {t : ShardCache} (h : Safe H s) (ht : Safe H t)
    (hroom : Manager.SameRoom s.mgr t.mgr) (hcomp : t.comp = s.comp) (hcipher : t.cipher = s.cipher)
    (env : Env) (value : Bytes) : t.stores env value = s.stores env value := by
  rw [Bool.eq_iff_iff, h.stores_iff, ht.stores_iff, encode_congr hcomp hcipher]
  simp only [hroom.takes]

/-- A write: refused, and nothing has changed, or stored. -/
theorem Safe.save (h : Safe H s) (env : Env) (again : Bool) (key value : Bytes)
    (expiresAt : UInt32) :
    ∃ res s', s.save H env again key value expiresAt = some (res, s') ∧ Progress H s s' ∧
      match res with
      | .error _ => s.stores env value = false ∧ Undisturbed s s'
      | .ok (p, hd) => s.stores env value = true ∧ s'.mgr.view hd = some (.ok p.bytes) ∧
          Stores s env key value expiresAt s' ∧
          ∀ g, s'.mgr.view g = (s.afterPut env value).view g := by
  have hiff := h.stores_iff env value
  obtain ⟨⟨res, s'⟩, hsave⟩ : ∃ out, s.save H env again key value expiresAt = some out := by
    obtain ⟨enc, henc⟩ := s.encode_total env value
    simp only [ShardCache.save, henc, Option.bind_eq_bind, Option.bind_some]
    split
    · exact ⟨_, rfl⟩
    · rename_i hbig
      cases enc with
      | error e => exact ⟨_, rfl⟩
      | ok p =>
        obtain ⟨_, _, hstore, _⟩ :=
          h.store (encode_length henc (Nat.le_of_not_lt hbig)) env key expiresAt
        simp only [hstore]
        split <;> exact ⟨_, rfl⟩
  refine ⟨res, s', hsave, ?_⟩
  rcases save_cases hsave with ⟨e, rfl, rfl, hno⟩ | ⟨p, stored, hvalue, henc, hstore, rfl⟩
  · refine ⟨Progress.refl h, Bool.eq_false_iff.mpr fun htrue => ?_, Undisturbed.refl s'⟩
    -- the second look at the size refuses nothing that the arena would take
    obtain ⟨hvalue, p, henc, htakes⟩ := hiff.mp htrue
    rw [Nat.mod_eq_of_lt (encode_length henc hvalue), Manager.takes, Bool.and_eq_true,
      decide_eq_true_eq] at htakes
    exact Nat.not_le.mpr (hno p hvalue henc).2 htakes.1
  · obtain ⟨_, _, hstore', hprog, hspec⟩ := h.store (encode_length henc hvalue) env key expiresAt
    cases hstore.symm.trans hstore'
    have htakes := h.arena.put_ok_iff p.bytes env.mmapOk
    simp only [henc, hvalue, true_and, Option.some.injEq, Except.ok.injEq, exists_eq_left',
      ← htakes] at hiff
    refine ⟨hprog, ?_⟩
    cases stored with
    | error e =>
      obtain ⟨⟨e', mgr, hput⟩, hun⟩ := hspec
      refine ⟨Bool.eq_false_iff.mpr fun htrue => ?_, hun⟩
      obtain ⟨hd, m', hok⟩ := hiff.mp htrue
      cases hput.symm.trans hok
    | ok hd =>
      obtain ⟨⟨mgr, hput, hviews⟩, hent⟩ := hspec
      refine ⟨hiff.mpr ⟨hd, mgr, hput⟩, hent.view, ⟨p, hd, henc, hent⟩, fun g => ?_⟩
      rw [hviews]
      simp only [afterPut, henc, hput, Option.map_some, Option.getD_some]

theorem Safe.set (h : Safe H s) (env : Env) (key value : Bytes) (ttl : UInt32) :
    ∃ res s', s.set H env key value ttl = some (res, s') ∧ Progress H s s' ∧
      match res with
      | .error _ => s.stores env value = false ∧ Undisturbed s s'
      | .ok _ => s.stores env value = true ∧
          Stores s env key value (if ttl > 0 then env.now + ttl else 0) s' ∧
          ∀ g, s'.mgr.view g = (s.afterPut env value).view g := by
  obtain ⟨res, s', hsave, hprog, hspec⟩ :=
    h.save env false key value (if ttl > 0 then env.now + ttl else 0)
  rw [set_eq, hsave, Option.bind_some]
  cases res with
  | error e => exact ⟨_, _, rfl, hprog, hspec⟩
  | ok out =>
    obtain ⟨htakes, hview, hst⟩ := hspec
    simp only [hview]
    split <;> exact ⟨_, _, rfl, hprog, htakes, hst⟩

/-- `CAS`, by what the key shows. -/
theorem Safe.cas (h : Safe H s) (env : Env) (key expectedValue newValue : Bytes) :
    ∃ res s' read, s.cas H env key expectedValue newValue = some (res, s') ∧ Progress H s s' ∧
      s.seen env.now key = some read ∧
      match read with
      | .error e => Undisturbed s s' ∧
          (s.hit env.now key = none ∧ res = .ok ⟨none, false⟩ ∨
            (s.hit env.now key).isSome = true ∧ res = .error e)
      | .ok currentValue =>
        currentValue ≠ expectedValue ∧ res = .ok ⟨some currentValue, false⟩ ∧
          Undisturbed s s' ∨
        currentValue = expectedValue ∧ (∃ e, res = .error e) ∧ Undisturbed s s' ∨
        currentValue = expectedValue ∧ res = .ok ⟨none, true⟩ ∧
          ∃ e, s.hit env.now key = some e ∧ Stores s env key newValue e.expiresAt s' := by
  rw [cas_eq, index_get h.idx]
  simp only [Option.bind_eq_bind, Option.bind_some]
  cases hhit : s.hit env.now key with
  | none =>
    exact ⟨_, s, .error .notFound, rfl, Progress.refl h, by rw [seen, hhit], Undisturbed.refl s,
      .inl ⟨rfl, rfl⟩⟩
  | some e =>
    have hprog := h.touched e.handle
    have hun := undisturbed_touched s e.handle
    obtain ⟨read, hread⟩ := h.load_total (h.within_hit hhit)
    have hseen : s.seen env.now key = some read := by rw [seen, hhit]; exact hread
    simp only [Option.map_some, load_touched, hread, Option.bind_some]
    cases read with
    | error err => exact ⟨_, _, _, rfl, hprog, hseen, hun, .inr ⟨rfl, rfl⟩⟩
    | ok currentValue =>
      simp only
      split
      · rename_i hne
        exact ⟨_, _, _, rfl, hprog, hseen, .inl ⟨hne, rfl, hun⟩⟩
      · rename_i heq
        obtain ⟨res, s₁, hsave, hprog', hspec⟩ :=
          hprog.safe.save env true key newValue e.expiresAt
        rw [hsave]
        refine ⟨_, _, _, rfl, hprog.trans hprog', hseen, .inr ?_⟩
        cases res with
        | error err => exact .inl ⟨not_not.mp heq, ⟨_, rfl⟩, hun.trans hspec.2⟩
        | ok out =>
          exact .inr ⟨not_not.mp heq, rfl, e, rfl, hspec.2.2.1.congr rfl rfl rfl⟩

theorem Safe.writeCounter (h : Safe H s) (env : Env) (key : Bytes) (current : Int64)
    (expiresAt : UInt32) :
    ∃ res s', s.writeCounter H env key current expiresAt = some (res, s') ∧ Progress H s s' ∧
      match res with
      | .error _ => s.stores env (counterBytes current) = false ∧ Undisturbed s s'
      | .ok n => s.stores env (counterBytes current) = true ∧ n = current ∧
          Stores s env key (counterBytes n) expiresAt s' := by
  obtain ⟨res, s', hsave, hprog, hspec⟩ := h.save env true key (counterBytes current) expiresAt
  rw [writeCounter_eq, hsave]
  refine ⟨_, _, rfl, hprog, ?_⟩
  cases res with
  | error e => exact hspec
  | ok out => exact ⟨hspec.1, rfl, hspec.2.2.1⟩

theorem Safe.counter_total (h : Safe H s) {g : Handle} (hg : s.mgr.Within g) :
    ∃ n, s.counter s.mgr g = some n := by
  obtain ⟨bytes, hview, _⟩ := hg.view_ok h.arena
  simp only [counter, hview, Option.bind_eq_bind, Option.bind_some]
  exact ⟨_, rfl⟩

/-- `Incr` of a key that is there, from the counter that it finds. -/
theorem Safe.incr_hit (h : Safe H s) (env : Env) (delta : Int64) (hhit : s.hit env.now key = some e)
    :
    ∃ current res s', s.counter s.mgr e.handle = some current ∧
      s.incr H env key delta = some (res, s') ∧ Progress H s s' ∧
      match res with
      | .error _ => s.stores env (counterBytes (current + delta)) = false ∧ Undisturbed s s'
      | .ok n => s.stores env (counterBytes (current + delta)) = true ∧ n = current + delta ∧
          Stores s env key (counterBytes n) e.expiresAt s' := by
  have hprog := h.touched e.handle
  have hs := Eviction.sameStore_touch s.ev s.mgr e.handle
  obtain ⟨current, hcur⟩ := h.counter_total (h.within_hit hhit)
  have hcur' : (s.touched e.handle).counter (s.touched e.handle).mgr e.handle = some current :=
    (counter_congr rfl rfl (hs.view e.handle) (hs.flags e.handle)).trans hcur
  obtain ⟨res, s', hw, hprog', hspec⟩ :=
    hprog.safe.writeCounter env key (current + delta) e.expiresAt
  rw [h.stores_congr hprog.safe hs.sameRoom rfl rfl] at hspec
  simp only [ShardCache.touched] at hcur' hw
  have hincr : s.incr H env key delta = some (res, s') := by
    unfold ShardCache.incr
    rw [index_get h.idx, hhit]
    simp only [Option.map_some, Option.bind_eq_bind, Option.bind_some, hcur']
    exact hw
  refine ⟨current, res, s', hcur, hincr, hprog.trans hprog', ?_⟩
  cases res with
  | error err => exact ⟨hspec.1, (undisturbed_touched s e.handle).trans hspec.2⟩
  | ok n => exact ⟨hspec.1, hspec.2.1, hspec.2.2.congr rfl rfl rfl⟩

/-- `Incr`: refused, and nothing has changed, or the sum is stored with the expiry the key had. -/
theorem Safe.incr (h : Safe H s) (env : Env) (key : Bytes) (delta : Int64) :
    ∃ res s', s.incr H env key delta = some (res, s') ∧ Progress H s s' ∧
      match res with
      | .error _ => Undisturbed s s'
      | .ok n => Stores s env key (counterBytes n)
          ((s.hit env.now key).elim 0 Entry.expiresAt) s' := by
  cases hhit : s.hit env.now key with
  | none =>
    obtain ⟨res, s', hw, hprog, hspec⟩ := h.writeCounter env key (0 + delta) 0
    refine ⟨res, s', ?_, hprog, ?_⟩
    · unfold ShardCache.incr
      rw [index_get h.idx, hhit]
      exact hw
    · cases res with
      | error err => exact hspec.2
      | ok n => exact hspec.2.2
  | some e =>
    obtain ⟨current, res, s', _, hincr, hprog, hspec⟩ := h.incr_hit env delta hhit
    refine ⟨res, s', hincr, hprog, ?_⟩
    cases res with
    | error err => exact hspec.2
    | ok n => exact hspec.2.2

/-! ## Removing -/

/-- The entries `es` are gone and what the others show is as it was. -/
structure Erased (H : Hashes) (s : ShardCache) (es : List Entry) (s' : ShardCache) : Prop where
  removed : ShardIndex.Removed H.hashKey s.idx es s'.idx
  frame : Frame Set.univ s.mgr s'.mgr
  live : s'.mgr.liveObjs = s.mgr.liveObjs - UInt64.ofNat es.length
  comp : s'.comp = s.comp
  cipher : s'.cipher = s.cipher

theorem dropAll_safe {P : Handle → Prop} {forget : Eviction → Manager → α → Eviction × Manager}
    {handle : α → Handle}
    (hforget : ∀ ev mgr x, SameStore mgr (forget ev mgr x).2)
    (hkeep : ∀ ev mgr x, ev.Both (RingBuffer.Holds P) →
      (forget ev mgr x).1.Both (RingBuffer.Holds P)) :
    ∀ (xs : List α) (ev : Eviction) (m : Manager), m.Bounded → (∀ x ∈ xs, m.Within (handle x)) →
      ev.Both (RingBuffer.Holds P) →
      (dropAll forget handle ev m xs).2.Bounded ∧ Grows m (dropAll forget handle ev m xs).2 ∧
        Frame Set.univ m (dropAll forget handle ev m xs).2 ∧
        (dropAll forget handle ev m xs).2.liveObjs = m.liveObjs - UInt64.ofNat xs.length ∧
        (dropAll forget handle ev m xs).1.Both (RingBuffer.Holds P) := by
  intro xs
  induction xs with
  | nil => exact fun ev m hm _ hev => ⟨hm, Grows.refl m, Frame.refl _ m, by simp [dropAll], hev⟩
  | cons x xs ih =>
    intro ev m hm hin hev
    have hsame := hforget ev m x
    have hx := (hin x List.mem_cons_self).mono hsame.grows
    obtain ⟨hb, hg⟩ := (hsame.bounded hm).free hx
    have hgrow := hsame.grows.trans hg
    obtain ⟨hb', hg', hf', hlive, hev'⟩ := ih (forget ev m x).1 _ hb
      (fun y hy => (hin y (List.mem_cons_of_mem x hy)).mono hgrow) (hkeep ev m x hev)
    refine ⟨hb', hgrow.trans hg',
      (hsame.frame _).trans ((Manager.frame_free _ _ _).trans hf'), hlive.trans ?_, hev'⟩
    rw [hx.liveObjs_free (hsame.bounded hm), hsame.liveObjs, List.length_cons, UInt64.ofNat_add,
      UInt64.ofNat_one]
    grind

theorem Drops.safe {es : List Entry} (hd : Drops H s es s') (h : Safe H s) :
    Progress H s s' ∧ Erased H s es s' := by
  obtain ⟨handle, xs, idx, hrem, hxs, hforget, hkeep⟩ := hd
  have hin : ∀ x ∈ xs, s.mgr.Within (handle x) := by
    intro x hx
    have hmem : handle x ∈ es.map Entry.handle := hxs ▸ List.mem_map_of_mem hx
    obtain ⟨e, he, heq⟩ := List.mem_map.mp hmem
    exact h.indexed _ ⟨e.key, e, hrem.found e he, heq⟩
  have hlen : xs.length = es.length := by simpa using congrArg List.length hxs
  obtain ⟨hb, hg, hf, hlive, hev⟩ :=
    dropAll_safe hforget (hkeep s.mgr.Within) xs s.ev s.mgr h.arena hin h.queued
  refine ⟨⟨⟨hrem.wf, hb, ?_, holds_within_mono hev hg⟩, hg, rfl, rfl⟩, hrem, hf, hlen ▸ hlive, rfl, rfl⟩
  rintro g ⟨k, e, hk, rfl⟩
  rw [hrem.lookup] at hk
  split at hk
  · cases hk
  · exact (h.indexed e.handle ⟨k, e, hk, rfl⟩).mono hg

theorem Safe.delete (h : Safe H s) (key : Bytes) :
    ∃ res s', s.delete H key = some (res, s') ∧ Progress H s s' ∧
      Erased H s (s.idx.lookup key).toList s' := by
  obtain ⟨res, s', hdel, hd⟩ := delete_drops h.idx key
  exact ⟨res, s', hdel, hd.safe h⟩

theorem Safe.deleteExpired (h : Safe H s) (now : UInt32) (limit : Int) :
    ∃ es s', s.deleteExpired H now limit = some s' ∧ Progress H s s' ∧ Erased H s es s' ∧
      ∀ e ∈ es, e.expired now = true := by
  obtain ⟨es, s', hdel, hd, hexp⟩ := deleteExpired_drops h.idx now limit
  obtain ⟨hprog, her⟩ := hd.safe h
  exact ⟨es, s', hdel, hprog, her, hexp⟩

theorem Safe.delPrefix (h : Safe H s) (pre : Bytes) :
    ∃ es n s', s.delPrefix H pre = some (n, s') ∧ Progress H s s' ∧ Erased H s es s' ∧
      (∀ e ∈ es, pre <+: e.key) ∧ ∀ k, pre <+: k → s'.idx.lookup k = none := by
  obtain ⟨es, n, s', hdel, hd, hrest⟩ := delPrefix_drops h.idx pre
  obtain ⟨hprog, her⟩ := hd.safe h
  exact ⟨es, n, s', hdel, hprog, her, hrest⟩

/-! ## Collections -/

/-- The state in which the `Set` of a collection call is made. -/
def scribbled (H : Hashes) (s : ShardCache) (env : Env) (key : Bytes)
    (inPlace : Option (Nat × Bytes)) : ShardCache :=
  (s.asked env.now key).scribble H env.now key inPlace

theorem scribble_poked (s : ShardCache) (now : UInt32) (key : Bytes)
    (inPlace : Option (Nat × Bytes)) :
    s.scribble H now key inPlace = s ∨
      ∃ h off bytes, s.scribble H now key inPlace = { s with mgr := s.mgr.poke h off bytes } := by
  unfold scribble
  split
  · exact .inr ⟨_, _, _, rfl⟩
  · exact .inl rfl

theorem Safe.scribble (h : Safe H s) (now : UInt32) (key : Bytes)
    (inPlace : Option (Nat × Bytes)) :
    Progress H s (s.scribble H now key inPlace) ∧
      Manager.SameRoom s.mgr (s.scribble H now key inPlace).mgr ∧
      (s.scribble H now key inPlace).idx = s.idx := by
  rcases s.scribble_poked now key inPlace with heq | ⟨g, off, bytes, heq⟩ <;> rw [heq]
  · exact ⟨Progress.refl h, ⟨rfl, rfl, rfl⟩, rfl⟩
  · obtain ⟨hb, hg⟩ := h.arena.poke g off bytes
    exact ⟨h.with_mgr hb hg, Manager.sameRoom_poke _ _ _ _, rfl⟩

theorem Safe.scribbled (h : Safe H s) (env : Env) (key : Bytes) (inPlace : Option (Nat × Bytes)) :
    Progress H s (s.scribbled H env key inPlace) ∧
      Manager.SameRoom s.mgr (s.scribbled H env key inPlace).mgr ∧
      (s.scribbled H env key inPlace).idx = s.idx := by
  have hasked := h.asked env.now key
  obtain ⟨hprog, hroom, hidx⟩ := hasked.safe.scribble env.now key inPlace
  obtain ⟨mgr, heq, hs⟩ := s.asked_sameStore env.now key
  have hroom' : Manager.SameRoom s.mgr (s.asked env.now key).mgr := by
    rw [heq]
    exact hs.sameRoom
  exact ⟨hasked.trans hprog, hroom'.trans hroom, hidx.trans (undisturbed_asked s env.now key).idx⟩

/-- Everything a collection call can do, by its plan. -/
theorem Safe.update (h : Safe H s) (env : Env) (key : Bytes) (plan : Except Error Bytes → Plan α) :
    ∃ read, s.seen env.now key = some read ∧
      match plan read with
      | .answer value err =>
        s.update H env key plan = some ((value, err), s.asked env.now key)
      | .write newRaw inPlace reply =>
        ∃ (res : Except Error Bytes) (s' : ShardCache),
          s.update H env key plan = some (reply (errorOf res), s') ∧ Progress H s s' ∧
          match res with
          | .error _ => s.stores env newRaw = false ∧
              Undisturbed (s.scribbled H env key inPlace) s'
          | .ok _ => s.stores env newRaw = true ∧ Stores s env key newRaw 0 s' ∧
              ∀ g, s'.mgr.view g = ((s.scribbled H env key inPlace).afterPut env newRaw).view g
      | .remove value =>
        ∃ s', s.update H env key plan = some ((value, none), s') ∧ Progress H s s' ∧
          Erased H s (s.idx.lookup key).toList s'
      | .crash => s.update H env key plan = none := by
  obtain ⟨read, hget, hread⟩ := h.get env.now key
  refine ⟨read, hread, ?_⟩
  have hasked := h.asked env.now key
  have hun := undisturbed_asked s env.now key
  unfold ShardCache.update
  simp only [hget, Option.bind_eq_bind, Option.bind_some]
  cases plan read with
  | answer value err => rfl
  | write newRaw inPlace reply =>
    obtain ⟨hprog, hroom, hidx⟩ := h.scribbled env key inPlace
    obtain ⟨res, s', hset, hprog', hspec⟩ := hprog.safe.set env key newRaw 0
    have hset' : ((s.asked env.now key).scribble H env.now key inPlace).set H env key newRaw 0 =
        some (res, s') := hset
    rw [h.stores_congr hprog.safe hroom hprog.comp hprog.cipher] at hspec
    refine ⟨res, s', by simp only [hset', Option.bind_some], hprog.trans hprog', ?_⟩
    cases res with
    | error e => exact hspec
    | ok b => exact ⟨hspec.1, hspec.2.1.congr hidx hprog.comp hprog.cipher, hspec.2.2⟩
  | remove value =>
    obtain ⟨res, s', hdel, hprog, her⟩ := hasked.safe.delete key
    refine ⟨s', by simp only [hdel, Option.bind_some], hasked.trans hprog, ?_⟩
    rw [hun.idx] at her
    obtain ⟨mgr, heq, hs⟩ := s.asked_sameStore env.now key
    have hframe := her.frame
    have hlive := her.live
    rw [heq] at hframe hlive
    exact ⟨hun.idx ▸ her.removed, (hs.frame _).trans hframe, hs.liveObjs ▸ hlive,
      her.comp.trans hasked.comp, her.cipher.trans hasked.cipher⟩
  | crash => rfl

/-! ## Every call -/

/-- A call that does not return: `RPush` onto a payload that is too short for its count. -/
def crashes (s : ShardCache) : AnyCall → Bool
  | (env, .inr (.rPush key _)) =>
    (s.seen env.now key).any fun read => (payloadOf read).length < 4
  | _ => false

theorem Safe.update_total (h : Safe H s) (env : Env) (key : Bytes)
    {plan : Except Error Bytes → Plan α} (hplan : ∀ read, plan read ≠ .crash) :
    ∃ out, s.update H env key plan = some out ∧ Progress H s out.2 := by
  obtain ⟨read, _, hup⟩ := h.update env key plan
  cases hcase : plan read with
  | answer value err =>
    simp only [hcase] at hup
    exact ⟨_, hup, h.asked env.now key⟩
  | write newRaw inPlace reply =>
    simp only [hcase] at hup
    obtain ⟨res, s', hup, hprog, _⟩ := hup
    exact ⟨_, hup, hprog⟩
  | remove value =>
    simp only [hcase] at hup
    obtain ⟨s', hup, hprog, _⟩ := hup
    exact ⟨_, hup, hprog⟩
  | crash => exact absurd hcase (hplan read)

theorem replace_ne_crash (newRaw : Bytes) (value : α) : Plan.replace newRaw value ≠ .crash := by
  unfold Plan.replace
  split <;> simp

theorem Safe.popWith_total (h : Safe H s) (env : Env) (key : Bytes)
    (pop : Bytes → Option Ds.Popped) :
    ∃ out, s.popWith H env key pop = some out ∧ Progress H s out.2 := by
  have hplan : ∀ read, popPlan pop read ≠ .crash := by
    intro read
    cases read with
    | error e => simp [popPlan]
    | ok raw =>
      simp only [popPlan]
      split
      · simp
      · exact replace_ne_crash _ _
  obtain ⟨out, hup, hprog⟩ := h.update_total env key hplan
  exact ⟨_, by simp only [ShardCache.popWith, hup, Option.bind_eq_bind, Option.bind_some]; rfl, hprog⟩

theorem Safe.rPush_cases (h : Safe H s) (env : Env) (key elem : Bytes) :
    s.crashes (env, .inr (.rPush key elem)) = true ∧ s.rPush H env key elem = none ∨
      s.crashes (env, .inr (.rPush key elem)) = false ∧
        ∃ out, s.rPush H env key elem = some out ∧ Progress H s out.2 := by
  obtain ⟨read, hread, hup⟩ := h.update env key (rPushPlan elem)
  simp only [crashes, hread, Option.any_some, decide_eq_true_eq, decide_eq_false_iff_not]
  by_cases hshort : (payloadOf read).length < 4
  · have hcrash : rPushPlan elem read = .crash := by
      simp only [rPushPlan, Ds.rPush, if_neg (Nat.not_le.mpr hshort)]
    simp only [hcrash] at hup
    exact .inl ⟨hshort, hup⟩
  · simp only [rPushPlan, Ds.rPush, if_pos (Nat.le_of_not_lt hshort)] at hup
    obtain ⟨res, s', hup, hprog, _⟩ := hup
    exact .inr ⟨hshort, _, hup, hprog⟩

theorem map_snd_total {x : Option (α × ShardCache)} (h : ∃ out, x = some out ∧ Progress H s out.2) :
    ∃ s', x.map Prod.snd = some s' ∧ Progress H s s' := by
  obtain ⟨out, hx, hprog⟩ := h
  exact ⟨out.2, by rw [hx]; rfl, hprog⟩

theorem Safe.afterCall (h : Safe H s) (env : Env) (call : Call) :
    ∃ s', s.afterCall H env call = some s' ∧ Progress H s s' := by
  cases call with
  | set key value ttl =>
    obtain ⟨res, s', hset, hprog, _⟩ := h.set env key value ttl
    exact map_snd_total ⟨_, hset, hprog⟩
  | get key =>
    obtain ⟨res, hget, _⟩ := h.get env.now key
    exact map_snd_total ⟨_, hget, h.asked env.now key⟩
  | cas key expectedValue newValue =>
    obtain ⟨res, s', _, hcas, hprog, _⟩ := h.cas env key expectedValue newValue
    exact map_snd_total ⟨_, hcas, hprog⟩
  | incr key delta =>
    obtain ⟨res, s', hincr, hprog, _⟩ := h.incr env key delta
    exact map_snd_total ⟨_, hincr, hprog⟩
  | delete key =>
    obtain ⟨res, s', hdel, hprog, _⟩ := h.delete key
    exact map_snd_total ⟨_, hdel, hprog⟩
  | delPrefix pre =>
    obtain ⟨_, n, s', hdel, hprog, _⟩ := h.delPrefix pre
    exact map_snd_total ⟨_, hdel, hprog⟩
  | deleteExpired limit =>
    obtain ⟨_, s', hdel, hprog, _⟩ := h.deleteExpired env.now limit
    exact ⟨s', hdel, hprog⟩

/-- A call returns unless it crashes, and what returns is safe. -/
theorem Safe.step (h : Safe H s) (call : AnyCall) :
    s.crashes call = true ∧ s.step H call = none ∨
      s.crashes call = false ∧ ∃ s', s.step H call = some s' ∧ Progress H s s' := by
  obtain ⟨env, call | call⟩ := call
  · exact .inr ⟨rfl, h.afterCall env call⟩
  · cases call with
    | rPush key elem =>
      rcases h.rPush_cases env key elem with ⟨hc, hnone⟩ | ⟨hc, hsome⟩
      · exact .inl ⟨hc, by simp only [ShardCache.step, afterCollectionCall, hnone]; rfl⟩
      · exact .inr ⟨hc, map_snd_total hsome⟩
    | lPop key => exact .inr ⟨rfl, map_snd_total (h.popWith_total env key Ds.lPop)⟩
    | rPop key => exact .inr ⟨rfl, map_snd_total (h.popWith_total env key Ds.rPop)⟩
    | hSet key field value =>
      exact .inr ⟨rfl, map_snd_total (h.update_total env key fun _ => by simp [hSetPlan])⟩
    | lPush key elem =>
      exact .inr ⟨rfl, map_snd_total (h.update_total env key fun _ => by simp [lPushPlan])⟩
    | sAdd key member =>
      exact .inr ⟨rfl, map_snd_total (h.update_total env key fun _ => by simp [sAddPlan])⟩
    | hGet key field =>
      refine .inr ⟨rfl, map_snd_total (h.update_total env key fun read => ?_)⟩
      cases read with
      | error e => simp [hGetPlan]
      | ok raw => simp only [hGetPlan]; split <;> simp
    | hDel key field =>
      refine .inr ⟨rfl, map_snd_total (h.update_total env key fun read => ?_)⟩
      cases read with
      | error e => simp [hDelPlan]
      | ok raw =>
        simp only [hDelPlan]
        split
        · simp
        · split <;> simp
    | sRem key member =>
      refine .inr ⟨rfl, map_snd_total (h.update_total env key fun read => ?_)⟩
      cases read with
      | error e => simp [sRemPlan]
      | ok raw =>
        simp only [sRemPlan]
        split
        · simp
        · exact replace_ne_crash _ _
    | hGetAll key =>
      exact .inr ⟨rfl, map_snd_total (h.update_total env key fun read => by
        cases read <;> simp [hGetAllPlan])⟩
    | lLen key =>
      exact .inr ⟨rfl, map_snd_total (h.update_total env key fun read => by
        cases read <;> simp [lLenPlan])⟩
    | sIsMember key member =>
      exact .inr ⟨rfl, map_snd_total (h.update_total env key fun read => by
        cases read <;> simp [sIsMemberPlan])⟩
    | sMembers key =>
      exact .inr ⟨rfl, map_snd_total (h.update_total env key fun read => by
        cases read <;> simp [sMembersPlan])⟩

end ShardCache

end Horreum.Transport
