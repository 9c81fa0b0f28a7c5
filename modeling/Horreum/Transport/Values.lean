/-
  Transport/Values.lean --- what a shard answers.

  The abstract shard is a map from keys to the bytes last written for them.  A run of
  calls moves the map along with the shard: a write that reports success enters its
  value, a removal takes keys out.  The result is that a `Get` that answers with bytes
  answers with those of the map, in every run in which the eviction policy gives up no
  block that the allocator can hand out again.
-/
import Horreum.Foundation.Runs
import Horreum.Transport.Calls

set_option autoImplicit false

namespace Horreum.Transport

open Foundation
open Arena (Handle Manager compressedFlag encryptedFlag maxObjectSize)
open Arena.Manager (Frame flagMask)
open S3Fifo (Eviction)

namespace ShardCache

variable {H : Hashes} {s s' : ShardCache} {env : Env} {value : Bytes} {p : Payload} {m m' : Manager}
  {h h' : Handle}

/-! ## Codecs -/

theorem flag_bits (p : Payload) :
    (p.flags &&& encryptedFlag ≠ 0 ↔ p.encrypted = true) ∧
      (p.flags &&& compressedFlag ≠ 0 ↔ p.compressed = true) := by
  unfold Payload.flags
  cases p.compressed <;> cases p.encrypted <;> decide

theorem flag_of_masked {w f : UInt16} (bit : UInt16) (h : w &&& flagMask = f)
    (hbit : flagMask &&& bit = bit) : w &&& bit = f &&& bit := by
  rw [← h, UInt16.and_assoc, hbit]

theorem flag_congr {w w' : UInt16} (bit : UInt16) (h : w' &&& flagMask = w &&& flagMask)
    (hbit : flagMask &&& bit = bit) : w' &&& bit = w &&& bit := by
  rw [flag_of_masked bit h hbit, UInt16.and_assoc, hbit]

theorem decode_congr (raw : Bytes) (hcomp : s'.comp = s.comp) (hcipher : s'.cipher = s.cipher)
    (hflags : m'.getMeta h' &&& flagMask = m.getMeta h &&& flagMask) :
    s'.decode m' h' raw = s.decode m h raw := by
  have he := flag_congr encryptedFlag hflags (by decide)
  have hc := flag_congr compressedFlag hflags (by decide)
  simp only [decode, decrypted, decompressed, he, hc, hcomp, hcipher]

/-- What was encoded decodes to the value. -/
theorem decode_encode {m : Manager} {h : Handle} (henc : s.encode env value = some (.ok p))
    (hflags : m.getMeta h &&& flagMask = p.flags) : s.decode m h p.bytes = .ok value := by
  obtain ⟨cBuf, hcomp, hcompressed, hcase⟩ := encode_cases henc
  have hdecomp : s.decompressed m h (cBuf.getD value) = .ok value := by
    have hbit := flag_of_masked compressedFlag hflags (by decide)
    simp only [decompressed, hbit, (flag_bits p).2, hcompressed]
    cases cBuf with
    | none => rfl
    | some out =>
      simp only [Option.isSome_some, if_true, Option.getD_some]
      rw [Compress.Compressor.decompress_compress hcomp]
      rfl
  have hbit := flag_of_masked encryptedFlag hflags (by decide)
  have hdecr : s.decrypted m h p.bytes = .ok (cBuf.getD value) := by
    simp only [decrypted, hbit, (flag_bits p).1]
    rcases hcase with ⟨_, hencrypted, hbytes⟩ | ⟨hnone, hencrypted, hseal⟩
    · simp [hencrypted, hbytes]
    · simp only [hencrypted, if_true, hnone, Encrypt.Cipher.decrypt_encrypt hseal]
      rfl
  simp only [decode, hdecr, hdecomp]

theorem load_congr (hcomp : s'.comp = s.comp) (hcipher : s'.cipher = s.cipher)
    (hview : m'.view h' = m.view h)
    (hflags : m'.getMeta h' &&& flagMask = m.getMeta h &&& flagMask) :
    s'.load m' h' = s.load m h := by
  simp only [load, hview, fun raw => decode_congr raw hcomp hcipher hflags]

theorem counter_congr (hcomp : s'.comp = s.comp) (hcipher : s'.cipher = s.cipher)
    (hview : m'.view h' = m.view h)
    (hflags : m'.getMeta h' &&& flagMask = m.getMeta h &&& flagMask) :
    s'.counter m' h' = s.counter m h := by
  have he := flag_congr encryptedFlag hflags (by decide)
  have hc := flag_congr compressedFlag hflags (by decide)
  simp only [counter, hview, he, hc, hcomp, hcipher]

/-! ## The abstract map -/

/-- Every entry decodes to the bytes that the map has for its key. -/
def Remembers (s : ShardCache) (last : Bytes → Option Bytes) : Prop :=
  ∀ k e, s.idx.lookup k = some e →
    ∃ v, last k = some v ∧ s.load s.mgr e.handle = some (.ok v)

variable {last last' : Bytes → Option Bytes} {key : Bytes}

theorem Remembers.kept (h : s.Remembers last) (hk : Kept H s s') : s'.Remembers last := by
  intro k e hl
  rw [hk.idx] at hl
  obtain ⟨v, hlast, hload⟩ := h k e hl
  have hframe := hk.frame e.handle ⟨k, e, hl, rfl⟩
  exact ⟨v, hlast, by rw [load_congr hk.comp hk.cipher hframe.1 hframe.2, hload]⟩

theorem Remembers.wrote (h : s.Remembers last) (hw : Wrote H s env key value s') :
    s'.Remembers (Function.update last key (some value)) := by
  obtain ⟨⟨p, expiresAt, hd, henc, hwr⟩, _⟩ := hw
  intro k e hl
  by_cases hk : k = key
  · subst hk
    rw [hwr.lookup, Function.update_self] at hl
    cases hl
    refine ⟨value, Function.update_self .., ?_⟩
    have hdec : s'.decode s'.mgr hd p.bytes = .ok value := by
      rw [decode_congr (s := s) (m := s'.mgr) (h := hd) p.bytes hwr.comp hwr.cipher rfl]
      exact decode_encode henc hwr.flags
    simp only [load, hwr.view, Option.bind_eq_bind, Option.bind_some, hdec]
  · have hin : e.handle ∈ s'.idx.owned := ⟨k, e, hl, rfl⟩
    have hne : e.handle ≠ hd := by
      intro heq
      have hself : s'.idx.lookup key = some ⟨key, hd, expiresAt⟩ := by
        rw [hwr.lookup, Function.update_self]
      exact hk (hwr.coherent.inj k key e _ hl hself heq)
    have hframe := hwr.frame e.handle ⟨hin, hne⟩
    rw [hwr.lookup, Function.update_of_ne hk] at hl
    obtain ⟨v, hlast, hload⟩ := h k e hl
    refine ⟨v, by rw [Function.update_of_ne hk]; exact hlast, ?_⟩
    rw [load_congr hwr.comp hwr.cipher hframe.1 hframe.2, hload]

theorem Wrote.coherent (hw : Wrote H s env key value s') : Coherent H s' := by
  obtain ⟨⟨_, _, _, _, hwr⟩, _⟩ := hw
  exact hwr.coherent

theorem Remembers.dropped {es : List Entry} (h : s.Remembers last) (hd : Dropped H s es s')
    (hlast : ∀ k, (s'.idx.lookup k).isSome = true → last' k = last k) :
    s'.Remembers last' := by
  intro k e hl
  have hsome : (s'.idx.lookup k).isSome = true := by rw [hl]; rfl
  have hframe := hd.frame e.handle ⟨k, e, hl, rfl⟩
  rw [hd.removed.lookup] at hl
  split at hl
  · cases hl
  · obtain ⟨v, hv, hload⟩ := h k e hl
    refine ⟨v, by rw [hlast k hsome]; exact hv, ?_⟩
    rw [load_congr hd.comp hd.cipher hframe.1 hframe.2, hload]

end ShardCache

/-! ## Runs -/

/-- A shard together with the bytes last written for each key. -/
structure Observed where
  cache : ShardCache
  last : Bytes → Option Bytes

namespace Observed

/-- One call.  The map follows what the caller can see of the call: the answer of a write,
the keys named by a removal, and for the cleaner the keys that are gone after it. -/
def step (H : Hashes) (o : Observed) (c : Env × Call) : Option Observed :=
  match c.2 with
  | .set key value ttl =>
    (o.cache.set H c.1 key value ttl).map fun (res, s) => ⟨s, match res with
      | .ok _ => Function.update o.last key (some value)
      | .error _ => o.last⟩
  | .get key => (o.cache.get H c.1.now key).map fun (_, s) => ⟨s, o.last⟩
  | .cas key expectedValue newValue =>
    (o.cache.cas H c.1 key expectedValue newValue).map fun (res, s) => ⟨s, match res with
      | .ok ⟨_, true⟩ => Function.update o.last key (some newValue)
      | _ => o.last⟩
  | .incr key delta =>
    (o.cache.incr H c.1 key delta).map fun (res, s) => ⟨s, match res with
      | .ok n => Function.update o.last key (some (ShardCache.counterBytes n))
      | .error _ => o.last⟩
  | .delete key =>
    (o.cache.delete H key).map fun (_, s) => ⟨s, Function.update o.last key none⟩
  | .delPrefix pre =>
    (o.cache.delPrefix H pre).map fun (_, s) =>
      ⟨s, fun k => if pre.isPrefixOf k then none else o.last k⟩
  | .deleteExpired limit =>
    (o.cache.deleteExpired H c.1.now limit).map fun s =>
      ⟨s, fun k => if (s.idx.lookup k).isNone then none else o.last k⟩

/-- The call gives up no handle, or one whose block is too large to be handed out again. -/
def Spares (H : Hashes) (o : Observed) (c : Env × Call) : Prop :=
  ∀ v ∈ o.cache.callVictim H c.1 c.2, 8192 < v.size.toNat

instance (H : Hashes) (o : Observed) (c : Env × Call) : Decidable (Spares H o c) :=
  inferInstanceAs (Decidable (∀ v ∈ o.cache.callVictim H c.1 c.2, 8192 < v.size.toNat))

/-- The shard is coherent and holds what the map says. -/
structure Faithful (H : Hashes) (o : Observed) : Prop where
  coherent : o.cache.Coherent H
  remembers : o.cache.Remembers o.last

theorem Faithful.step {H : Hashes} {o o' : Observed} {c : Env × Call} (h : Faithful H o)
    (hspare : Spares H o c) (hstep : step H o c = some o') : Faithful H o' := by
  obtain ⟨hc, hr⟩ := h
  obtain ⟨env, call⟩ := c
  cases call with
  | set key value ttl =>
    obtain ⟨⟨res, s⟩, hset, rfl⟩ := Option.map_eq_some_iff.mp hstep
    rcases ShardCache.set_cases hc hspare hset with ⟨e, rfl, hk⟩ | ⟨⟨b, rfl⟩, _, hw⟩
    · exact ⟨hk.coherent, hr.kept hk⟩
    · exact ⟨hw.coherent, hr.wrote hw⟩
  | get key =>
    obtain ⟨⟨res, s⟩, hget, rfl⟩ := Option.map_eq_some_iff.mp hstep
    have hk := ShardCache.get_kept hc hget
    exact ⟨hk.coherent, hr.kept hk⟩
  | cas key expectedValue newValue =>
    obtain ⟨⟨res, s⟩, hcas, rfl⟩ := Option.map_eq_some_iff.mp hstep
    rcases ShardCache.cas_cases hc hspare hcas with ⟨hno, hk⟩ | ⟨s₁, rfl, hk, hw, _⟩
    · refine ⟨hk.coherent, ?_⟩
      cases res with
      | error e => exact hr.kept hk
      | ok r =>
        obtain ⟨current, swapped⟩ := r
        obtain rfl : swapped = false := hno _ rfl
        exact hr.kept hk
    · exact ⟨hw.coherent, (hr.kept hk).wrote hw⟩
  | incr key delta =>
    obtain ⟨⟨res, s⟩, hincr, rfl⟩ := Option.map_eq_some_iff.mp hstep
    rcases ShardCache.incr_cases hc hspare hincr with ⟨e, rfl, hk⟩ | ⟨s₁, n, rfl, hk, hw, _⟩
    · exact ⟨hk.coherent, hr.kept hk⟩
    · exact ⟨hw.coherent, (hr.kept hk).wrote hw⟩
  | delete key =>
    obtain ⟨⟨res, s⟩, hdel, rfl⟩ := Option.map_eq_some_iff.mp hstep
    have hd := ShardCache.delete_dropped hc hdel
    refine ⟨hd.coherent, hr.dropped hd fun k hsome => Function.update_of_ne ?_ _ _⟩
    rintro rfl
    rw [hd.removed.lookup] at hsome
    split at hsome
    · cases hsome
    · rename_i hmem
      obtain ⟨e, he⟩ := Option.isSome_iff_exists.mp hsome
      refine hmem (List.mem_map.mpr ⟨e, by simp [he], hc.idx.key_of_lookup he⟩)
  | delPrefix pre =>
    obtain ⟨⟨n, s⟩, hdel, rfl⟩ := Option.map_eq_some_iff.mp hstep
    obtain ⟨es, hd, _, hgone⟩ := ShardCache.delPrefix_dropped hc hdel
    refine ⟨hd.coherent, hr.dropped hd fun k hsome => if_neg ?_⟩
    intro hpre
    rw [hgone k (List.isPrefixOf_iff_prefix.mp hpre)] at hsome
    cases hsome
  | deleteExpired limit =>
    obtain ⟨s, hdel, rfl⟩ := Option.map_eq_some_iff.mp hstep
    obtain ⟨es, hd, _⟩ := ShardCache.deleteExpired_dropped hc hdel
    refine ⟨hd.coherent, hr.dropped hd fun k hsome => if_neg ?_⟩
    rw [Option.isNone_iff_eq_none]
    intro hnone
    rw [hnone] at hsome
    cases hsome

/-- A fresh shard, before anything was written. -/
def fresh (s : ShardCache) : Observed := ⟨s, fun _ => none⟩

theorem faithful_fresh {H : Hashes} {s : ShardCache} {regionSize evictCapacity : Nat}
    {comp : Compress.Compressor} {cipher : Encrypt.Cipher}
    (h : newShardCache regionSize evictCapacity comp cipher = some s) :
    Faithful H (fresh s) := by
  obtain ⟨hc, hnone⟩ := ShardCache.coherent_new (H := H) h
  refine ⟨hc, ?_⟩
  intro k e hk
  rw [fresh, hnone] at hk
  cases hk

/-- In every run whose calls spare recyclable blocks, a `Get` that answers with bytes
answers with those last written for the key. -/
theorem get_eq_last_written (H : Hashes) {s : ShardCache} {regionSize evictCapacity : Nat}
    {comp : Compress.Compressor} {cipher : Encrypt.Cipher}
    (hnew : newShardCache regionSize evictCapacity comp cipher = some s)
    (calls : List (Env × Call)) (hspare : Guarded (step H) (Spares H) (fresh s) calls)
    {o : Observed} (hrun : run (step H) (fresh s) calls = some o)
    {now : UInt32} {key v : Bytes} {s' : ShardCache}
    (hget : o.cache.get H now key = some (.ok v, s')) : o.last key = some v := by
  have hf : Faithful H o :=
    run_invariant (Faithful H) (fun _ _ _ hinv hok hs => hinv.step hok hs) calls
      (fresh s) o (faithful_fresh hnew) hspare hrun
  rcases ShardCache.get_cases hf.coherent hget with ⟨hno, _⟩ | ⟨e, hl, rfl, hload⟩
  · cases hno
  · have hk := ShardCache.touched_kept hf.coherent e.handle
    obtain ⟨v', hlast, hload'⟩ := hf.remembers.kept hk key e (by rw [hk.idx]; exact hl)
    rw [hload] at hload'
    cases hload'
    exact hlast

/-- Two keys, one of them written twice and the other deleted, in a shard with room. -/
theorem get_eq_last_written_in_roomy_shard :
    ∃ s o s', newShardCache 1024 40 .noop .noop = some s ∧
      run (step Hashes.source) (fresh s)
        [(⟨0, none, true⟩, .set [97] [1] 0), (⟨0, none, true⟩, .set [98] [2] 0),
          (⟨0, none, true⟩, .set [97] [3] 0), (⟨0, none, true⟩, .delete [98])] = some o ∧
      o.cache.get Hashes.source 0 [97] = some (.ok [3], s') ∧ o.last [97] = some [3] := by
  obtain ⟨s, hnew, hguard, o, hrun, s', hget⟩ : ∃ s, newShardCache 1024 40 .noop .noop = some s ∧
      Guarded (step Hashes.source) (Spares Hashes.source) (fresh s)
        [(⟨0, none, true⟩, .set [97] [1] 0), (⟨0, none, true⟩, .set [98] [2] 0),
          (⟨0, none, true⟩, .set [97] [3] 0), (⟨0, none, true⟩, .delete [98])] ∧
      ∃ o, run (step Hashes.source) (fresh s)
        [(⟨0, none, true⟩, .set [97] [1] 0), (⟨0, none, true⟩, .set [98] [2] 0),
          (⟨0, none, true⟩, .set [97] [3] 0), (⟨0, none, true⟩, .delete [98])] = some o ∧
        ∃ s', o.cache.get Hashes.source 0 [97] = some (.ok [3], s') := by
    decide +kernel
  exact ⟨s, o, s', hnew, hrun, hget, get_eq_last_written Hashes.source hnew _ hguard hrun hget⟩

/-- With room for one handle in each queue, writing `b` evicts and frees the block of `a`, and
writing `b` again stores into that block; `a` is still in the index and answers with the bytes
of `b`. -/
theorem get_returns_reused_block :
    ∃ s o s', newShardCache 64 1 .noop .noop = some s ∧
      run (step Hashes.source) (fresh s)
        [(⟨0, none, true⟩, .set [97] [1] 0), (⟨0, none, true⟩, .set [98] [2] 0),
          (⟨0, none, true⟩, .set [98] [3] 0)] = some o ∧
      o.cache.get Hashes.source 0 [97] = some (.ok [3], s') ∧ o.last [97] = some [1] := by
  simp only [exists_and_left]
  decide +kernel

end Observed

end Horreum.Transport
