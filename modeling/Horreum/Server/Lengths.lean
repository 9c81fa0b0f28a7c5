/-
  Server/Lengths.lean --- the length fields of set members and of log records.

  A set has 16 bits for the length of a member, a log record 16 for that of its key and 32 for that of
  its value, and the lengths are cut to these.  Frames bring members of almost 64 MiB, and the calls
  take keys of any length; a value that needs more than 32 bits does not get into the log.
-/
import Horreum.Persist.Faults
import Horreum.Transport.Acknowledged

set_option autoImplicit false

namespace Horreum.Server

open Foundation
open Proto (Frame Parser newParser)
open Ds (memberRecord)
open Index (HashIndex)
open Persist (Attempt CheckpointIo Io PersistentManager WAL logged walMaxLen)
open Transport (Env Hashes ShardCache ShardIndex ShardSet newShardCache newShardSet)

theorem cut_eq_iff {n : Nat} : n % 2 ^ 16 = n ↔ n ≤ 65535 := by
  rw [Nat.mod_eq_iff_lt (by decide)]
  exact Nat.lt_succ_iff

/-! ## Members -/

/-- The length field of two bytes in front of the last `n` bytes. -/
def memberLen (raw : Bytes) (n : Nat) : Nat := wordAt raw (raw.length - (2 + n)) 2

theorem memberLen_record (front member : Bytes) :
    memberLen (front ++ memberRecord member) member.length = member.length % 2 ^ 16 := by
  have hoff : front.length =
      (front ++ memberRecord member).length - (2 + member.length) := by
    rw [List.length_append, Ds.length_memberRecord, Nat.add_sub_cancel]
  have hrecord : front ++ memberRecord member = front ++ (leBytes 2 member.length ++ (member ++ [])) := by
    rw [List.append_nil, memberRecord]
  rw [memberLen, ← hoff, hrecord]
  exact wordAt_append 2 _ rfl

variable {H : Hashes} {ss ss' : ShardSet} {env : Env} {fr : Frame}

/-- A frame that is answered with success has put the member behind its length field. -/
theorem stored_member (hss : ss.Safe H) (hop : fr.op = .sAdd)
    (h : ss.dispatch H env fr = some (.done, ss')) :
    ∃ c front, ss'.cacheAt (ss.cacheIndexFor H fr.key) = some c ∧
      c.read H env.now fr.key = some (.ok (front ++ memberRecord fr.value)) := by
  have hadd : ss.handleSAdd H env fr = some (.done, ss') := by
    rw [← h, ShardSet.dispatch, hop]
  obtain ⟨⟨added, err⟩, c, c', hc, hcall, hreply, rfl⟩ := ShardSet.answer_cases hadd
  obtain ⟨rfl, rfl⟩ : added = true ∧ err = none := by
    cases err with
    | some e => cases hreply
    | none =>
      cases added with
      | false => cases hreply
      | true => exact ⟨rfl, rfl⟩
  obtain ⟨hadded, hack⟩ := (hss.cache hc).sAdd_acked hcall
  obtain ⟨front, hfront⟩ := Ds.sAdd_added hadded.symm
  refine ⟨c', front, ShardSet.cacheAt_setCache_self hc c', ?_⟩
  rw [hack.safe.read, hack.seen, hfront]

/-! ## Log records -/

/-- Everything that can be done with a manager. -/
inductive Use where
  | attempt (a : Attempt)
  | checkpoint (io : CheckpointIo) (idx : HashIndex)
  | loadIndex (idx : HashIndex)

/-- Whether the call returned without an error, and the manager after it. -/
def attempt (pm : PersistentManager) : Attempt → Option (Bool × PersistentManager)
  | .put io key value => (pm.put io key value).map fun out => (out.1.isOk, out.2)
  | .putEx io key value expiresAt =>
    (pm.putEx io key value expiresAt).map fun out => (out.1.isOk, out.2)
  | .delete io key => some ((pm.delete io key).1.isOk, (pm.delete io key).2)

/-- One use of a manager. -/
def use (pm : PersistentManager) : Use → Option PersistentManager
  | .attempt a => (attempt pm a).map Prod.snd
  | .checkpoint io idx => some (pm.checkpoint io idx).2
  | .loadIndex idx => (pm.loadIndex idx).map fun out => out.2.2

/-- A manager that `New` has opened, on any files, and that has been used since. -/
def Opened (pm : PersistentManager) : Prop :=
  ∃ d regionSize durable pm₀ uses,
    PersistentManager.new d regionSize durable = .ok pm₀ ∧ run use pm₀ uses = some pm

/-- The key of a call. -/
def keyOf : Attempt → Bytes
  | .put _ key _ => key
  | .putEx _ key _ _ => key
  | .delete _ key => key

/-- What the record has behind the key. -/
def valueOf : Attempt → Bytes
  | .put _ _ value => value
  | .putEx _ _ value _ => value
  | .delete _ _ => []

variable {pm pm' : PersistentManager} {a : Attempt}

theorem maxOff_append (w : WAL) (a : WAL.Append) (fault : Option Nat) :
    (w.append a fault).2.maxOff = w.maxOff := by
  rw [WAL.append_eq]
  split
  · rfl
  · cases fault <;> rfl

theorem maxOff_putWith {io : Io} {value : Bytes} {record : Persist.ArenaHandleLike → WAL.Append}
    {res : Except Persist.Error (Arena.Handle × Bytes)}
    (h : pm.putWith io value record = some (res, pm')) : pm'.wal.maxOff = pm.wal.maxOff := by
  rcases Persist.putWith_cases h with ⟨e, mgr, _, _, rfl⟩ | ⟨hd, mgr, _, hrest⟩
  · rfl
  · have happ := maxOff_append pm.wal (record (logged hd)) io.fault
    rcases hrest with ⟨e, wal, heq, _, rfl⟩ | ⟨off, wal, heq, ⟨_, _, rfl⟩ | ⟨seen, _, rfl, _⟩⟩ <;>
      (rw [heq] at happ; exact happ)

theorem maxOff_delete (io : Io) (key : Bytes) :
    (pm.delete io key).2.wal.maxOff = pm.wal.maxOff := by
  have happ := maxOff_append pm.wal (.del key) io.fault
  rw [PersistentManager.delete]
  split
  · rename_i heq
    rw [heq] at happ
    exact happ
  · rename_i heq
    rw [heq] at happ
    exact happ

theorem maxOff_attempt {ok : Bool} (h : attempt pm a = some (ok, pm')) :
    pm'.wal.maxOff = pm.wal.maxOff := by
  cases a with
  | put io key value | putEx io key value expiresAt =>
    obtain ⟨⟨res, t⟩, hput, heq⟩ := Option.map_eq_some_iff.mp h
    cases heq
    exact maxOff_putWith hput
  | delete io key =>
    cases h
    exact maxOff_delete io key

theorem maxOff_openWAL (file : Bytes) (maxLen : Nat) : (WAL.openWAL file maxLen).maxOff = maxLen := by
  rw [WAL.openWAL]
  split <;> rfl

/-- Loading only reads the log. -/
theorem wal_loadIndex {idx : HashIndex}
    {out : Except Persist.Error Unit × HashIndex × PersistentManager}
    (h : pm.loadIndex idx = some out) : out.2.2.wal = pm.wal := by
  rw [PersistentManager.loadIndex] at h
  split at h
  · obtain ⟨idx₁, _, h⟩ := Option.bind_eq_some_iff.mp h
    cases h
    rfl
  · cases h
    rfl
  · obtain ⟨idx₀, _, h⟩ := Option.bind_eq_some_iff.mp h
    obtain ⟨idx₁, _, h⟩ := Option.bind_eq_some_iff.mp h
    cases h
    rfl

/-- No use makes the log longer than 64 MiB. -/
theorem Opened.maxOff_le (h : Opened pm) : pm.wal.maxOff ≤ 2 ^ 26 := by
  obtain ⟨d, regionSize, durable, pm₀, uses, hnew, hrun⟩ := h
  refine run_keeps (fun pm => pm.wal.maxOff ≤ 2 ^ 26) (fun pm u pm' hle hu => ?_) uses pm₀ pm ?_ hrun
  · cases u with
    | attempt a =>
      obtain ⟨⟨ok, t⟩, ha, heq⟩ := Option.map_eq_some_iff.mp hu
      cases heq
      exact (maxOff_attempt ha).trans_le hle
    | checkpoint io idx =>
      cases hu
      rw [PersistentManager.checkpoint]
      split
      · exact hle
      · split
        · exact hle
        · exact hle
    | loadIndex idx =>
      obtain ⟨out, hload, rfl⟩ := Option.map_eq_some_iff.mp hu
      rw [wal_loadIndex hload]
      exact hle
  · obtain ⟨_, m, _, rfl⟩ := Persist.new_cases hnew
    rw [maxOff_openWAL]
    exact Persist.walMaxLen_le regionSize

/-- The bytes that the call has added to the log. -/
def writtenRecord (pm pm' : PersistentManager) : Bytes :=
  slice pm'.wal.file pm.wal.off pm'.wal.off

theorem append_written {w w' : WAL} {a : WAL.Append} {off : Nat} (h : w.append a none = (.ok off, w')) :
    slice w'.file w.off w'.off = a.bytes ∧ a.bytes.length ≤ w.maxOff := by
  rw [WAL.append_eq] at h
  split at h
  · cases h
  · cases h
    exact ⟨slice_overwrite _ _ _, by omega⟩

theorem putWith_written {io : Io} {value : Bytes} {record : Persist.ArenaHandleLike → WAL.Append}
    (h : ((pm.putWith io value record).map fun out => (out.1.isOk, out.2)) = some (true, pm')) :
    ∃ hd, writtenRecord pm pm' = (record hd).bytes ∧ (record hd).bytes.length ≤ pm.wal.maxOff := by
  obtain ⟨⟨res, t⟩, hput, heq⟩ := Option.map_eq_some_iff.mp h
  cases res with
  | error e => cases heq
  | ok out =>
    obtain ⟨mgr, off, wal, _, happ, hpm⟩ := Persist.putWith_ok hput
    cases heq
    rw [(Persist.append_ok happ).1] at happ
    subst hpm
    exact ⟨_, append_written happ⟩

/-- What a call that succeeds has written. -/
theorem attempt_written (h : attempt pm a = some (true, pm')) :
    ∃ r : WAL.Append, r.key = keyOf a ∧ r.value = valueOf a ∧ writtenRecord pm pm' = r.bytes ∧
      r.bytes.length ≤ pm.wal.maxOff := by
  cases a with
  | put io key value =>
    obtain ⟨hd, hrecord⟩ := putWith_written h
    exact ⟨_, rfl, rfl, hrecord⟩
  | putEx io key value expiresAt =>
    obtain ⟨hd, hrecord⟩ := putWith_written h
    exact ⟨_, rfl, rfl, hrecord⟩
  | delete io key =>
    have hpm := congrArg Prod.snd (Option.some.inj h)
    have hok := congrArg Prod.fst (Option.some.inj h)
    rw [PersistentManager.delete] at hpm hok
    cases happ : pm.wal.append (.del key) io.fault with
    | mk res wal =>
      rw [happ] at hpm hok
      cases res with
      | error e => cases hok
      | ok off =>
        subst hpm
        rw [(Persist.append_ok happ).1] at happ
        exact ⟨.del key, rfl, rfl, append_written happ⟩

/-- The fields of a record, and what is behind them. -/
theorem record_fields (r : WAL.Append) :
    wordAt r.bytes 5 2 = r.key.length % 2 ^ 16 ∧ wordAt r.bytes 7 4 = r.value.length % 2 ^ 32 ∧
      r.key ++ r.value <:+ r.bytes :=
  ⟨WAL.keyLen_cut [] (r.key ++ r.value), WAL.valLen_cut [] (r.key ++ r.value), r.header, rfl⟩

/-- The lengths in the record of a call that succeeds are right exactly if the key is not too
long for its field. -/
theorem record_lengths_iff (hpm : Opened pm) (h : attempt pm a = some (true, pm')) :
    keyOf a ++ valueOf a <:+ writtenRecord pm pm' ∧
      (wordAt (writtenRecord pm pm') 5 2 = (keyOf a).length ∧
          wordAt (writtenRecord pm pm') 7 4 = (valueOf a).length ↔ (keyOf a).length ≤ 65535) := by
  obtain ⟨r, hkey, hvalue, hrecord, hle⟩ := attempt_written h
  obtain ⟨hkeyLen, hvalLen, hbehind⟩ := record_fields r
  have hshort : r.value.length < 2 ^ 32 := by
    have hmax := hpm.maxOff_le
    have hlen := WAL.length_bytes r
    omega
  rw [hrecord, hkeyLen, hvalLen, Nat.mod_eq_of_lt hshort, ← hkey, ← hvalue, cut_eq_iff]
  exact ⟨hbehind, and_iff_left rfl⟩

/-! ## Both -/

/-- The length in front of a member that a frame has added, and the lengths in the record of a call
that succeeds, are right exactly if member and key are not too long for a field of 16 bits. -/
theorem lengths_true_iff (H : Hashes) :
    (∀ (g : Growth) (p : Parser) (buf : Bytes), ∀ fr ∈ (p.feed g buf).1, fr.op = .sAdd →
      ∀ (ss ss' : ShardSet) (env : Env), ss.Safe H → ss.dispatch H env fr = some (.done, ss') →
      ∃ c raw, ss'.cacheAt (ss.cacheIndexFor H fr.key) = some c ∧
        c.read H env.now fr.key = some (.ok raw) ∧ fr.value <:+ raw ∧
        (memberLen raw fr.value.length = fr.value.length ↔ fr.value.length ≤ 65535)) ∧
    (∀ (pm pm' : PersistentManager) (a : Attempt), Opened pm → attempt pm a = some (true, pm') →
      keyOf a ++ valueOf a <:+ writtenRecord pm pm' ∧
        (wordAt (writtenRecord pm pm') 5 2 = (keyOf a).length ∧
            wordAt (writtenRecord pm pm') 7 4 = (valueOf a).length ↔ (keyOf a).length ≤ 65535)) := by
  refine ⟨fun g p buf fr _ hop ss ss' env hss hd => ?_, fun pm pm' a hpm ha => ?_⟩
  · obtain ⟨c, front, hc, hread⟩ := stored_member hss hop hd
    refine ⟨c, _, hc, hread, ⟨front ++ leBytes 2 fr.value.length, ?_⟩, ?_⟩
    · rw [List.append_assoc, memberRecord]
    · rw [memberLen_record, cut_eq_iff]
  · exact record_lengths_iff hpm ha

/-- A parser takes what the client writes for a frame. -/
theorem mem_feed_bytes (g : Growth) {fr : Frame} (hkey : fr.key.length < 2 ^ 16)
    (hsize : fr.size ≤ Proto.maxFrameSize) : fr ∈ (newParser.feed g fr.bytes).1 := by
  have hdec : Proto.Decodes g ([fr].flatMap Frame.bytes) [fr] :=
    Proto.decodes_bytes g (by simpa using ⟨hkey, hsize⟩)
  rw [List.flatMap_singleton] at hdec
  rw [hdec.1]
  exact List.mem_singleton.mpr rfl

/-- `SADD k 5` and a short log record. -/
theorem lengths_true_iff_short :
    (∃ ss ss' : ShardSet, ∃ c raw,
      newShardSet 1 1 1024 40 .noop .noop = some ss ∧
      ss.dispatch Hashes.source ⟨0, none, true⟩ ⟨.sAdd, 0, [107], [5]⟩ = some (.done, ss') ∧
      ss'.cacheAt (ss.cacheIndexFor Hashes.source [107]) = some c ∧
      c.read Hashes.source 0 [107] = some (.ok raw) ∧ memberLen raw 1 = 1) ∧
    ∃ pm pm', PersistentManager.new ⟨none, []⟩ 8192 true = .ok pm ∧
      attempt pm (.put .fine [107] [1, 2]) = some (true, pm') ∧
      wordAt (writtenRecord pm pm') 5 2 = 1 ∧ wordAt (writtenRecord pm pm') 7 4 = 2 := by
  obtain ⟨hsets, hlog⟩ := lengths_true_iff Hashes.source
  constructor
  · obtain ⟨ss, hss, ⟨status, value⟩, ss', hd, rfl, rfl⟩ : ∃ ss,
        newShardSet 1 1 1024 40 .noop .noop = some ss ∧ ∃ (r : Transport.Reply) (ss' : ShardSet),
          ss.dispatch Hashes.source ⟨0, none, true⟩ ⟨.sAdd, 0, [107], [5]⟩ = some (r, ss') ∧
            r.status = 0 ∧ r.value = [] := by
      decide +kernel
    have hsafe : ss.Safe Hashes.source :=
      ShardSet.Built.safe (.inl ⟨1, 1, 1024, 40, .noop, .noop, hss⟩)
    obtain ⟨c, raw, hc, hread, _, hiff⟩ := hsets .doubling newParser _ ⟨.sAdd, 0, [107], [5]⟩
      (mem_feed_bytes .doubling (by decide) (by decide)) rfl ss ss' ⟨0, none, true⟩ hsafe hd
    exact ⟨ss, ss', c, raw, hss, hd, hc, hread, hiff.mpr (by decide)⟩
  · obtain ⟨pm, hnew, pm', hput, _⟩ : ∃ pm, PersistentManager.new ⟨none, []⟩ 8192 true = .ok pm ∧
        ∃ pm', attempt pm (.put .fine [107] [1, 2]) = some (true, pm') ∧ True := by
      decide +kernel
    have hopened : Opened pm := ⟨_, _, _, pm, [], hnew, rfl⟩
    obtain ⟨hkey, hvalue⟩ := (hlog pm pm' (.put .fine [107] [1, 2]) hopened hput).2.mpr (by decide)
    exact ⟨pm, pm', hnew, hput, hkey, hvalue⟩

theorem mgr_newShardCache {regionSize evictCapacity : Nat} {c : ShardCache}
    (hnew : newShardCache regionSize evictCapacity .noop .noop = some c) :
    c.mgr = Arena.newManager (if regionSize = 0 then 64 * 2 ^ 20 else regionSize) := by
  obtain ⟨ev, _, hc⟩ := Option.bind_eq_some_iff.mp hnew
  cases hc
  rfl

/-- A new shard without codecs takes a member that its arena takes. -/
theorem sAdd_fresh {regionSize evictCapacity : Nat} {c : ShardCache} {member : Bytes}
    (hnew : newShardCache regionSize evictCapacity .noop .noop = some c)
    (hsmall : 6 + member.length ≤ Arena.maxObjectSize)
    (htakes : c.mgr.takes ((6 + member.length) % 2 ^ 32) env.mmapOk = true) (key : Bytes) :
    ∃ c', c.sAdd H env key member = some ((true, none), c') := by
  have hs : c.Safe H := ShardCache.safe_newShardCache hnew
  obtain ⟨ev, _, hc⟩ := Option.bind_eq_some_iff.mp hnew
  cases hc
  obtain ⟨read, hread, hspec⟩ := hs.update env key (ShardCache.sAddPlan member)
  cases hread.symm.trans (ShardCache.seen_of_lookup_none (ShardIndex.lookup_blank key) env.now)
  have hplan : ShardCache.sAddPlan member (.error .notFound) =
      .write (leBytes 4 1 ++ memberRecord member) none fun err => (true, err) := rfl
  rw [hplan] at hspec
  obtain ⟨res, c', hup, _, hspec⟩ := hspec
  cases res with
  | ok b => exact ⟨c', hup⟩
  | error e =>
    have hlen : (leBytes 4 1 ++ memberRecord member).length = 6 + member.length := by
      rw [List.length_append, leBytes_length, Ds.length_memberRecord]
      omega
    have hyes := (hs.stores_iff env (leBytes 4 1 ++ memberRecord member)).mpr
      ⟨hlen ▸ hsmall, ⟨_, false, false⟩, rfl, hlen ▸ htakes⟩
    cases hspec.1.symm.trans hyes

/-- A member of 64 KiB in a frame on a new server with one shard. -/
theorem long_member_cut {member : Bytes} (hlong : member.length = 65536) (key : Bytes) :
    ∃ ss ss' : ShardSet, ∃ c raw, newShardSet 1 1 (2 ^ 20) 40 .noop .noop = some ss ∧
      ss.dispatch Hashes.source ⟨0, none, true⟩ ⟨.sAdd, 0, key, member⟩ = some (.done, ss') ∧
      ss'.cacheAt (ss.cacheIndexFor Hashes.source key) = some c ∧
      c.read Hashes.source 0 key = some (.ok raw) ∧ member <:+ raw ∧
      memberLen raw member.length = 0 := by
  have hsome : (newShardCache (2 ^ 20) 40 .noop .noop).isSome = true := by decide +kernel
  obtain ⟨c, hnew⟩ := Option.isSome_iff_exists.mp hsome
  have htakes : c.mgr.takes ((6 + member.length) % 2 ^ 32) true = true := by
    rw [hlong, mgr_newShardCache hnew]
    decide
  have hadd : ∃ c', c.sAdd Hashes.source ⟨0, none, true⟩ key member = some ((true, none), c') :=
    sAdd_fresh hnew (by rw [hlong]; decide) htakes key
  obtain ⟨c', hadd⟩ := hadd
  have hset := ShardCache.newShardSet_one hnew
  have hsafe := ShardSet.Built.safe (H := Hashes.source) (.inl ⟨1, 1, _, _, _, _, hset⟩)
  have hd : ShardSet.dispatch Hashes.source ⟨[c.mgr], [⟨0, c.ev, c.idx, c.comp, c.cipher⟩]⟩
      ⟨0, none, true⟩ ⟨.sAdd, 0, key, member⟩ =
      some (.done, ShardSet.setCache ⟨[c.mgr], [⟨0, c.ev, c.idx, c.comp, c.cipher⟩]⟩ 0 c') := by
    have hidx : ShardSet.cacheIndexFor Hashes.source
        ⟨[c.mgr], [⟨0, c.ev, c.idx, c.comp, c.cipher⟩]⟩ key = 0 := by
      rw [ShardSet.cacheIndexFor, if_neg (by simp), List.length_singleton, Nat.mod_one]
    have hc : ShardSet.cacheAt ⟨[c.mgr], [⟨0, c.ev, c.idx, c.comp, c.cipher⟩]⟩ 0 = some c := rfl
    simp only [ShardSet.dispatch, ShardSet.handleSAdd, ShardSet.answer, ShardSet.onKey, hidx,
      ShardSet.onShard, hc, hadd, Option.bind_eq_bind, Option.bind_some, Option.map_some,
      ShardSet.okOr, if_true]
  obtain ⟨c'', front, hc, hread⟩ := stored_member hsafe rfl hd
  refine ⟨_, _, c'', _, hset, hd, hc, hread, ⟨front ++ leBytes 2 member.length, ?_⟩, ?_⟩
  · rw [List.append_assoc, memberRecord]
  · rw [memberLen_record, hlong]
    rfl

theorem delete_fine {key : Bytes} (hroom : pm.wal.off + (11 + key.length) ≤ pm.wal.maxOff) :
    ∃ pm', pm.delete .fine key = (.ok (), pm') := by
  have hlen : (WAL.Append.del key).bytes.length = 11 + key.length := WAL.length_bytes _
  have happ : ∃ wal, pm.wal.append (.del key) none = (.ok pm.wal.off, wal) :=
    ⟨_, by rw [WAL.append_eq, hlen, if_neg (Nat.not_lt.mpr hroom)]⟩
  obtain ⟨wal, happ⟩ := happ
  refine ⟨{ pm with wal := wal }, ?_⟩
  simp [PersistentManager.delete, Io.fine, happ]

/-- A key of 64 KiB that is deleted from a new directory. -/
theorem long_key_cut {key : Bytes} (hlong : key.length = 65536) :
    ∃ pm pm', PersistentManager.new ⟨none, []⟩ (2 ^ 20) true = .ok pm ∧
      pm.delete .fine key = (.ok (), pm') ∧ key <:+ writtenRecord pm pm' ∧
      wordAt (writtenRecord pm pm') 5 2 = 0 := by
  have hok : (PersistentManager.new ⟨none, []⟩ (2 ^ 20) true).isOk = true := by decide +kernel
  cases hnew : PersistentManager.new ⟨none, []⟩ (2 ^ 20) true with
  | error e =>
    rw [hnew] at hok
    cases hok
  | ok pm =>
    have hlog : pm.wal.off = 0 ∧ pm.wal.maxOff = 2 ^ 18 := by
      obtain ⟨_, m, _, rfl⟩ := Persist.new_cases hnew
      exact ⟨rfl, rfl⟩
    obtain ⟨pm', hdel⟩ : ∃ pm', pm.delete .fine key = (.ok (), pm') :=
      delete_fine (by rw [hlog.1, hlog.2, hlong]; decide)
    have hattempt : attempt pm (.delete .fine key) = some (true, pm') := by
      rw [attempt, hdel]
      rfl
    obtain ⟨r, hkey, hvalue, hrecord, _⟩ := attempt_written hattempt
    obtain ⟨hkeyLen, _, hbehind⟩ := record_fields r
    rw [hkey, hvalue, valueOf, List.append_nil] at hbehind
    refine ⟨pm, pm', rfl, hdel, hrecord ▸ hbehind, ?_⟩
    rw [hrecord, hkeyLen, hkey, keyOf, hlong]
    rfl

/-- The length field is zero in front of the member that a client has sent, and in the record of a
key that `Delete` has logged. -/
theorem long_lengths_cut :
    (∃ (fr : Frame) (ss ss' : ShardSet) (c : ShardCache) (raw : Bytes),
      fr ∈ (newParser.feed .doubling fr.bytes).1 ∧ fr.op = .sAdd ∧ fr.value.length = 65536 ∧
      newShardSet 1 1 (2 ^ 20) 40 .noop .noop = some ss ∧
      ss.dispatch Hashes.source ⟨0, none, true⟩ fr = some (.done, ss') ∧
      ss'.cacheAt (ss.cacheIndexFor Hashes.source fr.key) = some c ∧
      c.read Hashes.source 0 fr.key = some (.ok raw) ∧ fr.value <:+ raw ∧
      memberLen raw fr.value.length = 0) ∧
    ∃ (key : Bytes) (pm pm' : PersistentManager), key.length = 65536 ∧
      PersistentManager.new ⟨none, []⟩ (2 ^ 20) true = .ok pm ∧
      pm.delete .fine key = (.ok (), pm') ∧ key <:+ writtenRecord pm pm' ∧
      wordAt (writtenRecord pm pm') 5 2 = 0 := by
  obtain ⟨long, hlong⟩ : ∃ long : Bytes, long.length = 65536 :=
    ⟨List.replicate 65536 0, List.length_replicate⟩
  constructor
  · obtain ⟨ss, ss', c, raw, hcut⟩ := long_member_cut hlong [107]
    refine ⟨⟨.sAdd, 0, [107], long⟩, ss, ss', c, raw, mem_feed_bytes .doubling (by simp) ?_, rfl,
      hlong, hcut⟩
    simp only [Frame.size, hlong]
    decide
  · obtain ⟨pm, pm', hcut⟩ := long_key_cut hlong
    exact ⟨long, pm, pm', hlong, hcut⟩

end Horreum.Server
