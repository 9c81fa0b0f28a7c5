/-
  Persist/Snapshots.lean --- the format of an index checkpoint, `checkpoint.go` in
  `internal/arena/persist`.

  Magic, version and number of entries, then the entries: a fixed part of 24 bytes with four of the key,
  and the rest of the key.  A `SnapshotEntry` is a bucket of the index.  Its hash is written as it is
  stored, of the meta word the low byte; the expiry is not written.
-/
import Horreum.Index.Buckets
import Horreum.Persist.Superblock
import Horreum.Persist.WalLog

set_option autoImplicit false

namespace Horreum.Persist

open Foundation
open Arena (Handle)
open Index (Bucket)

/-- `IDX` and a NUL. -/
def checkpointMagic : Bytes := [0x49, 0x44, 0x58, 0x00]

/-- The version of the format. -/
def checkpointVersion : Nat := 1

/-- Magic, version and count. -/
def checkpointHeaderSize : Nat := 12

/-- The length of an entry whose key has up to four bytes. -/
def checkpointEntryFixedSize : Nat := 24

namespace Snapshot

/-! ## Encoding -/

/-- The length of an entry. -/
def entrySize (se : Bucket) : Nat := checkpointEntryFixedSize + (se.key.length - 4)

/-- One entry; the first four bytes of the key stand in a field of their own. -/
def encodeEntry (se : Bucket) : Bytes :=
  leBytes 8 se.hash.toNat ++ (leBytes 2 se.key.length ++ (leBytes 4 se.handle.offset.toNat ++
    (leBytes 4 se.handle.size.toNat ++ ([se.handle.region, se.handle.metaWord.toUInt8] ++
      (se.key.take 4 ++ (List.replicate (4 - se.key.length) 0 ++ se.key.drop 4))))))

/-- The loop of `encodeCheckpoint`, at entry `i` and position `pos` of a buffer of `cap`
bytes. -/
def encodeEntries (cap : Nat) : (i pos : Nat) → List Bucket → Except Error Bytes
  | _, _, [] => .ok []
  | i, pos, se :: snap =>
    if se.key.length > 0xFFFF then .error (.keyTooLong i se.key.length)
    else if pos + entrySize se > cap then .error (.bufferOverflow i)
    else (encodeEntries cap (i + 1) (pos + entrySize se) snap).map (encodeEntry se ++ ·)

/-- What is written into a buffer of `cap` bytes. -/
def encodeCheckpoint (cap : Nat) (snap : List Bucket) : Except Error Bytes :=
  if cap < checkpointHeaderSize then .error .bufferTooSmall
  else (encodeEntries cap 0 checkpointHeaderSize snap).map fun body =>
    checkpointMagic ++ (leBytes 4 checkpointVersion ++ (leBytes 4 snap.length ++ body))

/-! ## Decoding -/

/-- One entry and the position behind it. -/
def decodeEntry (buf : Bytes) (i pos : Nat) : Except Error (Bucket × Nat) :=
  if pos + checkpointEntryFixedSize > buf.length then .error (.truncated i)
  else
    let hash := UInt64.ofNat (wordAt buf pos 8)
    let keyLen := wordAt buf (pos + 8) 2
    let h : Handle := ⟨UInt32.ofNat (wordAt buf (pos + 10) 4),
      UInt32.ofNat (wordAt buf (pos + 14) 4), (buf.getD (pos + 19) 0).toUInt16,
      buf.getD (pos + 18) 0⟩
    let inline := slice buf (pos + 20) (pos + 20 + min 4 keyLen)
    let pos := pos + checkpointEntryFixedSize
    if keyLen > 4 then
      if pos + (keyLen - 4) > buf.length then .error (.keyTruncated i)
      else .ok (⟨inline ++ slice buf pos (pos + (keyLen - 4)), hash, UInt16.ofNat keyLen, h, 0⟩,
        pos + (keyLen - 4))
    else .ok (⟨inline, hash, UInt16.ofNat keyLen, h, 0⟩, pos)

/-- `n` entries from entry `i` on, and the position behind them. -/
def decodeEntries (buf : Bytes) : (n i pos : Nat) → Except Error (List Bucket × Nat)
  | 0, _, pos => .ok ([], pos)
  | n + 1, i, pos => do
    let (se, pos) ← decodeEntry buf i pos
    let (snap, pos) ← decodeEntries buf n (i + 1) pos
    .ok (se :: snap, pos)

/-- The checks on the header, and the number of entries that it announces. -/
def decodeHeader (buf : Bytes) : Except Error Nat :=
  if buf.length < checkpointHeaderSize then .error .bufferTooSmall
  else if buf.take 4 ≠ checkpointMagic then .error .checkpointBadMagic
  else if wordAt buf 4 4 ≠ checkpointVersion then .error (.checkpointVersion (wordAt buf 4 4))
  else .ok (wordAt buf 8 4)

/-- The entries of a checkpoint, and the position behind them. -/
def decodeCheckpoint (buf : Bytes) : Except Error (List Bucket × Nat) := do
  let count ← decodeHeader buf
  decodeEntries buf count 0 checkpointHeaderSize

/-- A header that the decoder accepts. -/
structure Headed (buf : Bytes) : Prop where
  long : checkpointHeaderSize ≤ buf.length
  magic : buf.take 4 = checkpointMagic
  version : wordAt buf 4 4 = checkpointVersion

variable {buf : Bytes}

theorem decodeHeader_eq_ok {n : Nat} :
    decodeHeader buf = .ok n ↔ Headed buf ∧ n = wordAt buf 8 4 := by
  unfold decodeHeader
  split_ifs with hshort hmagic hversion
  · simpa using fun h : Headed buf => absurd h.long (Nat.not_le_of_lt hshort)
  · simpa using fun h : Headed buf => absurd h.magic hmagic
  · simpa using fun h : Headed buf => absurd h.version hversion
  · have hheaded : Headed buf :=
      ⟨Nat.le_of_not_lt hshort, not_not.mp hmagic, not_not.mp hversion⟩
    simp [hheaded, eq_comm]

/-! ## What the encoder accepts -/

theorem length_encodeEntry (se : Bucket) : (encodeEntry se).length = entrySize se := by
  simp only [encodeEntry, List.length_append, leBytes_length, List.length_take,
    List.length_replicate, List.length_drop, List.length_cons, List.length_nil, entrySize,
    checkpointEntryFixedSize]
  omega

variable {cap : Nat}

/-- The entries one after another, all of them short enough to be told apart. -/
theorem encodeEntries_ok : ∀ {snap : List Bucket} {i pos : Nat} {body : Bytes},
    encodeEntries cap i pos snap = .ok body → pos ≤ cap →
    body = snap.flatMap encodeEntry ∧ (∀ se ∈ snap, se.key.length ≤ 0xFFFF) ∧
      pos + body.length ≤ cap
  | [], i, pos, body, h, hpos => by
    cases h
    exact ⟨rfl, by simp, hpos⟩
  | se :: snap, i, pos, body, h, hpos => by
    rw [encodeEntries] at h
    split at h
    · cases h
    · rename_i hkey
      split at h
      · cases h
      · rename_i hroom
        cases hrest : encodeEntries cap (i + 1) (pos + entrySize se) snap with
        | error err =>
          rw [hrest] at h
          cases h
        | ok tail =>
          rw [hrest] at h
          cases h
          obtain ⟨htail, hkeys, hcap⟩ := encodeEntries_ok hrest (Nat.le_of_not_lt hroom)
          refine ⟨by rw [htail]; rfl, ?_, ?_⟩
          · intro se' hse'
            rcases List.mem_cons.mp hse' with rfl | hse'
            · exact Nat.le_of_not_lt hkey
            · exact hkeys se' hse'
          · rw [List.length_append, length_encodeEntry]
            omega

/-- The bytes of a checkpoint. -/
structure Encoded (cap : Nat) (snap : List Bucket) (body : Bytes) : Prop where
  bytes : body = checkpointMagic ++ leBytes 4 checkpointVersion ++ leBytes 4 snap.length ++
    snap.flatMap encodeEntry
  keys : ∀ se ∈ snap, se.key.length ≤ 0xFFFF
  length_le : body.length ≤ cap

variable {snap : List Bucket} {body : Bytes}

theorem encodeCheckpoint_ok
    (h : encodeCheckpoint cap snap = .ok body) : Encoded cap snap body := by
  rw [encodeCheckpoint] at h
  split at h
  · cases h
  · rename_i hlarge
    cases hes : encodeEntries cap 0 checkpointHeaderSize snap with
    | error err =>
      rw [hes] at h
      cases h
    | ok tail =>
      rw [hes] at h
      cases h
      obtain ⟨rfl, hkeys, hroom⟩ := encodeEntries_ok hes (Nat.le_of_not_lt hlarge)
      refine ⟨by simp only [List.append_assoc], hkeys, ?_⟩
      simp only [List.length_append, leBytes_length, checkpointMagic, checkpointHeaderSize,
        List.length_cons, List.length_nil] at hroom ⊢
      omega

/-! ## Round trip -/

/-- What of an entry comes back. -/
def restored (se : Bucket) : Bucket :=
  ⟨se.key, se.hash, UInt16.ofNat se.key.length,
    { se.handle with metaWord := se.handle.metaWord.toUInt8.toUInt16 }, 0⟩

theorem decodeEntry_encodeEntry (pre rest : Bytes) {se : Bucket} (hkey : se.key.length ≤ 0xFFFF)
    (i : Nat) :
    decodeEntry (pre ++ (encodeEntry se ++ rest)) i pre.length =
      .ok (restored se, pre.length + entrySize se) := by
  have hsize := length_encodeEntry se
  generalize hbuf : pre ++ (encodeEntry se ++ rest) = buf
  have hlen : buf.length = pre.length + entrySize se + rest.length := by
    rw [← hbuf, List.length_append, List.length_append, hsize, Nat.add_assoc]
  simp only [encodeEntry, List.append_assoc] at hbuf
  have hhash : UInt64.ofNat (wordAt buf pre.length 8) = se.hash := by
    rw [← hbuf]
    exact ofNat64_wordAt se.hash rfl
  have hkeyLen : wordAt buf (pre.length + 8) 2 = se.key.length := by
    rw [← hbuf, ← List.append_assoc, wordAt_append 2 _ (by simp)]
    exact Nat.mod_eq_of_lt (Nat.lt_succ_of_le hkey)
  have hoff : UInt32.ofNat (wordAt buf (pre.length + 10) 4) = se.handle.offset := by
    rw [← hbuf, ← List.append_assoc, ← List.append_assoc]
    exact ofNat32_wordAt se.handle.offset (by simp)
  have hsz : UInt32.ofNat (wordAt buf (pre.length + 14) 4) = se.handle.size := by
    rw [← hbuf, ← List.append_assoc, ← List.append_assoc, ← List.append_assoc]
    exact ofNat32_wordAt se.handle.size (by simp)
  have hreg : buf.getD (pre.length + 18) 0 = se.handle.region := by
    rw [← hbuf, ← List.append_assoc, ← List.append_assoc, ← List.append_assoc,
      ← List.append_assoc]
    exact getD_append _ 0 (by simp)
  have hmeta : buf.getD (pre.length + 19) 0 = se.handle.metaWord.toUInt8 := by
    rw [← hbuf, ← List.append_assoc, ← List.append_assoc, ← List.append_assoc,
      ← List.append_assoc, List.cons_append, ← List.singleton_append, ← List.append_assoc]
    exact getD_append _ 0 (by simp)
  have hinline : slice buf (pre.length + 20) (pre.length + 20 + min 4 se.key.length) =
      se.key.take 4 := by
    rw [← hbuf, ← List.append_assoc, ← List.append_assoc, ← List.append_assoc,
      ← List.append_assoc, ← List.append_assoc]
    exact slice_append (by simp) (by rw [List.length_take])
  simp only [entrySize, checkpointEntryFixedSize] at hlen
  simp only [decodeEntry, checkpointEntryFixedSize, hhash, hkeyLen, hoff, hsz, hreg, hmeta, hinline]
  rw [if_neg (by omega)]
  split
  · rename_i hlong
    have hrest : slice buf (pre.length + 24) (pre.length + 24 + (se.key.length - 4)) =
        se.key.drop 4 := by
      rw [← hbuf, Nat.sub_eq_zero_of_le (Nat.le_of_lt hlong), List.replicate_zero,
        List.nil_append, ← List.append_assoc, ← List.append_assoc, ← List.append_assoc,
        ← List.append_assoc, ← List.append_assoc, ← List.append_assoc]
      exact slice_append (by simp; omega) (by rw [List.length_drop])
    rw [if_neg (by omega), hrest, List.take_append_drop]
    simp only [restored, entrySize, checkpointEntryFixedSize, Nat.add_assoc]
  · rename_i hshort
    rw [List.take_of_length_le (by omega)]
    simp only [restored, entrySize, checkpointEntryFixedSize]
    rw [Nat.sub_eq_zero_of_le (by omega)]

theorem decodeEntries_flatMap (rest : Bytes) : ∀ (snap : List Bucket) (pre : Bytes) (i : Nat),
    (∀ se ∈ snap, se.key.length ≤ 0xFFFF) →
    decodeEntries (pre ++ (snap.flatMap encodeEntry ++ rest)) snap.length i pre.length =
      .ok (snap.map restored, pre.length + (snap.flatMap encodeEntry).length)
  | [], pre, i, _ => rfl
  | se :: snap, pre, i, hkeys => by
    have hbuf : pre ++ ((se :: snap).flatMap encodeEntry ++ rest) =
        pre ++ (encodeEntry se ++ (snap.flatMap encodeEntry ++ rest)) := by
      simp
    have hbuf' : pre ++ (encodeEntry se ++ (snap.flatMap encodeEntry ++ rest)) =
        (pre ++ encodeEntry se) ++ (snap.flatMap encodeEntry ++ rest) := by
      simp
    have hstep := decodeEntry_encodeEntry pre (snap.flatMap encodeEntry ++ rest)
      (hkeys se List.mem_cons_self) i
    have hrest := decodeEntries_flatMap rest snap (pre ++ encodeEntry se) (i + 1)
      fun se' hse' => hkeys se' (List.mem_cons_of_mem se hse')
    rw [← hbuf', List.length_append, length_encodeEntry] at hrest
    rw [hbuf, List.length_cons, decodeEntries, hstep]
    simp only [bind, Except.bind, hrest]
    rw [List.flatMap_cons, List.length_append, length_encodeEntry, Nat.add_assoc]
    rfl

/-- A checkpoint decodes to as many of its entries as its count says, whatever is behind it. -/
theorem Encoded.decode (h : Encoded cap snap body) (rest : Bytes) :
    decodeCheckpoint (body ++ rest) =
      .ok ((snap.take (snap.length % 2 ^ 32)).map restored, checkpointHeaderSize +
        ((snap.take (snap.length % 2 ^ 32)).flatMap encodeEntry).length) := by
  obtain ⟨rfl, hkeys, _⟩ := h
  generalize hn : snap.length % 2 ^ 32 = n
  have hle : n ≤ snap.length := hn ▸ Nat.mod_le _ _
  have hsplit : snap.flatMap encodeEntry ++ rest = (snap.take n).flatMap encodeEntry ++
      ((snap.drop n).flatMap encodeEntry ++ rest) := by
    rw [← List.append_assoc, ← List.flatMap_append, List.take_append_drop]
  have hhead : (checkpointMagic ++ leBytes 4 checkpointVersion ++
      leBytes 4 snap.length).length = checkpointHeaderSize := by
    simp [checkpointMagic, checkpointHeaderSize]
  have hes := decodeEntries_flatMap ((snap.drop n).flatMap encodeEntry ++ rest) (snap.take n)
    (checkpointMagic ++ leBytes 4 checkpointVersion ++ leBytes 4 snap.length) 0
    fun se hse => hkeys se (List.mem_of_mem_take hse)
  rw [← hsplit, List.length_take, Nat.min_eq_left hle, hhead] at hes
  generalize hbuf : checkpointMagic ++ leBytes 4 checkpointVersion ++ leBytes 4 snap.length ++
    (snap.flatMap encodeEntry ++ rest) = buf at hes
  rw [List.append_assoc, hbuf]
  have hversion : wordAt buf 4 4 = checkpointVersion := by
    rw [← hbuf, List.append_assoc, List.append_assoc]
    exact wordAt_append 4 _ rfl
  have hcount : wordAt buf 8 4 = n := by
    rw [← hbuf, List.append_assoc, wordAt_append 4 _ (by rfl)]
    exact hn
  have hmagic : buf.take 4 = checkpointMagic := by
    rw [← hbuf, List.append_assoc, List.append_assoc]
    exact List.take_left' rfl
  have hlong : checkpointHeaderSize ≤ buf.length := by
    rw [← hbuf, List.length_append, hhead]
    omega
  rw [decodeCheckpoint, decodeHeader_eq_ok.mpr ⟨⟨hlong, hmagic, hversion⟩, hcount.symm⟩]
  exact hes

theorem Encoded.length_body
    (h : Encoded cap snap body) :
    body.length = checkpointHeaderSize + (snap.flatMap encodeEntry).length := by
  rw [h.bytes, List.length_append]
  simp [checkpointMagic, checkpointHeaderSize]

theorem Encoded.length_snapshot_le
    (h : Encoded cap snap body) : snap.length ≤ body.length := by
  have hmany : snap.length ≤ (snap.flatMap encodeEntry).length := by
    refine length_le_flatMap (fun se => ?_) snap
    rw [length_encodeEntry, entrySize, checkpointEntryFixedSize]
    omega
  rw [h.length_body]
  omega

theorem Encoded.decode_small
    (h : Encoded cap snap body) (hfew : snap.length < 2 ^ 32) (rest : Bytes) :
    decodeCheckpoint (body ++ rest) = .ok (snap.map restored, body.length) := by
  rw [h.decode, Nat.mod_eq_of_lt hfew, List.take_length, h.length_body]

/-! ## What the decoder accepts -/

/-- The entries that are decoded have been in the buffer. -/
theorem decodeEntry_ok {i pos pos' : Nat} {se : Bucket}
    (h : decodeEntry buf i pos = .ok (se, pos')) :
    pos + checkpointEntryFixedSize ≤ pos' ∧ pos' ≤ buf.length ∧ se.handle.metaWord.toNat < 256 := by
  have hbyte : ∀ b : UInt8, b.toUInt16.toNat < 256 := fun b => by
    rw [UInt8.toNat_toUInt16]
    exact b.toNat_lt
  unfold decodeEntry at h
  split at h
  · cases h
  · dsimp only at h
    split at h
    · split at h
      · cases h
      · cases h
        exact ⟨by omega, by omega, hbyte _⟩
    · cases h
      exact ⟨by omega, by omega, hbyte _⟩

theorem decodeEntries_ok : ∀ {n i pos pos' : Nat} {snap : List Bucket},
    decodeEntries buf n i pos = .ok (snap, pos') → pos ≤ buf.length →
    pos + checkpointEntryFixedSize * snap.length ≤ buf.length ∧
      ∀ se ∈ snap, se.handle.metaWord.toNat < 256
  | 0, _, pos, _, _, h, hpos => by
    cases h
    exact ⟨hpos, by simp⟩
  | n + 1, i, pos, pos', snap, h, hpos => by
    rw [decodeEntries] at h
    obtain ⟨⟨se, mid⟩, hse, h⟩ := bind_eq_ok h
    obtain ⟨⟨rest, last⟩, hrest, h⟩ := bind_eq_ok h
    cases h
    obtain ⟨hmid, hin, hword⟩ := decodeEntry_ok hse
    obtain ⟨hlen, hwords⟩ := decodeEntries_ok hrest hin
    refine ⟨by rw [List.length_cons, Nat.mul_succ]; omega, fun se' hse' => ?_⟩
    rcases List.mem_cons.mp hse' with rfl | hse'
    · exact hword
    · exact hwords se' hse'

theorem decodeCheckpoint_ok {k : Nat} (h : decodeCheckpoint buf = .ok (snap, k)) :
    checkpointHeaderSize + checkpointEntryFixedSize * snap.length ≤ buf.length ∧
      ∀ se ∈ snap, se.handle.metaWord.toNat < 256 := by
  obtain ⟨n, hheader, h⟩ := bind_eq_ok h
  exact decodeEntries_ok h (decodeHeader_eq_ok.mp hheader).1.long

end Snapshot

end Horreum.Persist
