/-
  Transport/ShardCache.lean --- one shard of the cache, `shardCache` in
  `internal/transport/transport.go`.

  A shard joins the arena, the eviction policy and the key index.  What the calls take
  from outside is explicit: the clock, the nonce of an encryption and whether the system
  grants a further mapping.  `none` is a call that does not return; no call here does that
  on a shard that was reached from a new one.
-/
import Horreum.Compress.Lz4
import Horreum.Encrypt.Cipher
import Horreum.Eviction.S3Fifo
import Horreum.Transport.ShardIndex

set_option autoImplicit false

namespace Horreum.Transport

open Foundation
open Arena (Handle Manager compressedFlag encryptedFlag maxObjectSize)
open S3Fifo (Eviction)
open Compress (Compressor)
open Encrypt (Cipher Nonce)

/-- The errors of a shard. -/
inductive Error where
  | notFound
  | tooLarge
  | noCipherKey
  | arena (e : Arena.Error)
  | compress (e : Compress.Error)
  | cipher (e : Encrypt.Error)
  deriving DecidableEq, Repr

/-- The two hash functions a shard uses, one for the index and one for the policy. -/
structure Hashes where
  hashKey : Bytes → UInt64
  fingerprintOf : Bytes → UInt32

/-- The ones of the source. -/
def Hashes.source : Hashes := ⟨Transport.hashKey, S3Fifo.fingerprintOf⟩

/-- What one call takes from its environment. -/
structure Env where
  now : UInt32
  nonce : Option Nonce
  mmapOk : Bool

/-- Arena, policy and index of a shard, with its codecs. -/
structure ShardCache where
  mgr : Manager
  ev : Eviction
  idx : ShardIndex
  comp : Compressor
  cipher : Cipher

/-- `none` when the policy cannot be built for this capacity. -/
def newShardCache (regionSize evictCapacity : Nat) (comp : Compressor) (cipher : Cipher) :
    Option ShardCache := do
  let regionSize := if regionSize = 0 then 64 * 2 ^ 20 else regionSize
  let evictCapacity := if evictCapacity = 0 then 1024 else evictCapacity
  let ev ← S3Fifo.new evictCapacity
  some ⟨Arena.newManager regionSize, ev, newShardIndex, comp, cipher⟩

/-- A value as it goes into the arena. -/
structure Payload where
  bytes : Bytes
  compressed : Bool
  encrypted : Bool

namespace ShardCache

variable (H : Hashes)

/-- Compress if that helps, then encrypt if there is a cipher. -/
def encode (s : ShardCache) (env : Env) (value : Bytes) : Option (Except Error Payload) := do
  let cBuf ← s.comp.compress value
  let storeVal := cBuf.getD value
  if s.cipher.isNone then some (.ok ⟨storeVal, cBuf.isSome, false⟩)
  else
    match s.cipher.encrypt env.nonce storeVal with
    | .error e => some (.error (.cipher e))
    | .ok encBuf => some (.ok ⟨encBuf, cBuf.isSome, true⟩)

/-- The meta bits of a fresh handle. -/
def flag (mgr : Manager) (h : Handle) (p : Payload) : Manager :=
  let mgr := if p.compressed then mgr.orMetaBits h compressedFlag else mgr
  if p.encrypted then mgr.orMetaBits h encryptedFlag else mgr

/-- `if replaced { _ = s.mgr.Free(old) }` -/
def release (mgr : Manager) : Option Handle → Manager
  | some old => (mgr.free old).2
  | none => mgr

/-- The common tail of the writing calls: put the payload, let the policy queue the handle
and free what it gives up, enter the handle in the index and free the one it replaces.
Handles that the policy gives up stay in the index. -/
def store (s : ShardCache) (env : Env) (key : Bytes) (p : Payload) (expiresAt : UInt32) :
    Option (Except Error Handle × ShardCache) := do
  match ← s.mgr.put p.bytes env.mmapOk with
  | (.error e, mgr) => some (.error (.arena e), { s with mgr := mgr })
  | (.ok h, mgr) =>
    let (evicted, ev, mgr) := s.ev.add H.fingerprintOf (flag mgr h p) key h
    let mgr := mgr.freeAll evicted
    let (old, idx) ← s.idx.put H.hashKey key h expiresAt
    some (.ok h, { s with mgr := release mgr old, ev := ev, idx := idx })

/-- The answer is the value itself when it was transformed, and otherwise a view of the
stored bytes. -/
def set (s : ShardCache) (env : Env) (key value : Bytes) (ttlSeconds : UInt32) :
    Option (Except Error Bytes × ShardCache) := do
  if value.length > maxObjectSize then some (.error .tooLarge, s)
  else
    match ← s.encode env value with
    | .error e => some (.error e, s)
    | .ok p =>
      let expiresAt := if ttlSeconds > 0 then env.now + ttlSeconds else 0
      match ← s.store H env key p expiresAt with
      | (.error e, s) => some (.error e, s)
      | (.ok h, s) =>
        if p.compressed ∨ p.encrypted then some (.ok value, s)
        else
          match ← s.mgr.view h with
          | .error e => some (.error (.arena e), s)
          | .ok bytes => some (.ok bytes, s)

/-- Decrypt if the encrypted flag is set. -/
def decrypted (s : ShardCache) (mgr : Manager) (h : Handle) (raw : Bytes) :
    Except Error Bytes :=
  if mgr.getMeta h &&& encryptedFlag ≠ 0 then
    if s.cipher.isNone then .error .noCipherKey
    else (s.cipher.decrypt raw).mapError .cipher
  else .ok raw

/-- Decompress if the compressed flag is set. -/
def decompressed (s : ShardCache) (mgr : Manager) (h : Handle) (raw : Bytes) :
    Except Error Bytes :=
  if mgr.getMeta h &&& compressedFlag ≠ 0 then (s.comp.decompress raw).mapError .compress
  else .ok raw

/-- Undo the codecs that the meta word names. -/
def decode (s : ShardCache) (mgr : Manager) (h : Handle) (raw : Bytes) : Except Error Bytes :=
  match s.decrypted mgr h raw with
  | .error e => .error e
  | .ok raw => s.decompressed mgr h raw

/-- View the handle and decode what is there. -/
def load (s : ShardCache) (mgr : Manager) (h : Handle) : Option (Except Error Bytes) := do
  match ← mgr.view h with
  | .error e => some (.error (.arena e))
  | .ok raw => some (s.decode mgr h raw)

/-- Whether a loaded value is still a view of the arena. -/
def isView (mgr : Manager) (h : Handle) : Bool :=
  mgr.getMeta h &&& encryptedFlag = 0 ∧ mgr.getMeta h &&& compressedFlag = 0

/-- `Get` -/
def get (s : ShardCache) (now : UInt32) (key : Bytes) :
    Option (Except Error Bytes × ShardCache) := do
  match ← s.idx.get H.hashKey key now with
  | none => some (.error .notFound, s)
  | some (h, _) =>
    let s := { s with mgr := s.ev.touch s.mgr h }
    let res ← s.load s.mgr h
    some (res, s)

/-- The answer to `CAS`: what was there when the expected value was not, and whether the
new value was written. -/
structure CasResult where
  current : Option Bytes
  swapped : Bool
  deriving DecidableEq, Repr

/-- `CAS` -/
def cas (s : ShardCache) (env : Env) (key expectedValue newValue : Bytes) :
    Option (Except Error CasResult × ShardCache) := do
  match ← s.idx.get H.hashKey key env.now with
  | none => some (.ok ⟨none, false⟩, s)
  | some (h, expiresAt) =>
    let s := { s with mgr := s.ev.touch s.mgr h }
    match ← s.load s.mgr h with
    | .error e => some (.error e, s)
    | .ok currentValue =>
      if currentValue ≠ expectedValue then some (.ok ⟨some currentValue, false⟩, s)
      else if newValue.length > maxObjectSize then some (.error .tooLarge, s)
      else
        match ← s.encode env newValue with
        | .error e => some (.error e, s)
        | .ok p =>
          if p.bytes.length > maxObjectSize then some (.error .tooLarge, s)
          else
            match ← s.store H env key p expiresAt with
            | (.error e, s) => some (.error e, s)
            | (.ok _, s) => some (.ok ⟨none, true⟩, s)

/-- The counter that `Incr` starts from.  Unlike the other readers it passes over codec
errors and goes on with the bytes it has; what is not eight bytes long counts as zero. -/
def counter (s : ShardCache) (mgr : Manager) (h : Handle) : Option Int64 := do
  match ← mgr.view h with
  | .error _ => some 0
  | .ok raw =>
    let raw :=
      if mgr.getMeta h &&& encryptedFlag ≠ 0 ∧ !s.cipher.isNone then
        match s.cipher.decrypt raw with
        | .ok dec => dec
        | .error _ => raw
      else raw
    let raw :=
      if mgr.getMeta h &&& compressedFlag ≠ 0 then
        match s.comp.decompress raw with
        | .ok dec => dec
        | .error _ => raw
      else raw
    some (if raw.length = 8 then (UInt64.ofNat (leNat raw)).toInt64 else 0)

/-- A counter as it is stored. -/
def counterBytes (n : Int64) : Bytes := leBytes 8 n.toUInt64.toNat

/-- The second half of `Incr`: write the sum. -/
def writeCounter (s : ShardCache) (env : Env) (key : Bytes) (current : Int64)
    (expiresAt : UInt32) : Option (Except Error Int64 × ShardCache) := do
  match ← s.encode env (counterBytes current) with
  | .error e => some (.error e, s)
  | .ok p =>
    if p.bytes.length > maxObjectSize then some (.error .tooLarge, s)
    else
      match ← s.store H env key p expiresAt with
      | (.error e, s) => some (.error e, s)
      | (.ok _, s) => some (.ok current, s)

/-- `Incr` -/
def incr (s : ShardCache) (env : Env) (key : Bytes) (delta : Int64) :
    Option (Except Error Int64 × ShardCache) := do
  match ← s.idx.get H.hashKey key env.now with
  | none => s.writeCounter H env key (0 + delta) 0
  | some (h, expiresAt) =>
    let s := { s with mgr := s.ev.touch s.mgr h }
    let current ← s.counter s.mgr h
    s.writeCounter H env key (current + delta) expiresAt

/-- `Delete` -/
def delete (s : ShardCache) (key : Bytes) : Option (Except Error Unit × ShardCache) := do
  let (old, idx) ← s.idx.delete H.hashKey key
  match old with
  | none => some (.ok (), { s with idx := idx })
  | some h =>
    let (ev, mgr) := s.ev.delete H.fingerprintOf s.mgr key h
    let (res, mgr) := mgr.free h
    some (res.mapError .arena, { s with mgr := mgr, ev := ev, idx := idx })

/-- For each removed entry: the policy forgets its handle, then the block is freed. -/
def dropAll {α : Type} (forget : Eviction → Manager → α → Eviction × Manager)
    (handle : α → Handle) : Eviction → Manager → List α → Eviction × Manager
  | ev, mgr, [] => (ev, mgr)
  | ev, mgr, x :: xs =>
    let (ev, mgr) := forget ev mgr x
    dropAll forget handle ev (mgr.free (handle x)).2 xs

/-- `DeleteExpired` -/
def deleteExpired (s : ShardCache) (now : UInt32) (limit : Int) : Option ShardCache := do
  let (freed, idx) ← s.idx.deleteExpired H.hashKey now limit
  let (ev, mgr) := dropAll Eviction.remove id s.ev s.mgr freed
  some { s with mgr := mgr, ev := ev, idx := idx }

/-- The number of keys removed. -/
def delPrefix (s : ShardCache) (pre : Bytes) : Option (Nat × ShardCache) := do
  let (freed, deletedKeys, idx) ← s.idx.deletePrefix H.hashKey pre
  let (ev, mgr) := dropAll (fun ev mgr (x : Bytes × Handle) =>
    ev.delete H.fingerprintOf mgr x.1 x.2) Prod.snd s.ev s.mgr (deletedKeys.zip freed)
  some (freed.length, { s with mgr := mgr, ev := ev, idx := idx })

end ShardCache

end Horreum.Transport
