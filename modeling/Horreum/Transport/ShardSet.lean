/-
  Transport/ShardSet.lean --- the shards of a server, `ShardSet` in
  `internal/transport/transport.go`.

  A set made by `NewShardSet` has one arena per shard; one made by `NewShardSetFromArena` has a
  single arena that all its shards work on.  So the arenas are kept beside the shards, and a
  call on a shard takes the arena along and puts it back.
-/
import Horreum.Transport.IndexEffects

set_option autoImplicit false

namespace Horreum.Transport

open Foundation
open Arena (Manager)
open S3Fifo (Eviction)
open Compress (Compressor)
open Encrypt (Cipher)

/-- A shard without its arena, and which of the arenas that is. -/
structure Shard where
  arena : Nat
  ev : Eviction
  idx : ShardIndex
  comp : Compressor
  cipher : Cipher

/-- The shards and their arenas; shards can have one in common. -/
structure ShardSet where
  arenas : List Manager
  shards : List Shard

/-- Four times the number of processors, but at least 4 and at most 64. -/
def defaultShardCount (numCPU : Nat) : Nat :=
  let n := numCPU * 4
  let n := if n < 4 then 4 else n
  if n > 64 then 64 else n

/-- `NewShardSet`: every shard has an arena of its own. -/
def newShardSet (numCPU numShards regionSize evictCapacity : Nat) (comp : Compressor)
    (cipher : Cipher) : Option ShardSet := do
  let numShards := if numShards = 0 then defaultShardCount numCPU else numShards
  let c ← newShardCache regionSize evictCapacity comp cipher
  some {
    arenas := List.replicate numShards c.mgr
    shards := (List.range numShards).map fun i => ⟨i, c.ev, c.idx, c.comp, c.cipher⟩ }

/-- `NewShardSetFromArena`: all shards are on one arena. -/
def newShardSetFromArena (mgr : Manager) (numShards : Int) (evictCap : Nat) (comp : Compressor)
    (cipher : Cipher) : Option ShardSet := do
  let numShards := if numShards ≤ 0 then 1 else numShards.toNat
  let evictCap := if evictCap = 0 then 1024 else evictCap
  let ev ← S3Fifo.new evictCap
  some {
    arenas := [mgr]
    shards := List.replicate numShards ⟨0, ev, newShardIndex, comp, cipher⟩ }

namespace ShardSet

variable (H : Hashes)

/-- The shard that owns `key`. -/
def cacheIndexFor (ss : ShardSet) (key : Bytes) : Nat :=
  if ss.shards.length = 0 then 0 else (H.hashKey key).toNat % ss.shards.length

/-- Shard `i` with its arena. -/
def cacheAt (ss : ShardSet) (i : Nat) : Option ShardCache := do
  let sh ← ss.shards[i]?
  let mgr ← ss.arenas[sh.arena]?
  some ⟨mgr, sh.ev, sh.idx, sh.comp, sh.cipher⟩

/-- Shard `i` has become `c`. -/
def setCache (ss : ShardSet) (i : Nat) (c : ShardCache) : ShardSet :=
  match ss.shards[i]? with
  | none => ss
  | some sh => {
      arenas := ss.arenas.set sh.arena c.mgr
      shards := ss.shards.set i ⟨sh.arena, c.ev, c.idx, c.comp, c.cipher⟩ }

/-- A call on shard `i`. -/
def onShard {α : Type} (ss : ShardSet) (i : Nat) (call : ShardCache → Option (α × ShardCache)) :
    Option (α × ShardSet) := do
  let c ← ss.cacheAt i
  let (a, c) ← call c
  some (a, ss.setCache i c)

/-- `CacheFor(key)` and a call on what it returns. -/
def onKey {α : Type} (ss : ShardSet) (key : Bytes)
    (call : ShardCache → Option (α × ShardCache)) : Option (α × ShardSet) :=
  ss.onShard (ss.cacheIndexFor H key) call

/-- A page of keys and the next cursor.  The upper 16 bits of a cursor are the shard, the lower
48 bits the slot in it. -/
def scan (ss : ShardSet) (pre : Bytes) (cursor : UInt64) (count : Int) (now : UInt32) :
    List Bytes × UInt64 :=
  let shardIdx := (cursor >>> 48).toNat
  let innerCursor := (cursor &&& 0x0000FFFFFFFFFFFF).toNat
  match ss.shards[shardIdx]? with
  | none => ([], 0)
  | some sh =>
    let (keys, nextInner) := sh.idx.scanPrefix pre innerCursor count now
    let nextCursor : UInt64 :=
      if nextInner = 0 then
        let nextShard := shardIdx + 1
        if nextShard ≥ ss.shards.length then 0 else UInt64.ofNat nextShard <<< 48
      else (UInt64.ofNat shardIdx <<< 48) ||| UInt64.ofNat nextInner
    (keys, nextCursor)

/-- Every shard in turn; the number of keys removed. -/
def delPrefixLoop (pre : Bytes) : (is : List Nat) → (total : Nat) → ShardSet →
    Option (Nat × ShardSet)
  | [], total, ss => some (total, ss)
  | i :: is, total, ss => do
    let (n, ss) ← ss.onShard i fun c => c.delPrefix H pre
    delPrefixLoop pre is (total + n) ss

/-- `DeletePrefix` -/
def delPrefix (ss : ShardSet) (pre : Bytes) : Option (Nat × ShardSet) :=
  ss.delPrefixLoop H pre (List.range ss.shards.length) 0

end ShardSet

end Horreum.Transport
