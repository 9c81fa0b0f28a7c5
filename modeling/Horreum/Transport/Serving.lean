/-
  Transport/Serving.lean --- the states a set of shards can get into.

  The workers handle frames and sweep expired entries.  Whatever they do, every index stays
  well-formed and every key is in the shard it is routed to.
-/
import Horreum.Transport.Blocks
import Horreum.Transport.Handler

set_option autoImplicit false

namespace Horreum.Transport

open Foundation
open Proto
open Arena (Manager)
open Compress (Compressor)
open Encrypt (Cipher)
open ShardCache (AnyCall)

/-- The call that a frame makes on the shard of its key. -/
def shardCall (env : Env) (fr : Frame) : Option AnyCall :=
  match fr.op with
  | .get => some (env, .inl (.get fr.key))
  | .set => some (env, .inl (.set fr.key fr.value 0))
  | .setEx => (setExArgs fr.value).map fun args => (env, .inl (.set fr.key args.2 args.1))
  | .del => some (env, .inl (.delete fr.key))
  | .cas => (casArgs fr.value).map fun args => (env, .inl (.cas fr.key args.1 args.2))
  | .incr => (incrArgs fr.value).map fun delta => (env, .inl (.incr fr.key delta))
  | .scan => none
  | .delPrefix => none
  | .hSet => (hSetArgs fr.value).map fun args => (env, .inr (.hSet fr.key args.1 args.2))
  | .hGet => some (env, .inr (.hGet fr.key fr.value))
  | .hDel => some (env, .inr (.hDel fr.key fr.value))
  | .hGetAll => some (env, .inr (.hGetAll fr.key))
  | .lPush => some (env, .inr (.lPush fr.key fr.value))
  | .lPop => some (env, .inr (.lPop fr.key))
  | .rPush => some (env, .inr (.rPush fr.key fr.value))
  | .rPop => some (env, .inr (.rPop fr.key))
  | .lLen => some (env, .inr (.lLen fr.key))
  | .sAdd => some (env, .inr (.sAdd fr.key fr.value))
  | .sRem => some (env, .inr (.sRem fr.key fr.value))
  | .sIsMember => some (env, .inr (.sIsMember fr.key fr.value))
  | .sMembers => some (env, .inr (.sMembers fr.key))

/-- One job of a worker. -/
inductive Job where
  | frame (env : Env) (fr : Frame) (writeBuf : Buffer) (workerIdx : Nat)
  /-- `DeleteExpired` on one shard, from the clean-up loop. -/
  | sweep (shard : Nat) (now : UInt32) (limit : Int)

/-- The shards after a job. -/
def ShardSet.serve (H : Hashes) (ss : ShardSet) : Job → Option ShardSet
  | .frame env fr writeBuf workerIdx =>
    (ss.handleFrame H env fr writeBuf workerIdx).map fun (_, _, ss) => ss
  | .sweep shard now limit =>
    (ss.onShard shard fun c => (c.deleteExpired H now limit).map fun c => ((), c)).map Prod.snd

/-- A set as `NewShardSet` makes it, or `NewShardSetFromArena` on an arena of which `P` holds. -/
def ShardSet.MadeOn (P : Manager → Prop) (ss : ShardSet) : Prop :=
  (∃ numCPU numShards regionSize evictCapacity comp cipher,
    newShardSet numCPU numShards regionSize evictCapacity comp cipher = some ss) ∨
  ∃ mgr numShards evictCap comp cipher, P mgr ∧
    newShardSetFromArena mgr numShards evictCap comp cipher = some ss

/-- A set as one of its two constructors makes it. -/
def ShardSet.Fresh (ss : ShardSet) : Prop := ss.MadeOn fun _ => True

/-- Every shard has an arena, every index is well-formed, and every key is where it is routed
to. -/
structure ShardSet.Sound (H : Hashes) (ss : ShardSet) : Prop where
  backed : ∀ (i : Nat) (sh : Shard), ss.shards[i]? = some sh → sh.arena < ss.arenas.length
  wf : ∀ (i : Nat) (sh : Shard), ss.shards[i]? = some sh → sh.idx.Wf H.hashKey
  routed : ∀ (i : Nat) (sh : Shard) (k : Bytes) (e : Entry), ss.shards[i]? = some sh →
    sh.idx.lookup k = some e → ss.cacheIndexFor H k = i

namespace ShardSet

variable {H : Hashes} {ss ss' : ShardSet} {env : Env} {fr : Frame} {α : Type}
  {call : ShardCache → Option (α × ShardCache)} {i : Nat} {c : ShardCache} {r : Reply} {a : α}

theorem cacheAt_eq_some (h : ss.cacheAt i = some c) :
    ∃ sh, ss.shards[i]? = some sh ∧ ss.arenas[sh.arena]? = some c.mgr ∧ sh.ev = c.ev ∧
      sh.idx = c.idx ∧ sh.comp = c.comp ∧ sh.cipher = c.cipher := by
  obtain ⟨sh, hsh, h⟩ := Option.bind_eq_some_iff.mp h
  obtain ⟨mgr, hmgr, h⟩ := Option.bind_eq_some_iff.mp h
  cases h
  exact ⟨sh, hsh, hmgr, rfl, rfl, rfl, rfl⟩

@[simp] theorem length_setCache (ss : ShardSet) (i : Nat) (c : ShardCache) :
    (ss.setCache i c).shards.length = ss.shards.length := by
  unfold setCache
  split
  · rfl
  · exact List.length_set

theorem cacheIndexFor_congr (h : ss'.shards.length = ss.shards.length) (key : Bytes) :
    ss'.cacheIndexFor H key = ss.cacheIndexFor H key := by
  rw [cacheIndexFor, cacheIndexFor, h]

theorem shards_setCache {sh : Shard} (hi : ss.shards[i]? = some sh) (j : Nat) :
    (ss.setCache i c).shards[j]? =
      if j = i then some ⟨sh.arena, c.ev, c.idx, c.comp, c.cipher⟩ else ss.shards[j]? := by
  have hlt : i < ss.shards.length := (List.getElem?_eq_some_iff.mp hi).1
  simp only [setCache, hi, List.getElem?_set, hlt, if_true]
  by_cases hji : j = i
  · simp [hji]
  · simp [hji, Ne.symm hji]

theorem arenas_setCache {sh : Shard} (hi : ss.shards[i]? = some sh) :
    (ss.setCache i c).arenas = ss.arenas.set sh.arena c.mgr := by
  simp only [setCache, hi]

/-- A call whose key, if it has one, belongs to the shard. -/
theorem Sound.setCache (h : ss.Sound H) {c c' : ShardCache} {key : Option Bytes}
    (hc : ss.cacheAt i = some c) (hext : Extends H key c c')
    (hkey : ∀ k, some k = key → ss.cacheIndexFor H k = i) : (ss.setCache i c').Sound H := by
  obtain ⟨sh, hsh, _, _, hidx, _⟩ := cacheAt_eq_some hc
  refine ⟨fun j sh' hj => ?_, fun j sh' hj => ?_, fun j sh' k e hj he => ?_⟩
  · rw [arenas_setCache hsh, List.length_set]
    rw [shards_setCache hsh] at hj
    split at hj
    · cases hj
      exact h.backed i sh hsh
    · exact h.backed j sh' hj
  · rw [shards_setCache hsh] at hj
    split at hj
    · cases hj
      exact hext.wf
    · exact h.wf j sh' hj
  · rw [cacheIndexFor_congr (length_setCache ss i c')]
    rw [shards_setCache hsh] at hj
    split at hj
    · rename_i hji
      cases hj
      rw [hji]
      rcases hext.old k e he with hk | he
      · exact hkey k hk
      · exact h.routed i sh k e hsh (hidx ▸ he)
    · exact h.routed j sh' k e hj he

theorem onShard_cases (h : ss.onShard i call = some (a, ss')) :
    ∃ c c', ss.cacheAt i = some c ∧ call c = some (a, c') ∧ ss' = ss.setCache i c' := by
  obtain ⟨c, hc, h⟩ := Option.bind_eq_some_iff.mp h
  obtain ⟨⟨a', c'⟩, hcall, h⟩ := Option.bind_eq_some_iff.mp h
  cases h
  exact ⟨c, c', hc, hcall, rfl⟩

theorem onShard_of_call {c c' : ShardCache} (hc : ss.cacheAt i = some c)
    (hcall : call c = some (a, c')) :
    ss.onShard i call = some (a, ss.setCache i c') := by
  simp [onShard, hc, hcall]

/-! ## What a frame can do -/

/-- The frame leaves every set as it is. -/
def ReadsOnly (H : Hashes) (env : Env) (fr : Frame) : Prop :=
  ∀ ss : ShardSet, ∃ reply, ss.dispatch H env fr = some (reply, ss)

theorem readsOnly_scan (H : Hashes) (env : Env) (fr : Frame) (hop : fr.op = .scan) :
    ReadsOnly H env fr := by
  intro ss
  unfold dispatch
  rw [hop]
  unfold handleScan
  cases scanArgs fr.value with
  | none => exact ⟨_, rfl⟩
  | some args => exact ⟨_, rfl⟩

/-- The frame is this call on the shard of its key, for every set. -/
def Makes (H : Hashes) (env : Env) (fr : Frame) (c : AnyCall) : Prop :=
  ∃ (α : Type) (call : ShardCache → Option (α × ShardCache)) (reply : α → Reply),
    (∀ ss : ShardSet, ss.dispatch H env fr = ss.answer H fr.key call reply) ∧
    (∀ s, (call s).map Prod.snd = s.step H c) ∧
    ∀ s a s', s.idx.Wf H.hashKey → call s = some (a, s') → Extends H (some fr.key) s s'

open ShardCache in
/-- A frame about one key is a call on the shard of the key, or it is refused for its arguments. -/
theorem dispatch_shardCall (H : Hashes) (env : Env) (fr : Frame) (hscan : fr.op ≠ .scan)
    (hop : fr.op ≠ .delPrefix) :
    match shardCall env fr with
    | none => ∀ ss : ShardSet, ss.dispatch H env fr = some (.failed, ss)
    | some c => Makes H env fr c := by
  unfold shardCall Makes dispatch
  cases hcase : fr.op with
  | scan => exact absurd hcase hscan
  | delPrefix => exact absurd hcase hop
  | get => exact ⟨_, _, _, fun _ => rfl, fun _ => rfl, fun _ _ _ hwf hc => get_extends hwf hc _⟩
  | set => exact ⟨_, _, _, fun _ => rfl, fun _ => rfl, fun _ _ _ hwf hc => set_extends hwf hc⟩
  | del => exact ⟨_, _, _, fun _ => rfl, fun _ => rfl, fun _ _ _ hwf hc => delete_extends hwf hc _⟩
  | setEx =>
    unfold handleSetEx
    cases setExArgs fr.value with
    | none => exact fun _ => rfl
    | some args =>
      exact ⟨_, _, _, fun _ => rfl, fun _ => rfl, fun _ _ _ hwf hc => set_extends hwf hc⟩
  | cas =>
    unfold handleCAS
    cases casArgs fr.value with
    | none => exact fun _ => rfl
    | some args =>
      exact ⟨_, _, _, fun _ => rfl, fun _ => rfl, fun _ _ _ hwf hc => cas_extends hwf hc⟩
  | incr =>
    unfold handleIncr
    cases incrArgs fr.value with
    | none => exact fun _ => rfl
    | some args =>
      exact ⟨_, _, _, fun _ => rfl, fun _ => rfl, fun _ _ _ hwf hc => incr_extends hwf hc⟩
  | hSet =>
    unfold handleHSet
    cases hSetArgs fr.value with
    | none => exact fun _ => rfl
    | some args =>
      exact ⟨_, _, _, fun _ => rfl, fun _ => rfl, fun _ _ _ hwf hc => update_extends hwf hc⟩
  | lPop | rPop =>
    exact ⟨_, _, _, fun _ => rfl, fun _ => rfl, fun _ _ _ hwf hc => popWith_extends hwf hc⟩
  | hGet | hDel | hGetAll | lPush | rPush | lLen | sAdd | sRem | sIsMember | sMembers =>
    exact ⟨_, _, _, fun _ => rfl, fun _ => rfl, fun _ _ _ hwf hc => update_extends hwf hc⟩

theorem dispatch_cases (H : Hashes) (env : Env) (fr : Frame) (hop : fr.op ≠ .delPrefix) :
    shardCall env fr = none ∧ ReadsOnly H env fr ∨
      ∃ c, shardCall env fr = some c ∧ Makes H env fr c := by
  by_cases hscan : fr.op = .scan
  · exact .inl ⟨by simp only [shardCall, hscan], readsOnly_scan H env fr hscan⟩
  · have hshape := dispatch_shardCall H env fr hscan hop
    cases hcall : shardCall env fr with
    | none =>
      rw [hcall] at hshape
      exact .inl ⟨rfl, fun ss => ⟨_, hshape ss⟩⟩
    | some c =>
      rw [hcall] at hshape
      exact .inr ⟨c, rfl, hshape⟩

theorem answer_cases {key : Bytes} {reply : α → Reply}
    (h : ss.answer H key call reply = some (r, ss')) :
    ∃ a c c', ss.cacheAt (ss.cacheIndexFor H key) = some c ∧ call c = some (a, c') ∧
      r = reply a ∧ ss' = ss.setCache (ss.cacheIndexFor H key) c' := by
  obtain ⟨⟨a, t⟩, hon, h⟩ := Option.map_eq_some_iff.mp h
  cases h
  obtain ⟨c, c', hc, hcall, hset⟩ := onShard_cases hon
  exact ⟨a, c, c', hc, hcall, rfl, hset⟩

theorem readsOnly_eq {env : Env} {fr : Frame} (h : ReadsOnly H env fr)
    (hd : ss.dispatch H env fr = some (r, ss')) : ss' = ss := by
  obtain ⟨r', hr'⟩ := h ss
  cases hr'.symm.trans hd
  rfl

/-- A frame that its worker takes is the call on the shard of its key, or changes nothing. -/
theorem dispatch_call {env : Env} {fr : Frame} (hop : fr.op ≠ .delPrefix)
    (hd : ss.dispatch H env fr = some (r, ss')) :
    shardCall env fr = none ∧ ss' = ss ∨
      ∃ c s s', shardCall env fr = some c ∧
        ss.cacheAt (ss.cacheIndexFor H fr.key) = some s ∧ s.step H c = some s' ∧
        ss' = ss.setCache (ss.cacheIndexFor H fr.key) s' := by
  rcases dispatch_cases H env fr hop with
    ⟨hcall, hread⟩ | ⟨c, hcall, α, call, reply, heq, hstep, _⟩
  · exact .inl ⟨hcall, readsOnly_eq hread hd⟩
  · rw [heq] at hd
    obtain ⟨a, s, s', hs, hret, _, rfl⟩ := answer_cases hd
    refine .inr ⟨c, s, s', hcall, hs, ?_, rfl⟩
    rw [← hstep, hret, Option.map_some]

/-! ## The invariant -/

theorem Sound.wf_cache (hs : ss.Sound H) (hc : ss.cacheAt i = some c) : c.idx.Wf H.hashKey := by
  obtain ⟨sh, hsh, _, _, hidx, _⟩ := cacheAt_eq_some hc
  exact hidx ▸ hs.wf i sh hsh

/-- A call that stores nothing new. -/
theorem Sound.onShard (hs : ss.Sound H)
    (hcall : ∀ c c', c.idx.Wf H.hashKey → call c = some (a, c') → Extends H none c c')
    (h : ss.onShard i call = some (a, ss')) : ss'.Sound H := by
  obtain ⟨c, c', hc, hc', rfl⟩ := onShard_cases h
  exact hs.setCache hc (hcall c c' (hs.wf_cache hc) hc') fun _ hk => absurd hk (by simp)

theorem Sound.delPrefixLoop {pre : Bytes} : ∀ {is : List Nat} {total n : Nat} {ss : ShardSet},
    ss.Sound H → ss.delPrefixLoop H pre is total = some (n, ss') → ss'.Sound H
  | [], _, _, _, hs, h => by
    cases h
    exact hs
  | i :: is, total, n, ss, hs, h => by
    obtain ⟨⟨k, t⟩, hon, h⟩ := Option.bind_eq_some_iff.mp h
    have ht := hs.onShard (fun _ _ hwf hc => ShardCache.delPrefix_extends hwf hc none) hon
    exact ht.delPrefixLoop h

theorem Sound.dispatch (hs : ss.Sound H)
    (h : ss.dispatch H env fr = some (r, ss')) : ss'.Sound H := by
  by_cases hop : fr.op = .delPrefix
  · simp only [ShardSet.dispatch, hop, handleDelPrefix] at h
    obtain ⟨⟨n, t⟩, hdel, h⟩ := Option.map_eq_some_iff.mp h
    cases h
    exact hs.delPrefixLoop hdel
  · rcases dispatch_cases H env fr hop with ⟨_, hread⟩ | ⟨_, _, α, call, reply, heq, _, hext⟩
    · obtain ⟨r', hr⟩ := hread ss
      rw [hr] at h
      cases h
      exact hs
    · rw [heq] at h
      obtain ⟨a, c, c', hc, hcall, _, rfl⟩ := answer_cases h
      refine hs.setCache hc (hext c a c' (hs.wf_cache hc) hcall) fun k hk => ?_
      rw [Option.some.inj hk]

/-- The frame passes the routing check of worker `w`. -/
def Accepts (H : Hashes) (ss : ShardSet) (fr : Frame) (w : Nat) : Prop :=
  fr.op = .scan ∨ fr.op = .delPrefix ∨ ss.cacheIndexFor H fr.key = w

theorem handleFrame_cases {writeBuf buf : Buffer} {w : Nat} {goOn : Bool}
    (h : ss.handleFrame H env fr writeBuf w = some (goOn, buf, ss')) :
    ¬ ss.Accepts H fr w ∧ ss' = ss ∨
      ss.Accepts H fr w ∧ ∃ r, ss.dispatch H env fr = some (r, ss') := by
  unfold handleFrame at h
  unfold Accepts
  split at h
  · rename_i hother
    cases h
    exact .inl ⟨by tauto, rfl⟩
  · rename_i hroute
    obtain ⟨⟨r, t⟩, hd, h⟩ := Option.map_eq_some_iff.mp h
    cases h
    exact .inr ⟨by tauto, r, hd⟩

theorem Sound.serve {job : Job} (hs : ss.Sound H) (h : ss.serve H job = some ss') :
    ss'.Sound H := by
  cases job with
  | frame env fr writeBuf w =>
    obtain ⟨⟨goOn, buf, t⟩, hframe, h⟩ := Option.map_eq_some_iff.mp h
    cases h
    rcases handleFrame_cases hframe with ⟨_, rfl⟩ | ⟨_, r, hd⟩
    · exact hs
    · exact hs.dispatch hd
  | sweep shard now limit =>
    obtain ⟨⟨_, t⟩, hon, h⟩ := Option.map_eq_some_iff.mp h
    cases h
    refine hs.onShard (fun c c' hwf hc => ?_) hon
    obtain ⟨c₁, hdel, hc⟩ := Option.map_eq_some_iff.mp hc
    cases hc
    exact ShardCache.deleteExpired_extends hwf hdel none

theorem sound_of_empty (h : ∀ (i : Nat) (sh : Shard), ss.shards[i]? = some sh →
    sh.arena < ss.arenas.length ∧ sh.idx = newShardIndex) : ss.Sound H := by
  refine ⟨fun i sh hi => (h i sh hi).1, fun i sh hi => ?_, fun i sh k e hi he => ?_⟩
  · rw [(h i sh hi).2]
    exact ShardIndex.wf_new
  · rw [(h i sh hi).2] at he
    cases (ShardIndex.lookup_blank k).symm.trans he

theorem Fresh.sound (h : ss.Fresh) : ss.Sound H := by
  refine sound_of_empty fun i sh hi => ?_
  rcases h with ⟨numCPU, numShards, regionSize, evictCapacity, comp, cipher, hnew⟩ |
    ⟨mgr, numShards, evictCap, comp, cipher, _, hnew⟩
  · obtain ⟨c, hc, hnew⟩ := Option.bind_eq_some_iff.mp hnew
    cases hnew
    obtain ⟨ev, _, hc⟩ := Option.bind_eq_some_iff.mp hc
    cases hc
    obtain ⟨j, hj, rfl⟩ := List.mem_map.mp (List.mem_of_getElem? hi)
    exact ⟨by rw [List.length_replicate]; exact List.mem_range.mp hj, rfl⟩
  · obtain ⟨ev, _, hnew⟩ := Option.bind_eq_some_iff.mp hnew
    cases hnew
    rw [List.eq_of_mem_replicate (List.mem_of_getElem? hi)]
    exact ⟨Nat.zero_lt_one, rfl⟩

/-- Whatever the workers have done, in any order. -/
theorem sound_of_run {ss₀ : ShardSet} {jobs : List Job} (hfresh : ss₀.Fresh)
    (hrun : run (serve H) ss₀ jobs = some ss) : ss.Sound H :=
  run_keeps (Sound H) (fun _ _ _ hs h => hs.serve h) jobs ss₀ ss hfresh.sound hrun

end ShardSet

end Horreum.Transport
