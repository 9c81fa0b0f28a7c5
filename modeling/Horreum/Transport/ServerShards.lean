/-
  Transport/ServerShards.lean --- every shard of the server is a cache by itself.

  The log has the calls on all shards.  Those on one shard, in their order, are a run of that shard
  alone: what the other workers do at the same time has no part in it.  So whatever holds of every
  run of one cache holds of every shard of the running server.
-/
import Horreum.Transport.Responses
import Horreum.Transport.ServerLinear

set_option autoImplicit false

namespace Horreum.Transport

open Foundation
open Proto
open ShardCache (AnyCall)

namespace Server

variable {H : Hashes} {g : Growth} {ss ss' ss₀ : ShardSet} {op : Op} {out : Outcome} {i : Nat}

/-- The call that is made on a shard, if one is: SCAN only reads, and a frame of another shard is
refused. -/
def Op.shardCall (H : Hashes) (ss : ShardSet) : Op → Option (Nat × AnyCall)
  | .frame _ w env fr =>
    if ss.cacheIndexFor H fr.key = w then (Transport.shardCall env fr).map fun c => (w, c) else none
  | .sweep shard now => some (shard, ⟨now, none, true⟩, .inl (.deleteExpired sweepLimit))
  | .clear _ fr shard => some (shard, ⟨0, none, true⟩, .inl (.delPrefix fr.key))

/-- The call on shard `i`, if it is one. -/
def Op.callOn (H : Hashes) (ss : ShardSet) (i : Nat) (op : Op) : Option AnyCall :=
  (op.shardCall H ss).bind fun c => if c.1 = i then some c.2 else none

/-- The calls on shard `i`. -/
def callsOn (H : Hashes) (ss : ShardSet) (i : Nat) (log : List (Op × Outcome)) : List AnyCall :=
  log.filterMap fun e => e.1.callOn H ss i

/-- A call of a worker is a call on a shard, or changes nothing. -/
theorem perform_call (hproper : op.Proper) (h : perform H ss op = some (out, ss')) :
    op.shardCall H ss = none ∧ ss' = ss ∨
      ∃ w c s s', op.shardCall H ss = some (w, c) ∧ ss.cacheAt w = some s ∧ s.step H c = some s' ∧
        ss' = ss.setCache w s' := by
  cases op with
  | frame conn w env fr =>
    obtain ⟨⟨r, t⟩, hans, heq⟩ := Option.map_eq_some_iff.mp h
    cases heq
    unfold ShardSet.answerTo at hans
    by_cases hown : ss.cacheIndexFor H fr.key = w
    · rw [if_neg fun hother => hother.2.2 hown] at hans
      have hcall : Op.shardCall H ss (.frame conn w env fr) =
          (Transport.shardCall env fr).map fun c => (w, c) := if_pos hown
      rw [hcall]
      subst hown
      rcases ShardSet.dispatch_call hproper hans with ⟨hnone, rfl⟩ | ⟨c, s, s', hsome, hs, hstep, rfl⟩
      · exact .inl ⟨by rw [hnone, Option.map_none], rfl⟩
      · exact .inr ⟨_, c, s, s', by rw [hsome, Option.map_some], hs, hstep, rfl⟩
    · refine .inl ⟨if_neg hown, ?_⟩
      split at hans
      · cases hans
        rfl
      · rename_i hscan
        have hop : fr.op = .scan := not_not.mp fun hne => hscan ⟨hne, hproper, hown⟩
        exact ShardSet.readsOnly_eq (ShardSet.readsOnly_scan H env fr hop) hans
  | sweep shard now =>
    obtain ⟨t, hsweep, heq⟩ := Option.map_eq_some_iff.mp h
    cases heq
    obtain ⟨⟨u, t⟩, hon, rfl⟩ := Option.map_eq_some_iff.mp hsweep
    obtain ⟨s, s', hs, hcall, rfl⟩ := ShardSet.onShard_cases hon
    obtain ⟨s₁, hdel, heq⟩ := Option.map_eq_some_iff.mp hcall
    cases heq
    exact .inr ⟨shard, _, s, s', rfl, hs, hdel, rfl⟩
  | clear conn fr shard =>
    obtain ⟨⟨k, t⟩, hon, heq⟩ := Option.map_eq_some_iff.mp h
    cases heq
    obtain ⟨s, s', hs, hdel, rfl⟩ := ShardSet.onShard_cases hon
    have hstep : (s.delPrefix H fr.key).map Prod.snd = some s' := by rw [hdel, Option.map_some]
    exact .inr ⟨shard, _, s, s', rfl, hs, hstep, rfl⟩

theorem shardCall_congr (hlen : ss'.shards.length = ss.shards.length) (op : Op) :
    op.shardCall H ss' = op.shardCall H ss := by
  cases op with
  | frame conn w env fr => rw [Op.shardCall, Op.shardCall, ShardSet.cacheIndexFor_congr hlen]
  | sweep shard now => rfl
  | clear conn fr shard => rfl

/-- Shard `i` of the set, of which the number of shards is known, is this cache. -/
structure Projects (ss₀ : ShardSet) (i : Nat) (ss : ShardSet) (s : ShardCache) : Prop where
  cache : ss.cacheAt i = some s
  length : ss.shards.length = ss₀.shards.length
  arenas : (ss.shards.map Shard.arena).Nodup

/-- One call of a worker, as shard `i` sees it. -/
theorem Projects.step {s : ShardCache} (h : Projects ss₀ i ss s) (hproper : op.Proper)
    (hop : perform H ss op = some (out, ss')) :
    op.callOn H ss₀ i = none ∧ Projects ss₀ i ss' s ∨
      ∃ c s', op.callOn H ss₀ i = some c ∧ s.step H c = some s' ∧ Projects ss₀ i ss' s' := by
  unfold Op.callOn
  rw [← shardCall_congr h.length op]
  rcases perform_call hproper hop with ⟨hnone, rfl⟩ | ⟨w, c, s₁, s', hsome, hs₁, hstep, rfl⟩
  · rw [hnone]
    exact .inl ⟨rfl, h⟩
  · rw [hsome]
    have hchanges : ShardSet.Changes ss (ss.setCache w s') w := .inr ⟨s₁, s', hs₁, rfl⟩
    have hlength := hchanges.length.trans h.length
    have harenas := hchanges.arenas.symm ▸ h.arenas
    by_cases hw : w = i
    · subst hw
      obtain rfl := Option.some.inj (h.cache.symm.trans hs₁)
      exact .inr ⟨c, s', if_pos rfl, hstep, ShardSet.cacheAt_setCache_self hs₁ s', hlength, harenas⟩
    · have hsame := hchanges.same h.arenas (Ne.symm hw)
      exact .inl ⟨if_neg hw, hsame.cache.trans h.cache, hlength, harenas⟩

/-- **Every shard is a cache by itself.**  Whatever the connections and the workers do at the same
time, as long as calls keep apart: the calls on a shard in the order of their ends, made one after
the other on the shard of the start with nothing else around it, lead to the shard that there is. -/
theorem shards_run_alone (H : Hashes) (g : Growth) {ss₀ : ShardSet} {evs : List Event} {s : Server}
    (hnodup : (ss₀.shards.map Shard.arena).Nodup)
    (hrun : run (Server.step H g) (newServer ss₀) evs = some s)
    (hapart : Guarded (Server.step H g) (Apart H g) (newServer ss₀) evs) {i : Nat} {c₀ : ShardCache}
    (hc₀ : ss₀.cacheAt i = some c₀) :
    ∃ c, s.set.cacheAt i = some c ∧
      run (ShardCache.step H) c₀ (callsOn H ss₀ i s.log) = some c := by
  have hlin := linear_of_run hnodup hrun hapart
  have hall : ∀ op ∈ s.log.map Prod.fst, op.Proper := by
    intro op hop
    obtain ⟨e, he, rfl⟩ := List.mem_map.mp hop
    exact hlin.proper e he
  obtain ⟨c, hcalls, hproj⟩ := run_simulates (Op.callOn H ss₀ i) (Projects ss₀ i) (s.log.map Prod.fst)
    (fun op hop ss ss' t hrel hstep => by
      obtain ⟨⟨out, ss₁⟩, hperform, rfl⟩ := Option.map_eq_some_iff.mp hstep
      exact hrel.step (hall op hop) hperform)
    ss₀ s.set c₀ ⟨hc₀, rfl, hnodup⟩ (run_of_answers hlin.serial)
  rw [List.filterMap_map] at hcalls
  exact ⟨c, hproj.cache, hcalls⟩

/-- Two stores at the same time, on two shards: each is the one call on its shard. -/
theorem shards_run_alone_overlapping : ∃ ss₀ s c₀ c, newShardSet 1 2 256 4 .noop .noop = some ss₀ ∧
    run (Server.step Hashes.source .doubling) (newServer ss₀) overlapping = some s ∧
    (callsOn Hashes.source ss₀ 0 s.log).length = 1 ∧ ss₀.cacheAt 0 = some c₀ ∧
    s.set.cacheAt 0 = some c ∧
    run (ShardCache.step Hashes.source) c₀ (callsOn Hashes.source ss₀ 0 s.log) = some c := by
  obtain ⟨ss₀, hnew, hnodup, hapart, ⟨c₀, hc₀⟩, s, hrun, hlen⟩ : ∃ ss₀,
      newShardSet 1 2 256 4 .noop .noop = some ss₀ ∧ (ss₀.shards.map Shard.arena).Nodup ∧
      Guarded (Server.step Hashes.source .doubling) (Apart Hashes.source .doubling) (newServer ss₀)
        overlapping ∧ (∃ c₀, ss₀.cacheAt 0 = some c₀) ∧
      ∃ s, run (Server.step Hashes.source .doubling) (newServer ss₀) overlapping = some s ∧
        (callsOn Hashes.source ss₀ 0 s.log).length = 1 := by
    decide +kernel
  obtain ⟨c, hc, hcalls⟩ := shards_run_alone Hashes.source .doubling hnodup hrun hapart hc₀
  exact ⟨ss₀, s, c₀, c, hnew, hrun, hlen, hc₀, hc, hcalls⟩

end Server

end Horreum.Transport
