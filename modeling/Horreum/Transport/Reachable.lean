/-
  Transport/Reachable.lean --- the states a shard can get into.

  A shard is made as part of a set, with an arena of its own or with one that all shards of the
  set work on.  Any calls may then be made on the shards, in any order; those on the other
  shards of a shared arena change this one's blocks too.  Every state that is reached is `Safe`.
-/
import Horreum.Transport.Safety
import Horreum.Transport.Serving

set_option autoImplicit false

namespace Horreum.Transport

open Foundation
open Arena (Manager)
open S3Fifo (Eviction)
open Compress (Compressor)
open Encrypt (Cipher)
open ShardCache (Progress AnyCall)

namespace ShardSet

variable {H : Hashes} {ss ss' : ShardSet} {i : Nat} {c : ShardCache}

/-- Any call on any shard. -/
def call (H : Hashes) (ss : ShardSet) (c : Nat × AnyCall) : Option ShardSet :=
  (ss.onShard c.1 fun s => (s.step H c.2).map fun s => ((), s)).map Prod.snd

/-- Made with an arena in working order. -/
def Built (ss : ShardSet) : Prop := ss.MadeOn Manager.Bounded

theorem Built.fresh (h : ss.Built) : ss.Fresh :=
  h.imp_right fun ⟨mgr, numShards, evictCap, comp, cipher, _, hnew⟩ =>
    ⟨mgr, numShards, evictCap, comp, cipher, trivial, hnew⟩

/-- Every shard is there and safe. -/
def Safe (H : Hashes) (ss : ShardSet) : Prop :=
  ∀ i, i < ss.shards.length → ∃ c, ss.cacheAt i = some c ∧ c.Safe H

theorem lt_of_cacheAt (h : ss.cacheAt i = some c) : i < ss.shards.length := by
  obtain ⟨sh, hsh, _⟩ := cacheAt_eq_some h
  exact (List.getElem?_eq_some_iff.mp hsh).1

theorem Safe.cache (h : ss.Safe H) (hc : ss.cacheAt i = some c) : c.Safe H := by
  obtain ⟨c', hc', hsafe⟩ := h i (lt_of_cacheAt hc)
  cases hc.symm.trans hc'
  exact hsafe

theorem cacheAt_setCache_self (h : ss.cacheAt i = some c) (c' : ShardCache) :
    (ss.setCache i c').cacheAt i = some c' := by
  obtain ⟨sh, hsh, hmgr, _⟩ := cacheAt_eq_some h
  have hlt := (List.getElem?_eq_some_iff.mp hmgr).1
  simp [cacheAt, shards_setCache hsh, arenas_setCache hsh, hlt]

/-- Another shard sees the new arena if it works on the same one. -/
theorem cacheAt_setCache_other {c d : ShardCache} {j : Nat} (h : ss.cacheAt i = some c)
    (hd : ss.cacheAt j = some d) (hj : j ≠ i) (c' : ShardCache) :
    (ss.setCache i c').cacheAt j = some d ∨
      d.mgr = c.mgr ∧ (ss.setCache i c').cacheAt j = some { d with mgr := c'.mgr } := by
  obtain ⟨sh, hsh, hmgr, _⟩ := cacheAt_eq_some h
  obtain ⟨sh', hsh', hmgr', hev, hidx, hcomp, hcipher⟩ := cacheAt_eq_some hd
  have hlt := (List.getElem?_eq_some_iff.mp hmgr).1
  simp only [cacheAt, shards_setCache hsh, if_neg hj, hsh', arenas_setCache hsh,
    Option.bind_eq_bind, Option.bind_some, hev, hidx, hcomp, hcipher]
  by_cases harena : sh'.arena = sh.arena
  · refine .inr ⟨?_, ?_⟩
    · rw [harena, hmgr] at hmgr'
      exact (Option.some.inj hmgr').symm
    · rw [harena, List.getElem?_set_self hlt]
      rfl
  · left
    rw [List.getElem?_set_ne (Ne.symm harena), hmgr']
    rfl

/-- A call that makes progress on one shard keeps all of them safe. -/
theorem Safe.setCache (h : ss.Safe H) {c c' : ShardCache} (hc : ss.cacheAt i = some c)
    (hp : Progress H c c') : (ss.setCache i c').Safe H := by
  intro j hj
  rw [length_setCache] at hj
  by_cases hji : j = i
  · rw [hji]
    exact ⟨c', cacheAt_setCache_self hc c', hp.safe⟩
  · obtain ⟨d, hd, hsafe⟩ := h j hj
    rcases cacheAt_setCache_other hc hd hji c' with heq | ⟨hmgr, heq⟩
    · exact ⟨d, heq, hsafe⟩
    · exact ⟨_, heq, (hsafe.with_mgr hp.safe.arena (hmgr ▸ hp.grows)).safe⟩

theorem Safe.call {c : Nat × AnyCall} (h : ss.Safe H) (hcall : ss.call H c = some ss') :
    ss'.Safe H := by
  obtain ⟨⟨_, t⟩, hon, rfl⟩ := Option.map_eq_some_iff.mp hcall
  obtain ⟨s, s', hs, hstep, rfl⟩ := onShard_cases hon
  obtain ⟨s₁, hstep, heq⟩ := Option.map_eq_some_iff.mp hstep
  cases heq
  rcases (h.cache hs).step c.2 with ⟨_, hnone⟩ | ⟨_, s₂, hsome, hprog⟩
  · cases hnone.symm.trans hstep
  · cases hsome.symm.trans hstep
    exact h.setCache hs hprog

end ShardSet

namespace ShardCache

variable {H : Hashes} {s s' : ShardCache}

theorem safe_new {mgr : Manager} {capacity : Nat} {ev : Eviction} (hm : mgr.Bounded)
    (hev : S3Fifo.new capacity = some ev) (comp : Compressor) (cipher : Cipher) :
    Safe H ⟨mgr, ev, newShardIndex, comp, cipher⟩ := by
  refine ⟨ShardIndex.wf_new, hm, ?_, Eviction.holds_new hev⟩
  rintro g ⟨k, e, hk, _⟩
  cases (ShardIndex.lookup_blank k).symm.trans hk

theorem safe_newShardCache {regionSize evictCapacity : Nat} {comp : Compressor} {cipher : Cipher}
    (h : newShardCache regionSize evictCapacity comp cipher = some s) : Safe H s := by
  obtain ⟨ev, hev, h⟩ := Option.bind_eq_some_iff.mp h
  cases h
  exact safe_new (Manager.bounded_newManager _) hev comp cipher

end ShardCache

theorem ShardSet.Built.safe {H : Hashes} {ss : ShardSet} (h : ss.Built) : ss.Safe H := by
  intro i hi
  rcases h with ⟨numCPU, numShards, regionSize, evictCapacity, comp, cipher, hnew⟩ |
    ⟨mgr, numShards, evictCap, comp, cipher, hm, hnew⟩
  · obtain ⟨c, hc, hnew⟩ := Option.bind_eq_some_iff.mp hnew
    cases hnew
    simp only [List.length_map, List.length_range] at hi
    refine ⟨c, ?_, ShardCache.safe_newShardCache hc⟩
    simp only [ShardSet.cacheAt, List.getElem?_map, List.getElem?_range hi, Option.map_some,
      Option.bind_eq_bind, Option.bind_some, List.getElem?_replicate, if_pos hi]
  · obtain ⟨ev, hev, hnew⟩ := Option.bind_eq_some_iff.mp hnew
    cases hnew
    simp only [List.length_replicate] at hi
    refine ⟨⟨mgr, ev, newShardIndex, comp, cipher⟩, ?_, ShardCache.safe_new hm hev comp cipher⟩
    simp only [ShardSet.cacheAt, List.getElem?_replicate, if_pos hi, Option.bind_eq_bind,
      Option.bind_some, List.getElem?_cons_zero]

namespace ShardCache

variable {H : Hashes} {s s' : ShardCache} {regionSize evictCapacity : Nat}

/-- A shard of a set on which calls have been made. -/
def Reachable (H : Hashes) (s : ShardCache) : Prop :=
  ∃ ss₀ ss calls i, ShardSet.Built ss₀ ∧ run (ShardSet.call H) ss₀ calls = some ss ∧
    ss.cacheAt i = some s

theorem Reachable.safe (h : Reachable H s) : Safe H s := by
  obtain ⟨ss₀, ss, calls, i, hbuilt, hrun, hs⟩ := h
  have hsafe := run_keeps (ShardSet.Safe H) (fun _ _ _ hss hcall => hss.call hcall) calls ss₀ ss
    hbuilt.safe hrun
  exact hsafe.cache hs

theorem newShardSet_one {comp : Compressor} {cipher : Cipher}
    (h : newShardCache regionSize evictCapacity comp cipher = some s) :
    newShardSet 1 1 regionSize evictCapacity comp cipher =
      some ⟨[s.mgr], [⟨0, s.ev, s.idx, s.comp, s.cipher⟩]⟩ := by
  simp [newShardSet, h, List.range_succ]

/-- A shard that is not part of a set is like the only one of a set. -/
theorem reachable_new {comp : Compressor} {cipher : Cipher}
    (h : newShardCache regionSize evictCapacity comp cipher = some s) : Reachable H s :=
  ⟨_, _, [], 0, .inl ⟨1, 1, regionSize, evictCapacity, comp, cipher, newShardSet_one h⟩, rfl, rfl⟩

theorem Reachable.step {call : AnyCall} (h : Reachable H s) (hstep : s.step H call = some s') :
    Reachable H s' := by
  obtain ⟨ss₀, ss, calls, i, hbuilt, hrun, hs⟩ := h
  refine ⟨ss₀, ss.setCache i s', calls ++ [(i, call)], i, hbuilt, ?_,
    ShardSet.cacheAt_setCache_self hs s'⟩
  rw [run_append, hrun]
  simp [run, ShardSet.call, ShardSet.onShard, hs, hstep]

theorem Reachable.run {calls : List AnyCall} (h : Reachable H s)
    (hrun : run (ShardCache.step H) s calls = some s') : Reachable H s' :=
  run_keeps (Reachable H) (fun _ _ _ hr hstep => hr.step hstep) calls s s' h hrun

theorem reachable_stateAfter {calls : List AnyCall}
    (h : stateAfter regionSize evictCapacity calls = some s) : Reachable Hashes.source s := by
  obtain ⟨s₀, hnew, hrun⟩ := Option.bind_eq_some_iff.mp h
  exact (reachable_new hnew).run hrun

end ShardCache

end Horreum.Transport
