/-
  Transport/Confinement.lean --- which shards a frame can change.

  Worker `w` is to change shard `w` only.  Two things break that.  DELPREFIX is exempt from the
  routing check and goes through all shards.  And shards made by `NewShardSetFromArena` have one
  arena, so that whatever changes it for one shard changes it for all.
-/
import Horreum.Transport.Responses
import Horreum.Transport.Restores

set_option autoImplicit false

namespace Horreum.Transport

open Foundation
open Foundation.Probing (cell)
open Proto
open ShardCache (AnyCall)

variable {c c' : ShardCache} {pre : Bytes}

theorem ShardCache.delPrefix_clears {H : Hashes} {n : Nat} (hwf : c.idx.Wf H.hashKey)
    (h : c.delPrefix H pre = some (n, c')) {k : Bytes}
    (hk : pre <+: k) : c'.idx.lookup k = none := by
  obtain ⟨⟨freed, deletedKeys, idx⟩, hdel, h⟩ := Option.bind_eq_some_iff.mp h
  obtain ⟨es, t, ht, _, _, hnone⟩ := hwf.deletePrefix pre
  rw [hdel] at ht
  cases ht
  cases h
  exact hnone k hk

namespace ShardSet

variable {H : Hashes} {ss ss' : ShardSet} {env : Env} {fr : Frame} {w i : Nat}

/-! ## The condition -/

/-- No shard but `w` has a key with the prefix. -/
def OnlyAt (ss : ShardSet) (pre : Bytes) (w : Nat) : Prop :=
  ∀ (i : Nat) (sh : Shard), i ≠ w → ss.shards[i]? = some sh →
    ∀ j e, cell sh.idx.slots j = some e → ¬ pre <+: e.key

/-- Another shard works on the arena of shard `w`. -/
def Shares (ss : ShardSet) (w : Nat) : Prop :=
  ∃ (i : Nat) (sh own : Shard), i ≠ w ∧ ss.shards[i]? = some sh ∧ ss.shards[w]? = some own ∧
    sh.arena = own.arena

/-- The call that a frame makes on a shard. -/
def frameCall (env : Env) (fr : Frame) : Option AnyCall :=
  if fr.op = .delPrefix then some (env, .inl (.delPrefix fr.key)) else shardCall env fr

/-- The frame leaves the arena of shard `w` as it is, by what is in the shard before it. -/
def SparesArena (H : Hashes) (ss : ShardSet) (env : Env) (fr : Frame) (w : Nat) : Prop :=
  ∀ c call, ss.cacheAt w = some c → frameCall env fr = some call → c.SparesArena H call

/-! ## One call on one shard -/

theorem Sound.exists_cacheAt (hs : ss.Sound H) {sh : Shard} (hi : ss.shards[i]? = some sh) :
    ∃ c, ss.cacheAt i = some c ∧ c.idx = sh.idx := by
  have hlt := hs.backed i sh hi
  refine ⟨⟨ss.arenas[sh.arena], sh.ev, sh.idx, sh.comp, sh.cipher⟩, ?_, rfl⟩
  simp [cacheAt, hi, List.getElem?_eq_getElem hlt]

theorem setCache_cacheAt {c : ShardCache} (hc : ss.cacheAt i = some c) : ss.setCache i c = ss := by
  obtain ⟨sh, hsh, hmgr, hev, hidx, hcomp, hcipher⟩ := cacheAt_eq_some hc
  obtain ⟨hi, hget⟩ := List.getElem?_eq_some_iff.mp hsh
  obtain ⟨ha, hmgr⟩ := List.getElem?_eq_some_iff.mp hmgr
  have hshard : (⟨sh.arena, c.ev, c.idx, c.comp, c.cipher⟩ : Shard) = ss.shards[i] := by
    rw [hget, ← hev, ← hidx, ← hcomp, ← hcipher]
  simp only [setCache, hsh, ← hmgr, hshard, List.set_getElem_self]

/-- The other shards see a call through the arena at most. -/
theorem cacheAt_setCache_of_ne {own sh : Shard} (hc : ss.cacheAt w = some c)
    (hw : ss.shards[w]? = some own) (hi : ss.shards[i]? = some sh)
    (hne : i ≠ w) :
    (ss.setCache w c').cacheAt i =
      if sh.arena = own.arena then some ⟨c'.mgr, sh.ev, sh.idx, sh.comp, sh.cipher⟩
      else ss.cacheAt i := by
  obtain ⟨own', hw', hmgr, _⟩ := cacheAt_eq_some hc
  obtain rfl : own = own' := Option.some.inj (hw.symm.trans hw')
  have hlt : own.arena < ss.arenas.length := (List.getElem?_eq_some_iff.mp hmgr).1
  simp only [cacheAt, shards_setCache hw, if_neg hne, hi, arenas_setCache hw, List.getElem?_set]
  by_cases hsame : sh.arena = own.arena
  · simp [hsame, hlt]
  · simp [hsame, Ne.symm hsame]

theorem others_setCache (hc : ss.cacheAt w = some c) :
    (∀ i, i ≠ w → (ss.setCache w c').cacheAt i = ss.cacheAt i) ↔
      (ss.Shares w → c'.mgr = c.mgr) := by
  obtain ⟨own, hw, hmgr, _⟩ := cacheAt_eq_some hc
  constructor
  · rintro hsame ⟨i, sh, own', hne, hi, hw', harena⟩
    obtain rfl : own = own' := Option.some.inj (hw.symm.trans hw')
    have hview := hsame i hne
    rw [cacheAt_setCache_of_ne hc hw hi hne, if_pos harena] at hview
    obtain ⟨sh', hi', hmgr', _⟩ := cacheAt_eq_some hview.symm
    obtain rfl : sh = sh' := Option.some.inj (hi.symm.trans hi')
    rw [harena, hmgr] at hmgr'
    exact (Option.some.inj hmgr').symm
  · intro hkeep i hne
    cases hi : ss.shards[i]? with
    | none => simp [cacheAt, shards_setCache hw, hne, hi]
    | some sh =>
      rw [cacheAt_setCache_of_ne hc hw hi hne]
      split
      · rename_i harena
        rw [hkeep ⟨i, sh, own, hne, hi, hw, harena⟩]
        simp [cacheAt, hi, harena, hmgr]
      · rfl

/-! ## DELPREFIX -/

theorem OnlyAt.setCache (h : ss.OnlyAt pre w) (hc : ss.cacheAt w = some c) :
    (ss.setCache w c').OnlyAt pre w := by
  obtain ⟨own, hw, _⟩ := cacheAt_eq_some hc
  intro i sh hne hi
  rw [shards_setCache hw, if_neg hne] at hi
  exact h i sh hne hi

/-- Where only shard `w` has such keys, the loop is a call on shard `w`. -/
theorem delPrefixLoop_onlyAt : ∀ (is : List Nat) {total n : Nat} {ss : ShardSet},
    ss.OnlyAt pre w → is.Nodup → ss.delPrefixLoop H pre is total = some (n, ss') →
    w ∉ is ∧ ss' = ss ∨
      w ∈ is ∧ ∃ c c' m, ss.cacheAt w = some c ∧ c.delPrefix H pre = some (m, c') ∧
        ss' = ss.setCache w c'
  | [], _, _, _, _, _, h => by
    cases h
    exact .inl ⟨List.not_mem_nil, rfl⟩
  | i :: is, total, n, ss, honly, hnodup, h => by
    obtain ⟨⟨m, t⟩, hon, h⟩ := Option.bind_eq_some_iff.mp h
    obtain ⟨c, c', hc, hcall, rfl⟩ := onShard_cases hon
    obtain ⟨hnot, hnodup⟩ := List.nodup_cons.mp hnodup
    by_cases hiw : i = w
    · rw [hiw] at hc hnot h ⊢
      rcases delPrefixLoop_onlyAt is (honly.setCache hc) hnodup h with ⟨_, rfl⟩ | ⟨hin, _⟩
      · exact .inr ⟨List.mem_cons_self, c, c', m, hc, hcall, rfl⟩
      · exact absurd hin hnot
    · obtain ⟨sh, hsh, _, _, hidx, _⟩ := cacheAt_eq_some hc
      have hnone : ∀ j e, cell c.idx.slots j = some e → ¬ pre <+: e.key :=
        hidx ▸ honly i sh hiw hsh
      rw [ShardCache.delPrefix_of_none hnone] at hcall
      cases hcall
      rw [setCache_cacheAt hc] at h
      rcases delPrefixLoop_onlyAt is honly hnodup h with ⟨hnotin, heq⟩ | ⟨hin, hcall⟩
      · exact .inl ⟨by simp [Ne.symm hiw, hnotin], heq⟩
      · exact .inr ⟨List.mem_cons_of_mem i hin, hcall⟩

/-- Nothing comes into a shard, and the shards that the loop has been at have no such key. -/
theorem delPrefixLoop_clears : ∀ (is : List Nat) {total n : Nat} {ss : ShardSet},
    ss.Sound H → ss.delPrefixLoop H pre is total = some (n, ss') →
    ∀ (j : Nat) (sh' : Shard) (k : Bytes) (e : Entry), ss'.shards[j]? = some sh' →
      sh'.idx.lookup k = some e →
      (∃ sh, ss.shards[j]? = some sh ∧ sh.idx.lookup k = some e) ∧ (j ∈ is → ¬ pre <+: k)
  | [], _, _, _, _, h => by
    cases h
    exact fun j sh' k e hj he => ⟨⟨sh', hj, he⟩, fun hmem => absurd hmem List.not_mem_nil⟩
  | i :: is, total, n, ss, hs, h => by
    obtain ⟨⟨m, t⟩, hon, h⟩ := Option.bind_eq_some_iff.mp h
    have ht := hs.onShard (fun _ _ hwf hc => ShardCache.delPrefix_extends hwf hc none) hon
    obtain ⟨c, c', hc, hcall, rfl⟩ := onShard_cases hon
    obtain ⟨own, hw, _, _, hidx, _⟩ := cacheAt_eq_some hc
    have hwf := hs.wf_cache hc
    intro j sh' k e hj he
    obtain ⟨⟨sh, hsh, he'⟩, hrest⟩ := delPrefixLoop_clears is ht h j sh' k e hj he
    rw [shards_setCache hw] at hsh
    split at hsh
    · rename_i hji
      cases hsh
      rcases (ShardCache.delPrefix_extends hwf hcall none).old k e he' with hk | hold
      · cases hk
      refine ⟨⟨own, hji ▸ hw, hidx ▸ hold⟩, fun _ hpre => ?_⟩
      rw [ShardCache.delPrefix_clears hwf hcall hpre] at he'
      cases he'
    · rename_i hji
      exact ⟨⟨sh, hsh, he'⟩, fun hmem => hrest (List.mem_of_ne_of_mem hji hmem)⟩

/-- Where another shard has such a key, it loses it. -/
theorem onlyAt_of_others {n : Nat} (hs : ss.Sound H) (h : ss.delPrefix H pre = some (n, ss'))
    (hsame : ∀ i, i ≠ w → ss'.cacheAt i = ss.cacheAt i) : ss.OnlyAt pre w := by
  intro i sh hne hi j e hcell hpre
  obtain ⟨c, hc, hidx⟩ := hs.exists_cacheAt hi
  have hlook : c.idx.lookup e.key = some e := by
    rw [hidx]
    exact (hs.wf i sh hi).lookup_of_cell hcell
  obtain ⟨sh', hi', _, _, hidx', _⟩ := cacheAt_eq_some ((hsame i hne).trans hc)
  have hin : i ∈ List.range ss.shards.length :=
    List.mem_range.mpr (List.getElem?_eq_some_iff.mp hi).1
  exact (delPrefixLoop_clears _ hs h i sh' e.key e hi' (hidx' ▸ hlook)).2 hin hpre

/-! ## A frame on a worker -/

/-- A frame that worker `w` accepts makes its call on shard `w`, if it makes one. -/
theorem dispatch_own {r : Reply} (hacc : ss.Accepts H fr w)
    (honly : fr.op = .delPrefix → ss.OnlyAt fr.key w) (h : ss.dispatch H env fr = some (r, ss')) :
    ss' = ss ∧ (ss.cacheAt w = none ∨ frameCall env fr = none) ∨
      ∃ c c' call, ss.cacheAt w = some c ∧ frameCall env fr = some call ∧
        c.step H call = some c' ∧ ss' = ss.setCache w c' := by
  by_cases hdel : fr.op = .delPrefix
  · simp only [dispatch, hdel, handleDelPrefix] at h
    obtain ⟨⟨n, t⟩, hloop, h⟩ := Option.map_eq_some_iff.mp h
    cases h
    rcases delPrefixLoop_onlyAt _ (honly hdel) List.nodup_range hloop with
      ⟨hout, rfl⟩ | ⟨_, c, c', m, hc, hcall, rfl⟩
    · rw [List.mem_range, not_lt] at hout
      exact .inl ⟨rfl, .inl (by rw [cacheAt, List.getElem?_eq_none_iff.mpr hout]; rfl)⟩
    · have hstep : (c.delPrefix H fr.key).map Prod.snd = some c' := by rw [hcall, Option.map_some]
      exact .inr ⟨c, c', _, hc, if_pos hdel, hstep, rfl⟩
  · rw [frameCall, if_neg hdel]
    rcases dispatch_call hdel h with ⟨hnone, rfl⟩ | ⟨call, c, c', hcall, hc, hstep, rfl⟩
    · exact .inl ⟨rfl, .inr hnone⟩
    · have hroute : ss.cacheIndexFor H fr.key = w := by
        rcases hacc with hop | hop | hroute
        · simp [shardCall, hop] at hcall
        · exact absurd hop hdel
        · exact hroute
      rw [hroute] at hc ⊢
      exact .inr ⟨c, c', call, hc, hcall, hstep, rfl⟩

theorem others_iff_spares {r : Reply} (hs : ss.Safe H)
    (hcount : ∀ c, ss.cacheAt w = some c → c.idx.count < 2 ^ 64) (hacc : ss.Accepts H fr w)
    (honly : fr.op = .delPrefix → ss.OnlyAt fr.key w)
    (h : ss.dispatch H env fr = some (r, ss')) :
    (∀ i, i ≠ w → ss'.cacheAt i = ss.cacheAt i) ↔ (ss.Shares w → ss.SparesArena H env fr w) := by
  rcases dispatch_own hacc honly h with ⟨rfl, hno⟩ | ⟨c, c', call, hc, hcall, hstep, rfl⟩
  · refine iff_of_true (fun _ _ => rfl) fun _ c call hc hcall => ?_
    rcases hno with hno | hno
    · cases hno.symm.trans hc
    · cases hno.symm.trans hcall
  · have hspares : ss.SparesArena H env fr w ↔ c.SparesArena H call := by
      refine ⟨fun hall => hall c call hc hcall, fun hone c₁ call₁ hc₁ hcall₁ => ?_⟩
      cases hc.symm.trans hc₁
      cases hcall.symm.trans hcall₁
      exact hone
    rw [others_setCache hc, hspares, (hs.cache hc).step_spares (hcount c hc) hstep]

/-- In every state that the workers can bring about, a frame on worker `w` leaves all other shards
as they are if and only if two things hold: a DELPREFIX finds no key to delete in another shard, and
if another shard works on the same arena, a frame that is not refused finds shard `w` in a state in
which its call spares the arena.  No index has 2^64 keys, as `count` is an `int`. -/
theorem others_unchanged_iff {ss₀ : ShardSet} {jobs : List Job} (hbuilt : ss₀.Built)
    (hrun : run (serve H) ss₀ jobs = some ss)
    (hcount : ∀ c, ss.cacheAt w = some c → c.idx.count < 2 ^ 64) {writeBuf buf : Buffer}
    {goOn : Bool} (h : ss.handleFrame H env fr writeBuf w = some (goOn, buf, ss')) :
    (∀ i, i ≠ w → ss'.cacheAt i = ss.cacheAt i) ↔
      (fr.op = .delPrefix → ss.OnlyAt fr.key w) ∧
        (ss.Shares w → ss.Accepts H fr w → ss.SparesArena H env fr w) := by
  have hsound : ss.Sound H := sound_of_run hbuilt.fresh hrun
  have hsafe : ss.Safe H := (serving_of_run hbuilt hrun).safe
  rcases handleFrame_cases h with ⟨hrefused, rfl⟩ | ⟨hacc, r, hd⟩
  · constructor
    · exact fun _ => ⟨fun hop => absurd (.inr (.inl hop)) hrefused,
        fun _ hacc => absurd hacc hrefused⟩
    · exact fun _ i _ => rfl
  · constructor
    · intro hsame
      have honly : fr.op = .delPrefix → ss.OnlyAt fr.key w := by
        intro hop
        simp only [dispatch, hop] at hd
        obtain ⟨⟨n, t⟩, hloop, hd⟩ := Option.map_eq_some_iff.mp hd
        cases hd
        exact onlyAt_of_others hsound hloop hsame
      exact ⟨honly, fun hshares _ =>
        (others_iff_spares hsafe hcount hacc honly hd).mp hsame hshares⟩
    · rintro ⟨honly, hspares⟩
      exact (others_iff_spares hsafe hcount hacc honly hd).mpr fun hshares => hspares hshares hacc

theorem not_shares_of_nodup (h : (ss.shards.map Shard.arena).Nodup) : ¬ ss.Shares w := by
  rintro ⟨i, sh, own, hne, hi, hw, harena⟩
  obtain ⟨hilt, hi⟩ := List.getElem?_eq_some_iff.mp hi
  obtain ⟨hwlt, hw⟩ := List.getElem?_eq_some_iff.mp hw
  have hilt' : i < (ss.shards.map Shard.arena).length := by rwa [List.length_map]
  have hwlt' : w < (ss.shards.map Shard.arena).length := by rwa [List.length_map]
  have heq : (ss.shards.map Shard.arena)[i] = (ss.shards.map Shard.arena)[w] := by
    rw [List.getElem_map, List.getElem_map, hi, hw, harena]
  exact hne (h.getElem_inj_iff.mp heq)

/-- A SET with an arena of its own. -/
theorem others_unchanged_set :
    ∃ ss₀ ss goOn buf, newShardSet 1 2 256 1 .noop .noop = some ss₀ ∧
      ss₀.handleFrame Hashes.source ⟨0, none, true⟩ ⟨.set, 0, [97], [1]⟩ .nil 0 =
        some (goOn, buf, ss) ∧
      (ss.cacheAt 0).map (fun c => c.idx.count) = some 1 ∧ ss.cacheAt 1 = ss₀.cacheAt 1 := by
  obtain ⟨ss₀, hnew, harenas, hempty, goOn, buf, ss, hframe, hcount⟩ : ∃ ss₀,
      newShardSet 1 2 256 1 .noop .noop = some ss₀ ∧ ss₀.shards.map Shard.arena = [0, 1] ∧
      (ss₀.cacheAt 0).all (fun c => c.idx.count = 0) ∧ ∃ goOn buf ss,
        ss₀.handleFrame Hashes.source ⟨0, none, true⟩ ⟨.set, 0, [97], [1]⟩ .nil 0 =
          some (goOn, buf, ss) ∧ (ss.cacheAt 0).map (fun c => c.idx.count) = some 1 := by
    decide +kernel
  have hkeys : ∀ c, ss₀.cacheAt 0 = some c → c.idx.count < 2 ^ 64 := by
    intro c hc
    rw [hc, Option.all_some, decide_eq_true_eq] at hempty
    omega
  have hnot : ¬ ss₀.Shares 0 := not_shares_of_nodup (harenas ▸ by decide)
  have hrun : run (serve Hashes.source) ss₀ [] = some ss₀ := rfl
  have hiff := others_unchanged_iff (.inl ⟨1, 2, 256, 1, .noop, .noop, hnew⟩) hrun hkeys hframe
  refine ⟨ss₀, ss, goOn, buf, hnew, hframe, hcount, ?_⟩
  exact hiff.mpr ⟨fun hop => absurd hop (by decide), fun hshares => absurd hshares hnot⟩ 1
    (by decide)

/-- The two ways out of a shard.  A DELPREFIX on worker 0 takes a key from shard 1; and where
both shards are on one arena, a SET on worker 0 shows in the arena of shard 1. -/
theorem other_shard_changed :
    (∃ ss₀ ss ss' goOn buf, newShardSet 1 2 256 1 .noop .noop = some ss₀ ∧
      run (serve Hashes.source) ss₀ [.frame ⟨0, none, true⟩ ⟨.set, 0, [98], [2]⟩ .nil 1] =
        some ss ∧
      ss.handleFrame Hashes.source ⟨0, none, true⟩ ⟨.delPrefix, 0, [98], []⟩ .nil 0 =
        some (goOn, buf, ss') ∧
      (ss.cacheAt 1).map (fun c => c.idx.count) = some 1 ∧
      (ss'.cacheAt 1).map (fun c => c.idx.count) = some 0) ∧
    ∃ ss₀ ss goOn buf,
      newShardSetFromArena (Arena.newManager 256) 2 1 .noop .noop = some ss₀ ∧
      ss₀.handleFrame Hashes.source ⟨0, none, true⟩ ⟨.set, 0, [97], [1]⟩ .nil 0 =
        some (goOn, buf, ss) ∧
      (ss₀.cacheAt 1).map (fun c => c.mgr.liveObjs) = some 0 ∧
      (ss.cacheAt 1).map (fun c => c.mgr.liveObjs) = some 1 := by
  constructor
  · obtain ⟨ss₀, hnew, ss, hrun, hone, goOn, buf, ss', hframe, hzero⟩ : ∃ ss₀,
        newShardSet 1 2 256 1 .noop .noop = some ss₀ ∧ ∃ ss,
          run (serve Hashes.source) ss₀ [.frame ⟨0, none, true⟩ ⟨.set, 0, [98], [2]⟩ .nil 1] =
            some ss ∧ (ss.cacheAt 1).map (fun c => c.idx.count) = some 1 ∧ ∃ goOn buf ss',
              ss.handleFrame Hashes.source ⟨0, none, true⟩ ⟨.delPrefix, 0, [98], []⟩ .nil 0 =
                some (goOn, buf, ss') ∧ (ss'.cacheAt 1).map (fun c => c.idx.count) = some 0 := by
      decide +kernel
    exact ⟨ss₀, ss, ss', goOn, buf, hnew, hrun, hframe, hone, hzero⟩
  · obtain ⟨ss₀, hnew, hzero, goOn, buf, ss, hframe, hone⟩ : ∃ ss₀,
        newShardSetFromArena (Arena.newManager 256) 2 1 .noop .noop = some ss₀ ∧
          (ss₀.cacheAt 1).map (fun c => c.mgr.liveObjs) = some 0 ∧ ∃ goOn buf ss,
            ss₀.handleFrame Hashes.source ⟨0, none, true⟩ ⟨.set, 0, [97], [1]⟩ .nil 0 =
              some (goOn, buf, ss) ∧ (ss.cacheAt 1).map (fun c => c.mgr.liveObjs) = some 1 := by
      decide +kernel
    exact ⟨ss₀, ss, goOn, buf, hnew, hframe, hzero, hone⟩

end ShardSet

end Horreum.Transport
