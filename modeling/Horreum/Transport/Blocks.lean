/-
  Transport/Blocks.lean --- who owns which block of a shard.

  Over all calls of a shard, plain and collection: the entries of the index have blocks of
  their own, none of which is on a freelist, no block is freed twice, and the live counter
  of the arena counts the entries.  This holds along every run in which the eviction
  policy gives up no handle at all: one that it does give up is freed while its entry, if
  it still has one, stays.
-/
import Horreum.Foundation.Runs
import Horreum.Transport.Calls
import Horreum.Transport.Collections
import Mathlib.Data.Fintype.Prod
import Mathlib.Data.Fintype.List

set_option autoImplicit false

namespace Horreum.Transport

open Foundation
open Arena (Handle Manager Region)
open Arena.Manager (Owns)
open Foundation.Probing (entries)

/-- The calls on collections. -/
inductive CollectionCall where
  | hSet (key field value : Bytes)
  | hGet (key field : Bytes)
  | hDel (key field : Bytes)
  | hGetAll (key : Bytes)
  | lPush (key elem : Bytes)
  | lPop (key : Bytes)
  | rPush (key elem : Bytes)
  | rPop (key : Bytes)
  | lLen (key : Bytes)
  | sAdd (key member : Bytes)
  | sRem (key member : Bytes)
  | sIsMember (key member : Bytes)
  | sMembers (key : Bytes)

namespace ShardCache

variable {H : Hashes} {s s' : ShardCache} {env : Env}

/-! ## Calls as steps -/

/-- The shard after a plain call. -/
def afterCall (H : Hashes) (s : ShardCache) (env : Env) : Call → Option ShardCache
  | .set key value ttl => (s.set H env key value ttl).map Prod.snd
  | .get key => (s.get H env.now key).map Prod.snd
  | .cas key expectedValue newValue => (s.cas H env key expectedValue newValue).map Prod.snd
  | .incr key delta => (s.incr H env key delta).map Prod.snd
  | .delete key => (s.delete H key).map Prod.snd
  | .delPrefix pre => (s.delPrefix H pre).map Prod.snd
  | .deleteExpired limit => s.deleteExpired H env.now limit

/-- The shard after a collection call. -/
def afterCollectionCall (H : Hashes) (s : ShardCache) (env : Env) :
    CollectionCall → Option ShardCache
  | .hSet key field value => (s.hSet H env key field value).map Prod.snd
  | .hGet key field => (s.hGet H env key field).map Prod.snd
  | .hDel key field => (s.hDel H env key field).map Prod.snd
  | .hGetAll key => (s.hGetAll H env key).map Prod.snd
  | .lPush key elem => (s.lPush H env key elem).map Prod.snd
  | .lPop key => (s.lPop H env key).map Prod.snd
  | .rPush key elem => (s.rPush H env key elem).map Prod.snd
  | .rPop key => (s.rPop H env key).map Prod.snd
  | .lLen key => (s.lLen H env key).map Prod.snd
  | .sAdd key member => (s.sAdd H env key member).map Prod.snd
  | .sRem key member => (s.sRem H env key member).map Prod.snd
  | .sIsMember key member => (s.sIsMember H env key member).map Prod.snd
  | .sMembers key => (s.sMembers H env key).map Prod.snd

/-- The handle that the `Set` of a collection call gives up, if it gets there. -/
def updateVictim {α : Type} (H : Hashes) (s : ShardCache) (env : Env) (key : Bytes)
    (plan : Except Error Bytes → Plan α) : Option Handle :=
  match s.get H env.now key with
  | some (res, s) =>
    match plan res with
    | .write newRaw inPlace _ => (s.scribble H env.now key inPlace).setVictim H env key newRaw
    | _ => none
  | none => none

/-- The block that a collection call gives back. -/
def collectionVictim (H : Hashes) (s : ShardCache) (env : Env) : CollectionCall → Option Handle
  | .hSet key field value => s.updateVictim H env key (hSetPlan field value)
  | .hGet key field => s.updateVictim H env key (hGetPlan field)
  | .hDel key field => s.updateVictim H env key (hDelPlan field)
  | .hGetAll key => s.updateVictim H env key hGetAllPlan
  | .lPush key elem => s.updateVictim H env key (lPushPlan elem)
  | .lPop key => s.updateVictim H env key (popPlan Ds.lPop)
  | .rPush key elem => s.updateVictim H env key (rPushPlan elem)
  | .rPop key => s.updateVictim H env key (popPlan Ds.rPop)
  | .lLen key => s.updateVictim H env key lLenPlan
  | .sAdd key member => s.updateVictim H env key (sAddPlan member)
  | .sRem key member => s.updateVictim H env key (sRemPlan member)
  | .sIsMember key member => s.updateVictim H env key (sIsMemberPlan member)
  | .sMembers key => s.updateVictim H env key sMembersPlan

/-- Any call, with its environment. -/
abbrev AnyCall : Type := Env × (Call ⊕ CollectionCall)

/-- Any call on a cache. -/
def step (H : Hashes) (s : ShardCache) : AnyCall → Option ShardCache
  | (env, .inl call) => s.afterCall H env call
  | (env, .inr call) => s.afterCollectionCall H env call

/-- The block that any call gives back. -/
def victim (H : Hashes) (s : ShardCache) : AnyCall → Option Handle
  | (env, .inl call) => s.callVictim H env call
  | (env, .inr call) => s.collectionVictim H env call

/-! ## The invariant -/

/-- Coherent, and the live counter counts the entries. -/
structure Accounted (H : Hashes) (s : ShardCache) : Prop where
  coherent : Coherent H s
  live : s.mgr.liveObjs = UInt64.ofNat s.idx.count

theorem Accounted.kept (h : Accounted H s) (hk : Kept H s s') : Accounted H s' :=
  ⟨hk.coherent, by rw [hk.live, hk.idx, h.live]⟩

theorem Accounted.dropped {es : List Entry} (h : Accounted H s) (hd : Dropped H s es s') :
    Accounted H s' := by
  refine ⟨hd.coherent, ?_⟩
  rw [hd.live, h.live, ← hd.removed.count, UInt64.ofNat_add]
  grind

theorem Accounted.wrote {key value : Bytes} (h : Accounted H s)
    (hw : Wrote H s env key value s') (hnone : s.writeVictim H env key value = none) :
    Accounted H s' := by
  obtain ⟨⟨p, expiresAt, hd, _, hwr⟩, hlive⟩ := hw
  refine ⟨hwr.coherent, ?_⟩
  rw [hlive hnone, h.live, hwr.count]
  cases s.idx.lookup key with
  | none => simp [UInt64.ofNat_add]
  | some e => simp

theorem spared_of_none {v : Option Handle} (h : v = none) :
    ∀ g, v = some g → 8192 < g.size.toNat := by
  intro g hg
  rw [h] at hg
  cases hg

theorem Accounted.set {key value : Bytes} {ttl : UInt32} {res : Except Error Bytes}
    (h : Accounted H s) (hnone : s.setVictim H env key value = none)
    (hset : s.set H env key value ttl = some (res, s')) : Accounted H s' := by
  rcases set_cases h.coherent (spared_of_none hnone) hset with ⟨_, _, hk⟩ | ⟨_, hlen, hw⟩
  · exact h.kept hk
  · rw [setVictim, if_neg (by omega)] at hnone
    exact h.wrote hw hnone

/-- A write through a view stays inside its block. -/
theorem Accounted.scribble (h : Accounted H s) (now : UInt32) (key : Bytes)
    (inPlace : Option (Nat × Bytes)) : Accounted H (s.scribble H now key inPlace) := by
  unfold ShardCache.scribble
  split
  · exact ⟨⟨h.coherent.idx, Arena.Manager.owns_poke h.coherent.owns _ _ _, h.coherent.inj⟩,
      by simp only [Arena.Manager.liveObjs_poke]; exact h.live⟩
  · exact h

theorem Accounted.update {α : Type} {key : Bytes} {plan : Except Error Bytes → Plan α}
    {out : (α × Option Error) × ShardCache} (h : Accounted H s)
    (hnone : s.updateVictim H env key plan = none)
    (hup : s.update H env key plan = some out) : Accounted H out.2 := by
  obtain ⟨⟨res, s₁⟩, hget, hup⟩ := Option.bind_eq_some_iff.mp hup
  have h₁ := h.kept (get_kept h.coherent hget)
  simp only [updateVictim, hget] at hnone
  cases hplan : plan res with
  | answer value err =>
    simp only [hplan] at hup
    cases hup
    exact h₁
  | write newRaw inPlace reply =>
    simp only [hplan] at hup hnone
    obtain ⟨⟨res', s₂⟩, hset, hup⟩ := Option.bind_eq_some_iff.mp hup
    cases hup
    exact (h₁.scribble env.now key inPlace).set hnone hset
  | remove value =>
    simp only [hplan] at hup
    obtain ⟨⟨res', s₂⟩, hdel, hup⟩ := Option.bind_eq_some_iff.mp hup
    cases hup
    exact h₁.dropped (delete_dropped h₁.coherent hdel)
  | crash =>
    simp only [hplan] at hup
    cases hup

theorem Accounted.afterCall {call : Call} (h : Accounted H s)
    (hnone : s.callVictim H env call = none) (hstep : s.afterCall H env call = some s') :
    Accounted H s' := by
  cases call with
  | deleteExpired limit =>
    obtain ⟨es, hd, _⟩ := deleteExpired_dropped h.coherent hstep
    exact h.dropped hd
  | set key value ttl =>
    obtain ⟨⟨res, t⟩, hset, rfl⟩ := Option.map_eq_some_iff.mp hstep
    exact h.set hnone hset
  | get key =>
    obtain ⟨⟨res, t⟩, hget, rfl⟩ := Option.map_eq_some_iff.mp hstep
    exact h.kept (get_kept h.coherent hget)
  | cas key expectedValue newValue =>
    obtain ⟨⟨res, t⟩, hcas, rfl⟩ := Option.map_eq_some_iff.mp hstep
    rcases cas_cases h.coherent (spared_of_none hnone) hcas with
      ⟨_, hk⟩ | ⟨s₁, _, hk, hw, hv⟩
    · exact h.kept hk
    · exact (h.kept hk).wrote hw (hv.trans hnone)
  | incr key delta =>
    obtain ⟨⟨res, t⟩, hincr, rfl⟩ := Option.map_eq_some_iff.mp hstep
    rcases incr_cases h.coherent (spared_of_none hnone) hincr with
      ⟨_, _, hk⟩ | ⟨s₁, n, _, hk, hw, hv⟩
    · exact h.kept hk
    · exact (h.kept hk).wrote hw (hv.trans hnone)
  | delete key =>
    obtain ⟨⟨res, t⟩, hdel, rfl⟩ := Option.map_eq_some_iff.mp hstep
    exact h.dropped (delete_dropped h.coherent hdel)
  | delPrefix pre =>
    obtain ⟨⟨n, t⟩, hdel, rfl⟩ := Option.map_eq_some_iff.mp hstep
    obtain ⟨es, hd, _⟩ := delPrefix_dropped h.coherent hdel
    exact h.dropped hd

theorem Accounted.afterCollectionCall {call : CollectionCall} (h : Accounted H s)
    (hnone : s.collectionVictim H env call = none)
    (hstep : s.afterCollectionCall H env call = some s') : Accounted H s' := by
  cases call with
  | lPop key | rPop key =>
    obtain ⟨out, hpop, rfl⟩ := Option.map_eq_some_iff.mp hstep
    obtain ⟨out', hup, hout⟩ := popWith_update hpop
    rw [hout]
    exact h.update (by exact hnone) hup
  | _ =>
    obtain ⟨out, hup, rfl⟩ := Option.map_eq_some_iff.mp hstep
    exact h.update (by exact hnone) hup

theorem Accounted.step {call : AnyCall} (h : Accounted H s) (hnone : s.victim H call = none)
    (hstep : s.step H call = some s') : Accounted H s' := by
  obtain ⟨env, call | call⟩ := call
  · exact h.afterCall hnone hstep
  · exact h.afterCollectionCall hnone hstep

/-! ## One owner for every block -/

/-- The handles in the index, slot by slot. -/
def handles (s : ShardCache) : List Handle := (entries s.idx.slots).map Entry.handle

/-- Every block is used once: by one entry, or on one freelist. -/
structure OneOwner (s : ShardCache) : Prop where
  apart : s.handles.Pairwise fun h h' => h.region = h'.region → h.block.Disjoint h'.block
  unlisted : ∀ h ∈ s.handles, ∀ r, s.mgr.regions[h.region.toNat]? = some r →
    h.offset.toNat ∉ r.alloc.freeOffsets ∧ ∀ f, r.alloc.Free f → h.block.Disjoint f
  freedOnce : ∀ r ∈ s.mgr.regions, r.alloc.freeOffsets.Nodup
  live : s.mgr.liveObjs.toNat = s.handles.length

theorem Coherent.mem_owned (hc : Coherent H s) {h : Handle} (hh : h ∈ s.handles) :
    h ∈ s.idx.owned := by
  obtain ⟨e, he, rfl⟩ := List.mem_map.mp hh
  obtain ⟨i, hi⟩ := Probing.mem_entries.mp he
  exact ⟨e.key, e, hc.idx.lookup_of_cell hi, rfl⟩

theorem Coherent.nodup_index_handles (hc : Coherent H s) : s.handles.Nodup := by
  refine List.Nodup.map_on ?_ (List.Nodup.of_map _ hc.idx.probing.nodup_keys)
  intro e he e' he' heq
  obtain ⟨i, hi⟩ := Probing.mem_entries.mp he
  obtain ⟨j, hj⟩ := Probing.mem_entries.mp he'
  have hkey := hc.inj e.key e'.key e e' (hc.idx.lookup_of_cell hi) (hc.idx.lookup_of_cell hj) heq
  obtain rfl := hc.idx.probing.unique i j e e' hi hj hkey
  exact Option.some.inj (hi.symm.trans hj)

/-- There are no more handles than places: a region and an offset name at most one. -/
theorem Coherent.length_handles_le (hc : Coherent H s) : s.handles.length ≤ 2 ^ 40 := by
  have hnodup : (s.handles.map fun h => (h.region.toFin, h.offset.toFin)).Nodup := by
    refine List.Nodup.map_on ?_ hc.nodup_index_handles
    intro h hh h' hh' heq
    obtain ⟨hreg, hoff⟩ := Prod.mk.inj heq
    exact hc.owns.eq_of_offset (hc.mem_owned hh) (hc.mem_owned hh') (UInt8.toFin_inj.mp hreg)
      (UInt32.toFin_inj.mp hoff)
  have hle := hnodup.length_le_card
  rw [List.length_map, Fintype.card_prod, Fintype.card_fin, Fintype.card_fin] at hle
  exact hle.trans (by decide)

theorem Accounted.oneOwner (h : Accounted H s) : OneOwner s := by
  have hc := h.coherent
  refine ⟨?_, ?_, ?_, ?_⟩
  · refine hc.nodup_index_handles.imp_of_mem ?_
    intro g g' hg hg' hne hreg
    exact hc.owns.apart g (hc.mem_owned hg) g' (hc.mem_owned hg') hne hreg
  · intro g hg r hr
    obtain ⟨r', hr', hheld⟩ := hc.owns.held g (hc.mem_owned hg)
    obtain rfl : r' = r := Option.some.inj (hr'.symm.trans hr)
    exact ⟨hheld.offset_not_mem (hc.owns.wf.region _ _ hr).alloc
      (Nat.lt_of_lt_of_le (by decide) (Arena.blockLen_pos _)), hheld.apart⟩
  · intro r hr
    obtain ⟨i, hi⟩ := List.mem_iff_getElem?.mp hr
    exact (hc.owns.wf.region i r hi).alloc.nodup_freeOffsets
  · have hle := hc.length_handles_le
    have hcount : s.idx.count = s.handles.length := by
      rw [hc.idx.count_eq, Probing.occupied_eq_length_entries, handles,
        List.length_map]
    rw [h.live, hcount, UInt64.toNat_ofNat_of_lt' (by change _ < 2 ^ 64; omega)]

theorem accounted_new {regionSize evictCapacity : Nat} {comp : Compress.Compressor}
    {cipher : Encrypt.Cipher} (h : newShardCache regionSize evictCapacity comp cipher = some s) :
    Accounted H s := by
  refine ⟨(coherent_new h).1, ?_⟩
  obtain ⟨ev, _, h⟩ := Option.bind_eq_some_iff.mp h
  cases h
  rfl

/-- In every run in which the eviction policy gives up no handle, every block has one owner
in every state reached. -/
theorem one_owner_of_no_victim (H : Hashes) {regionSize evictCapacity : Nat}
    {comp : Compress.Compressor} {cipher : Encrypt.Cipher}
    (hnew : newShardCache regionSize evictCapacity comp cipher = some s)
    (calls : List AnyCall)
    (hguard : Guarded (step H) (fun s call => s.victim H call = none) s calls)
    (hrun : run (step H) s calls = some s') : OneOwner s' :=
  (run_invariant (Accounted H) (fun _ _ _ hinv hok hs => hinv.step hok hs) calls s s'
    (accounted_new hnew) hguard hrun).oneOwner

/-- The state after a run of a fresh shard without codecs. -/
def stateAfter (regionSize evictCapacity : Nat) (calls : List AnyCall) : Option ShardCache :=
  (newShardCache regionSize evictCapacity .noop .noop).bind fun s =>
    run (step Hashes.source) s calls

/-- A plain write, a list that grows in its place in the index, and a removal. -/
theorem one_owner_of_no_victim_mixed :
    ∃ s s', newShardCache 1024 40 .noop .noop = some s ∧
      run (step Hashes.source) s
        [(⟨0, none, true⟩, .inl (.set [97] [1] 0)), (⟨0, none, true⟩, .inr (.lPush [98] [2])),
          (⟨0, none, true⟩, .inr (.lPush [98] [3])), (⟨0, none, true⟩, .inl (.delete [97]))] =
        some s' ∧ OneOwner s' := by
  obtain ⟨s, hnew, hguard, s', hrun⟩ : ∃ s, newShardCache 1024 40 .noop .noop = some s ∧
      Guarded (step Hashes.source) (fun s call => s.victim Hashes.source call = none) s
        [(⟨0, none, true⟩, .inl (.set [97] [1] 0)), (⟨0, none, true⟩, .inr (.lPush [98] [2])),
          (⟨0, none, true⟩, .inr (.lPush [98] [3])), (⟨0, none, true⟩, .inl (.delete [97]))] ∧
      ∃ s', run (step Hashes.source) s
        [(⟨0, none, true⟩, .inl (.set [97] [1] 0)), (⟨0, none, true⟩, .inr (.lPush [98] [2])),
          (⟨0, none, true⟩, .inr (.lPush [98] [3])), (⟨0, none, true⟩, .inl (.delete [97]))] =
        some s' := by
    decide +kernel
  exact ⟨s, s', hnew, hrun, one_owner_of_no_victim Hashes.source hnew _ hguard hrun⟩

/-- With room for one handle in each queue, writing `b` frees the block of `a`, which the index
still refers to; writing `a` again frees it once more. -/
theorem evicted_block_still_indexed :
    ∃ s s', newShardCache 64 1 .noop .noop = some s ∧
      run (step Hashes.source) s
        [(⟨0, none, true⟩, .inl (.set [97] [1] 0)), (⟨0, none, true⟩, .inl (.set [98] [2] 0))] =
        some s' ∧
      (∃ h ∈ s'.handles, ∃ r, s'.mgr.regions[h.region.toNat]? = some r ∧
        h.offset.toNat ∈ r.alloc.freeOffsets) ∧ ¬ OneOwner s' := by
  obtain ⟨s', hs', h, hh, r, hr, hmem⟩ : ∃ s', stateAfter 64 1
      [(⟨0, none, true⟩, .inl (.set [97] [1] 0)), (⟨0, none, true⟩, .inl (.set [98] [2] 0))] =
        some s' ∧
      ∃ h ∈ s'.handles, ∃ r, s'.mgr.regions[h.region.toNat]? = some r ∧
        h.offset.toNat ∈ r.alloc.freeOffsets := by
    decide +kernel
  obtain ⟨s, hnew, hrun⟩ := Option.bind_eq_some_iff.mp hs'
  exact ⟨s, s', hnew, hrun, ⟨h, hh, r, hr, hmem⟩, fun hone => (hone.unlisted h hh r hr).1 hmem⟩

end ShardCache

end Horreum.Transport
