/-
  Transport/IndexEffects.lean --- what the calls of a shard do to its index.

  Whatever state the arena is in, a call leaves the table well-formed, and after it the index
  holds nothing that was not there before, the key of the call apart.
-/
import Horreum.Transport.Coherence
import Horreum.Transport.Collections
import Horreum.Transport.Population

set_option autoImplicit false

namespace Horreum.Transport

open Foundation
open Arena (Handle)
open S3Fifo (Eviction)

/-- The index of `s'` is well-formed and holds only entries of `s` and the one of `key`. -/
structure Extends (H : Hashes) (key : Option Bytes) (s s' : ShardCache) : Prop where
  wf : s'.idx.Wf H.hashKey
  old : ∀ k e, s'.idx.lookup k = some e → some k = key ∨ s.idx.lookup k = some e

theorem Extends.trans {H : Hashes} {s s' s'' : ShardCache} {key : Option Bytes}
    (h : Extends H key s s') (h' : Extends H key s' s'') : Extends H key s s'' := by
  refine ⟨h'.wf, fun k e he => ?_⟩
  rcases h'.old k e he with hk | he
  · exact .inl hk
  · exact h.old k e he

namespace ShardCache

variable {H : Hashes} {s s' : ShardCache} {env : Env} {key : Bytes} {expiresAt : UInt32}

theorem extends_of_idx_eq {key : Option Bytes} (hwf : s.idx.Wf H.hashKey) (h : s'.idx = s.idx) :
    Extends H key s s' :=
  ⟨h ▸ hwf, fun _ _ he => .inr (h ▸ he)⟩

theorem extends_of_put {hd : Handle} {old : Option Handle} (hwf : s.idx.Wf H.hashKey)
    (hput : s.idx.put H.hashKey key hd expiresAt = some (old, s'.idx)) :
    Extends H (some key) s s' := by
  obtain ⟨t, ht, hwf', hlook, _⟩ := hwf.put key hd expiresAt
  rw [hput] at ht
  obtain ⟨_, rfl⟩ := Prod.mk.inj (Option.some.inj ht)
  refine ⟨hwf', fun k e he => ?_⟩
  by_cases hk : k = key
  · exact .inl (congrArg some hk)
  · rw [hlook, Function.update_of_ne hk] at he
    exact .inr he

theorem extends_of_removed {es : List Entry} (hrem : ShardIndex.Removed H.hashKey s.idx es s'.idx)
    (key : Option Bytes) : Extends H key s s' := by
  refine ⟨hrem.wf, fun k e he => .inr ?_⟩
  rw [hrem.lookup] at he
  split at he
  · cases he
  · exact he

theorem set_extends {value : Bytes} {ttlSeconds : UInt32} {res : Except Error Bytes}
    (hwf : s.idx.Wf H.hashKey) (h : s.set H env key value ttlSeconds = some (res, s')) :
    Extends H (some key) s s' := by
  rcases (set_index h).2 with ⟨_, hidx⟩ | ⟨_, hd, expiresAt, old, hput⟩
  · exact extends_of_idx_eq hwf hidx
  · exact extends_of_put hwf hput

theorem store_extends {p : Payload} {res : Except Error Handle} (hwf : s.idx.Wf H.hashKey)
    (h : s.store H env key p expiresAt = some (res, s')) :
    Extends H (some key) s s' := by
  obtain ⟨⟨put, mgr⟩, _, h⟩ := Option.bind_eq_some_iff.mp h
  cases put with
  | error e =>
    cases h
    exact extends_of_idx_eq hwf rfl
  | ok hd =>
    obtain ⟨⟨old, idx⟩, hput, h⟩ := Option.bind_eq_some_iff.mp h
    obtain ⟨_, rfl⟩ := Prod.mk.inj (Option.some.inj h)
    exact extends_of_put hwf hput

theorem get_extends {now : UInt32} {res : Except Error Bytes} (hwf : s.idx.Wf H.hashKey)
    (h : s.get H now key = some (res, s')) (key' : Option Bytes) : Extends H key' s s' :=
  extends_of_idx_eq hwf (get_index h).2

theorem touched_extends (hwf : s.idx.Wf H.hashKey) (hd : Handle) (key : Option Bytes) :
    Extends H key s (s.touched hd) :=
  extends_of_idx_eq hwf rfl

theorem save_extends {again : Bool} {value : Bytes} {res : Except Error (Payload × Handle)}
    (hwf : s.idx.Wf H.hashKey)
    (h : s.save H env again key value expiresAt = some (res, s')) : Extends H (some key) s s' := by
  rcases save_cases h with ⟨_, _, rfl, _⟩ | ⟨p, stored, _, _, hstore, _⟩
  · exact extends_of_idx_eq hwf rfl
  · exact store_extends hwf hstore

theorem cas_extends {expectedValue newValue : Bytes} {res : Except Error CasResult}
    (hwf : s.idx.Wf H.hashKey) (h : s.cas H env key expectedValue newValue = some (res, s')) :
    Extends H (some key) s s' := by
  rw [cas_eq] at h
  obtain ⟨found, _, h⟩ := Option.bind_eq_some_iff.mp h
  rcases found with _ | ⟨hd, expiresAt⟩
  · cases h
    exact extends_of_idx_eq hwf rfl
  · have hhit := touched_extends hwf hd (some key)
    obtain ⟨loaded, _, h⟩ := Option.bind_eq_some_iff.mp h
    cases loaded with
    | error e =>
      cases h
      exact hhit
    | ok currentValue =>
      dsimp only at h
      split at h
      · cases h
        exact hhit
      · obtain ⟨⟨r, t⟩, hsave, heq⟩ := Option.map_eq_some_iff.mp h
        cases heq
        exact hhit.trans (save_extends hhit.wf hsave)

theorem writeCounter_extends {current : Int64} {res : Except Error Int64} (hwf : s.idx.Wf H.hashKey)
    (h : s.writeCounter H env key current expiresAt = some (res, s')) :
    Extends H (some key) s s' := by
  rw [writeCounter_eq] at h
  obtain ⟨⟨r, t⟩, hsave, heq⟩ := Option.map_eq_some_iff.mp h
  cases heq
  exact save_extends hwf hsave

theorem incr_extends {delta : Int64} {res : Except Error Int64}
    (hwf : s.idx.Wf H.hashKey) (h : s.incr H env key delta = some (res, s')) :
    Extends H (some key) s s' := by
  obtain ⟨found, _, h⟩ := Option.bind_eq_some_iff.mp h
  rcases found with _ | ⟨hd, expiresAt⟩
  · exact writeCounter_extends hwf h
  · obtain ⟨current, _, h⟩ := Option.bind_eq_some_iff.mp h
    have hhit := touched_extends hwf hd (some key)
    exact hhit.trans (writeCounter_extends hhit.wf h)

theorem delete_extends {res : Except Error Unit} (hwf : s.idx.Wf H.hashKey)
    (h : s.delete H key = some (res, s')) (key' : Option Bytes) : Extends H key' s s' := by
  obtain ⟨_, _, hdel, ⟨_, _, _, hrem, _⟩⟩ := delete_drops hwf key
  cases h.symm.trans hdel
  exact extends_of_removed hrem key'

theorem update_extends {α : Type} {plan : Except Error Bytes → Plan α} {out : α × Option Error}
    (hwf : s.idx.Wf H.hashKey) (h : s.update H env key plan = some (out, s')) :
    Extends H (some key) s s' := by
  obtain ⟨⟨res, t⟩, hget, h⟩ := Option.bind_eq_some_iff.mp h
  have hread : Extends H (some key) s t := get_extends hwf hget _
  dsimp only at h
  split at h
  · cases h
    exact hread
  · rename_i newRaw inPlace reply _
    obtain ⟨⟨res', t'⟩, hset, h⟩ := Option.bind_eq_some_iff.mp h
    cases h
    have hpoke : (t.scribble H env.now key inPlace).idx = t.idx := by
      unfold scribble
      split <;> rfl
    have hscribble : Extends H (some key) t (t.scribble H env.now key inPlace) :=
      extends_of_idx_eq hread.wf hpoke
    exact (hread.trans hscribble).trans (set_extends hscribble.wf hset)
  · obtain ⟨⟨res', t'⟩, hdel, h⟩ := Option.bind_eq_some_iff.mp h
    cases h
    exact hread.trans (delete_extends hread.wf hdel _)
  · cases h

theorem popWith_extends {pop : Bytes → Option Ds.Popped} {out : Option Bytes × Option Error}
    (hwf : s.idx.Wf H.hashKey) (h : s.popWith H env key pop = some (out, s')) :
    Extends H (some key) s s' := by
  obtain ⟨out', hup, rfl⟩ := popWith_update h
  exact update_extends hwf hup

theorem delPrefix_extends {pre : Bytes} {n : Nat} (hwf : s.idx.Wf H.hashKey)
    (h : s.delPrefix H pre = some (n, s')) (key : Option Bytes) : Extends H key s s' := by
  obtain ⟨_, _, _, hdel, ⟨_, _, _, hrem, _⟩, _⟩ := delPrefix_drops hwf pre
  cases h.symm.trans hdel
  exact extends_of_removed hrem key

theorem deleteExpired_extends {now : UInt32} {limit : Int} (hwf : s.idx.Wf H.hashKey)
    (h : s.deleteExpired H now limit = some s') (key : Option Bytes) : Extends H key s s' := by
  obtain ⟨_, _, hdel, ⟨_, _, _, hrem, _⟩, _⟩ := deleteExpired_drops hwf now limit
  cases h.symm.trans hdel
  exact extends_of_removed hrem key

end ShardCache

end Horreum.Transport
