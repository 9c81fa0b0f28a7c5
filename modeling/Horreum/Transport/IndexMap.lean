/-
  Transport/IndexMap.lean --- the shard index refines a finite map.

  The reference keeps for every key the handle and the expiry it was last given.  Expiry
  matters to `get` alone: `put` and `delete` see an expired entry like any other.  The index
  gives the answers of the reference over every sequence of calls, whatever the hash function
  is, and its table is in order at the end.
-/
import Horreum.Foundation.ProbingMap
import Horreum.Foundation.Runs
import Horreum.Transport.ShardIndex

set_option autoImplicit false

namespace Horreum.Transport

open Foundation (Bytes answers expected answers_simulates)
open Foundation.Probing (cell entries blank occupied dist)
open Arena (Handle)

/-- The calls of the index. -/
inductive IndexCall where
  | put (key : Bytes) (h : Handle) (expiresAt : UInt32)
  | get (key : Bytes) (now : UInt32)
  | delete (key : Bytes)

/-- What they return. -/
inductive IndexAnswer where
  | replaced (old : Option Handle)
  | found (entry : Option (Handle × UInt32))
  | removed (old : Option Handle)

/-- A call of the index. -/
def ShardIndex.perform (hash : Bytes → UInt64) (s : ShardIndex) :
    IndexCall → Option (IndexAnswer × ShardIndex)
  | .put key h expiresAt => (s.put hash key h expiresAt).map fun (old, s) => (.replaced old, s)
  | .get key now => (s.get hash key now).map fun entry => (.found entry, s)
  | .delete key => (s.delete hash key).map fun (old, s) => (.removed old, s)

/-- The reference map. -/
abbrev KeyMap : Type := Bytes → Option (Handle × UInt32)

namespace KeyMap

/-- The map without keys. -/
def empty : KeyMap := fun _ => none

/-- The same call on the map. -/
def perform (m : KeyMap) : IndexCall → IndexAnswer × KeyMap
  | .put key h expiresAt =>
    (.replaced ((m key).map Prod.fst), Function.update m key (some (h, expiresAt)))
  | .get key now => (.found ((m key).filter fun p => p.2 == 0 || now < p.2), m)
  | .delete key => (.removed ((m key).map Prod.fst), Function.update m key none)

/-- The keys that are present. -/
def keys (m : KeyMap) : Set Bytes := { k | m k ≠ none }

end KeyMap

namespace ShardIndex

variable {hash : Bytes → UInt64} {s : ShardIndex} {m : KeyMap}

/-- What the index stores for a key, as the reference sees it. -/
def toMap (s : ShardIndex) : KeyMap := fun k =>
  (s.lookup k).map fun e => (e.handle, e.expiresAt)

/-- The index is in order and holds the map. -/
structure Represents (hash : Bytes → UInt64) (s : ShardIndex) (m : KeyMap) : Prop where
  wf : s.Wf hash
  toMap : s.toMap = m

theorem represents_new : Represents hash newShardIndex KeyMap.empty :=
  ⟨wf_new, funext fun k => congrArg (Option.map _) (lookup_blank k)⟩

theorem toMap_update {t : ShardIndex} {k : Bytes} {new : Option Entry}
    (h : t.lookup = Function.update s.lookup k new) :
    t.toMap = Function.update s.toMap k (new.map fun e => (e.handle, e.expiresAt)) := by
  funext j
  simp only [ShardIndex.toMap, h]
  by_cases hj : j = k
  · simp [hj]
  · simp [ShardIndex.toMap, Function.update_of_ne hj]

theorem Represents.perform (h : Represents hash s m) (call : IndexCall) :
    ∃ t, s.perform hash call = some ((m.perform call).1, t) ∧
      Represents hash t (m.perform call).2 := by
  obtain ⟨hwf, rfl⟩ := h
  have hold : ∀ k, (s.toMap k).map Prod.fst = (s.lookup k).map Entry.handle := by
    intro k
    simp [ShardIndex.toMap, Function.comp_def]
  cases call with
  | put key hd expiresAt =>
    obtain ⟨t, hput, hwf', hlook, _⟩ := hwf.put key hd expiresAt
    refine ⟨t, ?_, hwf', toMap_update hlook⟩
    simp [ShardIndex.perform, KeyMap.perform, hput, hold]
  | get key now =>
    refine ⟨s, ?_, hwf, rfl⟩
    simp only [ShardIndex.perform, KeyMap.perform, hwf.get, Option.map_some, ShardIndex.toMap]
    cases s.lookup key with
    | none => rfl
    | some e =>
      by_cases hzero : e.expiresAt = 0
      · simp [Entry.expired, hzero, Option.filter]
      · by_cases hnow : now < e.expiresAt <;>
          simp_all [Entry.expired, Option.filter]
  | delete key =>
    obtain ⟨t, hdel, hwf', hlook, _⟩ := hwf.delete key
    refine ⟨t, ?_, hwf', toMap_update hlook⟩
    simp [ShardIndex.perform, KeyMap.perform, hdel, hold]

/-- What the table of an index that stores `m` looks like. -/
structure InOrder (hash : Bytes → UInt64) (s : ShardIndex) (m : KeyMap) : Prop where
  count : s.count = m.keys.ncard
  stored : ∀ k h expiresAt, m k = some (h, expiresAt) →
    ∃! i, ∃ e, cell s.slots i = some e ∧ e.key = k
  entry : ∀ i e, cell s.slots i = some e → m e.key = some (e.handle, e.expiresAt)
  reach : ∀ i e, cell s.slots i = some e → ∀ j, j < s.slots.length →
    dist s.slots.length ((hash e.key).toNat &&& s.mask) j <
      dist s.slots.length ((hash e.key).toNat &&& s.mask) i → cell s.slots j ≠ none
  free : ∃ i, i < s.slots.length ∧ cell s.slots i = none
  find : ∀ key, ∃ i, s.find hash key = some i

theorem Wf.count_eq_ncard (h : s.Wf hash) : s.count = s.toMap.keys.ncard := by
  have hkeys : s.toMap.keys = { k | s.lookup k ≠ none } :=
    Set.ext fun k => not_congr Option.map_eq_none_iff
  rw [hkeys, h.count_eq]
  exact h.probing.occupied_eq_ncard

theorem Represents.inOrder (h : Represents hash s m) : InOrder hash s m := by
  obtain ⟨hwf, rfl⟩ := h
  refine ⟨hwf.count_eq_ncard, ?_, ?_, ?_, hwf.exists_free, ?_⟩
  · intro k hd expiresAt hk
    obtain ⟨e, he, _⟩ := Option.map_eq_some_iff.mp hk
    obtain ⟨⟨i, hi⟩, hkey⟩ := hwf.probing.lookup_eq_some.mp he
    refine ⟨i, ⟨e, hi, hkey⟩, ?_⟩
    rintro j ⟨e', hj, hkey'⟩
    exact hwf.probing.unique j i e' e hj hi (hkey'.trans hkey.symm)
  · intro i e hi
    simp [ShardIndex.toMap, hwf.lookup_of_cell hi]
  · intro i e hi j hj hdist
    exact Option.isSome_iff_ne_none.mp (hwf.probing.reach i e hi j hj hdist)
  · intro key
    obtain ⟨i, hi, _⟩ := hwf.find key
    exact ⟨i, hi⟩

/-- Over any calls on a new index, whatever the hash function: every answer is the reference's,
no search is endless, and the table is in order. -/
theorem refines_keyMap (hash : Bytes → UInt64) (calls : List IndexCall) :
    ∃ s, answers (perform hash) newShardIndex calls =
        some ((expected KeyMap.perform KeyMap.empty calls).1, s) ∧
      InOrder hash s (expected KeyMap.perform KeyMap.empty calls).2 := by
  have hstep : ∀ s m call, Represents hash s m → ∃ t, s.perform hash call =
      some ((m.perform call).1, t) ∧ Represents hash t (m.perform call).2 :=
    fun _ _ call h => h.perform call
  obtain ⟨s, hrun, hrep⟩ := answers_simulates hstep calls _ _ represents_new
  exact ⟨s, hrun, hrep.inOrder⟩

end ShardIndex

end Horreum.Transport
