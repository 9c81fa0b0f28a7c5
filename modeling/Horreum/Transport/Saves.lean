/-
  Transport/Saves.lean --- what `Set`, `CAS` and `Incr` share.

  All three check the size of the value, encode it and store the payload; `CAS` and `Incr` check the
  size of the payload too.  What holds of `save` holds of all of them.
-/
import Horreum.Transport.ShardCache

set_option autoImplicit false

namespace Horreum.Transport.ShardCache

open Foundation
open Arena (Handle maxObjectSize)

variable {H : Hashes} {s s' : ShardCache} {env : Env} {key value : Bytes} {expiresAt : UInt32}

/-- The shard after the hit on `h` is counted. -/
def touched (s : ShardCache) (h : Handle) : ShardCache := { s with mgr := s.ev.touch s.mgr h }

/-- Encode the value and store it.  With `again` the size of the payload is checked as well. -/
def save (H : Hashes) (s : ShardCache) (env : Env) (again : Bool) (key value : Bytes)
    (expiresAt : UInt32) : Option (Except Error (Payload × Handle) × ShardCache) := do
  if value.length > maxObjectSize then some (.error .tooLarge, s)
  else
    match ← s.encode env value with
    | .error e => some (.error e, s)
    | .ok p =>
      if again ∧ p.bytes.length > maxObjectSize then some (.error .tooLarge, s)
      else (s.store H env key p expiresAt).map fun (res, s) => (res.map fun h => (p, h), s)

theorem save_cases {again : Bool} {res : Except Error (Payload × Handle)}
    (h : s.save H env again key value expiresAt = some (res, s')) :
    (∃ e, res = .error e ∧ s' = s ∧ ∀ p, value.length ≤ maxObjectSize →
        s.encode env value = some (.ok p) → again = true ∧ maxObjectSize < p.bytes.length) ∨
      ∃ p stored, value.length ≤ maxObjectSize ∧ s.encode env value = some (.ok p) ∧
        s.store H env key p expiresAt = some (stored, s') ∧ res = stored.map fun h => (p, h) := by
  unfold save at h
  split at h
  · rename_i hbig
    cases h
    exact .inl ⟨_, rfl, rfl, fun p hle => absurd hle (Nat.not_le.mpr hbig)⟩
  · rename_i hbig
    obtain ⟨enc, henc, h⟩ := Option.bind_eq_some_iff.mp h
    cases enc with
    | error e =>
      cases h
      exact .inl ⟨_, rfl, rfl, fun p _ hp => (by cases henc.symm.trans hp)⟩
    | ok p =>
      dsimp only at h
      split at h
      · rename_i hagain
        cases h
        exact .inl ⟨_, rfl, rfl, fun p' _ hp => (by cases henc.symm.trans hp; exact hagain)⟩
      · obtain ⟨⟨stored, t⟩, hstore, heq⟩ := Option.map_eq_some_iff.mp h
        cases heq
        exact .inr ⟨p, stored, Nat.le_of_not_lt hbig, henc, hstore, rfl⟩

theorem set_eq (s : ShardCache) (env : Env) (key value : Bytes) (ttl : UInt32) :
    s.set H env key value ttl =
      (s.save H env false key value (if ttl > 0 then env.now + ttl else 0)).bind fun (res, s) =>
        match res with
        | .error e => some (.error e, s)
        | .ok (p, h) =>
          if p.compressed ∨ p.encrypted then some (.ok value, s)
          else (s.mgr.view h).map fun bytes => (bytes.mapError .arena, s) := by
  unfold set save
  split
  · rfl
  · cases s.encode env value with
    | none => rfl
    | some enc =>
      cases enc with
      | error e => rfl
      | ok p =>
        simp only [Option.bind_eq_bind, Option.bind_some, Bool.false_eq_true, false_and, if_false,
          Option.bind_map]
        refine congrArg _ (funext fun out => ?_)
        obtain ⟨stored, t⟩ := out
        cases stored with
        | error e => rfl
        | ok h =>
          dsimp only [Function.comp, Except.map]
          split
          · rfl
          · cases t.mgr.view h with
            | none => rfl
            | some bytes => cases bytes <;> rfl

/-- `Set` returns an error if the value is not stored, and otherwise unless its view fails. -/
theorem set_save {ttl : UInt32} {res : Except Error Bytes}
    (h : s.set H env key value ttl = some (res, s')) :
    ∃ r, s.save H env false key value (if ttl > 0 then env.now + ttl else 0) = some (r, s') ∧
      (∀ e, r = .error e → res = .error e) ∧
      ∀ p hd b, r = .ok (p, hd) → s'.mgr.view hd = some (.ok b) → ∃ b', res = .ok b' := by
  rw [set_eq] at h
  obtain ⟨⟨r, t⟩, hsave, h⟩ := Option.bind_eq_some_iff.mp h
  cases r with
  | error e =>
    cases h
    exact ⟨_, hsave, fun e he => (by cases he; rfl), fun p hd b hr => (by cases hr)⟩
  | ok out =>
    dsimp only at h
    split at h
    · cases h
      exact ⟨_, hsave, fun e he => (by cases he), fun p hd b _ _ => ⟨_, rfl⟩⟩
    · obtain ⟨bytes, hview, heq⟩ := Option.map_eq_some_iff.mp h
      cases heq
      refine ⟨_, hsave, fun e he => (by cases he), fun p hd b hr hb => ?_⟩
      cases hr
      cases hview.symm.trans hb
      exact ⟨b, rfl⟩

/-- A write with both checks, of which only whether it fails is reported. -/
theorem map_save {α : Type} (s : ShardCache) (env : Env) (key value : Bytes) (expiresAt : UInt32)
    (a : α) :
    ((s.save H env true key value expiresAt).map fun (res, s) => (res.map fun _ => a, s)) =
      if value.length > maxObjectSize then some (.error .tooLarge, s)
      else (do
        match ← s.encode env value with
        | .error e => some (.error e, s)
        | .ok p =>
          if p.bytes.length > maxObjectSize then some (.error .tooLarge, s)
          else
            match ← s.store H env key p expiresAt with
            | (.error e, s) => some (.error e, s)
            | (.ok _, s) => some (.ok a, s)) := by
  unfold save
  split
  · rfl
  · cases s.encode env value with
    | none => rfl
    | some enc =>
      cases enc with
      | error e => rfl
      | ok p =>
        simp only [Option.bind_eq_bind, Option.bind_some, true_and]
        split
        · rfl
        · cases s.store H env key p expiresAt with
          | none => rfl
          | some out =>
            obtain ⟨stored, t⟩ := out
            cases stored <;> rfl

theorem length_counterBytes (n : Int64) : (counterBytes n).length ≤ maxObjectSize := by
  simp only [counterBytes, leBytes_length, maxObjectSize]
  omega

theorem writeCounter_eq (s : ShardCache) (env : Env) (key : Bytes) (current : Int64)
    (expiresAt : UInt32) : s.writeCounter H env key current expiresAt =
      (s.save H env true key (counterBytes current) expiresAt).map fun (res, s) =>
        (res.map fun _ => current, s) := by
  rw [map_save, if_neg (Nat.not_lt.mpr (length_counterBytes current))]
  rfl

theorem cas_eq (s : ShardCache) (env : Env) (key expectedValue newValue : Bytes) :
    s.cas H env key expectedValue newValue = (do
      match ← s.idx.get H.hashKey key env.now with
      | none => some (.ok ⟨none, false⟩, s)
      | some (h, expiresAt) =>
        match ← (s.touched h).load (s.touched h).mgr h with
        | .error e => some (.error e, s.touched h)
        | .ok currentValue =>
          if currentValue ≠ expectedValue then
            some (.ok ⟨some currentValue, false⟩, s.touched h)
          else ((s.touched h).save H env true key newValue expiresAt).map fun (res, s) =>
            (res.map fun _ => ⟨none, true⟩, s)) := by
  simp only [map_save]
  rfl

end Horreum.Transport.ShardCache
