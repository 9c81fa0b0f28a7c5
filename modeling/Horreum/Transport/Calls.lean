/-
  Transport/Calls.lean --- the calls of a shard, one by one.

  Each call is reduced to the three changes of `Transport/Coherence.lean`.  The writing
  calls can evict; `callVictim` names the handle that a call gives up, as a function of
  the state it is made in.
-/
import Horreum.Compress.RoundTrip
import Horreum.Transport.Coherence
import Horreum.Transport.Saves

set_option autoImplicit false

namespace Horreum.Transport

open Foundation
open Arena (Handle Manager maxObjectSize)
open S3Fifo (Eviction)

/-- The calls on plain values. -/
inductive Call where
  | set (key value : Bytes) (ttlSeconds : UInt32)
  | get (key : Bytes)
  | cas (key expectedValue newValue : Bytes)
  | incr (key : Bytes) (delta : Int64)
  | delete (key : Bytes)
  | delPrefix (pre : Bytes)
  | deleteExpired (limit : Int)

namespace ShardCache

variable {H : Hashes} {s s' : ShardCache} {env : Env} {key value : Bytes} {p : Payload}
  {res : Except Error Bytes} {now : UInt32}

/-! ## Which handle a call gives up -/

/-- The handle given up when `value` is written now. -/
def writeVictim (H : Hashes) (s : ShardCache) (env : Env) (key value : Bytes) : Option Handle :=
  match s.encode env value with
  | some (.ok p) => s.storeVictim H env key p
  | _ => none

/-- The block that a SET gives back. -/
def setVictim (H : Hashes) (s : ShardCache) (env : Env) (key value : Bytes) : Option Handle :=
  if value.length > maxObjectSize then none else s.writeVictim H env key value

/-- `CAS` writes only when the stored value is the expected one. -/
def casVictim (H : Hashes) (s : ShardCache) (env : Env) (key expectedValue newValue : Bytes) :
    Option Handle :=
  match s.idx.get H.hashKey key env.now with
  | some (some (h, _)) =>
    match (s.touched h).load (s.touched h).mgr h with
    | some (.ok currentValue) =>
      if currentValue = expectedValue ∧ newValue.length ≤ maxObjectSize then
        (s.touched h).writeVictim H env key newValue
      else none
    | _ => none
  | _ => none

/-- The block that an INCR gives back. -/
def incrVictim (H : Hashes) (s : ShardCache) (env : Env) (key : Bytes) (delta : Int64) :
    Option Handle :=
  match s.idx.get H.hashKey key env.now with
  | some (some (h, _)) =>
    match (s.touched h).counter (s.touched h).mgr h with
    | some current => (s.touched h).writeVictim H env key (counterBytes (current + delta))
    | none => none
  | _ => s.writeVictim H env key (counterBytes (0 + delta))

/-- The handle that the call gives up in this state, if any. -/
def callVictim (H : Hashes) (s : ShardCache) (env : Env) : Call → Option Handle
  | .set key value _ => s.setVictim H env key value
  | .cas key expectedValue newValue => s.casVictim H env key expectedValue newValue
  | .incr key delta => s.incrVictim H env key delta
  | _ => none

/-! ## Writing calls -/

theorem encode_cases (h : s.encode env value = some (.ok p)) :
    ∃ cBuf, s.comp.compress value = some cBuf ∧ p.compressed = cBuf.isSome ∧
      ((s.cipher.isNone = true ∧ p.encrypted = false ∧ p.bytes = cBuf.getD value) ∨
        (s.cipher.isNone = false ∧ p.encrypted = true ∧
          s.cipher.encrypt env.nonce (cBuf.getD value) = .ok p.bytes)) := by
  obtain ⟨cBuf, hcomp, h⟩ := Option.bind_eq_some_iff.mp h
  refine ⟨cBuf, hcomp, ?_⟩
  cases hnone : s.cipher.isNone with
  | true =>
    obtain rfl : (⟨cBuf.getD value, cBuf.isSome, false⟩ : Payload) = p := by
      simpa [hnone] using h
    exact ⟨rfl, Or.inl ⟨rfl, rfl, rfl⟩⟩
  | false =>
    cases henc : s.cipher.encrypt env.nonce (cBuf.getD value) with
    | error e => simp [hnone, henc] at h
    | ok encBuf =>
      obtain rfl : (⟨encBuf, cBuf.isSome, true⟩ : Payload) = p := by
        simpa [hnone, henc] using h
      exact ⟨rfl, Or.inr ⟨rfl, rfl, rfl⟩⟩

/-- A payload of an admissible value is far below 4 GiB. -/
theorem encode_length (h : s.encode env value = some (.ok p))
    (hvalue : value.length ≤ maxObjectSize) : p.bytes.length < 2 ^ 32 := by
  obtain ⟨cBuf, hcomp, _, hcase⟩ := encode_cases h
  have hbuf : (cBuf.getD value).length ≤ value.length := by
    cases cBuf with
    | none => exact Nat.le_refl _
    | some out => exact Nat.le_of_lt (Compress.Compressor.length_compress_lt hcomp)
  have hpay : p.bytes.length ≤ value.length + (Encrypt.nonceSize + Encrypt.overhead) := by
    rcases hcase with ⟨_, _, hbytes⟩ | ⟨_, _, henc⟩
    · rw [hbytes]
      omega
    · have := Encrypt.Cipher.length_encrypt_le henc
      omega
  simp only [maxObjectSize, Encrypt.nonceSize, Encrypt.overhead] at *
  omega

/-- `value` was encoded and entered under `key`. -/
structure Wrote (H : Hashes) (s : ShardCache) (env : Env) (key value : Bytes)
    (s' : ShardCache) : Prop where
  written : ∃ p expiresAt h, s.encode env value = some (.ok p) ∧
    Written H s key p expiresAt h s'
  live : s.writeVictim H env key value = none → s'.mgr.liveObjs =
    s.mgr.liveObjs + 1 - (if (s.idx.lookup key).isSome then 1 else 0)

/-- A write fails and leaves everything as it is, or enters the value. -/
theorem save_wrote {again : Bool} {expiresAt : UInt32} {res : Except Error (Payload × Handle)}
    (hc : Coherent H s) (hspare : ∀ v, s.setVictim H env key value = some v → 8192 < v.size.toNat)
    (h : s.save H env again key value expiresAt = some (res, s')) :
    (∃ e, res = .error e ∧ Kept H s s') ∨
      ∃ p hd, res = .ok (p, hd) ∧ value.length ≤ maxObjectSize ∧ Wrote H s env key value s' ∧
        s'.mgr.view hd = some (.ok p.bytes) := by
  rcases save_cases h with ⟨e, rfl, rfl, _⟩ | ⟨p, stored, hvalue, henc, hstore, rfl⟩
  · exact .inl ⟨e, rfl, Kept.refl hc⟩
  have hvictim : s.setVictim H env key value = s.storeVictim H env key p := by
    simp only [setVictim, if_neg (Nat.not_lt.mpr hvalue), writeVictim, henc]
  rw [hvictim] at hspare
  obtain ⟨res', s'', hstore', hspec⟩ :=
    store_spec expiresAt hc (encode_length henc hvalue) hspare
  cases hstore.symm.trans hstore'
  cases stored with
  | error e => exact .inl ⟨e, rfl, hspec⟩
  | ok hd =>
    refine .inr ⟨p, hd, rfl, hvalue, ⟨⟨p, expiresAt, hd, henc, hspec.1⟩, ?_⟩, hspec.1.view⟩
    simp only [writeVictim, henc]
    exact hspec.2

/-- `Set` either fails and leaves everything as it is, or writes the value. -/
theorem set_cases {ttl : UInt32} (hc : Coherent H s)
    (hspare : ∀ v, s.setVictim H env key value = some v → 8192 < v.size.toNat)
    (h : s.set H env key value ttl = some (res, s')) :
    (∃ e, res = .error e ∧ Kept H s s') ∨
      ((∃ b, res = .ok b) ∧ value.length ≤ maxObjectSize ∧ Wrote H s env key value s') := by
  obtain ⟨r, hsave, herr, hok⟩ := set_save h
  rcases save_wrote hc hspare hsave with ⟨e, rfl, hkept⟩ | ⟨p, hd, rfl, hvalue, hw, hview⟩
  · exact .inl ⟨e, herr e rfl, hkept⟩
  · exact .inr ⟨hok p hd _ rfl hview, hvalue, hw⟩

theorem touched_kept (hc : Coherent H s) (h : Handle) : Kept H s (s.touched h) :=
  Kept.of_sameStore hc (Eviction.sameStore_touch s.ev s.mgr h)

theorem get_cases (hc : Coherent H s) (h : s.get H now key = some (res, s')) :
    (res = .error .notFound ∧ s' = s) ∨
      ∃ e, s.idx.lookup key = some e ∧ s' = s.touched e.handle ∧
        s'.load s'.mgr e.handle = some res := by
  unfold get at h
  rw [hc.idx.get] at h
  simp only [Option.bind_eq_bind, Option.bind_some] at h
  cases hl : s.idx.lookup key with
  | none =>
    simp only [hl, Option.bind_none] at h
    cases h
    exact Or.inl ⟨rfl, rfl⟩
  | some e =>
    simp only [hl, Option.bind_some] at h
    split at h
    · cases h
      exact Or.inl ⟨rfl, rfl⟩
    · rename_i hd exp hsome
      split at hsome
      · cases hsome
      · cases hsome
        obtain ⟨res', hload, h⟩ := Option.bind_eq_some_iff.mp h
        cases h
        exact Or.inr ⟨e, rfl, rfl, hload⟩

/-- `Get` leaves everything as it is, apart from the hit. -/
theorem get_kept (hc : Coherent H s) (h : s.get H now key = some (res, s')) : Kept H s s' := by
  rcases get_cases hc h with ⟨_, rfl⟩ | ⟨e, _, rfl, _⟩
  · exact Kept.refl hc
  · exact touched_kept hc e.handle

/-- `CAS` either leaves everything as it is, or writes the new value. -/
theorem cas_cases {expectedValue newValue : Bytes} {res : Except Error CasResult}
    (hc : Coherent H s)
    (hspare : ∀ v, s.casVictim H env key expectedValue newValue = some v → 8192 < v.size.toNat)
    (h : s.cas H env key expectedValue newValue = some (res, s')) :
    ((∀ r, res = .ok r → r.swapped = false) ∧ Kept H s s') ∨
      ∃ s₁, res = .ok ⟨none, true⟩ ∧ Kept H s s₁ ∧ Wrote H s₁ env key newValue s' ∧
        s₁.writeVictim H env key newValue =
          s.casVictim H env key expectedValue newValue := by
  rw [cas_eq] at h
  obtain ⟨found, hget, h⟩ := Option.bind_eq_some_iff.mp h
  cases found with
  | none =>
    cases h
    exact Or.inl ⟨fun r hr => by cases hr; rfl, Kept.refl hc⟩
  | some hit =>
    obtain ⟨hd, expiresAt⟩ := hit
    have hkept := touched_kept hc hd
    obtain ⟨loaded, hload, h⟩ := Option.bind_eq_some_iff.mp h
    cases loaded with
    | error e =>
      cases h
      exact Or.inl ⟨fun r hr => (by cases hr), hkept⟩
    | ok currentValue =>
      dsimp only at h
      split at h
      · cases h
        exact Or.inl ⟨fun r hr => by cases hr; rfl, hkept⟩
      · rename_i heq
        have hvictim : s.casVictim H env key expectedValue newValue =
            (s.touched hd).setVictim H env key newValue := by
          simp only [casVictim, hget, hload, not_not.mp heq, true_and, setVictim]
          split
          · rw [if_neg (by omega)]
          · rw [if_pos (by omega)]
        rw [hvictim] at hspare
        obtain ⟨⟨r, t⟩, hsave, heq⟩ := Option.map_eq_some_iff.mp h
        cases heq
        rcases save_wrote hkept.coherent hspare hsave with ⟨e, rfl, hk⟩ | ⟨_, _, rfl, hv, hw, _⟩
        · exact Or.inl ⟨fun r hr => (by cases hr), hkept.trans hk⟩
        · refine Or.inr ⟨s.touched hd, rfl, hkept, hw, ?_⟩
          rw [hvictim, setVictim, if_neg (Nat.not_lt.mpr hv)]

theorem writeCounter_cases {current : Int64} {expiresAt : UInt32} {res : Except Error Int64}
    (hc : Coherent H s)
    (hspare : ∀ v, s.writeVictim H env key (counterBytes current) = some v →
      8192 < v.size.toNat)
    (h : s.writeCounter H env key current expiresAt = some (res, s')) :
    (∃ e, res = .error e ∧ Kept H s s') ∨
      (res = .ok current ∧ Wrote H s env key (counterBytes current) s') := by
  rw [writeCounter_eq] at h
  obtain ⟨⟨r, t⟩, hsave, heq⟩ := Option.map_eq_some_iff.mp h
  cases heq
  have hvictim : s.setVictim H env key (counterBytes current) =
      s.writeVictim H env key (counterBytes current) :=
    if_neg (Nat.not_lt.mpr (length_counterBytes current))
  rcases save_wrote hc (hvictim ▸ hspare) hsave with ⟨e, rfl, hk⟩ | ⟨_, _, rfl, _, hw, _⟩
  · exact Or.inl ⟨e, rfl, hk⟩
  · exact Or.inr ⟨rfl, hw⟩

/-- `Incr` either fails and leaves everything as it is, or writes the sum it returns. -/
theorem incr_cases {delta : Int64} {res : Except Error Int64} (hc : Coherent H s)
    (hspare : ∀ v, s.incrVictim H env key delta = some v → 8192 < v.size.toNat)
    (h : s.incr H env key delta = some (res, s')) :
    (∃ e, res = .error e ∧ Kept H s s') ∨
      ∃ s₁ n, res = .ok n ∧ Kept H s s₁ ∧ Wrote H s₁ env key (counterBytes n) s' ∧
        s₁.writeVictim H env key (counterBytes n) = s.incrVictim H env key delta := by
  unfold incr at h
  obtain ⟨found, hget, h⟩ := Option.bind_eq_some_iff.mp h
  cases found with
  | none =>
    have hvictim : s.writeVictim H env key (counterBytes (0 + delta)) =
        s.incrVictim H env key delta := by
      simp only [incrVictim, hget]
    rw [← hvictim] at hspare
    rcases writeCounter_cases hc hspare h with herr | ⟨rfl, hw⟩
    · exact Or.inl herr
    · exact Or.inr ⟨s, _, rfl, Kept.refl hc, hw, hvictim⟩
  | some hit =>
    obtain ⟨hd, expiresAt⟩ := hit
    have hkept := touched_kept hc hd
    obtain ⟨current, hcur, h⟩ := Option.bind_eq_some_iff.mp h
    have hcur' : (s.touched hd).counter (s.touched hd).mgr hd = some current := hcur
    have hvictim : (s.touched hd).writeVictim H env key (counterBytes (current + delta)) =
        s.incrVictim H env key delta := by
      simp only [incrVictim, hget, hcur']
    rw [← hvictim] at hspare
    rcases writeCounter_cases hkept.coherent hspare h with ⟨e, rfl, hk⟩ | ⟨rfl, hw⟩
    · exact Or.inl ⟨e, rfl, hkept.trans hk⟩
    · exact Or.inr ⟨s.touched hd, _, rfl, hkept, hw, hvictim⟩

/-! ## Removing calls -/

theorem delete_dropped {res : Except Error Unit} (hc : Coherent H s)
    (h : s.delete H key = some (res, s')) : Dropped H s (s.idx.lookup key).toList s' := by
  obtain ⟨_, _, hdel, hd⟩ := delete_drops hc.idx key
  cases h.symm.trans hdel
  exact hd.dropped hc

theorem deleteExpired_dropped {limit : Int} (hc : Coherent H s)
    (h : s.deleteExpired H now limit = some s') :
    ∃ es, Dropped H s es s' ∧ ∀ e ∈ es, e.expired now = true := by
  obtain ⟨es, _, hdel, hd, hexp⟩ := deleteExpired_drops hc.idx now limit
  cases h.symm.trans hdel
  exact ⟨es, hd.dropped hc, hexp⟩

theorem delPrefix_dropped {pre : Bytes} {n : Nat} (hc : Coherent H s)
    (h : s.delPrefix H pre = some (n, s')) :
    ∃ es, Dropped H s es s' ∧ (∀ e ∈ es, pre <+: e.key) ∧
      ∀ k, pre <+: k → s'.idx.lookup k = none := by
  obtain ⟨es, _, _, hdel, hd, hrest⟩ := delPrefix_drops hc.idx pre
  cases h.symm.trans hdel
  exact ⟨es, hd.dropped hc, hrest⟩

end ShardCache

end Horreum.Transport
