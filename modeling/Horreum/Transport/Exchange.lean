/-
  Transport/Exchange.lean --- reading what was written, and compare-and-swap.

  A value goes through the compressor and the cipher into the arena, with two flag bits in a
  meta word that the eviction policy writes to as well.  In every reachable state, whatever the
  queues still refer to, a write that reports success is read back unchanged, and `CAS` decides
  by what `Get` would have answered.
-/
import Horreum.Transport.Reachable

set_option autoImplicit false

namespace Horreum.Transport

open Foundation

namespace ShardCache

variable {H : Hashes} {s s' : ShardCache} {env : Env} {key value : Bytes}

/-- The answer of `Get`. -/
def read (H : Hashes) (s : ShardCache) (now : UInt32) (key : Bytes) :
    Option (Except Error Bytes) :=
  (s.get H now key).map Prod.fst

/-- The expiry of a key that is in the index. -/
def expiry (s : ShardCache) (key : Bytes) : Option UInt32 :=
  (s.idx.lookup key).map Entry.expiresAt

theorem Safe.read (h : Safe H s) (now : UInt32) (key : Bytes) :
    s.read H now key = s.seen now key := by
  rw [ShardCache.read, get_eq h.idx, Option.map_map]
  exact Option.map_id'

theorem Undisturbed.read (h : Undisturbed s s') (hs : Safe H s) (hs' : Safe H s') (now : UInt32)
    (key : Bytes) : s'.read H now key = s.read H now key := by
  rw [hs.read, hs'.read, h.seen]

/-- The key is there with this expiry, and `Get` answers with the value until then. -/
structure ReadsBack (H : Hashes) (s : ShardCache) (key value : Bytes) (expiresAt : UInt32) :
    Prop where
  expiry : s.expiry key = some expiresAt
  read : ∀ now, expiresAt = 0 ∨ now < expiresAt → s.read H now key = some (.ok value)

theorem Stores.expiry {expiresAt : UInt32} (h : Stores s env key value expiresAt s') :
    s'.expiry key = some expiresAt := by
  obtain ⟨hd, hlook, _⟩ := h.load
  rw [ShardCache.expiry, hlook, Function.update_self]
  rfl

theorem Stores.readsBack {expiresAt : UInt32} (h : Stores s env key value expiresAt s')
    (hs' : Safe H s') : ReadsBack H s' key value expiresAt := by
  refine ⟨h.expiry, fun now hnow => ?_⟩
  have hlive : ¬(expiresAt ≠ 0 ∧ expiresAt ≤ now) := by
    rintro ⟨hne, hle⟩
    rcases hnow with hzero | hlt
    · exact hne hzero
    · exact absurd hle (UInt32.not_le.mpr hlt)
  rw [hs'.read, h.seen, if_neg hlive]

/-- The deadline of `Set`, as long as the sum stays below `2 ^ 32`. -/
theorem deadline_toNat {now ttl : UInt32} (h : now.toNat + ttl.toNat < 2 ^ 32) :
    (if ttl > 0 then now + ttl else 0).toNat = if ttl = 0 then 0 else now.toNat + ttl.toNat := by
  by_cases hz : ttl = 0
  · subst hz
    rfl
  · have hpos : ttl > 0 := UInt32.pos_iff_ne_zero.mpr hz
    rw [if_pos hpos, if_neg hz, UInt32.toNat_add, Nat.mod_eq_of_lt h]

/-- Read your own write. -/
theorem read_own_write (hr : Reachable H s) (env : Env) (key : Bytes) :
    (∀ value ttl out s', env.now.toNat + ttl.toNat < 2 ^ 32 →
      s.set H env key value ttl = some (.ok out, s') →
      ∃ expiresAt, expiresAt.toNat = (if ttl = 0 then 0 else env.now.toNat + ttl.toNat) ∧
        ReadsBack H s' key value expiresAt) ∧
    (∀ expectedValue value res s', s.cas H env key expectedValue value = some (.ok res, s') →
      res.swapped = true →
      ∃ expiresAt, s.expiry key = some expiresAt ∧ ReadsBack H s' key value expiresAt) ∧
    (∀ delta n s', s.incr H env key delta = some (.ok n, s') →
      ∃ expiresAt, ReadsBack H s' key (leBytes 8 n.toUInt64.toNat) expiresAt) := by
  have hs := hr.safe
  refine ⟨?_, ?_, ?_⟩
  · intro value ttl out s' hsum hset
    obtain ⟨res, s₁, hset', hprog, hspec⟩ := hs.set env key value ttl
    cases hset.symm.trans hset'
    exact ⟨_, deadline_toNat hsum, hspec.2.1.readsBack hprog.safe⟩
  · intro expectedValue value res s' hcas hswap
    obtain ⟨res', s₁, seen, hcas', hprog, _, hspec⟩ := hs.cas env key expectedValue value
    cases hcas.symm.trans hcas'
    cases seen with
    | error e =>
      rcases hspec with ⟨_, ⟨_, hres⟩ | ⟨_, hres⟩⟩
      · cases hres
        cases hswap
      · cases hres
    | ok currentValue =>
      rcases hspec with ⟨_, hres, _⟩ | ⟨_, ⟨e, hres⟩, _⟩ | ⟨_, _, e, hhit, hst⟩
      · cases hres
        cases hswap
      · cases hres
      · exact ⟨e.expiresAt, by rw [expiry, (lookup_of_hit hhit).1]; rfl,
          hst.readsBack hprog.safe⟩
  · intro delta n s' hincr
    obtain ⟨res, s₁, hincr', hprog, hspec⟩ := hs.incr env key delta
    cases hincr.symm.trans hincr'
    exact ⟨_, hspec.readsBack hprog.safe⟩

/-- A key that is written over with a deadline, and read shortly before it. -/
theorem read_own_write_before_deadline :
    ∃ s out s', stateAfter 1024 40 [(⟨0, none, true⟩, .inl (.set [97] [1] 0))] = some s ∧
      s.set Hashes.source ⟨10, none, true⟩ [97] [2, 3] 5 = some (.ok out, s') ∧
      s'.read Hashes.source 14 [97] = some (.ok [2, 3]) := by
  obtain ⟨s, hs, out, s', hset, _⟩ : ∃ s,
      stateAfter 1024 40 [(⟨0, none, true⟩, .inl (.set [97] [1] 0))] = some s ∧ ∃ out s',
        s.set Hashes.source ⟨10, none, true⟩ [97] [2, 3] 5 = some (.ok out, s') ∧ True := by
    decide +kernel
  obtain ⟨expiresAt, hexp, hback⟩ :=
    (read_own_write (reachable_stateAfter hs) ⟨10, none, true⟩ [97]).1 [2, 3] 5 out s' (by decide) hset
  have hexp : expiresAt = 15 := UInt32.toNat_inj.mp hexp
  subst hexp
  exact ⟨s, out, s', hs, hset, hback.read 14 (.inr (by decide))⟩

/-- `CAS` compares with what `Get` would answer, changes nothing unless it swaps, and keeps the
expiry when it does. -/
theorem cas_exact (hr : Reachable H s) (env : Env) (key expectedValue newValue : Bytes) :
    ∃ res s', s.cas H env key expectedValue newValue = some (res, s') ∧
      (∀ r, res = .ok r → r.swapped = true → s.read H env.now key = some (.ok expectedValue)) ∧
      (∀ currentValue, s.read H env.now key = some (.ok currentValue) →
        currentValue ≠ expectedValue → res = .ok ⟨some currentValue, false⟩) ∧
      ((∀ r, res = .ok r → r.swapped = false) →
        ∀ k, s'.expiry k = s.expiry k ∧ ∀ now, s'.read H now k = s.read H now k) ∧
      (∀ r, res = .ok r → r.swapped = true →
        (s.expiry key).isSome = true ∧ s'.expiry key = s.expiry key) := by
  have hs := hr.safe
  obtain ⟨res, s', seen, hcas, hprog, hseen, hspec⟩ := hs.cas env key expectedValue newValue
  have hread : s.read H env.now key = some seen := (hs.read env.now key).trans hseen
  refine ⟨res, s', hcas, ?_⟩
  rw [hread]
  -- an outcome that leaves everything alone
  have hsame : Undisturbed s s' →
      ∀ k, s'.expiry k = s.expiry k ∧ ∀ now, s'.read H now k = s.read H now k := by
    intro hun k
    exact ⟨by rw [expiry, expiry, hun.idx], fun now => hun.read hs hprog.safe now k⟩
  cases seen with
  | error e =>
    obtain ⟨hun, hres⟩ := hspec
    have hno : ∀ r, res = .ok r → r.swapped = false := by
      intro r hr
      rcases hres with ⟨_, rfl⟩ | ⟨_, rfl⟩
      · cases hr
        rfl
      · cases hr
    refine ⟨fun r hr hsw => ?_, fun v hv => (by cases hv), fun _ => hsame hun,
      fun r hr hsw => ?_⟩ <;> (rw [hno r hr] at hsw; cases hsw)
  | ok currentValue =>
    rcases hspec with ⟨hne, rfl, hun⟩ | ⟨rfl, ⟨e, rfl⟩, hun⟩ | ⟨rfl, rfl, e, hhit, hst⟩
    · refine ⟨fun r hr hsw => ?_, fun v hv _ => ?_, fun _ => hsame hun, fun r hr hsw => ?_⟩
      · cases hr
        cases hsw
      · cases hv
        rfl
      · cases hr
        cases hsw
    · refine ⟨fun r hr => (by cases hr), fun v hv hne => ?_, fun _ => hsame hun,
        fun r hr => (by cases hr)⟩
      cases hv
      exact absurd rfl hne
    · have hexp : s.expiry key = some e.expiresAt := by
        rw [expiry, (lookup_of_hit hhit).1]
        rfl
      refine ⟨fun _ _ _ => rfl, fun v hv hne => ?_, fun hno => ?_, fun _ _ _ => ?_⟩
      · cases hv
        exact absurd rfl hne
      · cases hno _ rfl
      · exact ⟨by rw [hexp]; rfl, by rw [hexp, (hst.readsBack hprog.safe).expiry]⟩

/-- A swap of a key that expires. -/
theorem cas_exact_swap :
    ∃ s s', stateAfter 1024 40 [(⟨0, none, true⟩, .inl (.set [97] [1] 9))] = some s ∧
      s.cas Hashes.source ⟨3, none, true⟩ [97] [1] [2] = some (.ok ⟨none, true⟩, s') ∧
      s.read Hashes.source 3 [97] = some (.ok [1]) ∧ s'.expiry [97] = s.expiry [97] := by
  obtain ⟨s, hs, r, s', hcas, rfl⟩ : ∃ s,
      stateAfter 1024 40 [(⟨0, none, true⟩, .inl (.set [97] [1] 9))] = some s ∧ ∃ r s',
        s.cas Hashes.source ⟨3, none, true⟩ [97] [1] [2] = some (.ok r, s') ∧ r = ⟨none, true⟩ := by
    decide +kernel
  obtain ⟨res, s₁, hcas₁, hsw, _, _, hexp⟩ :=
    cas_exact (reachable_stateAfter hs) ⟨3, none, true⟩ [97] [1] [2]
  cases hcas.symm.trans hcas₁
  exact ⟨s, s', hs, hcas, hsw _ rfl rfl, (hexp _ rfl rfl).2⟩

end ShardCache

end Horreum.Transport
