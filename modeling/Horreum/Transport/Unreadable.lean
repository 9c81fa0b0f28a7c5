/-
  Transport/Unreadable.lean --- updates of a value that cannot be read.

  `CAS` hands the error of `Get` on.  `HSet`, `LPush`, `RPush` and `SAdd` drop it and start from an empty
  payload; `Incr` passes over codec errors and starts from the bytes as they are.  All but `RPush`,
  which panics on an empty payload, then write over the value.
-/
import Horreum.Ds.Records
import Horreum.Transport.Exchange

set_option autoImplicit false

namespace Horreum.Transport

open Foundation
open Encrypt (AEAD)

/-- The calls that read a key and write it, without the key. -/
inductive ReadModifyWrite where
  | hSet (field value : Bytes)
  | lPush (elem : Bytes)
  | rPush (elem : Bytes)
  | sAdd (member : Bytes)
  | cas (expectedValue newValue : Bytes)
  | incr (delta : Int64)
  deriving DecidableEq

namespace ShardCache

variable {H : Hashes} {s s' : ShardCache} {env : Env} {key : Bytes} {err : Error}

/-- The error that the call returns, and the shard after it. -/
def updateError (H : Hashes) (s : ShardCache) (env : Env) (key : Bytes) :
    ReadModifyWrite → Option (Option Error × ShardCache)
  | .hSet field value => (s.hSet H env key field value).map fun out => (out.1.2, out.2)
  | .lPush elem => (s.lPush H env key elem).map fun out => (out.1.2, out.2)
  | .rPush elem => (s.rPush H env key elem).map fun out => (out.1.2, out.2)
  | .sAdd member => (s.sAdd H env key member).map fun out => (out.1.2, out.2)
  | .cas expectedValue newValue =>
    (s.cas H env key expectedValue newValue).map fun out => (errorOf out.1, out.2)
  | .incr delta => (s.incr H env key delta).map fun out => (errorOf out.1, out.2)

/-- The call returned an error, and the key has the entry it had, with the same bytes in it. -/
def Refused (s : ShardCache) (key : Bytes) (out : Option (Option Error × ShardCache)) : Prop :=
  ∃ err s', out = some (some err, s') ∧ s'.idx.lookup key = s.idx.lookup key ∧
    ∀ e, s.idx.lookup key = some e → s'.mgr.view e.handle = s.mgr.view e.handle

/-- What the call makes of a value it could not read; `RPush` makes nothing of it. -/
def madeAfresh (s : ShardCache) (now : UInt32) (key : Bytes) : ReadModifyWrite → Option Bytes
  | .hSet field value => some (Ds.hSet [] field value).newRaw
  | .lPush elem => some (Ds.lPush [] elem)
  | .rPush elem => Ds.rPush [] elem
  | .sAdd member => some (Ds.sAdd [] member).1
  | .cas _ _ => none
  | .incr delta => do
    let e ← s.hit now key
    let current ← s.counter s.mgr e.handle
    some (counterBytes (current + delta))

theorem Undisturbed.refused (h : Undisturbed s s') (key : Bytes) (err : Error) :
    Refused s key (some (some err, s')) := by
  refine ⟨err, s', rfl, by rw [h.idx], fun e he => ?_⟩
  exact (h.frame e.handle ⟨key, e, he, rfl⟩).1

theorem not_refused_of_ok (s s' : ShardCache) (key : Bytes) :
    ¬Refused s key (some (none, s')) := by
  rintro ⟨err, t, hout, _⟩
  cases hout

/-- An error that is not a miss comes from an entry. -/
theorem hit_of_unreadable {now : UInt32} (hread : s.seen now key = some (.error err))
    (herr : err ≠ .notFound) : ∃ e, s.hit now key = some e := by
  cases hhit : s.hit now key with
  | some e => exact ⟨e, rfl⟩
  | none =>
    rw [seen, hhit] at hread
    cases hread
    exact absurd rfl herr

/-- A collection call that drops the error of `Get` is refused only if its `Set` is. -/
theorem Safe.dropped_error_iff {α : Type} {plan : Except Error Bytes → Plan α} {newRaw : Bytes}
    {reply : Option Error → α × Option Error} (h : Safe H s)
    (hread : s.seen env.now key = some (.error err))
    (hplan : plan (.error err) = .write newRaw none reply) (hreply : ∀ res, (reply res).2 = res) :
    Refused s key ((s.update H env key plan).map fun out => (out.1.2, out.2)) ↔
      s.stores env newRaw = false := by
  obtain ⟨read, hread', hspec⟩ := h.update env key plan
  cases hread.symm.trans hread'
  simp only [hplan] at hspec
  obtain ⟨res, s', hup, _, hspec⟩ := hspec
  rw [hup, Option.map_some, hreply]
  cases res with
  | error e =>
    have hun := (undisturbed_asked s env.now key).trans hspec.2
    exact iff_of_true (hun.refused key e) hspec.1
  | ok b =>
    refine iff_of_false (not_refused_of_ok s s' key) ?_
    rw [hspec.1]
    simp

theorem Safe.rPush_unreadable (h : Safe H s)
    (hread : s.seen env.now key = some (.error err)) (elem : Bytes) :
    s.rPush H env key elem = none := by
  obtain ⟨read, hread', hspec⟩ := h.update env key (rPushPlan elem)
  cases hread.symm.trans hread'
  exact hspec

theorem Safe.cas_unreadable {e : Entry} (h : Safe H s)
    (hread : s.seen env.now key = some (.error err)) (hhit : s.hit env.now key = some e)
    (expectedValue newValue : Bytes) :
    ∃ s', s.cas H env key expectedValue newValue = some (.error err, s') ∧ Undisturbed s s' := by
  obtain ⟨res, s', read, hcas, _, hread', hspec⟩ := h.cas env key expectedValue newValue
  cases hread.symm.trans hread'
  rcases hspec with ⟨hun, ⟨hnone, _⟩ | ⟨_, rfl⟩⟩
  · cases hhit.symm.trans hnone
  · exact ⟨s', hcas, hun⟩

/-- An update of a value that cannot be read returns an error and leaves the entry and its bytes
alone exactly if it is a `CAS`, or if the arena or a codec refuses what the call made instead. -/
theorem unreadable_kept_iff (h : Safe H s) (env : Env) {err : Error}
    (hread : s.read H env.now key = some (.error err)) (herr : err ≠ .notFound)
    (call : ReadModifyWrite) :
    Refused s key (s.updateError H env key call) ↔
      (∃ expectedValue newValue, call = .cas expectedValue newValue) ∨
        ∃ newRaw, s.madeAfresh env.now key call = some newRaw ∧ s.stores env newRaw = false := by
  rw [h.read] at hread
  obtain ⟨e, hhit⟩ := hit_of_unreadable hread herr
  cases call with
  | hSet field value | lPush elem | sAdd member =>
    simp only [madeAfresh, Option.some.injEq, exists_eq_left', reduceCtorEq, exists_false, false_or]
    exact h.dropped_error_iff hread rfl fun _ => rfl
  | rPush elem =>
    have hnone : s.updateError H env key (.rPush elem) = none := by
      rw [updateError, h.rPush_unreadable hread]
      rfl
    rw [hnone]
    constructor
    · rintro ⟨_, _, hout, _⟩
      cases hout
    · rintro (⟨_, _, hcall⟩ | ⟨newRaw, hnew, _⟩)
      · cases hcall
      · cases hnew
  | cas expectedValue newValue =>
    obtain ⟨s', hcas, hun⟩ := h.cas_unreadable hread hhit expectedValue newValue
    rw [updateError, hcas]
    exact iff_of_true (hun.refused key err) (.inl ⟨_, _, rfl⟩)
  | incr delta =>
    obtain ⟨current, res, s', hcur, hincr, _, hspec⟩ := h.incr_hit env delta hhit
    simp only [updateError, hincr, Option.map_some, madeAfresh, hhit, hcur, Option.bind_eq_bind,
      Option.bind_some, Option.some.injEq, exists_eq_left', reduceCtorEq, exists_false, false_or]
    cases res with
    | error e' => exact iff_of_true (hspec.2.refused key e') hspec.1
    | ok n =>
      refine iff_of_false (not_refused_of_ok s s' key) ?_
      rw [hspec.1]
      simp

/-- A cipher that puts a mark behind what it seals. -/
def endMark : AEAD where
  sealWith _ src := src ++ List.replicate 16 1
  openWith _ sealed :=
    if sealed.drop (sealed.length - 16) = List.replicate 16 1 then
      some (sealed.take (sealed.length - 16))
    else none
  length_seal _ _ := by simp [Encrypt.overhead]
  open_seal _ _ := by simp

/-- The environment of a call that may encrypt. -/
def sealing : Env := ⟨0, some ⟨List.replicate 12 0, rfl⟩, true⟩

/-- A shard with room for one handle in each queue, on which `b` was written into the block of `a`;
the entry of `a` is a byte shorter than what is there now. -/
def afterReuse : Option ShardCache :=
  (newShardCache 64 1 .noop (.aesgcm endMark)).bind fun s =>
    run (step Hashes.source) s
      [(sealing, .inl (.set [97] [1] 0)), (sealing, .inl (.set [98] [2, 3] 0)),
        (sealing, .inl (.set [98] [4, 5] 0))]

theorem reachable_afterReuse (h : afterReuse = some s) : Reachable Hashes.source s := by
  obtain ⟨s₀, hnew, hrun⟩ := Option.bind_eq_some_iff.mp h
  exact (reachable_new hnew).run hrun

/-- `CAS` of the key that cannot be read. -/
theorem unreadable_kept_iff_cas :
    ∃ s, afterReuse = some s ∧
      s.read Hashes.source 0 [97] = some (.error (.cipher .decryption)) ∧
      Refused s [97] (s.updateError Hashes.source sealing [97] (.cas [1] [6])) := by
  obtain ⟨s, hs, hread⟩ : ∃ s, afterReuse = some s ∧
      s.read Hashes.source 0 [97] = some (.error (.cipher .decryption)) := by
    decide +kernel
  exact ⟨s, hs, hread, (unreadable_kept_iff (reachable_afterReuse hs).safe sealing hread (by simp)
    (.cas [1] [6])).mpr (.inl ⟨_, _, rfl⟩)⟩

/-- `HSet` and `Incr` report success and have written over the value; `RPush` panics. -/
theorem unreadable_written_over :
    ∃ s s₁ s₂ : ShardCache, afterReuse = some s ∧
      s.read Hashes.source 0 [97] = some (.error (.cipher .decryption)) ∧
      s.hSet Hashes.source sealing [97] [5] [6] = some ((true, none), s₁) ∧
      s₁.read Hashes.source 0 [97] = some (.ok (Ds.hashBytes [([5], [6])])) ∧
      s.incr Hashes.source sealing [97] 1 = some (.ok 1, s₂) ∧
      s₂.read Hashes.source 0 [97] = some (.ok [1, 0, 0, 0, 0, 0, 0, 0]) ∧
      s.rPush Hashes.source sealing [97] [7] = none := by
  simp only [exists_and_left]
  decide +kernel

end ShardCache

end Horreum.Transport
