/-
  Transport/Expiry.lean --- deadlines.

  The deadline of a key is a 32-bit sum, and `0` stands for no deadline.  Where the sum wraps, the
  key is gone at once; where it stays in range it is exact, and stays so over calls on other keys
  and sweeps.  `CAS` and `Incr` carry the deadline of a key along.  The collection calls write
  with `Set(key, newRaw, 0)` and so take it away.
-/
import Horreum.Transport.Exchange
import Horreum.Transport.Isolation

set_option autoImplicit false

namespace Horreum.Transport

open Foundation
open Arena (Handle)

namespace ShardCache

variable {H : Hashes} {s s' : ShardCache} {env : Env} {key value : Bytes} {e : Entry}

/-! ## Exact deadlines -/

/-- What `Get` answers for a key with this value and deadline. -/
def shown (value : Bytes) (expiresAt now : UInt32) : Except Error Bytes :=
  if expiresAt ≠ 0 ∧ expiresAt ≤ now then .error .notFound else .ok value

/-- From `start` on, exactly the times before `start + ttl` get the value. -/
def ExactFrom (start ttl : UInt32) (value : Bytes)
    (answer : UInt32 → Option (Except Error Bytes)) : Prop :=
  ∀ now, start ≤ now →
    (now.toNat < start.toNat + ttl.toNat → answer now = some (.ok value)) ∧
      (start.toNat + ttl.toNat ≤ now.toNat → answer now = some (.error .notFound))

/-- The sum is an exact deadline unless it goes beyond `2 ^ 32`; `2 ^ 32` itself is never reached,
as is `0`. -/
theorem exactFrom_shown_iff {start ttl : UInt32} (httl : ttl ≠ 0) (value : Bytes) :
    ExactFrom start ttl value (fun now => some (shown value (start + ttl) now)) ↔
      start.toNat + ttl.toNat ≤ 2 ^ 32 := by
  have hstart := start.toNat_lt
  have hlt := ttl.toNat_lt
  have hpos : 0 < ttl.toNat := Nat.pos_of_ne_zero fun h => httl (UInt32.toNat_inj.mp h)
  have hsum : (start + ttl).toNat = (start.toNat + ttl.toNat) % 2 ^ 32 := UInt32.toNat_add ..
  have hover : ∀ now : UInt32, (start + ttl ≠ 0 ∧ start + ttl ≤ now) ↔
      (start.toNat + ttl.toNat) % 2 ^ 32 ≠ 0 ∧ (start.toNat + ttl.toNat) % 2 ^ 32 ≤ now.toNat := by
    intro now
    rw [UInt32.le_iff_toNat_le, hsum, ne_eq, ← UInt32.toNat_inj, hsum]
    rfl
  constructor
  · intro hexact
    by_contra hbig
    have hnow := (hexact start (UInt32.le_refl start)).1 (by omega)
    have hdue := (hover start).mpr (by omega)
    simp [shown, hdue] at hnow
  · intro hle now _
    have htime := now.toNat_lt
    constructor
    · intro hbefore
      have hlive : ¬(start + ttl ≠ 0 ∧ start + ttl ≤ now) := by
        rw [hover]
        omega
      simp only [shown, if_neg hlive]
    · intro hafter
      have hdue : start + ttl ≠ 0 ∧ start + ttl ≤ now := by
        rw [hover]
        omega
      simp only [shown, if_pos hdue]

theorem Stores.read {expiresAt : UInt32} (h : Stores s env key value expiresAt s')
    (hs' : Safe H s') (now : UInt32) :
    s'.read H now key = some (shown value expiresAt now) := by
  rw [hs'.read, h.seen]
  rfl

theorem deadline_of_ne_zero {now ttl : UInt32} (h : ttl ≠ 0) :
    (if ttl > 0 then now + ttl else 0) = now + ttl :=
  if_pos (UInt32.pos_iff_ne_zero.mpr h)

/-- The key shows this value until its deadline, or has been swept after it. -/
def Dated (H : Hashes) (key value : Bytes) (expiresAt last : UInt32) (s : ShardCache) : Prop :=
  Coherent H s ∧
    ((∃ e, s.idx.lookup key = some e ∧ e.expiresAt = expiresAt ∧
        s.load s.mgr e.handle = some (.ok value)) ∨
      s.idx.lookup key = none ∧ expiresAt ≠ 0 ∧ expiresAt ≤ last)

theorem Dated.step {expiresAt last : UInt32} {call : AnyCall} (h : Dated H key value expiresAt last s)
    (hok : SparesBlocks H s call ∧ writesKey key call.2 = false ∧ call.1.now ≤ last)
    (hstep : s.step H call = some s') : Dated H key value expiresAt last s' := by
  obtain ⟨hc, hcase⟩ := h
  obtain ⟨hspare, hkey, hlast⟩ := hok
  refine ⟨hc.step hspare hstep, ?_⟩
  rcases hc.step_other hspare hkey hstep with hl | ⟨hnone, e', he', hexp⟩
  · rw [hl.lookup key rfl]
    refine hcase.imp_left ?_
    rintro ⟨e, he, hdate, hload⟩
    exact ⟨e, he, hdate, (hl.load rfl he).trans hload⟩
  · refine .inr ⟨hnone, ?_⟩
    obtain ⟨hne, hle⟩ : e'.expiresAt ≠ 0 ∧ e'.expiresAt ≤ call.1.now := by
      simpa [Entry.expired] using hexp
    rcases hcase with ⟨e, he, hdate, _⟩ | ⟨hgone, _⟩
    · cases he.symm.trans he'
      exact ⟨hdate ▸ hne, hdate ▸ UInt32.le_trans hle hlast⟩
    · cases hgone.symm.trans he'

theorem Dated.read {expiresAt last : UInt32} (h : Dated H key value expiresAt last s) :
    s.read H last key = some (shown value expiresAt last) := by
  obtain ⟨hc, hcase⟩ := h
  rw [ShardCache.read, get_eq hc.idx, Option.map_map]
  refine Option.map_id'.trans ?_
  unfold shown seen hit
  rcases hcase with ⟨e, he, rfl, hload⟩ | ⟨hnone, hdue⟩
  · by_cases hexp : e.expiresAt ≠ 0 ∧ e.expiresAt ≤ last
    · have hexp' : e.expired last = true := by simpa [Entry.expired] using hexp
      simp [he, Option.filter, hexp', hexp]
    · have hexp' : e.expired last = false := by
        rw [← Bool.not_eq_true]
        simpa [Entry.expired] using hexp
      rw [if_neg hexp]
      simpa [he, Option.filter, hexp'] using hload
  · rw [hnone, if_pos hdue]
    rfl

/-- Right after a `Set` that reports success the deadline is exact if and only if the sum is at
most `2 ^ 32`.  If it is, it also stays exact over any calls that do not write the key, as long
as the eviction policy gives up no block that can be handed out again. -/
theorem deadline_exact_iff (H : Hashes) (ttl : UInt32) (httl : ttl ≠ 0) :
    (∀ {s s' : ShardCache} {env : Env} {key value out : Bytes}, Reachable H s →
      s.set H env key value ttl = some (.ok out, s') →
      (ExactFrom env.now ttl value (fun now => s'.read H now key) ↔
        env.now.toNat + ttl.toNat ≤ 2 ^ 32)) ∧
    (∀ {regionSize evictCapacity : Nat} {comp : Compress.Compressor} {cipher : Encrypt.Cipher}
      {s₀ s s₁ s₂ : ShardCache} {env : Env} {key value out : Bytes} (before after : List AnyCall)
      {now : UInt32}, newShardCache regionSize evictCapacity comp cipher = some s₀ →
      Guarded (ShardCache.step H) (SparesBlocks H) s₀ before →
      run (ShardCache.step H) s₀ before = some s →
      SparesBlocks H s (env, .inl (.set key value ttl)) →
      s.set H env key value ttl = some (.ok out, s₁) →
      Guarded (ShardCache.step H) (fun s call =>
        SparesBlocks H s call ∧ writesKey key call.2 = false ∧ call.1.now ≤ now) s₁ after →
      run (ShardCache.step H) s₁ after = some s₂ → env.now ≤ now →
      env.now.toNat + ttl.toNat ≤ 2 ^ 32 →
      (now.toNat < env.now.toNat + ttl.toNat → s₂.read H now key = some (.ok value)) ∧
        (env.now.toNat + ttl.toNat ≤ now.toNat →
          s₂.read H now key = some (.error .notFound))) := by
  constructor
  · intro s s' env key value out hr hset
    obtain ⟨res, s₁, hset', hprog, hspec⟩ := hr.safe.set env key value ttl
    cases hset.symm.trans hset'
    have hst := hspec.2.1
    rw [deadline_of_ne_zero httl] at hst
    have hread := hst.read hprog.safe
    simp only [hread]
    exact exactFrom_shown_iff httl value
  · intro regionSize evictCapacity comp cipher s₀ s s₁ s₂ env key value out before after now hnew
      hguard hrun hspare hset hguard' hrun' hnow hle
    have hcoh : Coherent H s := by
      refine run_invariant (Coherent H) (fun t call t' hc hok hstep => ?_) before s₀ s
        (coherent_new hnew).1 hguard hrun
      exact hc.step hok hstep
    have hdated : Dated H key value (env.now + ttl) now s₁ := by
      have hs := (reachable_new hnew).run hrun
      obtain ⟨res, t, hset', hprog, hspec⟩ := hs.safe.set env key value ttl
      cases hset.symm.trans hset'
      have hst := hspec.2.1
      rw [deadline_of_ne_zero httl] at hst
      obtain ⟨hd, hlook, hload⟩ := hst.load
      have hstep : s.step H (env, .inl (.set key value ttl)) = some s₁ := by
        simp only [ShardCache.step, afterCall, hset, Option.map_some]
      refine ⟨hcoh.step hspare hstep, .inl ⟨⟨key, hd, env.now + ttl⟩, ?_, rfl, hload⟩⟩
      rw [hlook, Function.update_self]
    have hend := run_invariant (Dated H key value (env.now + ttl) now)
      (fun _ _ _ hd hok hstep => hd.step hok hstep) after s₁ s₂ hdated hguard' hrun'
    have hread := hend.read
    rw [hread]
    exact (exactFrom_shown_iff httl value).mpr hle now hnow

/-- A deadline that is in range, with a write of another key and a sweep before the read. -/
theorem deadline_exact_iff_in_range :
    ∃ s₀ s₁ s₂ : ShardCache, ∃ out, newShardCache 1024 40 .noop .noop = some s₀ ∧
      s₀.set Hashes.source ⟨2, none, true⟩ [107] [118] 5 = some (.ok out, s₁) ∧
      run (ShardCache.step Hashes.source) s₁ [(⟨3, none, true⟩, .inl (.set [97] [1] 0)),
        (⟨6, none, true⟩, .inl (.deleteExpired 10))] = some s₂ ∧
      s₁.read Hashes.source 6 [107] = some (.ok [118]) ∧
      s₂.read Hashes.source 6 [107] = some (.ok [118]) := by
  obtain ⟨s₀, hnew, hspare, out, s₁, hset, hguard, s₂, hrun⟩ : ∃ s₀ : ShardCache,
      newShardCache 1024 40 .noop .noop = some s₀ ∧
      SparesBlocks Hashes.source s₀ (⟨2, none, true⟩, .inl (.set [107] [118] 5)) ∧ ∃ out s₁,
        s₀.set Hashes.source ⟨2, none, true⟩ [107] [118] 5 = some (.ok out, s₁) ∧
        Guarded (ShardCache.step Hashes.source) (fun s call =>
          SparesBlocks Hashes.source s call ∧ writesKey [107] call.2 = false ∧ call.1.now ≤ 6) s₁
          [(⟨3, none, true⟩, .inl (.set [97] [1] 0)), (⟨6, none, true⟩, .inl (.deleteExpired 10))] ∧
        ∃ s₂, run (ShardCache.step Hashes.source) s₁ [(⟨3, none, true⟩, .inl (.set [97] [1] 0)),
          (⟨6, none, true⟩, .inl (.deleteExpired 10))] = some s₂ := by
    decide +kernel
  have hexact := deadline_exact_iff Hashes.source 5 (by decide)
  refine ⟨s₀, s₁, s₂, out, hnew, hset, hrun, ?_, ?_⟩
  · exact ((hexact.1 (reachable_new hnew) hset).mpr (by decide) 6 (by decide)).1 (by decide)
  · exact (hexact.2 [] _ hnew trivial rfl hspare hset hguard hrun (by decide) (by decide)).1
      (by decide)

/-- In November 2023, a key with a lifetime of 127 years: the sum wraps and the key is gone in
the second in which it is written. -/
theorem deadline_wraps :
    ∃ s s' : ShardCache, ∃ out, newShardCache 1024 40 .noop .noop = some s ∧
      s.set Hashes.source ⟨1700000000, none, true⟩ [107] [118] 4000000000 = some (.ok out, s') ∧
      s'.read Hashes.source 1700000000 [107] = some (.error .notFound) := by
  obtain ⟨s, hnew, out, s', hset, hread⟩ : ∃ s : ShardCache,
      newShardCache 1024 40 .noop .noop = some s ∧ ∃ out s',
        s.set Hashes.source ⟨1700000000, none, true⟩ [107] [118] 4000000000 = some (.ok out, s') ∧
        s'.read Hashes.source 1700000000 [107] = some (.error .notFound) := by
    decide +kernel
  exact ⟨s, s', out, hnew, hset, hread⟩

/-! ## Updates -/

/-- The updates in place of a key. -/
def updatesKey (key : Bytes) : Call ⊕ CollectionCall → Bool
  | .inl (.cas k _ _) => k = key
  | .inl (.incr k _) => k = key
  | .inr (.hSet k _ _) => k = key
  | .inr (.hDel k _) => k = key
  | .inr (.lPush k _) => k = key
  | .inr (.rPush k _) => k = key
  | .inr (.lPop k) => k = key
  | .inr (.rPop k) => k = key
  | .inr (.sAdd k _) => k = key
  | .inr (.sRem k _) => k = key
  | _ => false

/-- The payload that a plan gives to `Set`. -/
def planned {α : Type} (s : ShardCache) (env : Env) (key : Bytes)
    (plan : Except Error Bytes → Plan α) : Option Bytes :=
  match (s.seen env.now key).map plan with
  | some (.write newRaw _ _) => some newRaw
  | _ => none

/-- The payload that an update gives to `Set`, if it gets there. -/
def rewritten (s : ShardCache) (env : Env) : Call ⊕ CollectionCall → Option Bytes
  | .inr (.hSet k field value) => s.planned env k (hSetPlan field value)
  | .inr (.hDel k field) => s.planned env k (hDelPlan field)
  | .inr (.lPush k elem) => s.planned env k (lPushPlan elem)
  | .inr (.rPush k elem) => s.planned env k (rPushPlan elem)
  | .inr (.lPop k) => s.planned env k (popPlan Ds.lPop)
  | .inr (.rPop k) => s.planned env k (popPlan Ds.rPop)
  | .inr (.sAdd k member) => s.planned env k (sAddPlan member)
  | .inr (.sRem k member) => s.planned env k (sRemPlan member)
  | _ => none

theorem expiry_of_hit {now : UInt32} (h : s.hit now key = some e) :
    s.expiry key = some e.expiresAt := by
  rw [ShardCache.expiry, (lookup_of_hit h).1]
  rfl

/-- A collection call keeps the expiry if it gets to no `Set` that stores something. -/
theorem Safe.update_expiry {α : Type} {plan : Except Error Bytes → Plan α}
    {out : (α × Option Error) × ShardCache} (h : Safe H s) (hhit : s.hit env.now key = some e)
    (hup : s.update H env key plan = some out) (hstays : (out.2.expiry key).isSome = true) :
    out.2.expiry key = some e.expiresAt ↔
      e.expiresAt = 0 ∨ ∀ newRaw, s.planned env key plan = some newRaw →
        s.stores env newRaw = false := by
  have hexp := expiry_of_hit hhit
  obtain ⟨read, hread, hspec⟩ := h.update env key plan
  simp only [planned, hread, Option.map_some]
  cases hcase : plan read with
  | answer value err =>
    simp only [hcase] at hspec
    cases hspec.symm.trans hup
    have hsame : (s.asked env.now key).expiry key = s.expiry key := by
      simp only [ShardCache.expiry, (undisturbed_asked s env.now key).idx]
    rw [hsame]
    simp [hexp]
  | write newRaw inPlace reply =>
    simp only [hcase] at hspec
    obtain ⟨res, s', hup', _, hspec⟩ := hspec
    cases hup'.symm.trans hup
    simp only [Option.some.injEq, forall_eq']
    cases res with
    | error err =>
      obtain ⟨hno, hun⟩ := hspec
      have hsame : s'.expiry key = s.expiry key := by
        simp only [ShardCache.expiry, hun.idx, (h.scribbled env key inPlace).2.2]
      simp [hsame, hexp, hno]
    | ok b =>
      obtain ⟨hyes, hst, _⟩ := hspec
      rw [hst.expiry, hyes, Option.some_inj]
      simp [eq_comm]
  | remove value =>
    simp only [hcase] at hspec
    obtain ⟨s', hup', _, her⟩ := hspec
    cases hup'.symm.trans hup
    obtain ⟨hl, _⟩ := lookup_of_hit hhit
    have hmem : key ∈ (s.idx.lookup key).toList.map Entry.key := by
      simp [hl, h.idx.key_of_lookup hl]
    rw [ShardCache.expiry, her.removed.lookup, if_pos hmem] at hstays
    cases hstays
  | crash =>
    simp only [hcase] at hspec
    cases hspec.symm.trans hup

theorem Undisturbed.expiry_of_hit {now : UInt32} (h : Undisturbed s s')
    (hhit : s.hit now key = some e) : s'.expiry key = some e.expiresAt := by
  rw [ShardCache.expiry, h.idx]
  exact ShardCache.expiry_of_hit hhit

theorem Safe.cas_expiry {expectedValue newValue : Bytes} {out : Except Error CasResult × ShardCache}
    (h : Safe H s) (hhit : s.hit env.now key = some e)
    (hcas : s.cas H env key expectedValue newValue = some out) :
    out.2.expiry key = some e.expiresAt := by
  obtain ⟨res, s₁, read, hcas', _, _, hspec⟩ := h.cas env key expectedValue newValue
  cases hcas.symm.trans hcas'
  cases read with
  | error err => exact hspec.1.expiry_of_hit hhit
  | ok currentValue =>
    rcases hspec with ⟨_, _, hun⟩ | ⟨_, _, hun⟩ | ⟨_, _, e', hhit', hst⟩
    · exact hun.expiry_of_hit hhit
    · exact hun.expiry_of_hit hhit
    · cases hhit.symm.trans hhit'
      exact hst.expiry

theorem Safe.incr_expiry {delta : Int64} {out : Except Error Int64 × ShardCache} (h : Safe H s)
    (hhit : s.hit env.now key = some e)
    (hincr : s.incr H env key delta = some out) : out.2.expiry key = some e.expiresAt := by
  obtain ⟨res, s₁, hincr', _, hspec⟩ := h.incr env key delta
  cases hincr.symm.trans hincr'
  cases res with
  | error err => exact hspec.expiry_of_hit hhit
  | ok n =>
    rw [hspec.expiry, hhit]
    rfl

/-- An update of a live key keeps its expiry exactly if there is none, or if the update does not
come to a `Set` that stores something.  `CAS` and `Incr` never do. -/
theorem update_keeps_expiry_iff (hr : Reachable H s) (env : Env) {call : Call ⊕ CollectionCall}
    {e : Entry} (hlive : s.hit env.now key = some e) (hcall : updatesKey key call = true)
    (hstep : s.step H (env, call) = some s') (hstays : (s'.expiry key).isSome = true) :
    s'.expiry key = some e.expiresAt ↔
      e.expiresAt = 0 ∨ ∀ newRaw, s.rewritten env call = some newRaw →
        s.stores env newRaw = false := by
  have hs := hr.safe
  rcases call with call | call
  · cases call with
    | cas k expectedValue newValue =>
      obtain rfl : k = key := by simpa [updatesKey] using hcall
      obtain ⟨out, hcas, rfl⟩ := Option.map_eq_some_iff.mp hstep
      exact iff_of_true (hs.cas_expiry hlive hcas) (.inr fun newRaw hno => by cases hno)
    | incr k delta =>
      obtain rfl : k = key := by simpa [updatesKey] using hcall
      obtain ⟨out, hincr, rfl⟩ := Option.map_eq_some_iff.mp hstep
      exact iff_of_true (hs.incr_expiry hlive hincr) (.inr fun newRaw hno => by cases hno)
    | _ => cases hcall
  · cases call with
    | lPop k | rPop k =>
      obtain rfl : k = key := by simpa [updatesKey] using hcall
      obtain ⟨out, hpop, rfl⟩ := Option.map_eq_some_iff.mp hstep
      obtain ⟨out', hup, hout⟩ := popWith_update hpop
      rw [hout] at hstays ⊢
      exact hs.update_expiry hlive hup hstays
    | hSet k field value | hDel k field | lPush k elem | rPush k elem | sAdd k member
      | sRem k member =>
        obtain rfl : k = key := by simpa [updatesKey] using hcall
        obtain ⟨out, hup, rfl⟩ := Option.map_eq_some_iff.mp hstep
        exact hs.update_expiry hlive hup hstays
    | _ => cases hcall

/-- A counter that expires is counted up. -/
theorem update_keeps_expiry_iff_incr :
    ∃ s s' : ShardCache, ∃ e, stateAfter 1024 40
        [(⟨0, none, true⟩, .inl (.set [107] [1, 0, 0, 0, 0, 0, 0, 0] 9))] = some s ∧
      s.hit 3 [107] = some e ∧
      s.step Hashes.source (⟨3, none, true⟩, .inl (.incr [107] 1)) = some s' ∧
      s'.expiry [107] = some e.expiresAt := by
  obtain ⟨s, hs, ⟨e, hhit⟩, s', hstep, hstays⟩ : ∃ s : ShardCache, stateAfter 1024 40
        [(⟨0, none, true⟩, .inl (.set [107] [1, 0, 0, 0, 0, 0, 0, 0] 9))] = some s ∧
      (∃ e, s.hit 3 [107] = some e) ∧ ∃ s',
        s.step Hashes.source (⟨3, none, true⟩, .inl (.incr [107] 1)) = some s' ∧
        (s'.expiry [107]).isSome = true := by
    decide +kernel
  refine ⟨s, s', e, hs, hhit, hstep, ?_⟩
  exact (update_keeps_expiry_iff (reachable_stateAfter hs) ⟨3, none, true⟩ hhit rfl hstep
    hstays).mpr (.inr fun newRaw hno => by cases hno)

/-- A set with one member and a deadline.  Adding the member again changes nothing in the set and
takes the deadline away. -/
theorem sAdd_takes_deadline :
    ∃ s s' : ShardCache, stateAfter 1024 40
        [(⟨0, none, true⟩, .inl (.set [107] (Ds.setBytes [[5]]) 9))] = some s ∧
      s.expiry [107] = some 9 ∧
      s.step Hashes.source (⟨3, none, true⟩, .inr (.sAdd [107] [5])) = some s' ∧
      s'.expiry [107] = some 0 := by
  simp only [exists_and_left]
  decide +kernel

end ShardCache

end Horreum.Transport
