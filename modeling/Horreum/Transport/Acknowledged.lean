/-
  Transport/Acknowledged.lean --- collection writes that report success.

  What a collection call has stored is what the next `Get` answers, so it depends on the payload alone
  whether the write is found again.  It is not where the key held other bytes than a collection.  A pop
  stores the list from before the push before its slice of the longer one is read.
-/
import Horreum.Ds.ReadBack
import Horreum.Transport.Removals

set_option autoImplicit false

namespace Horreum.Transport

open Foundation
open Arena (maxObjectSize)
open Ds (Popped TakesField TakesMember TakesElem beforePush)

namespace ShardCache

variable {H : Hashes} {s s' : ShardCache} {env : Env} {key raw : Bytes}

/-- The payload that a collection call starts from. -/
def payloadAt (H : Hashes) (s : ShardCache) (now : UInt32) (key : Bytes) : Bytes :=
  ((s.read H now key).map payloadOf).getD []

theorem Safe.payloadAt {now : UInt32} {read : Except Error Bytes} (h : Safe H s)
    (hread : s.seen now key = some read) : s.payloadAt H now key = payloadOf read := by
  rw [ShardCache.payloadAt, h.read, hread]
  rfl

/-- What is there after a collection write that has reported success. -/
structure Acked (H : Hashes) (key newRaw : Bytes) (s' : ShardCache) : Prop where
  safe : Safe H s'
  seen : ∀ now, s'.seen now key = some (.ok newRaw)
  length_le : newRaw.length ≤ maxObjectSize

theorem Safe.acked {α : Type} {plan : Except Error Bytes → Plan α} {read : Except Error Bytes}
    {newRaw : Bytes} {inPlace : Option (Nat × Bytes)} {reply : Option Error → α × Option Error}
    {a : α} (h : Safe H s) (hread : s.seen env.now key = some read)
    (hup : s.update H env key plan = some ((a, none), s'))
    (hplan : plan read = .write newRaw inPlace reply) (hreply : ∀ e, (reply (some e)).2 = some e) :
    a = (reply none).1 ∧ Acked H key newRaw s' := by
  obtain ⟨read', hread', hspec⟩ := h.update env key plan
  cases hread.symm.trans hread'
  rw [hplan] at hspec
  obtain ⟨res, s₁, hup', hprog, hspec⟩ := hspec
  obtain ⟨hout, rfl⟩ := Prod.mk.inj (Option.some.inj (hup'.symm.trans hup))
  cases res with
  | error e =>
    have hnone := (hreply e).symm.trans (congrArg Prod.snd hout)
    cases hnone
  | ok b =>
    have ha : (reply none).1 = a := congrArg Prod.fst hout
    exact ⟨ha.symm, hprog.safe, hspec.2.1.seen_forever, ((h.stores_iff env _).mp hspec.1).1⟩

theorem Safe.hSet_acked {field value : Bytes} {updated : Bool} (h : Safe H s)
    (hset : s.hSet H env key field value = some ((updated, none), s')) :
    Acked H key (Ds.hSet (s.payloadAt H env.now key) field value).newRaw s' := by
  obtain ⟨read, hread⟩ := h.seen_total env.now key
  rw [h.payloadAt hread]
  exact (h.acked hread hset rfl fun _ => rfl).2

theorem Safe.sAdd_acked {member : Bytes} {added : Bool} (h : Safe H s)
    (hadd : s.sAdd H env key member = some ((added, none), s')) :
    added = (Ds.sAdd (s.payloadAt H env.now key) member).2 ∧
      Acked H key (Ds.sAdd (s.payloadAt H env.now key) member).1 s' := by
  obtain ⟨read, hread⟩ := h.seen_total env.now key
  rw [h.payloadAt hread]
  exact h.acked hread hadd rfl fun _ => rfl

theorem Safe.lPush_acked {elem : Bytes} {n : Nat} (h : Safe H s)
    (hpush : s.lPush H env key elem = some ((n, none), s')) :
    n = Ds.lLen (Ds.lPush (s.payloadAt H env.now key) elem) ∧
      Acked H key (Ds.lPush (s.payloadAt H env.now key) elem) s' := by
  obtain ⟨read, hread⟩ := h.seen_total env.now key
  rw [h.payloadAt hread]
  exact h.acked hread hpush rfl fun _ => rfl

theorem Acked.length_lt (h : Acked H key raw s) : raw.length < 2 ^ 32 :=
  Nat.lt_of_le_of_lt h.length_le (by decide)

/-! ## Reading it -/

theorem Acked.answer {α : Type} {plan : Except Error Bytes → Plan α} {value : α}
    {err : Option Error} (h : Acked H key raw s) (env : Env)
    (hplan : plan (.ok raw) = .answer value err) :
    s.update H env key plan = some ((value, err), s.asked env.now key) := by
  obtain ⟨read, hread, hspec⟩ := h.safe.update env key plan
  cases (h.seen env.now).symm.trans hread
  simpa only [hplan] using hspec

theorem Acked.hGet_iff (h : Acked H key raw s) (env : Env) (field value : Bytes) :
    (∃ s', s.hGet H env key field = some ((some value, none), s')) ↔
      Ds.hGet raw field = some value := by
  cases hget : Ds.hGet raw field with
  | none =>
    have hplan : hGetPlan field (.ok raw) = .answer none (some .notFound) := by
      simp only [hGetPlan, hget]
    rw [ShardCache.hGet, h.answer env hplan]
    simp
  | some v =>
    have hplan : hGetPlan field (.ok raw) = .answer (some v) none := by
      simp only [hGetPlan, hget]
    rw [ShardCache.hGet, h.answer env hplan]
    simp

theorem Acked.sIsMember_iff (h : Acked H key raw s) (env : Env) (member : Bytes) :
    (∃ s', s.sIsMember H env key member = some ((true, none), s')) ↔
      Ds.sIsMember raw member = true := by
  have hup := h.answer env (show sIsMemberPlan member (.ok raw) = .answer _ none from rfl)
  rw [ShardCache.sIsMember, hup]
  simp

theorem Acked.lLen (h : Acked H key raw s) (env : Env) :
    s.lLen H env key = some ((Ds.lLen raw, none), s.asked env.now key) :=
  h.answer env rfl

/-- What the pop leaves is not stored over the element that it returns. -/
def Spares (H : Hashes) (s : ShardCache) (env : Env) (key : Bytes) (p : Popped) : Prop :=
  p.newRaw = [] ∨ s.stores env p.newRaw = false ∨
    s.reread H { s with mgr := (s.asked env.now key).afterPut env p.newRaw } env.now key p.off
      p.elem = p.elem

instance (H : Hashes) (s : ShardCache) (env : Env) (key : Bytes) (p : Popped) :
    Decidable (Spares H s env key p) :=
  inferInstanceAs (Decidable (_ ∨ _ ∨ _))

/-- A pop returns the element it has found, unless that is written over first. -/
theorem Safe.popWith_returns_iff {pop : Bytes → Option Popped} {p : Popped} (h : Safe H s)
    (hread : s.seen env.now key = some (.ok raw)) (hpop : pop raw = some p)
    (hat : slice raw p.off (p.off + p.elem.length) = p.elem) :
    (∃ s', s.popWith H env key pop = some ((some p.elem, none), s')) ↔ Spares H s env key p := by
  obtain ⟨s', hup, _, hcase⟩ := h.popWith_some hread hpop
  have hreturns : (∃ t, s.popWith H env key pop = some ((some p.elem, none), t)) ↔
      s.reread H s' env.now key p.off p.elem = p.elem := by
    rw [hup]
    simp
  rw [hreturns, Spares]
  cases hcase with
  | removed hnil her =>
    exact iff_of_true (h.reread_self hread (fun g _ => (her.frame g trivial).1) hat) (.inl hnil)
  | refused hne hno hun =>
    refine iff_of_true (h.reread_self hread (fun g hv => ?_) hat) (.inr (.inl hno))
    obtain ⟨e, _, hhit, rfl, _⟩ := h.viewed_cases hv
    exact (hun.frame e.handle ⟨key, e, (lookup_of_hit hhit).1, rfl⟩).1
  | stored hne hyes _ hviews =>
    have hsame : s.reread H s' env.now key p.off p.elem = s.reread H { s with
        mgr := (s.asked env.now key).afterPut env p.newRaw } env.now key p.off p.elem :=
      reread_congr hviews env.now key p.off p.elem
    simp only [hsame, hne, hyes, Bool.true_eq_false, false_or]

/-- The pop of what was pushed last. -/
theorem Acked.lPop_iff {elem : Bytes} (h : Acked H key (Ds.lPush raw elem) s) (env : Env) :
    (∃ s', s.lPop H env key = some ((some elem, none), s')) ↔
      TakesElem raw ∧ Spares H s env key ⟨beforePush raw, 8, elem⟩ := by
  have helem : elem.length < 2 ^ 32 := Nat.lt_of_le_of_lt (Ds.length_elem_le raw elem) h.length_lt
  by_cases htakes : TakesElem raw
  · have hiff := h.safe.popWith_returns_iff (h.seen env.now) (Ds.lPop_lPush helem htakes)
      (Ds.slice_lPush raw elem)
    simp only [htakes, true_and]
    exact hiff
  · obtain ⟨e, hup⟩ := h.safe.popWith_none (h.seen env.now) (fun raw' heq => by
      cases heq
      exact Ds.lPop_lPush_none htakes)
    rw [ShardCache.lPop, hup]
    simp [htakes]

/-- What a collection write has reported is found again by the next call exactly if the payload it
met takes the new record: a payload without a count, one that has the field or the member already,
or one behind which the lookup goes on to the new record.  A list takes every element it can
count, and a pop returns it if the arena does not hand out the block of the list for the shorter
one. -/
theorem acknowledged_found_iff (hr : Reachable H s) (env env' : Env) (key : Bytes) :
    (∀ field value updated s', field.length ≤ 65535 →
      s.hSet H env key field value = some ((updated, none), s') →
      ((∃ s'', s'.hGet H env' key field = some ((some value, none), s'')) ↔
        TakesField (s.payloadAt H env.now key) field value)) ∧
    (∀ member added s', member.length ≤ 65535 →
      s.sAdd H env key member = some ((added, none), s') →
      ((∃ s'', s'.sIsMember H env' key member = some ((true, none), s'')) ↔
        TakesMember (s.payloadAt H env.now key) member)) ∧
    (∀ elem n s', s.lPush H env key elem = some ((n, none), s') →
      ((∃ s'', s'.lLen H env' key = some ((n, none), s'')) ∧
          (∃ s'', s'.lPop H env' key = some ((some elem, none), s'')) ↔
        TakesElem (s.payloadAt H env.now key) ∧
          Spares H s' env' key ⟨beforePush (s.payloadAt H env.now key), 8, elem⟩)) := by
  have hs := hr.safe
  refine ⟨fun field value updated s' hfield hset => ?_, fun member added s' hmember hadd => ?_,
    fun elem n s' hpush => ?_⟩
  · have hack := hs.hSet_acked hset
    have hvalue := Nat.lt_of_le_of_lt (Ds.length_value_le _ field value) hack.length_lt
    rw [hack.hGet_iff, Ds.hGet_hSet_iff hfield hvalue]
  · rw [(hs.sAdd_acked hadd).2.sIsMember_iff, Ds.sIsMember_sAdd_iff hmember]
  · obtain ⟨hn, hack⟩ := hs.lPush_acked hpush
    have hlen : ∃ s'', s'.lLen H env' key = some ((n, none), s'') := ⟨_, hn ▸ hack.lLen env'⟩
    rw [hack.lPop_iff, and_iff_right hlen]

/-- A second field of a hash. -/
theorem acknowledged_found_iff_second_field :
    ∃ s s' s'' : ShardCache, stateAfter 1024 40 [(⟨0, none, true⟩, .inr (.hSet [107] [1] [7]))] = some s ∧
      s.hSet Hashes.source ⟨3, none, true⟩ [107] [2] [8] = some ((true, none), s') ∧
      s'.hGet Hashes.source ⟨9, none, true⟩ [107] [2] = some ((some [8], none), s'') := by
  obtain ⟨s, hs, htakes, s', hset⟩ : ∃ s : ShardCache,
      stateAfter 1024 40 [(⟨0, none, true⟩, .inr (.hSet [107] [1] [7]))] = some s ∧
      TakesField (s.payloadAt Hashes.source 3 [107]) [2] [8] ∧
      ∃ s', s.hSet Hashes.source ⟨3, none, true⟩ [107] [2] [8] = some ((true, none), s') := by
    decide +kernel
  obtain ⟨s'', hget⟩ := ((acknowledged_found_iff (reachable_stateAfter hs) ⟨3, none, true⟩
    ⟨9, none, true⟩ [107]).1 [2] [8] true s' (by decide) hset).mpr htakes
  exact ⟨s, s', s'', hs, hset, hget⟩

/-- `SET k hello`, then `HSET k` and `SADD k`: both report a new entry, and neither is found. -/
theorem new_record_not_found :
    ∃ s s₁ t₁ s₂ t₂ : ShardCache,
      stateAfter 1024 40 [(⟨0, none, true⟩, .inl (.set [107] [104, 101, 108, 108, 111] 0))] = some s ∧
      s.hSet Hashes.source ⟨0, none, true⟩ [107] [1] [7] = some ((true, none), s₁) ∧
      s₁.hGet Hashes.source ⟨0, none, true⟩ [107] [1] = some ((none, some .notFound), t₁) ∧
      s.sAdd Hashes.source ⟨0, none, true⟩ [107] [5] = some ((true, none), s₂) ∧
      s₂.sIsMember Hashes.source ⟨0, none, true⟩ [107] [5] = some ((false, none), t₂) := by
  simp only [exists_and_left]
  decide +kernel

end ShardCache

end Horreum.Transport
