/-
  Transport/FailedWrites.lean --- collection writes whose `Set` fails.

  `HDel`, `LPush`, `RPush` and `SAdd` build the new payload beside the old one, so a failure leaves
  every key as it was.  `HSet` of a value as long as the old one writes into the payload that
  `Get` returned; where that is a view of the arena, the new value is there before `Set` is called
  and stays when it fails.
-/
import Horreum.Transport.Expiry

set_option autoImplicit false

namespace Horreum.Transport

open Foundation
open Arena (Handle Manager)
open Arena.Manager (flagMask)

namespace ShardCache

variable {H : Hashes} {s s' : ShardCache} {env : Env} {key value : Bytes} {err : Error} {off : Nat}
  {now : UInt32}

/-- The error that a collection write returns, and the shard after it. -/
def writeError (H : Hashes) (s : ShardCache) (env : Env) :
    CollectionCall → Option (Option Error × ShardCache)
  | .hSet key field value => (s.hSet H env key field value).map fun out => (out.1.2, out.2)
  | .hDel key field => (s.hDel H env key field).map fun out => (out.1.2, out.2)
  | .lPush key elem => (s.lPush H env key elem).map fun out => (out.1.2, out.2)
  | .rPush key elem => (s.rPush H env key elem).map fun out => (out.1.2, out.2)
  | .sAdd key member => (s.sAdd H env key member).map fun out => (out.1.2, out.2)
  | _ => none

/-- The call changes bytes of the arena before it calls `Set`: an `HSet` of a value as long as the
old one but different from it, on a key that is stored without codecs. -/
def overwrites (H : Hashes) (s : ShardCache) (env : Env) : CollectionCall → Bool
  | .hSet key field value =>
    (s.viewed H env.now key).isSome &&
      match s.seen env.now key with
      | some (.ok raw) => (Ds.hSet raw field value).inPlace.any fun off =>
        slice raw off (off + value.length) ≠ value
      | _ => false
  | _ => false

theorem isView_congr {m m' : Manager} {h : Handle}
    (hflags : m'.getMeta h &&& flagMask = m.getMeta h &&& flagMask) :
    isView m' h = isView m h := by
  have he := flag_congr Arena.encryptedFlag hflags (by decide)
  have hc := flag_congr Arena.compressedFlag hflags (by decide)
  simp only [isView, he, hc]

theorem viewed_eq (hwf : s.idx.Wf H.hashKey) (now : UInt32) (key : Bytes) :
    s.viewed H now key =
      (s.hit now key).bind fun e => if isView s.mgr e.handle then some e.handle else none := by
  unfold viewed
  rw [index_get hwf]
  cases s.hit now key <;> rfl

/-- The hit does not change whether the slice is a view. -/
theorem Safe.viewed_asked (h : Safe H s) (now : UInt32) (key : Bytes) :
    (s.asked now key).viewed H now key = s.viewed H now key := by
  have hun := undisturbed_asked s now key
  rw [viewed_eq h.idx, viewed_eq (h.asked now key).safe.idx, hun.hit]
  obtain ⟨mgr, heq, hs⟩ := s.asked_sameStore now key
  have hview : ∀ g, isView (s.asked now key).mgr g = isView s.mgr g := by
    intro g
    rw [heq]
    exact isView_congr (hs.flags g)
  simp only [hview]

theorem Safe.viewed_cases (h : Safe H s) {g : Handle} (hv : s.viewed H now key = some g) :
    ∃ e raw, s.hit now key = some e ∧ e.handle = g ∧ isView s.mgr g = true ∧
      s.mgr.Within g ∧ s.mgr.view g = some (.ok raw) ∧ s.seen now key = some (.ok raw) := by
  rw [viewed_eq h.idx] at hv
  obtain ⟨e, hhit, hv⟩ := Option.bind_eq_some_iff.mp hv
  split at hv
  · rename_i hview
    cases hv
    obtain ⟨raw, hraw, _⟩ := (h.within_hit hhit).view_ok h.arena
    refine ⟨e, raw, hhit, rfl, hview, h.within_hit hhit, hraw, ?_⟩
    rw [seen, hhit]
    exact load_of_isView hview hraw
  · cases hv

/-- A write through the slice of the bytes that are there already. -/
theorem Safe.scribble_same (h : Safe H s) {bytes raw : Bytes}
    (hread : s.seen now key = some (.ok raw)) (hfit : off + bytes.length ≤ raw.length)
    (hsame : slice raw off (off + bytes.length) = bytes) :
    Undisturbed s (s.scribble H now key (some (off, bytes))) := by
  unfold ShardCache.scribble
  cases hv : s.viewed H now key with
  | none => exact Undisturbed.refl s
  | some g =>
    obtain ⟨e, raw', _, _, _, hin, hview, hseen⟩ := h.viewed_cases hv
    cases hread.symm.trans hseen
    obtain ⟨r, hr, hview'⟩ := hin.view h.arena
    cases hview.symm.trans hview'
    refine ⟨rfl, fun g' _ => ⟨?_, by rw [Manager.getMeta_poke]⟩, rfl, rfl⟩
    refine Manager.view_poke_same hr ?_ g'
    rw [Cells.length_read] at hfit
    rw [Manager.slice_read _ hfit] at hsame
    exact hsame

/-- A write through the slice of other bytes is seen by the key. -/
theorem Safe.scribble_seen (h : Safe H s) {g : Handle} {bytes raw : Bytes}
    (hv : s.viewed H now key = some g) (hread : s.seen now key = some (.ok raw))
    (hfit : off + bytes.length ≤ raw.length) :
    (s.scribble H now key (some (off, bytes))).seen now key =
      some (.ok (raw.take off ++ bytes ++ raw.drop (off + bytes.length))) := by
  obtain ⟨e, raw', hhit, heq, hview, hin, hraw, hseen⟩ := h.viewed_cases hv
  cases hread.symm.trans hseen
  have hscr : s.scribble H now key (some (off, bytes)) = { s with mgr := s.mgr.poke g off bytes } := by
    simp only [ShardCache.scribble, hv]
  have hhit' : (s.scribble H now key (some (off, bytes))).hit now key = some e := by
    rw [hscr]
    exact hhit
  rw [seen, hhit', hscr]
  simp only [heq]
  refine load_of_isView ?_ (hin.view_poke h.arena hraw hfit)
  have hsame : isView (s.mgr.poke g off bytes) g = isView s.mgr g :=
    isView_congr (by rw [Manager.getMeta_poke])
  exact hsame.trans hview

/-- A collection call that does not write through the slice and returns an error. -/
theorem Safe.update_error {α : Type} {plan : Except Error Bytes → Plan α} (h : Safe H s)
    (hplan : Reports plan) {a : α} (hup : s.update H env key plan = some ((a, some err), s')) :
    Safe H s' ∧ Undisturbed s s' := by
  obtain ⟨read, _, hspec⟩ := h.update env key plan
  cases hcase : plan read with
  | answer value err' =>
    simp only [hcase] at hspec
    cases hspec.symm.trans hup
    exact ⟨(h.asked env.now key).safe, undisturbed_asked s env.now key⟩
  | write newRaw inPlace reply =>
    simp only [hcase] at hspec
    obtain ⟨res, t, hup', hprog, hspec⟩ := hspec
    obtain ⟨rfl, hreply⟩ := hplan read newRaw inPlace reply hcase
    have hr := hreply (errorOf res)
    obtain ⟨hout, rfl⟩ := Prod.mk.inj (Option.some.inj (hup'.symm.trans hup))
    rw [hout] at hr
    cases res with
    | ok b => cases hr
    | error e => exact ⟨hprog.safe, (undisturbed_asked s env.now key).trans hspec.2⟩
  | remove value =>
    simp only [hcase] at hspec
    obtain ⟨t, hup', _⟩ := hspec
    cases hup'.symm.trans hup
  | crash =>
    simp only [hcase] at hspec
    cases hspec.symm.trans hup

/-- `HSet` that returns an error leaves what the `Set` found. -/
theorem Safe.hSet_error {field : Bytes} {updated : Bool} (h : Safe H s)
    (hup : s.hSet H env key field value = some ((updated, some err), s')) :
    ∃ read, s.seen env.now key = some read ∧ Safe H s' ∧
      Undisturbed (s.scribbled H env key
        ((Ds.hSet (payloadOf read) field value).inPlace.map fun off => (off, value))) s' := by
  obtain ⟨read, hread, hspec⟩ := h.update env key (hSetPlan field value)
  simp only [hSetPlan] at hspec
  obtain ⟨res, t, hup', hprog, hspec⟩ := hspec
  cases res with
  | ok b => cases hup'.symm.trans hup
  | error e =>
    cases hup'.symm.trans hup
    exact ⟨read, hread, hprog.safe, hspec.2⟩

/-- A payload with other bytes put into it is another payload. -/
theorem patched_eq_iff {raw bytes : Bytes} (hfit : off + bytes.length ≤ raw.length) :
    raw.take off ++ bytes ++ raw.drop (off + bytes.length) = raw ↔
      slice raw off (off + bytes.length) = bytes := by
  have hsplit : raw = raw.take off ++ slice raw off (off + bytes.length) ++
      raw.drop (off + bytes.length) := by
    rw [slice, Nat.add_sub_cancel_left, List.append_assoc, ← List.drop_drop,
      List.take_append_drop, List.take_append_drop]
  constructor
  · intro h
    have hmid := congrArg (fun b => slice b off (off + bytes.length)) h
    simp only [List.append_assoc] at hmid
    rw [slice_append (by simp; omega) rfl] at hmid
    exact hmid.symm
  · intro h
    conv_rhs => rw [hsplit, h]

/-- Where such a call fails, nothing is read differently. -/
theorem Safe.failed_update_reads {α : Type} {plan : Except Error Bytes → Plan α} (h : Safe H s)
    (hplan : Reports plan)
    (hcall : ((s.update H env key plan).map fun out => (out.1.2, out.2)) = some (some err, s'))
    (k : Bytes) (now : UInt32) : s'.read H now k = s.read H now k := by
  obtain ⟨⟨⟨a, err'⟩, t⟩, hup, heq⟩ := Option.map_eq_some_iff.mp hcall
  cases heq
  obtain ⟨hs', hun⟩ := h.update_error hplan hup
  exact hun.read h hs' now k

/-- After a write through the slice at `off`, the reads are what they were if the slice is no view
or the bytes were there already. -/
theorem Safe.overwritten_iff (h : Safe H s) (hs' : Safe H s') {raw : Bytes}
    (hread : s.seen env.now key = some (.ok raw)) (hfit : off + value.length ≤ raw.length)
    (hun : Undisturbed (s.scribbled H env key (some (off, value))) s') :
    (∀ k now, s'.read H now k = s.read H now k) ↔
      (s.viewed H env.now key).isSome = false ∨ slice raw off (off + value.length) = value := by
  have hasked := (h.asked env.now key).safe
  have hdone := undisturbed_asked s env.now key
  have hread' : (s.asked env.now key).seen env.now key = some (.ok raw) :=
    (hdone.seen _ _).trans hread
  by_cases heq : slice raw off (off + value.length) = value
  · have hun' := hdone.trans ((hasked.scribble_same hread' hfit heq).trans hun)
    exact iff_of_true (fun k now => hun'.read h hs' now k) (.inr heq)
  · cases hv : s.viewed H env.now key with
    | none =>
      have hscr : s.scribbled H env key (some (off, value)) = s.asked env.now key := by
        simp only [ShardCache.scribbled, ShardCache.scribble, h.viewed_asked, hv]
      rw [hscr] at hun
      exact iff_of_true (fun k now => (hdone.trans hun).read h hs' now k) (.inl rfl)
    | some g =>
      have hscr := hasked.scribble_seen ((h.viewed_asked env.now key).trans hv) hread' hfit
      refine iff_of_false (fun hall => heq ?_) (by simp [heq])
      have hnow := hall key env.now
      rw [h.read, hs'.read, hread, hun.seen] at hnow
      have hpatch := hscr.symm.trans hnow
      simp only [Option.some.injEq, Except.ok.injEq] at hpatch
      exact (patched_eq_iff hfit).mp hpatch

theorem Safe.failed_hSet_iff (h : Safe H s) {field : Bytes} {updated : Bool}
    (hup : s.hSet H env key field value = some ((updated, some err), s')) :
    (∀ k now, s'.read H now k = s.read H now k) ↔
      s.overwrites H env (.hSet key field value) = false := by
  obtain ⟨read, hread, hs', hun⟩ := h.hSet_error hup
  simp only [overwrites, hread]
  cases hplace : (Ds.hSet (payloadOf read) field value).inPlace with
  | none =>
    rw [hplace] at hun
    have hun' := (undisturbed_asked s env.now key).trans hun
    refine iff_of_true (fun k now => hun'.read h hs' now k) ?_
    cases read with
    | error e => simp
    | ok raw =>
      simp only [payloadOf, Except.toOption, Option.getD_some] at hplace
      simp [hplace]
  | some off =>
    rw [hplace] at hun
    cases read with
    | error e => simp [payloadOf, Except.toOption, Ds.hSet] at hplace
    | ok raw =>
      simp only [payloadOf, Except.toOption, Option.getD_some] at hplace
      obtain ⟨hfit, _⟩ := Ds.hSet_inPlace hplace
      simp only [hplace, Option.any_some, ne_eq, Bool.and_eq_false_iff, decide_eq_false_iff_not,
        not_not]
      exact h.overwritten_iff hs' hread hfit hun

/-- A collection write that returns an error leaves the answers of `Get` as they were, for every
key, exactly if it has not changed the arena before it called `Set`. -/
theorem failed_write_harmless_iff (hr : Reachable H s) (env : Env) {call : CollectionCall}
    {err : Error} (hcall : s.writeError H env call = some (some err, s')) :
    (∀ k now, s'.read H now k = s.read H now k) ↔ s.overwrites H env call = false := by
  have hs := hr.safe
  cases call with
  | hSet key field value =>
    obtain ⟨⟨⟨updated, err'⟩, t⟩, hup, heq⟩ := Option.map_eq_some_iff.mp hcall
    cases heq
    exact hs.failed_hSet_iff hup
  | hDel key field => exact iff_of_true (hs.failed_update_reads (reports_hDelPlan field) hcall) rfl
  | lPush key elem => exact iff_of_true (hs.failed_update_reads (reports_lPushPlan elem) hcall) rfl
  | rPush key elem => exact iff_of_true (hs.failed_update_reads (reports_rPushPlan elem) hcall) rfl
  | sAdd key member =>
    exact iff_of_true (hs.failed_update_reads (reports_sAddPlan member) hcall) rfl
  | _ => cases hcall

/-- A list that has outgrown the regions of the arena. -/
theorem failed_write_harmless_iff_lPush :
    ∃ s s' : ShardCache, stateAfter 16 40 [(⟨0, none, true⟩, .inr (.lPush [107] [1]))] = some s ∧
      s.writeError Hashes.source ⟨0, none, true⟩ (.lPush [107] [1, 2, 3, 4, 5, 6, 7, 8, 9]) =
        some (some (.arena .arenaFull), s') ∧
      ∀ k now, s'.read Hashes.source now k = s.read Hashes.source now k := by
  obtain ⟨s, hs, s', hcall⟩ : ∃ s : ShardCache,
      stateAfter 16 40 [(⟨0, none, true⟩, .inr (.lPush [107] [1]))] = some s ∧ ∃ s',
        s.writeError Hashes.source ⟨0, none, true⟩ (.lPush [107] [1, 2, 3, 4, 5, 6, 7, 8, 9]) =
          some (some (.arena .arenaFull), s') := by
    decide +kernel
  exact ⟨s, s', hs, hcall,
    (failed_write_harmless_iff (reachable_stateAfter hs) ⟨0, none, true⟩ hcall).mpr rfl⟩

/-- A hash with one field, and 255 values that are too large for a region: each maps one before it
fails.  The last region is filled too. -/
def fillArena : List AnyCall :=
  (⟨0, none, true⟩, .inr (.hSet [107] [1] [2])) ::
    (List.replicate 255 (⟨0, none, true⟩, .inl (.set [98] (List.replicate 17 0) 0)) ++
      [(⟨0, none, true⟩, .inl (.set [99] (List.replicate 12 0) 0))])

/-- `HSet` reports that the arena is full, and the field has the new value. -/
theorem hSet_fails_and_writes :
    ∃ s s' : ShardCache, stateAfter 16 40 fillArena = some s ∧
      s.writeError Hashes.source ⟨0, none, true⟩ (.hSet [107] [1] [3]) =
        some (some (.arena .arenaFull), s') ∧
      s.read Hashes.source 0 [107] = some (.ok (Ds.hashBytes [([1], [2])])) ∧
      s'.read Hashes.source 0 [107] = some (.ok (Ds.hashBytes [([1], [3])])) := by
  simp only [exists_and_left]
  decide +kernel

end ShardCache

end Horreum.Transport
