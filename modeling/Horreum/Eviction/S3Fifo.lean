/-
  Eviction/S3Fifo.lean --- the S3-FIFO policy of `internal/eviction/s3fifo.go`.

  Two queues of handles and a ghost table, with counters and queue tags in the meta words of the
  arena; no operation touches blocks, bytes or codec flags (`SameStore`).  `victim?` is which handle
  `Add` gives up, as a function of the state before the call.
-/
import Horreum.Arena.Ownership
import Horreum.Eviction.Queue

set_option autoImplicit false

namespace Horreum.S3Fifo

open Foundation (Bytes)
open Arena (Handle Manager queueTagMask queueTagS queueTagM)
open Arena.Manager (SameStore)

/-- The share of the capacity that goes to the S queue, in percent. -/
def smallPct : Nat := 10

/-- The two queues and the ghost index. -/
structure Eviction where
  sq : RingBuffer
  mq : RingBuffer
  gh : GhostIndex

/-- Zero capacity panics; the product is taken in 64 bits. -/
def new (capacity : Nat) : Option Eviction := do
  if capacity = 0 then none
  else
    let sCap := capacity * smallPct % 2 ^ 64 / 100
    let sCap := if sCap = 0 then 1 else sCap
    let mCap := capacity - sCap
    let mCap := if mCap = 0 then 1 else mCap
    let sq ← newRingBuffer sCap
    let mq ← newRingBuffer mCap
    let gh ← newGhostIndex mCap
    some ⟨sq, mq, gh⟩

namespace Eviction

/-- The slots of both queues. -/
def capacity (e : Eviction) : Nat := e.sq.cap + e.mq.cap

/-- Pop M.  A handle that was used goes back to the tail with one hit less; another one
is given up. -/
def evictM (e : Eviction) (mgr : Manager) : List Handle × Eviction × Manager :=
  match e.mq.pop with
  | none => ([], e, mgr)
  | some (h, mq) =>
    let freq := mgr.getFreq h
    if freq ≥ 1 then
      ([], { e with mq := (mq.push h).getD mq }, mgr.setFreq h (freq - 1))
    else ([h], { e with mq := mq }, mgr.clearMetaBits h queueTagMask)

section Policy

variable (fingerprintOf : Bytes → UInt32)

/-- Pop S.  A handle used twice moves to M; another one is given up, and the fingerprint
of the key being added goes to the ghost table. -/
def evictS (e : Eviction) (mgr : Manager) (key : Bytes) : List Handle × Eviction × Manager :=
  match e.sq.pop with
  | none => ([], e, mgr)
  | some (h, sq) =>
    let e := { e with sq := sq }
    if mgr.getFreq h ≥ 2 then
      let mgr := mgr.clearMetaBits h queueTagMask
      match e.mq.push h with
      | some mq => ([], { e with mq := mq }, (mgr.setFreq h 0).orMetaBits h queueTagM)
      | none =>
        let (evicted, e, mgr) := e.evictM mgr
        match e.mq.push h with
        | none => (evicted ++ [h], e, mgr.setFreq h 0)
        | some mq =>
          (evicted, { e with mq := mq }, (mgr.setFreq h 0).orMetaBits h queueTagM)
    else ([h], { e with gh := e.gh.insert (fingerprintOf key) }, mgr)

/-- Queue the handle of a key and return the handles given up.  On overflow the new
handle itself is not queued. -/
def add (e : Eviction) (mgr : Manager) (key : Bytes) (h : Handle) :
    List Handle × Eviction × Manager :=
  if e.gh.look (fingerprintOf key) then
    match e.mq.push h with
    | none => e.evictM mgr
    | some mq => ([], { e with mq := mq }, (mgr.setFreq h 0).orMetaBits h queueTagM)
  else
    match e.sq.push h with
    | none => e.evictS fingerprintOf mgr key
    | some sq => ([], { e with sq := sq }, (mgr.setFreq h 0).orMetaBits h queueTagS)

/-- Take the handle out of whichever queue holds it; a copy in S also clears the ghost. -/
def delete (e : Eviction) (mgr : Manager) (key : Bytes) (h : Handle) : Eviction × Manager :=
  match e.sq.remove h with
  | some sq =>
    ({ e with sq := sq, gh := e.gh.remove (fingerprintOf key) },
      mgr.clearMetaBits h queueTagMask)
  | none =>
    match e.mq.remove h with
    | some mq => ({ e with mq := mq }, mgr.clearMetaBits h queueTagMask)
    | none => (e, mgr)

end Policy

/-- The same without the key, for expired entries. -/
def remove (e : Eviction) (mgr : Manager) (h : Handle) : Eviction × Manager :=
  match e.sq.remove h with
  | some sq => ({ e with sq := sq }, mgr.clearMetaBits h queueTagMask)
  | none =>
    match e.mq.remove h with
    | some mq => ({ e with mq := mq }, mgr.clearMetaBits h queueTagMask)
    | none => (e, mgr)

/-- A hit counts while the tagged queue still has a live copy. -/
def touch (e : Eviction) (mgr : Manager) (h : Handle) : Manager :=
  let tag := mgr.getMeta h &&& queueTagMask
  if tag = queueTagS then if e.sq.scanFromHead h then mgr.incFreq h else mgr
  else if tag = queueTagM then if e.mq.scanFromHead h then mgr.incFreq h else mgr
  else mgr

/-! ## The capacity is fixed -/

theorem capacity_evictM (e : Eviction) (mgr : Manager) :
    (e.evictM mgr).2.1.capacity = e.capacity := by
  unfold evictM
  split
  · rfl
  · rename_i h mq hpop
    have hcap := RingBuffer.cap_pop hpop
    dsimp only
    split
    · cases hpush : mq.push h with
      | none => simp only [capacity, Option.getD_none, hcap]
      | some mq' => simp only [capacity, Option.getD_some, (RingBuffer.push_spec hpush).1, hcap]
    · simp only [capacity, hcap]

theorem capacity_evictS (fingerprintOf : Bytes → UInt32) (e : Eviction) (mgr : Manager)
    (key : Bytes) : (e.evictS fingerprintOf mgr key).2.1.capacity = e.capacity := by
  unfold evictS
  split
  · rfl
  · rename_i h sq hpop
    have hcap := RingBuffer.cap_pop hpop
    dsimp only
    split
    · split
      · rename_i mq hpush
        simp only [capacity, (RingBuffer.push_spec hpush).1, hcap]
      · have hev := capacity_evictM { e with sq := sq } (mgr.clearMetaBits h queueTagMask)
        simp only [capacity, hcap] at hev
        split
        · simp only [capacity]
          exact hev
        · rename_i mq hpush
          simp only [capacity, (RingBuffer.push_spec hpush).1]
          exact hev
    · simp only [capacity, hcap]

theorem capacity_add (fingerprintOf : Bytes → UInt32) (e : Eviction) (mgr : Manager)
    (key : Bytes) (h : Handle) : (e.add fingerprintOf mgr key h).2.1.capacity = e.capacity := by
  unfold add
  split
  · split
    · exact capacity_evictM e mgr
    · rename_i mq hpush
      simp only [capacity, (RingBuffer.push_spec hpush).1]
  · split
    · exact capacity_evictS fingerprintOf e mgr key
    · rename_i sq hpush
      simp only [capacity, (RingBuffer.push_spec hpush).1]

/-! ## What the policy gives up -/

/-- The head of a queue. -/
def head (q : RingBuffer) : Handle := (q.slot q.head).h

/-- What a full M queue gives up to let another handle in. -/
def victimM? (e : Eviction) (mgr : Manager) : Option Handle :=
  if mgr.getFreq (head e.mq) ≥ 1 then none else some (head e.mq)

/-- The handle that adding `key` in this state gives up, if any. -/
def victim? (fingerprintOf : Bytes → UInt32) (e : Eviction) (mgr : Manager) (key : Bytes) :
    Option Handle :=
  if e.gh.look (fingerprintOf key) then
    if e.mq.full then e.victimM? mgr else none
  else if e.sq.full then
    if mgr.getFreq (head e.sq) ≥ 2 then
      if e.mq.full then some ((e.victimM? mgr).getD (head e.sq)) else none
    else some (head e.sq)
  else none

variable (fingerprintOf : Bytes → UInt32) {e : Eviction} {mgr : Manager}

/-- A full M queue either keeps its head and stays full, or gives it up and has room. -/
theorem evictM_full (e : Eviction) (mgr : Manager) (hfull : e.mq.full = true) :
    (e.evictM mgr).1 = (e.victimM? mgr).toList ∧
      (e.evictM mgr).2.1.mq.full = (e.victimM? mgr).isNone := by
  obtain ⟨mq, hpop, hroom, hrefill⟩ := RingBuffer.pop_of_full hfull
  simp only [evictM, hpop, victimM?, head]
  by_cases hfreq : mgr.getFreq (e.mq.slot e.mq.head).h ≥ 1
  · obtain ⟨mq', hpush, hfull'⟩ := hrefill (e.mq.slot e.mq.head).h
    simp only [hfreq, if_true, hpush]
    exact ⟨rfl, hfull'⟩
  · simp only [hfreq, if_false]
    exact ⟨rfl, hroom⟩

theorem not_full_of_push {q q' : RingBuffer} {h : Handle} (hpush : q.push h = some q') :
    q.full = false := by
  rw [Bool.eq_false_iff, Ne, ← RingBuffer.push_eq_none (h := h), hpush]
  simp

/-- A full S queue gives up its head, unless that moves to M. -/
theorem evictS_full (hfull : e.sq.full = true) (key : Bytes) :
    (e.evictS fingerprintOf mgr key).1 =
      (if mgr.getFreq (head e.sq) ≥ 2 then
        if e.mq.full then some ((e.victimM? mgr).getD (head e.sq)) else none
      else some (head e.sq)).toList := by
  obtain ⟨sq, hpop, _, _⟩ := RingBuffer.pop_of_full hfull
  simp only [evictS, hpop, head]
  by_cases hfreq : mgr.getFreq (e.sq.slot e.sq.head).h ≥ 2
  · simp only [hfreq, if_true]
    cases hpush : e.mq.push (e.sq.slot e.sq.head).h with
    | some mq => simp [not_full_of_push hpush]
    | none =>
      have hmfull := RingBuffer.push_eq_none.mp hpush
      -- the cleared tag does not change the frequency that decides about M's head
      have hvictim : Eviction.victimM? { e with sq := sq }
          (mgr.clearMetaBits (e.sq.slot e.sq.head).h queueTagMask) = e.victimM? mgr := by
        simp [victimM?]
      obtain ⟨hout, hafter⟩ := evictM_full { e with sq := sq }
        (mgr.clearMetaBits (e.sq.slot e.sq.head).h queueTagMask) hmfull
      rw [hvictim] at hout hafter
      simp only [hmfull, if_true]
      split
      · rename_i hnone
        have hstill := hafter.symm.trans (RingBuffer.push_eq_none.mp hnone)
        rw [Option.isNone_iff_eq_none] at hstill
        simp [hout, hstill]
      · rename_i mq hsome
        have hroom := hafter.symm.trans (not_full_of_push hsome)
        cases hv : e.victimM? mgr with
        | none => simp [hv] at hroom
        | some g => simp [hout, hv]
  · simp only [hfreq, if_false]
    rfl

/-- `Add` returns exactly the handle that `victim?` names. -/
theorem add_fst (e : Eviction) (mgr : Manager) (key : Bytes) (h : Handle) :
    (e.add fingerprintOf mgr key h).1 = (e.victim? fingerprintOf mgr key).toList := by
  simp only [add, victim?]
  split
  · cases hpush : e.mq.push h with
    | none =>
      have hfull := RingBuffer.push_eq_none.mp hpush
      simp only [hfull, if_true]
      exact (evictM_full e mgr hfull).1
    | some mq => simp [not_full_of_push hpush]
  · cases hpush : e.sq.push h with
    | none =>
      have hfull := RingBuffer.push_eq_none.mp hpush
      simp only [hfull, if_true]
      exact evictS_full fingerprintOf hfull key
    | some sq => simp [not_full_of_push hpush]

/-! ## What the policy leaves alone -/

theorem sameStore_queued (mgr : Manager) (h : Handle) {tag : UInt16}
    (htag : tag &&& Arena.Manager.flagMask = 0) :
    SameStore mgr ((mgr.setFreq h 0).orMetaBits h tag) :=
  (Manager.sameStore_setFreq mgr h 0).trans (Manager.sameStore_orQueueTag _ h htag)

theorem sameStore_evictM (e : Eviction) (mgr : Manager) : SameStore mgr (e.evictM mgr).2.2 := by
  simp only [evictM]
  split
  · exact SameStore.refl mgr
  · split
    · exact Manager.sameStore_setFreq mgr _ _
    · exact Manager.sameStore_clearQueueTag mgr _

theorem sameStore_evictS (e : Eviction) (mgr : Manager) (key : Bytes) :
    SameStore mgr (e.evictS fingerprintOf mgr key).2.2 := by
  simp only [evictS]
  split
  · exact SameStore.refl mgr
  · rename_i h sq _
    have hclear := Manager.sameStore_clearQueueTag mgr h
    split
    · split
      · exact hclear.trans (sameStore_queued _ h (by decide))
      · have hm := hclear.trans (sameStore_evictM { e with sq := sq } _)
        split
        · exact hm.trans (Manager.sameStore_setFreq _ h 0)
        · exact hm.trans (sameStore_queued _ h (by decide))
    · exact SameStore.refl mgr

theorem sameStore_add (e : Eviction) (mgr : Manager) (key : Bytes) (h : Handle) :
    SameStore mgr (e.add fingerprintOf mgr key h).2.2 := by
  simp only [add]
  split
  · split
    · exact sameStore_evictM e mgr
    · exact sameStore_queued mgr h (by decide)
  · split
    · exact sameStore_evictS fingerprintOf e mgr key
    · exact sameStore_queued mgr h (by decide)

theorem sameStore_delete (e : Eviction) (mgr : Manager) (key : Bytes) (h : Handle) :
    SameStore mgr (e.delete fingerprintOf mgr key h).2 := by
  simp only [delete]
  split
  · exact Manager.sameStore_clearQueueTag mgr h
  · split
    · exact Manager.sameStore_clearQueueTag mgr h
    · exact SameStore.refl mgr

theorem sameStore_remove (e : Eviction) (mgr : Manager) (h : Handle) :
    SameStore mgr (e.remove mgr h).2 := by
  simp only [remove]
  split
  · exact Manager.sameStore_clearQueueTag mgr h
  · split
    · exact Manager.sameStore_clearQueueTag mgr h
    · exact SameStore.refl mgr

theorem sameStore_touch (e : Eviction) (mgr : Manager) (h : Handle) :
    SameStore mgr (e.touch mgr h) := by
  have hinc := Manager.sameStore_incFreq mgr h
  simp only [touch]
  split_ifs <;> first | exact hinc | exact SameStore.refl mgr

/-! ## What the queues hold -/

/-- Both queues satisfy `Q`. -/
def Both (Q : RingBuffer → Prop) (e : Eviction) : Prop := Q e.sq ∧ Q e.mq

/-- The queue operations keep `Q`, as long as the handles that go in satisfy `P`; those that come
out do too. -/
structure Keeps (Q : RingBuffer → Prop) (P : Handle → Prop) : Prop where
  onPush : ∀ q q' h, Q q → P h → q.push h = some q' → Q q'
  onPop : ∀ q q' h, Q q → q.pop = some (h, q') → Q q' ∧ P h
  onRemove : ∀ q q' h, Q q → q.remove h = some q' → Q q'

theorem keeps_holds (P : Handle → Prop) : Keeps (RingBuffer.Holds P) P :=
  ⟨fun _ _ _ hq hP hp => hq.push hP hp, fun _ _ _ hq hp => hq.pop hp,
    fun _ _ _ hq hr => hq.remove hr⟩

namespace Keeps

variable {Q : RingBuffer → Prop} {P : Handle → Prop} {h : Handle}

theorem evictM (hk : Keeps Q P) (he : e.Both Q) (mgr : Manager) :
    (e.evictM mgr).2.1.Both Q ∧ ∀ v ∈ (e.evictM mgr).1, P v := by
  unfold Eviction.evictM
  split
  · exact ⟨he, by simp⟩
  · rename_i h mq hpop
    obtain ⟨hmq, hh⟩ := hk.onPop _ _ _ he.2 hpop
    dsimp only
    split
    · refine ⟨⟨he.1, ?_⟩, by simp⟩
      cases hpush : mq.push h with
      | none => exact hmq
      | some mq' => exact hk.onPush _ _ _ hmq hh hpush
    · exact ⟨⟨he.1, hmq⟩, by simpa using hh⟩

theorem evictS (hk : Keeps Q P) (he : e.Both Q) (mgr : Manager) (key : Bytes) :
    (e.evictS fingerprintOf mgr key).2.1.Both Q ∧
      ∀ v ∈ (e.evictS fingerprintOf mgr key).1, P v := by
  unfold Eviction.evictS
  split
  · exact ⟨he, by simp⟩
  · rename_i h sq hpop
    obtain ⟨hsq, hh⟩ := hk.onPop _ _ _ he.1 hpop
    dsimp only
    split
    · split
      · rename_i mq hpush
        exact ⟨⟨hsq, hk.onPush _ _ _ he.2 hh hpush⟩, by simp⟩
      · obtain ⟨hev, hout⟩ := hk.evictM (e := { e with sq := sq }) ⟨hsq, he.2⟩
          (mgr.clearMetaBits h queueTagMask)
        split
        · refine ⟨hev, fun v hv => ?_⟩
          rcases List.mem_append.mp hv with hv | hv
          · exact hout v hv
          · rw [List.mem_singleton.mp hv]
            exact hh
        · rename_i mq hpush
          exact ⟨⟨hev.1, hk.onPush _ _ _ hev.2 hh hpush⟩, hout⟩
    · exact ⟨⟨hsq, he.2⟩, by simpa using hh⟩

theorem add (hk : Keeps Q P) (he : e.Both Q) (hh : P h) (mgr : Manager) (key : Bytes) :
    (e.add fingerprintOf mgr key h).2.1.Both Q ∧
      ∀ v ∈ (e.add fingerprintOf mgr key h).1, P v := by
  unfold Eviction.add
  split
  · split
    · exact hk.evictM he mgr
    · rename_i mq hpush
      exact ⟨⟨he.1, hk.onPush _ _ _ he.2 hh hpush⟩, by simp⟩
  · split
    · exact hk.evictS fingerprintOf he mgr key
    · rename_i sq hpush
      exact ⟨⟨hk.onPush _ _ _ he.1 hh hpush, he.2⟩, by simp⟩

theorem delete (hk : Keeps Q P) (he : e.Both Q) (mgr : Manager) (key : Bytes) (h : Handle) :
    (e.delete fingerprintOf mgr key h).1.Both Q := by
  unfold Eviction.delete
  split
  · rename_i sq hrem
    exact ⟨hk.onRemove _ _ _ he.1 hrem, he.2⟩
  · split
    · rename_i mq hrem
      exact ⟨he.1, hk.onRemove _ _ _ he.2 hrem⟩
    · exact he

theorem remove (hk : Keeps Q P) (he : e.Both Q) (mgr : Manager) (h : Handle) :
    (e.remove mgr h).1.Both Q := by
  unfold Eviction.remove
  split
  · rename_i sq hrem
    exact ⟨hk.onRemove _ _ _ he.1 hrem, he.2⟩
  · split
    · rename_i mq hrem
      exact ⟨he.1, hk.onRemove _ _ _ he.2 hrem⟩
    · exact he

end Keeps

theorem parts_of_new {capacity : Nat} {e : Eviction} (hnew : new capacity = some e) :
    (∃ c, newRingBuffer c = some e.sq) ∧ (∃ c, newRingBuffer c = some e.mq) ∧
      ∃ c, newGhostIndex c = some e.gh := by
  unfold new at hnew
  split at hnew
  · cases hnew
  · simp only [Option.bind_eq_bind, Option.bind_eq_some_iff, Option.some_inj] at hnew
    obtain ⟨sq, hsq, mq, hmq, gh, hgh, rfl⟩ := hnew
    exact ⟨⟨_, hsq⟩, ⟨_, hmq⟩, ⟨_, hgh⟩⟩

theorem holds_new {P : Handle → Prop} {capacity : Nat} {e : Eviction}
    (hnew : new capacity = some e) : e.Both (RingBuffer.Holds P) := by
  obtain ⟨⟨_, hsq⟩, ⟨_, hmq⟩, _⟩ := parts_of_new hnew
  exact ⟨RingBuffer.holds_newRingBuffer hsq, RingBuffer.holds_newRingBuffer hmq⟩

end Eviction

end Horreum.S3Fifo
