/-
  Eviction/Conservation.lean --- which handles an `Add` keeps, returns and loses.

  The live handles of a queue are a multiset.  A pop takes the head out whether or not it was still
  alive.  `add_balance` is the account of a whole `Add`: what is live after it, with what it returns,
  is what was live before plus the new handle if there was room, and the dead heads if not.
-/
import Horreum.Eviction.S3Fifo
import Mathlib.Algebra.BigOperators.Group.List.Basic
import Mathlib.Algebra.Order.Group.Multiset
import Mathlib.Data.Nat.ModEq
import Mathlib.Tactic.Abel

set_option autoImplicit false

namespace Horreum.S3Fifo

open Foundation (Bytes)
open Foundation.Probing (Masked)
open Arena (Handle Manager queueTagMask queueTagM newManager)

/-! ## Live handles of a ring buffer -/

/-- The handle of a live slot. -/
def Slot.live (s : Slot) : Multiset Handle := if s.alive then {s.h} else 0

/-- The handles of the live slots. -/
def liveOf (data : List Slot) : Multiset Handle := (data.map Slot.live).sum

theorem liveOf_set {data : List Slot} {i : Nat} {old : Slot} (hi : data[i]? = some old)
    (new : Slot) : liveOf (data.set i new) + old.live = liveOf data + new.live := by
  induction data generalizing i with
  | nil => simp at hi
  | cons s data ih =>
    cases i with
    | zero =>
      cases hi
      simp only [liveOf, List.set_cons_zero, List.map_cons, List.sum_cons]
      abel
    | succ i =>
      have hrest := ih hi
      simp only [liveOf, List.set_cons_succ, List.map_cons, List.sum_cons, add_assoc] at hrest ⊢
      rw [hrest]

namespace RingBuffer

/-- The live handles of a ring. -/
def live (rb : RingBuffer) : Multiset Handle := liveOf rb.data

/-- A live slot lies between head and tail. -/
def Tidy (rb : RingBuffer) : Prop :=
  ∀ i, (rb.slot i).alive = true →
    ∃ j, rb.head ≤ j ∧ j < rb.tail ∧ j &&& rb.mask = i &&& rb.mask

variable {rb rb' : RingBuffer} {h : Handle}

theorem Wrote.live {i : Nat} {s : Slot} (hw : Wrote rb rb' i s) :
    rb'.live + (rb.slot i).live = rb.live + s.live := by
  rw [RingBuffer.live, hw.data]
  exact liveOf_set (rb.getElem?_slot i) s

theorem Tidy.push (ht : rb.Tidy) (hp : rb.push h = some rb') : rb'.Tidy := by
  obtain ⟨hw, hhead, htail, _⟩ := push_wrote hp
  intro i halive
  rw [hw.slot] at halive
  rw [hhead, htail, hw.mask]
  split at halive
  · rename_i heq
    have hord := rb.ordered
    exact ⟨rb.tail, hord.1, by omega, heq.symm⟩
  · obtain ⟨j, hge, hlt, hj⟩ := ht i halive
    exact ⟨j, hge, by omega, hj⟩

theorem Tidy.pop (ht : rb.Tidy) (hp : rb.pop = some (h, rb')) : rb'.Tidy := by
  obtain ⟨_, hw, hhead, htail⟩ := pop_wrote hp
  intro i halive
  rw [hw.slot] at halive
  rw [hhead, htail, hw.mask]
  split at halive
  · cases halive
  · rename_i hne
    obtain ⟨j, hge, hlt, hj⟩ := ht i halive
    have hjh : j ≠ rb.head := fun heq => hne (by rw [← hj, heq])
    exact ⟨j, by omega, hlt, hj⟩

theorem Tidy.remove (ht : rb.Tidy) (hr : rb.remove h = some rb') : rb'.Tidy := by
  obtain ⟨i, _, _, hw, hhead, htail⟩ := remove_wrote hr
  intro j halive
  rw [hw.slot] at halive
  rw [hhead, htail, hw.mask]
  split at halive
  · cases halive
  · exact ht j halive

/-- The slot a push fills is dead: the live ones before it are less than a round away. -/
theorem Tidy.tail_dead (ht : rb.Tidy) (hroom : rb.tail < rb.head + rb.cap) :
    (rb.slot rb.tail).alive = false := by
  rw [Bool.eq_false_iff]
  intro halive
  obtain ⟨j, hge, hlt, hj⟩ := ht rb.tail halive
  rw [rb.masked.and_eq_mod, rb.masked.and_eq_mod] at hj
  have hdvd : rb.cap ∣ rb.tail - j := (Nat.modEq_iff_dvd' (Nat.le_of_lt hlt)).mp hj
  have hle := Nat.le_of_dvd (by omega) hdvd
  omega

theorem Tidy.live_push (ht : rb.Tidy) (hp : rb.push h = some rb') : rb'.live = rb.live + {h} := by
  obtain ⟨hw, _, _, hroom⟩ := push_wrote hp
  have hlive := hw.live
  simpa [Slot.live, ht.tail_dead hroom] using hlive

/-- The head if it is dead. -/
def deadHead (rb : RingBuffer) : Multiset Handle :=
  if (rb.slot rb.head).alive then 0 else {(rb.slot rb.head).h}

theorem live_pop (hp : rb.pop = some (h, rb')) : rb'.live + {h} = rb.live + rb.deadHead := by
  obtain ⟨rfl, hw, _⟩ := pop_wrote hp
  have hlive := hw.live
  cases halive : (rb.slot rb.head).alive <;>
    simp only [Slot.live, halive, deadHead, if_true, if_false, Bool.false_eq_true, add_zero]
      at hlive ⊢ <;>
    rw [hlive]

theorem tidy_newRingBuffer {capacity : Nat} (hnew : newRingBuffer capacity = some rb) :
    rb.Tidy := by
  unfold newRingBuffer at hnew
  split at hnew
  · cases hnew
  · cases hnew
    intro i halive
    simp only [slot, List.get_eq_getElem, List.getElem_replicate] at halive
    cases halive

end RingBuffer

/-! ## Runs of the policy -/

namespace Eviction

/-- The live handles of both queues. -/
def live (e : Eviction) : Multiset Handle := e.sq.live + e.mq.live

/-- Both queues are tidy. -/
def Tidy (e : Eviction) : Prop := e.sq.Tidy ∧ e.mq.Tidy

theorem tidy_new {capacity : Nat} {e : Eviction} (hnew : new capacity = some e) : e.Tidy := by
  obtain ⟨⟨_, hsq⟩, ⟨_, hmq⟩, _⟩ := parts_of_new hnew
  exact ⟨RingBuffer.tidy_newRingBuffer hsq, RingBuffer.tidy_newRingBuffer hmq⟩

variable (fingerprintOf : Bytes → UInt32) {e : Eviction} {mgr : Manager} {key : Bytes} {h : Handle}

/-- The queue operations keep tidiness, whatever handles go through them. -/
theorem keeps_tidy : Keeps RingBuffer.Tidy fun _ => True :=
  ⟨fun _ _ _ ht _ hp => ht.push hp, fun _ _ _ ht hp => ⟨ht.pop hp, trivial⟩,
    fun _ _ _ ht hr => ht.remove hr⟩

end Eviction

/-- A call on the policy, or whatever else happens to the arena in between. -/
inductive Call where
  | add (key : Bytes) (h : Handle)
  | touch (h : Handle)
  | delete (key : Bytes) (h : Handle)
  | remove (h : Handle)
  | arena (mgr : Manager)

/-- One call on policy and arena. -/
def step (fingerprintOf : Bytes → UInt32) : Eviction × Manager → Call → Eviction × Manager
  | (e, mgr), .add key h => (e.add fingerprintOf mgr key h).2
  | (e, mgr), .touch h => (e, e.touch mgr h)
  | (e, mgr), .delete key h => e.delete fingerprintOf mgr key h
  | (e, mgr), .remove h => e.remove mgr h
  | (e, _), .arena mgr => (e, mgr)

theorem tidy_step (fingerprintOf : Bytes → UInt32) {s : Eviction × Manager} (ht : s.1.Tidy)
    (call : Call) : (step fingerprintOf s call).1.Tidy := by
  cases call with
  | add key h => exact (Eviction.keeps_tidy.add fingerprintOf ht trivial s.2 key).1
  | touch h => exact ht
  | delete key h => exact Eviction.keeps_tidy.delete fingerprintOf ht s.2 key h
  | remove h => exact Eviction.keeps_tidy.remove ht s.2 h
  | arena mgr => exact ht

theorem tidy_run (fingerprintOf : Bytes → UInt32) (calls : List Call) {s : Eviction × Manager}
    (ht : s.1.Tidy) : (calls.foldl (step fingerprintOf) s).1.Tidy := by
  induction calls generalizing s with
  | nil => exact ht
  | cons call calls ih => exact ih (tidy_step fingerprintOf ht call)

/-! ## The account of one Add -/

namespace Eviction

variable (fingerprintOf : Bytes → UInt32) {e : Eviction} {mgr : Manager} {key : Bytes} {h : Handle}

/-- The queue that `key` goes to has no room. -/
def targetFull (e : Eviction) (key : Bytes) : Bool :=
  if e.gh.look (fingerprintOf key) then e.mq.full else e.sq.full

/-- The dead heads that adding `key` to a full queue pops. -/
def deadPopped (e : Eviction) (mgr : Manager) (key : Bytes) : Multiset Handle :=
  if e.gh.look (fingerprintOf key) then e.mq.deadHead
  else e.sq.deadHead +
    if mgr.getFreq (head e.sq) ≥ 2 ∧ e.mq.full = true then e.mq.deadHead else 0

theorem evictM_balance (ht : e.Tidy) (mgr : Manager) (hfull : e.mq.full = true) :
    (e.evictM mgr).1 + (e.evictM mgr).2.1.live = e.live + e.mq.deadHead := by
  obtain ⟨mq, hpop, _, hrefill⟩ := RingBuffer.pop_of_full hfull
  have hlive := RingBuffer.live_pop hpop
  simp only [evictM, hpop]
  split
  · obtain ⟨mq', hpush, _⟩ := hrefill (e.mq.slot e.mq.head).h
    have hback := (ht.2.pop hpop).live_push hpush
    simp only [hpush, Option.getD_some, live, hback, hlive]
    simp [add_assoc]
  · simp only [live]
    rw [add_assoc, ← hlive]
    simp only [Multiset.coe_singleton]
    abel

theorem evictS_balance (ht : e.Tidy) (mgr : Manager) (key : Bytes) (hfull : e.sq.full = true) :
    (e.evictS fingerprintOf mgr key).1 + (e.evictS fingerprintOf mgr key).2.1.live =
      e.live + (e.sq.deadHead +
        if mgr.getFreq (head e.sq) ≥ 2 ∧ e.mq.full = true then e.mq.deadHead else 0) := by
  obtain ⟨sq, hpop, _, _⟩ := RingBuffer.pop_of_full hfull
  have hlive := RingBuffer.live_pop hpop
  -- what was live, with the dead head of S, is what is live in S now, M, and the popped handle
  have hout : e.live + e.sq.deadHead = sq.live + e.mq.live + {(e.sq.slot e.sq.head).h} := by
    rw [live, add_right_comm, ← hlive, add_right_comm]
  rw [← add_assoc, hout]
  simp only [evictS, hpop, head]
  by_cases hfreq : mgr.getFreq (e.sq.slot e.sq.head).h ≥ 2
  · simp only [hfreq, if_true, true_and]
    cases hpush : e.mq.push (e.sq.slot e.sq.head).h with
    | some mq =>
      simp only [not_full_of_push hpush, live, ht.2.live_push hpush]
      simp [add_assoc]
    | none =>
      have hsq : Tidy { e with sq := sq } := ⟨ht.1.pop hpop, ht.2⟩
      have hmfull := RingBuffer.push_eq_none.mp hpush
      have hev := evictM_balance hsq (mgr.clearMetaBits (e.sq.slot e.sq.head).h queueTagMask)
        hmfull
      have htidy := (keeps_tidy.evictM hsq (mgr.clearMetaBits (e.sq.slot e.sq.head).h queueTagMask)).1
      generalize evictM { e with sq := sq } (mgr.clearMetaBits (e.sq.slot e.sq.head).h
        queueTagMask) = res at hev htidy
      have hin : sq.live + e.mq.live + {(e.sq.slot e.sq.head).h} + e.mq.deadHead =
          res.1 + res.2.1.live + {(e.sq.slot e.sq.head).h} := by
        rw [hev, live, add_right_comm]
      simp only [hmfull, if_true, hin]
      split
      · simp only [live, ← Multiset.coe_add, Multiset.coe_singleton]
        abel
      · rename_i mq hback
        simp only [live, htidy.2.live_push hback]
        abel
  · simp only [hfreq, if_false, false_and, live, Multiset.coe_singleton]
    abel

/-- What an `Add` makes of the handles it is responsible for. -/
def added (e : Eviction) (mgr : Manager) (key : Bytes) (h : Handle) : Multiset Handle :=
  if e.targetFull fingerprintOf key then e.deadPopped fingerprintOf mgr key else {h}

/-- What is live after an `Add`, with what it returns. -/
theorem add_balance (ht : e.Tidy) (mgr : Manager) (key : Bytes) (h : Handle) :
    (e.add fingerprintOf mgr key h).1 + (e.add fingerprintOf mgr key h).2.1.live =
      e.live + e.added fingerprintOf mgr key h := by
  simp only [add, added, targetFull, deadPopped]
  split
  · cases hpush : e.mq.push h with
    | none =>
      have hfull := RingBuffer.push_eq_none.mp hpush
      simp only [hfull, if_true]
      exact evictM_balance ht mgr hfull
    | some mq =>
      simp only [not_full_of_push hpush, live, ht.2.live_push hpush]
      simp [add_assoc]
  · cases hpush : e.sq.push h with
    | none =>
      have hfull := RingBuffer.push_eq_none.mp hpush
      simp only [hfull, if_true]
      exact evictS_balance fingerprintOf ht mgr key hfull
    | some sq =>
      simp only [not_full_of_push hpush, live, ht.1.live_push hpush]
      simp [add_comm]

/-! ## Conservation -/

/-- Every live handle and the new one are afterwards live once, or returned once, and nothing
else is returned. -/
structure Conserved (e : Eviction) (mgr : Manager) (key : Bytes) (h : Handle) : Prop where
  once : ∀ g, g ∈ e.live ∨ g = h →
    ((e.add fingerprintOf mgr key h).2.1.live.count g = 1 ∧
      (e.add fingerprintOf mgr key h).1.count g = 0) ∨
    ((e.add fingerprintOf mgr key h).2.1.live.count g = 0 ∧
      (e.add fingerprintOf mgr key h).1.count g = 1)
  only : ∀ g ∈ (e.add fingerprintOf mgr key h).1, g ∈ e.live ∨ g = h

/-- `Add` pops one dead copy of `h` itself, and no other dead head that is live elsewhere or is
given up. -/
def PopsItself (e : Eviction) (mgr : Manager) (key : Bytes) (h : Handle) : Prop :=
  (e.deadPopped fingerprintOf mgr key).count h = 1 ∧
    ∀ g ∈ e.deadPopped fingerprintOf mgr key, g ≠ h →
      g ∉ e.live ∧ e.victim? fingerprintOf mgr key ≠ some g

theorem once_iff (ht : e.Tidy) (g : Handle) :
    (((e.add fingerprintOf mgr key h).2.1.live.count g = 1 ∧
      (e.add fingerprintOf mgr key h).1.count g = 0) ∨
    ((e.add fingerprintOf mgr key h).2.1.live.count g = 0 ∧
      (e.add fingerprintOf mgr key h).1.count g = 1)) ↔
    e.live.count g + (e.added fingerprintOf mgr key h).count g = 1 := by
  have hsum := congrArg (Multiset.count g) (add_balance fingerprintOf ht mgr key h)
  simp only [Multiset.count_add, Multiset.coe_count] at hsum
  rw [← hsum]
  omega

theorem mem_add_iff (e : Eviction) (mgr : Manager) (key : Bytes) (h g : Handle) :
    g ∈ (e.add fingerprintOf mgr key h).1 ↔ e.victim? fingerprintOf mgr key = some g := by
  rw [add_fst, Option.mem_toList]

/-- What is given up was live, or a dead head. -/
theorem mem_of_victim (ht : e.Tidy) {g : Handle}
    (hg : e.victim? fingerprintOf mgr key = some g) :
    g ∈ e.live ∨ (e.targetFull fingerprintOf key = true ∧
      g ∈ e.deadPopped fingerprintOf mgr key) := by
  have hfull : e.targetFull fingerprintOf key = true := by
    unfold victim? at hg
    unfold targetFull
    split at hg <;> simp_all
  have hout : g ∈ (e.add fingerprintOf mgr key g).1 := (mem_add_iff ..).mpr hg
  have hsum := add_balance fingerprintOf ht mgr key g
  rw [added, hfull, if_pos rfl] at hsum
  have hmem : g ∈ e.live + e.deadPopped fingerprintOf mgr key := by
    rw [← hsum]
    exact Multiset.mem_add.mpr (.inl (Multiset.mem_coe.mpr hout))
  rcases Multiset.mem_add.mp hmem with hlive | hdead
  · exact .inl hlive
  · exact .inr ⟨hfull, hdead⟩

/-- With room, `Add` conserves as long as nothing was live twice. -/
theorem conserved_of_room (ht : e.Tidy) (hfresh : h ∉ e.live) (hnodup : e.live.Nodup)
    (hroom : e.targetFull fingerprintOf key = false) : e.Conserved fingerprintOf mgr key h := by
  refine ⟨fun g hg => (once_iff fingerprintOf ht g).mpr ?_, fun g hg => ?_⟩
  · simp only [added, hroom, Bool.false_eq_true, if_false]
    rcases hg with hg | rfl
    · have hne : g ≠ h := fun heq => hfresh (heq ▸ hg)
      rw [Multiset.count_eq_one_of_mem hnodup hg, Multiset.count_singleton, if_neg hne]
    · rw [Multiset.count_eq_zero.mpr hfresh, Multiset.count_singleton_self]
  · rcases mem_of_victim fingerprintOf ht ((mem_add_iff ..).mp hg) with hlive | ⟨hfull, _⟩
    · exact .inl hlive
    · rw [hroom] at hfull
      cases hfull

theorem conserved_of_popsItself (ht : e.Tidy) (hfresh : h ∉ e.live) (hnodup : e.live.Nodup)
    (hfull : e.targetFull fingerprintOf key = true) (hself : e.PopsItself fingerprintOf mgr key h) :
    e.Conserved fingerprintOf mgr key h := by
  refine ⟨fun g hg => (once_iff fingerprintOf ht g).mpr ?_, fun g hg => ?_⟩
  · simp only [added, hfull, if_true]
    rcases hg with hg | rfl
    · have hne : g ≠ h := fun heq => hfresh (heq ▸ hg)
      have hnot : g ∉ e.deadPopped fingerprintOf mgr key :=
        fun hdead => (hself.2 g hdead hne).1 hg
      rw [Multiset.count_eq_one_of_mem hnodup hg, Multiset.count_eq_zero.mpr hnot]
    · rw [Multiset.count_eq_zero.mpr hfresh, hself.1]
  · have hvictim := (mem_add_iff ..).mp hg
    rcases mem_of_victim fingerprintOf ht hvictim with hlive | ⟨_, hdead⟩
    · exact .inl hlive
    · by_cases hgh : g = h
      · exact .inr hgh
      · exact absurd hvictim (hself.2 g hdead hgh).2

theorem Conserved.nodup (hc : e.Conserved fingerprintOf mgr key h) (ht : e.Tidy) :
    e.live.Nodup := by
  rw [Multiset.nodup_iff_count_le_one]
  intro g
  by_cases hg : g ∈ e.live
  · have hsum := (once_iff fingerprintOf ht g).mp (hc.once g (.inl hg))
    omega
  · rw [Multiset.count_eq_zero.mpr hg]
    exact Nat.zero_le 1

/-- An `Add` to a full queue that conserves has met a dead copy of the very handle it adds. -/
theorem Conserved.popsItself (hc : e.Conserved fingerprintOf mgr key h) (ht : e.Tidy)
    (hfresh : h ∉ e.live) (hfull : e.targetFull fingerprintOf key = true) :
    e.PopsItself fingerprintOf mgr key h := by
  have hsum : ∀ g, g ∈ e.live ∨ g = h →
      e.live.count g + (e.deadPopped fingerprintOf mgr key).count g = 1 := by
    intro g hg
    have honce := (once_iff fingerprintOf ht g).mp (hc.once g hg)
    simpa only [added, hfull, if_true] using honce
  have hapart : ∀ g ∈ e.deadPopped fingerprintOf mgr key, g ∉ e.live := by
    intro g hdead hlive
    have hone := hsum g (.inl hlive)
    have hpos := Multiset.count_pos.mpr hdead
    have hpos' := Multiset.count_pos.mpr hlive
    omega
  refine ⟨?_, fun g hdead hgh => ⟨hapart g hdead, fun hvictim => ?_⟩⟩
  · have hone := hsum h (.inr rfl)
    rw [Multiset.count_eq_zero.mpr hfresh] at hone
    omega
  · rcases hc.only g ((mem_add_iff ..).mpr hvictim) with hlive | heq
    · exact hapart g hdead hlive
    · exact hgh heq

end Eviction

/-- In every state the policy can reach, an `Add` of a handle that is not queued loses and
invents no handle exactly when none was live twice before and the queue it goes to has room.
The exception is an `Add` that pops a dead copy of the very handle it adds. -/
theorem add_conserves_iff (fingerprintOf : Bytes → UInt32) {capacity : Nat} {e₀ e : Eviction}
    {mgr₀ mgr : Manager} (hnew : new capacity = some e₀) (calls : List Call)
    (hrun : calls.foldl (step fingerprintOf) (e₀, mgr₀) = (e, mgr)) (key : Bytes) {h : Handle}
    (hfresh : h ∉ e.live) :
    e.Conserved fingerprintOf mgr key h ↔ e.live.Nodup ∧
      (e.targetFull fingerprintOf key = false ∨ e.PopsItself fingerprintOf mgr key h) := by
  have ht : e.Tidy := by
    have hend := tidy_run fingerprintOf calls (s := (e₀, mgr₀)) (Eviction.tidy_new hnew)
    rw [hrun] at hend
    exact hend
  constructor
  · intro hc
    refine ⟨hc.nodup fingerprintOf ht, ?_⟩
    cases hfull : e.targetFull fingerprintOf key with
    | false => exact .inl rfl
    | true => exact .inr (hc.popsItself fingerprintOf ht hfresh hfull)
  · rintro ⟨hnodup, hroom | hself⟩
    · exact Eviction.conserved_of_room fingerprintOf ht hfresh hnodup hroom
    · cases hfull : e.targetFull fingerprintOf key with
      | false => exact Eviction.conserved_of_room fingerprintOf ht hfresh hnodup hfull
      | true => exact Eviction.conserved_of_popsItself fingerprintOf ht hfresh hnodup hfull hself

/-- Two slots in S, one of them taken by a handle that was hit: the second `Add` conserves. -/
theorem add_conserves_with_room :
    ∃ e₀ e mgr, new 20 = some e₀ ∧
      [Call.add [97] ⟨0, 1, 0, 0⟩, .touch ⟨0, 1, 0, 0⟩].foldl (step fingerprintOf)
        (e₀, newManager 64) = (e, mgr) ∧
      ⟨0, 1, 0, 0⟩ ∈ e.live ∧ e.Conserved fingerprintOf mgr [98] ⟨8, 1, 0, 0⟩ := by
  obtain ⟨e₀, hnew, hin, hfresh, hnodup, hroom⟩ : ∃ e₀, new 20 = some e₀ ∧
      let s := [Call.add [97] ⟨0, 1, 0, 0⟩, .touch ⟨0, 1, 0, 0⟩].foldl (step fingerprintOf)
        (e₀, newManager 64)
      ⟨0, 1, 0, 0⟩ ∈ s.1.live ∧ ⟨8, 1, 0, 0⟩ ∉ s.1.live ∧ s.1.live.Nodup ∧
        s.1.targetFull fingerprintOf [98] = false := by
    decide +kernel
  exact ⟨e₀, _, _, hnew, rfl, hin,
    (add_conserves_iff fingerprintOf hnew _ rfl [98] hfresh).mpr ⟨hnodup, .inl hroom⟩⟩

/-- With one slot in S, the second `Add` returns the first handle and neither queues nor returns
its own. -/
theorem second_handle_lost :
    ∃ e₀ e mgr, new 1 = some e₀ ∧
      [Call.add [97] ⟨0, 1, 0, 0⟩].foldl (step fingerprintOf) (e₀, newManager 64) = (e, mgr) ∧
      ⟨8, 1, 0, 0⟩ ∉ e.live ∧ ¬ e.Conserved fingerprintOf mgr [98] ⟨8, 1, 0, 0⟩ := by
  obtain ⟨e₀, hnew, hfresh, hlive, hout⟩ : ∃ e₀, new 1 = some e₀ ∧
      let s := [Call.add [97] ⟨0, 1, 0, 0⟩].foldl (step fingerprintOf) (e₀, newManager 64)
      let out := s.1.add fingerprintOf s.2 [98] ⟨8, 1, 0, 0⟩
      ⟨8, 1, 0, 0⟩ ∉ s.1.live ∧ out.2.1.live.count ⟨8, 1, 0, 0⟩ = 0 ∧
        out.1.count ⟨8, 1, 0, 0⟩ = 0 := by
    decide +kernel
  refine ⟨e₀, _, _, hnew, rfl, hfresh, fun hc => ?_⟩
  rcases hc.once _ (.inr rfl) with ⟨hone, _⟩ | ⟨_, hone⟩
  · exact absurd (hlive.symm.trans hone) Nat.zero_ne_one
  · exact absurd (hout.symm.trans hone) Nat.zero_ne_one

end Horreum.S3Fifo
