/-
  Eviction/Fifo.lean --- the ring buffer against a first-in first-out queue.

  The reference is the list of the handles that were pushed and neither popped nor removed
  since, oldest first.  `Lists` says that the ring holds exactly this list, all of it alive.
  Push and pop keep it.  A removal does not: it leaves a dead slot between head and tail, which
  `Size` still counts, `Full` still minds and `Pop` still returns.
-/
import Horreum.Eviction.Conservation
import Horreum.Foundation.Runs

set_option autoImplicit false

namespace Horreum.S3Fifo

open Foundation (run Guarded always_iff_guarded)
open Arena (Handle)

namespace RingBuffer

variable {rb rb' : RingBuffer} {q : List Handle} {h : Handle}

/-! ## The ring as a list -/

/-- The slots from head to tail are those of the list, all alive, and no other slot is alive. -/
structure Lists (rb : RingBuffer) (q : List Handle) : Prop where
  size : rb.size = q.length
  slots : ∀ i h, q[i]? = some h → rb.slot (rb.head + i) = ⟨h, true⟩
  tidy : rb.Tidy

theorem lists_newRingBuffer {capacity : Nat} (hnew : newRingBuffer capacity = some rb) :
    rb.Lists [] := by
  refine ⟨?_, by simp, tidy_newRingBuffer hnew⟩
  unfold newRingBuffer at hnew
  split at hnew
  · cases hnew
  · cases hnew
    rfl

theorem Lists.tail_eq (hl : rb.Lists q) : rb.tail = rb.head + q.length := by
  have hsize := hl.size
  have hord := rb.ordered
  simp only [RingBuffer.size] at hsize
  omega

theorem Lists.full_iff (hl : rb.Lists q) : rb.full = true ↔ rb.cap ≤ q.length := by
  rw [RingBuffer.full_iff, hl.size]

theorem Lists.ne_nil_of_full (hl : rb.Lists q) (hfull : rb.full = true) : q ≠ [] := by
  rintro rfl
  exact absurd (hl.full_iff.mp hfull) (Nat.not_le_of_lt rb.masked.pos)

theorem Lists.push (hl : rb.Lists q) (hp : rb.push h = some rb') : rb'.Lists (q ++ [h]) := by
  obtain ⟨hw, hhead, _, hroom⟩ := push_wrote hp
  have htail := hl.tail_eq
  refine ⟨?_, fun i g hi => ?_, hl.tidy.push hp⟩
  · rw [(push_spec hp).2, hl.size, List.length_append, List.length_singleton]
  · rw [hhead, hw.slot]
    by_cases hlt : i < q.length
    · rw [List.getElem?_append_left hlt] at hi
      rw [if_neg (index_ne_tail (Nat.le_add_right _ _) (by omega) hroom)]
      exact hl.slots i g hi
    · -- the new handle stands at the tail
      have hlast : i = q.length := by
        have := (List.getElem?_eq_some_iff.mp hi).1
        rw [List.length_append, List.length_singleton] at this
        omega
      subst hlast
      rw [List.getElem?_concat_length, Option.some_inj] at hi
      rw [if_pos (by rw [htail]), hi]

theorem Lists.pop_nil (hl : rb.Lists []) : rb.pop = none := by
  have hempty : rb.empty = true := by
    have htail := hl.tail_eq
    simp only [empty, htail, List.length_nil, Nat.add_zero, beq_self_eq_true]
  unfold pop
  rw [dif_pos hempty]

theorem Lists.head (hl : rb.Lists (h :: q)) : rb.slot rb.head = ⟨h, true⟩ := hl.slots 0 h rfl

/-- Two places of the ring less than a round apart have different slots. -/
theorem index_ne {i j : Nat} (hlt : i < j) (hround : j < i + rb.cap) :
    j &&& rb.mask ≠ i &&& rb.mask := by
  intro heq
  rw [rb.masked.and_eq_mod, rb.masked.and_eq_mod] at heq
  have hdvd : rb.cap ∣ j - i := (Nat.modEq_iff_dvd' (Nat.le_of_lt hlt)).mp heq.symm
  have hle := Nat.le_of_dvd (by omega) hdvd
  omega

theorem Lists.length_le (hl : rb.Lists q) : q.length ≤ rb.cap := by
  have hord := rb.ordered
  have htail := hl.tail_eq
  omega

theorem Lists.pop (hl : rb.Lists (h :: q)) : ∃ rb', rb.pop = some (h, rb') ∧ rb'.Lists q := by
  have hsize := hl.size
  have hcap := hl.length_le
  rw [List.length_cons] at hsize hcap
  have hpos : 0 < rb.size := by omega
  obtain ⟨rb', hpop, _, hsize'⟩ := pop_spec hpos
  obtain ⟨_, hw, hhead, _⟩ := pop_wrote hpop
  rw [hl.head] at hpop
  refine ⟨rb', hpop, by omega, fun i g hi => ?_, hl.tidy.pop hpop⟩
  have hlt := (List.getElem?_eq_some_iff.mp hi).1
  rw [hhead, hw.slot, if_neg (index_ne (by omega) (by omega)), Nat.add_assoc, Nat.add_comm 1]
  exact hl.slots (i + 1) g hi

/-- The live slots are those of the list. -/
theorem Lists.mem_of_find {i : Nat} (hl : rb.Lists q) (hi : rb.find h = some i) : h ∈ q := by
  obtain ⟨rb', hr⟩ : ∃ rb', rb.remove h = some rb' := by
    rw [remove, hi]
    exact ⟨_, rfl⟩
  obtain ⟨j, halive, hh, _⟩ := remove_wrote hr
  obtain ⟨p, hge, hlt, hp⟩ := hl.tidy j halive
  have htail := hl.tail_eq
  obtain ⟨g, hg⟩ : ∃ g, q[p - rb.head]? = some g :=
    ⟨_, List.getElem?_eq_getElem (by omega)⟩
  have hslot := hl.slots _ g hg
  rw [Nat.add_sub_cancel' hge] at hslot
  have hsame : rb.slot p = rb.slot j := by
    have hget := rb.getElem?_slot p
    rw [hp, rb.getElem?_slot] at hget
    exact (Option.some.inj hget).symm
  rw [← hsame, hslot] at hh
  exact hh ▸ List.mem_of_getElem? hg

theorem Lists.find_isSome_iff (hl : rb.Lists q) : (rb.find h).isSome = true ↔ h ∈ q := by
  constructor
  · intro hsome
    obtain ⟨i, hi⟩ := Option.isSome_iff_exists.mp hsome
    exact hl.mem_of_find hi
  · intro hmem
    obtain ⟨i, hi⟩ := List.mem_iff_getElem?.mp hmem
    have hslot := rb.getElem?_slot (rb.head + i)
    rw [hl.slots i h hi] at hslot
    rw [find, List.findIdx?_isSome, List.any_eq_true]
    exact ⟨_, List.mem_of_getElem? hslot, by simp⟩

theorem Lists.remove_eq_none (hl : rb.Lists q) (hnot : h ∉ q) : rb.remove h = none := by
  have hfind : rb.find h = none := by
    rw [← Option.not_isSome_iff_eq_none, hl.find_isSome_iff]
    exact hnot
  rw [remove, hfind]
  rfl

end RingBuffer

/-! ## Runs -/

/-- The calls of a ring. -/
inductive RingCall where
  | push (h : Handle)
  | pop
  | remove (h : Handle)

/-- A ring buffer with the handles that were pushed and neither popped nor removed since, oldest
first. -/
structure Traced where
  rb : RingBuffer
  queued : List Handle

namespace Traced

/-- One call.  Handles that are queued are not pushed again. -/
def step (s : Traced) : RingCall → Option Traced
  | .push h =>
    if h ∈ s.queued then none
    else match s.rb.push h with
      | some rb => some ⟨rb, s.queued ++ [h]⟩
      | none => some s
  | .pop =>
    match s.rb.pop with
    | some (h, rb) => some ⟨rb, s.queued.erase h⟩
    | none => some s
  | .remove h => some ⟨(s.rb.remove h).getD s.rb, s.queued.erase h⟩

/-- What the ring buffer does next is what the queue does. -/
structure IsFifo (s : Traced) : Prop where
  pop : s.rb.pop.map Prod.fst = s.queued.head?
  size : s.rb.size = s.queued.length
  push : ∀ h, (s.rb.push h).isSome = true ↔ s.queued.length < s.rb.cap

/-- The call removes nothing that is queued. -/
def RemovesNothing (s : Traced) (call : RingCall) : Prop := ∀ h, call = .remove h → h ∉ s.queued

instance (s : Traced) (call : RingCall) : Decidable (s.RemovesNothing call) :=
  match call with
  | .push _ => isTrue fun _ heq => nomatch heq
  | .pop => isTrue fun _ heq => nomatch heq
  | .remove h => decidable_of_iff (h ∉ s.queued)
      ⟨fun hnot _ heq => RingCall.remove.inj heq ▸ hnot, fun hall => hall h rfl⟩

variable {s s' : Traced} {call : RingCall}

theorem isFifo_of_lists (hl : s.rb.Lists s.queued) : s.IsFifo := by
  refine ⟨?_, hl.size, fun h => ?_⟩
  · cases hq : s.queued with
    | nil =>
      rw [hq] at hl
      rw [hl.pop_nil]
      rfl
    | cons h q =>
      rw [hq] at hl
      obtain ⟨rb', hpop, _⟩ := hl.pop
      rw [hpop]
      rfl
  · rw [Option.isSome_iff_ne_none, Ne, RingBuffer.push_eq_none, hl.full_iff, Nat.not_le]

theorem lists_step (hl : s.rb.Lists s.queued) (hok : s.RemovesNothing call)
    (hstep : s.step call = some s') : s'.rb.Lists s'.queued := by
  cases call with
  | push h =>
    unfold step at hstep
    dsimp only at hstep
    split at hstep
    · cases hstep
    · split at hstep
      · rename_i rb hpush
        cases hstep
        exact hl.push hpush
      · cases hstep
        exact hl
  | pop =>
    unfold step at hstep
    cases hq : s.queued with
    | nil =>
      rw [hq] at hl
      simp only [hl.pop_nil] at hstep
      cases hstep
      rw [hq]
      exact hl
    | cons h q =>
      rw [hq] at hl
      obtain ⟨rb', hpop, hl'⟩ := hl.pop
      simp only [hpop, hq, List.erase_cons_head] at hstep
      cases hstep
      exact hl'
  | remove h =>
    have hnot := hok h rfl
    cases hstep
    simp only [hl.remove_eq_none hnot, Option.getD_none, List.erase_of_not_mem hnot]
    exact hl

/-- A removal that hits leaves its slot in the count. -/
theorem not_isFifo_of_removed (hl : s.rb.Lists s.queued) (hbad : ¬ s.RemovesNothing call)
    (hstep : s.step call = some s') : ¬ s'.IsFifo := by
  simp only [RemovesNothing, not_forall, not_not] at hbad
  obtain ⟨h, rfl, hmem⟩ := hbad
  cases hstep
  intro hfifo
  have hsize := hfifo.size
  have hpos := List.length_pos_of_mem hmem
  have hsame : ((s.rb.remove h).getD s.rb).size = s.rb.size := by
    cases hr : s.rb.remove h with
    | none => rfl
    | some rb =>
      obtain ⟨_, _, _, _, hhead, htail⟩ := RingBuffer.remove_wrote hr
      simp only [Option.getD_some, RingBuffer.size, hhead, htail]
  simp only [hsame, hl.size, List.length_erase_of_mem hmem] at hsize
  omega

end Traced

/-- A ring buffer of any capacity is a queue in every state of a run exactly when no call of the
run removes a handle that is queued. -/
theorem ring_is_fifo_iff {capacity : Nat} {rb : RingBuffer} (hnew : newRingBuffer capacity = some rb)
    {calls : List RingCall} {t : Traced} (hrun : run Traced.step ⟨rb, []⟩ calls = some t) :
    (∀ n s, run Traced.step ⟨rb, []⟩ (calls.take n) = some s → s.IsFifo) ↔
      Guarded Traced.step Traced.RemovesNothing ⟨rb, []⟩ calls :=
  always_iff_guarded (fun s => s.rb.Lists s.queued) (fun _ hl => Traced.isFifo_of_lists hl)
    (fun _ _ _ hl hok hstep => Traced.lists_step hl hok hstep)
    (fun _ _ _ hl hbad hstep => Traced.not_isFifo_of_removed hl hbad hstep) calls ⟨rb, []⟩ t
    (RingBuffer.lists_newRingBuffer hnew) hrun

/-- Three handles through a ring of two slots, one of them taken out again by `Pop`. -/
theorem ring_is_fifo_iff_pops :
    ∃ rb s, newRingBuffer 2 = some rb ∧
      run Traced.step ⟨rb, []⟩ [.push ⟨0, 1, 0, 0⟩, .push ⟨8, 1, 0, 0⟩, .pop,
        .remove ⟨0, 1, 0, 0⟩, .push ⟨16, 1, 0, 0⟩] = some s ∧ s.IsFifo := by
  obtain ⟨rb, hnew, hguard, s, hrun, _⟩ : ∃ rb, newRingBuffer 2 = some rb ∧
      Guarded Traced.step Traced.RemovesNothing ⟨rb, []⟩ [.push ⟨0, 1, 0, 0⟩, .push ⟨8, 1, 0, 0⟩,
        .pop, .remove ⟨0, 1, 0, 0⟩, .push ⟨16, 1, 0, 0⟩] ∧
      ∃ s, run Traced.step ⟨rb, []⟩ [.push ⟨0, 1, 0, 0⟩, .push ⟨8, 1, 0, 0⟩, .pop,
        .remove ⟨0, 1, 0, 0⟩, .push ⟨16, 1, 0, 0⟩] = some s ∧ True := by
    decide +kernel
  exact ⟨rb, s, hnew, hrun, (ring_is_fifo_iff hnew hrun).mpr hguard 5 s hrun⟩

/-- The first of two handles is removed: `Pop` still returns it, `Size` still counts it and there
is no room for a third one. -/
theorem removed_handle_popped :
    ∃ rb s, newRingBuffer 2 = some rb ∧
      run Traced.step ⟨rb, []⟩ [.push ⟨0, 1, 0, 0⟩, .push ⟨8, 1, 0, 0⟩, .remove ⟨0, 1, 0, 0⟩] =
        some s ∧
      s.queued = [⟨8, 1, 0, 0⟩] ∧ s.rb.pop.map Prod.fst = some ⟨0, 1, 0, 0⟩ ∧ s.rb.size = 2 ∧
      s.rb.cap = 2 ∧ (s.rb.push ⟨16, 1, 0, 0⟩).isSome = false := by
  simp only [exists_and_left]
  decide +kernel

end Horreum.S3Fifo
