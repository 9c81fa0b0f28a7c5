/-
  Transport/ShardWorker.lean --- the queue of one shard worker,
  `internal/transport/shard_worker.go`.

  Any number of `submit` and `shutdown` calls run beside the goroutine of the worker.  A step is
  one channel operation, one choice of a select, one access to `done` or one call of a job's
  `Handle`, by any of them.  Every `submit` call has a job of its own, and the number of the call
  stands for the job.
-/
import Horreum.Foundation.Runs
import Mathlib.Data.List.Nodup

set_option autoImplicit false

namespace Horreum.Transport

open Foundation

/-- Where a `submit` call is. -/
inductive SubmitAt where
  /-- Before `w.done.Load()`. -/
  | entered
  /-- At the select, `done` was not set. -/
  | selecting
  /-- At `closeJob`. -/
  | closing
  | returned (ok : Bool)
  deriving DecidableEq, Repr

/-- The call has returned. -/
def SubmitAt.isReturned : SubmitAt → Bool
  | .returned _ => true
  | _ => false

/-- Where a `shutdown` call is. -/
inductive ShutdownAt where
  /-- Before the compare-and-swap. -/
  | entered
  /-- It has set `done` and is at `close(w.stop)`. -/
  | closing
  /-- It waits for the worker or for its context. -/
  | waiting
  | returned
  deriving DecidableEq, Repr

/-- Where the goroutine of the worker is. -/
inductive WorkerAt where
  /-- At the select of the loop. -/
  | selecting
  /-- At `j.Handle(false)`. -/
  | handling (j : Nat)
  /-- At the select of the drain. -/
  | draining
  /-- At `closeJob(j)` of the drain. -/
  | closing (j : Nat)
  | exited
  deriving DecidableEq, Repr

/-- What the worker has taken and not yet handled. -/
def WorkerAt.hand : WorkerAt → List Nat
  | .handling j | .closing j => [j]
  | _ => []

/-- The worker, its queue and the calls around it. -/
structure ShardWorker where
  queue : List Nat
  /-- Capacity of the channel. -/
  cap : Nat
  /-- Whether the channel `stop` is closed. -/
  stop : Bool
  done : Bool
  worker : WorkerAt
  submits : List SubmitAt
  shutdowns : List ShutdownAt
  /-- The calls of `Handle` so far, with their argument. -/
  handled : List (Nat × Bool)

/-- A worker that has been started. -/
def newShardWorker (queueDepth : Int) : ShardWorker where
  queue := []
  cap := if queueDepth ≤ 0 then 4096 else queueDepth.toNat
  stop := false
  done := false
  worker := .selecting
  submits := []
  shutdowns := []
  handled := []

namespace ShardWorker

/-- What can happen next. -/
inductive Event where
  | submit
  | loadDone (j : Nat)
  /-- `case w.queue <- j` -/
  | send (j : Nat)
  /-- `case <-w.stop` in `submit` -/
  | seeStop (j : Nat)
  | closeJob (j : Nat)
  | shutdown
  | compareAndSwap (i : Nat)
  | closeStop (i : Nat)
  | endWait (i : Nat)
  /-- `case <-w.stop` in the loop -/
  | workerStop
  /-- `case j := <-w.queue` in the loop -/
  | workerTake
  | workerHandle
  /-- `case j := <-w.queue` in the drain -/
  | workerDrain
  | workerClose
  /-- `default` in the drain, which is taken only if the queue is empty -/
  | workerExit
  deriving DecidableEq, Repr

/-- A `submit` gets to another place. -/
def setSubmit (s : ShardWorker) (j : Nat) (pc : SubmitAt) : ShardWorker :=
  { s with submits := s.submits.set j pc }

/-- A `Shutdown` gets to another place. -/
def setShutdown (s : ShardWorker) (i : Nat) (pc : ShutdownAt) : ShardWorker :=
  { s with shutdowns := s.shutdowns.set i pc }

/-- `Handle(canceled)` of job `j`. -/
def handle (s : ShardWorker) (j : Nat) (canceled : Bool) : ShardWorker :=
  { s with handled := s.handled ++ [(j, canceled)] }

/-- The step, if it can be taken. -/
def step (s : ShardWorker) : Event → Option ShardWorker
  | .submit => some { s with submits := s.submits ++ [.entered] }
  | .loadDone j =>
    if s.submits[j]? = some .entered then
      some (s.setSubmit j (if s.done then .closing else .selecting))
    else none
  | .send j =>
    if s.submits[j]? = some .selecting ∧ s.queue.length < s.cap then
      some { s.setSubmit j (.returned true) with queue := s.queue ++ [j] }
    else none
  | .seeStop j =>
    if s.submits[j]? = some .selecting ∧ s.stop then some (s.setSubmit j .closing) else none
  | .closeJob j =>
    if s.submits[j]? = some .closing then
      some ((s.setSubmit j (.returned false)).handle j true)
    else none
  | .shutdown => some { s with shutdowns := s.shutdowns ++ [.entered] }
  | .compareAndSwap i =>
    if s.shutdowns[i]? = some .entered then
      if s.done then some (s.setShutdown i .returned)
      else some { s.setShutdown i .closing with done := true }
    else none
  | .closeStop i =>
    -- closing it twice would panic
    if s.shutdowns[i]? = some .closing ∧ !s.stop then
      some { s.setShutdown i .waiting with stop := true }
    else none
  | .endWait i =>
    -- the context may end at any time
    if s.shutdowns[i]? = some .waiting then some (s.setShutdown i .returned) else none
  | .workerStop =>
    if s.worker = .selecting ∧ s.stop then some { s with worker := .draining } else none
  | .workerTake =>
    match s.worker, s.queue with
    | .selecting, j :: queue => some { s with worker := .handling j, queue := queue }
    | _, _ => none
  | .workerHandle =>
    match s.worker with
    | .handling j => some ({ s with worker := .selecting }.handle j false)
    | _ => none
  | .workerDrain =>
    match s.worker, s.queue with
    | .draining, j :: queue => some { s with worker := .closing j, queue := queue }
    | _, _ => none
  | .workerClose =>
    match s.worker with
    | .closing j => some ({ s with worker := .draining }.handle j true)
    | _ => none
  | .workerExit =>
    if s.worker = .draining ∧ s.queue = [] then some { s with worker := .exited } else none

/-- Once the worker is gone, every job that was taken on has been handled. -/
def NoneLost (s : ShardWorker) : Prop :=
  s.worker = .exited → ∀ j, s.submits[j]? = some (.returned true) → j ∈ s.handled.map Prod.fst

/-- A send reaches a worker that is still there. -/
def InTime (s : ShardWorker) : Event → Prop
  | .send _ => s.worker ≠ .exited
  | _ => True

instance (s : ShardWorker) : ∀ ev, Decidable (s.InTime ev)
  | .send _ => inferInstanceAs (Decidable (s.worker ≠ .exited))
  | .submit | .loadDone _ | .seeStop _ | .closeJob _ | .shutdown | .compareAndSwap _
  | .closeStop _ | .endWait _ | .workerStop | .workerTake | .workerHandle | .workerDrain
  | .workerClose | .workerExit => isTrue trivial

/-! ## Where the jobs are -/

/-- The jobs that have left their `submit` call, handled or not. -/
def places (s : ShardWorker) : List Nat := s.queue ++ s.worker.hand ++ s.handled.map Prod.fst

/-- Call `j` has returned. -/
def hasReturned (s : ShardWorker) (j : Nat) : Bool := s.submits[j]?.any SubmitAt.isReturned

variable {s s' : ShardWorker} {ev : Event} {j : Nat}

theorem hasReturned_of_at {pc : SubmitAt} (h : s.submits[j]? = some pc) :
    s.hasReturned j = pc.isReturned := by
  simp [hasReturned, h]

theorem hasReturned_setSubmit (hj : j < s.submits.length) (pc : SubmitAt) :
    (s.setSubmit j pc).hasReturned = Function.update s.hasReturned j pc.isReturned := by
  funext k
  by_cases hk : k = j
  · simp [hasReturned, setSubmit, hk, hj]
  · simp [hasReturned, setSubmit, hk, Ne.symm hk]

theorem hasReturned_inside {pc pc' : SubmitAt} (h : s.submits[j]? = some pc)
    (hpc : pc.isReturned = false) (hpc' : pc'.isReturned = false) :
    (s.setSubmit j pc').hasReturned = s.hasReturned := by
  rw [hasReturned_setSubmit (List.getElem?_eq_some_iff.mp h).1, hpc', ← hpc, ← hasReturned_of_at h,
    Function.update_eq_self]

/-- No job comes or goes. -/
def SameJobs (s s' : ShardWorker) : Prop :=
  (∀ k, s'.places.count k = s.places.count k) ∧ s'.hasReturned = s.hasReturned

/-- The `submit` call of job `j` returns, and the job goes to its first place. -/
def Hands (j : Nat) (s s' : ShardWorker) : Prop :=
  s.hasReturned j = false ∧ (∀ k, s'.places.count k = s.places.count k + [j].count k) ∧
    s'.hasReturned = Function.update s.hasReturned j true

theorem step_jobs (h : s.step ev = some s') : SameJobs s s' ∨ ∃ j, Hands j s s' := by
  cases ev with
  | submit =>
    cases h
    refine .inl ⟨fun _ => rfl, funext fun k => ?_⟩
    simp only [hasReturned]
    rcases Nat.lt_trichotomy k s.submits.length with hlt | rfl | hgt
    · rw [List.getElem?_append_left hlt]
    · simp [SubmitAt.isReturned]
    · rw [List.getElem?_eq_none (Nat.le_of_lt hgt), List.getElem?_eq_none]
      rw [List.length_append, List.length_singleton]
      exact hgt
  | loadDone j =>
    obtain ⟨hat, h⟩ := Option.ite_none_right_eq_some.mp h
    cases h
    refine .inl ⟨fun _ => rfl, hasReturned_inside hat rfl ?_⟩
    split <;> rfl
  | send j =>
    obtain ⟨⟨hat, _⟩, h⟩ := Option.ite_none_right_eq_some.mp h
    cases h
    refine .inr ⟨j, hasReturned_of_at hat, fun k => ?_,
      hasReturned_setSubmit (List.getElem?_eq_some_iff.mp hat).1 _⟩
    simp only [places, setSubmit, List.count_append]
    omega
  | seeStop j =>
    obtain ⟨⟨hat, _⟩, h⟩ := Option.ite_none_right_eq_some.mp h
    cases h
    exact .inl ⟨fun _ => rfl, hasReturned_inside hat rfl rfl⟩
  | closeJob j =>
    obtain ⟨hat, h⟩ := Option.ite_none_right_eq_some.mp h
    cases h
    refine .inr ⟨j, hasReturned_of_at hat, fun k => ?_,
      hasReturned_setSubmit (List.getElem?_eq_some_iff.mp hat).1 _⟩
    simp only [places, setSubmit, handle, List.map_append, List.map_cons, List.map_nil,
      List.count_append]
    omega
  | shutdown =>
    cases h
    exact .inl ⟨fun _ => rfl, rfl⟩
  | compareAndSwap i =>
    obtain ⟨_, h⟩ := Option.ite_none_right_eq_some.mp h
    split at h <;> (cases h; exact .inl ⟨fun _ => rfl, rfl⟩)
  | closeStop i =>
    obtain ⟨_, h⟩ := Option.ite_none_right_eq_some.mp h
    cases h
    exact .inl ⟨fun _ => rfl, rfl⟩
  | endWait i =>
    obtain ⟨_, h⟩ := Option.ite_none_right_eq_some.mp h
    cases h
    exact .inl ⟨fun _ => rfl, rfl⟩
  | workerStop =>
    obtain ⟨⟨hw, _⟩, h⟩ := Option.ite_none_right_eq_some.mp h
    cases h
    exact .inl ⟨fun _ => by simp [places, hw, WorkerAt.hand], rfl⟩
  | workerTake | workerDrain =>
    simp only [step] at h
    split at h
    · rename_i j queue hw hq
      cases h
      refine .inl ⟨fun k => ?_, rfl⟩
      simp [places, hw, hq, WorkerAt.hand, List.count_cons]
      omega
    · cases h
  | workerHandle | workerClose =>
    simp only [step] at h
    split at h
    · rename_i j hw
      cases h
      refine .inl ⟨fun k => ?_, rfl⟩
      simp only [places, handle, hw, WorkerAt.hand, List.map_append, List.map_cons,
        List.map_nil, List.append_nil, List.count_append]
      omega
    · cases h
  | workerExit =>
    obtain ⟨⟨hw, _⟩, h⟩ := Option.ite_none_right_eq_some.mp h
    cases h
    exact .inl ⟨fun _ => by simp [places, hw, WorkerAt.hand], rfl⟩

/-- Every job whose `submit` call has returned is in one place, once, and no other job is. -/
def Accounted (s : ShardWorker) : Prop :=
  ∀ j, s.places.count j = if s.hasReturned j then 1 else 0

theorem Accounted.step (hs : s.Accounted) (h : s.step ev = some s') : s'.Accounted := by
  intro k
  rcases step_jobs h with ⟨hcount, hret⟩ | ⟨j, hnot, hcount, hret⟩
  · rw [hcount, hret]
    exact hs k
  · rw [hcount, hs k, hret]
    by_cases hk : k = j
    · simp [hk, hnot]
    · simp [hk, Ne.symm hk]

theorem Accounted.count_le_one (hs : s.Accounted) (j : Nat) : s.places.count j ≤ 1 := by
  rw [hs j]
  split <;> omega

theorem Accounted.nodup_handled (hs : s.Accounted) : (s.handled.map Prod.fst).Nodup := by
  rw [List.nodup_iff_count_le_one]
  intro j
  have hone := hs.count_le_one j
  rw [places, List.count_append] at hone
  omega

/-! ## Shutdown -/

/-- What holds as long as nothing was sent to a worker that is gone. -/
structure Kept (s : ShardWorker) : Prop where
  accounted : s.Accounted
  drained : s.worker = .exited → s.queue = []

theorem Kept.noneLost (hs : s.Kept) : s.NoneLost := by
  intro hexit j hj
  have hone := hs.accounted j
  rw [hasReturned_of_at hj, places, hs.drained hexit, hexit] at hone
  exact List.count_pos_iff.mp (Nat.lt_of_lt_of_eq Nat.zero_lt_one hone.symm)

/-- How the worker can be gone after a step. -/
theorem step_exited (h : s.step ev = some s') (hexit : s'.worker = .exited) :
    s'.queue = [] ∨ s.worker = .exited ∧ (s'.queue = s.queue ∨ ∃ j, ev = .send j) := by
  cases ev with
  | submit | shutdown =>
    cases h
    exact .inr ⟨hexit, .inl rfl⟩
  | loadDone j | seeStop j | closeJob j | closeStop i | endWait i =>
    obtain ⟨_, h⟩ := Option.ite_none_right_eq_some.mp h
    cases h
    exact .inr ⟨hexit, .inl rfl⟩
  | compareAndSwap i =>
    obtain ⟨_, h⟩ := Option.ite_none_right_eq_some.mp h
    split at h <;> (cases h; exact .inr ⟨hexit, .inl rfl⟩)
  | send j =>
    obtain ⟨_, h⟩ := Option.ite_none_right_eq_some.mp h
    cases h
    exact .inr ⟨hexit, .inr ⟨j, rfl⟩⟩
  | workerStop =>
    obtain ⟨_, h⟩ := Option.ite_none_right_eq_some.mp h
    cases h
    cases hexit
  | workerTake | workerHandle | workerDrain | workerClose =>
    simp only [step] at h
    split at h
    · cases h
      cases hexit
    · cases h
  | workerExit =>
    obtain ⟨⟨_, hempty⟩, h⟩ := Option.ite_none_right_eq_some.mp h
    cases h
    exact .inl hempty

theorem Kept.step (hs : s.Kept) (hok : s.InTime ev) (h : s.step ev = some s') : s'.Kept := by
  refine ⟨hs.accounted.step h, fun hexit => ?_⟩
  rcases step_exited h hexit with hempty | ⟨hgone, hsame | ⟨j, rfl⟩⟩
  · exact hempty
  · rw [hsame]
    exact hs.drained hgone
  · exact absurd hgone hok

/-- A job that is sent to a worker that is gone stays in the queue. -/
theorem Kept.lost (hs : s.Kept) (hlate : ¬ s.InTime ev) (h : s.step ev = some s') :
    ¬ s'.NoneLost := by
  intro hnone
  cases ev with
  | send j =>
    have hgone : s.worker = .exited := not_not.mp hlate
    have hone := (hs.accounted.step h).count_le_one j
    obtain ⟨⟨hat, _⟩, h⟩ := Option.ite_none_right_eq_some.mp h
    cases h
    have hj : j < s.submits.length := (List.getElem?_eq_some_iff.mp hat).1
    have hin : j ∈ s.handled.map Prod.fst := hnone hgone j (by simp [setSubmit, hj])
    have htwice := List.count_pos_iff.mpr hin
    simp only [places, setSubmit, List.count_append, List.count_singleton_self] at hone
    omega
  | _ => exact hlate trivial

theorem kept_new (queueDepth : Int) : (newShardWorker queueDepth).Kept :=
  ⟨fun _ => rfl, fun _ => rfl⟩

/-- In every interleaving: no job is handled twice, and no job that was taken on is left behind
by the worker, in all states of the run if and only if the run never sends to a worker that is
gone. -/
theorem handled_once_iff (queueDepth : Int) {evs : List Event}
    (hrun : run step (newShardWorker queueDepth) evs = some s) :
    (∀ n s', run step (newShardWorker queueDepth) (evs.take n) = some s' →
        s'.NoneLost ∧ (s'.handled.map Prod.fst).Nodup) ↔
      Guarded step InTime (newShardWorker queueDepth) evs :=
  always_iff_guarded Kept (fun _ hs => ⟨hs.noneLost, hs.accounted.nodup_handled⟩)
    (fun _ _ _ hs hok h => hs.step hok h) (fun _ _ _ hs hlate h hgood => hs.lost hlate h hgood.1)
    evs _ s (kept_new queueDepth) hrun

/-- A job in the queue at shutdown is closed by the drain. -/
theorem handled_once_drained :
    let evs : List Event := [.submit, .loadDone 0, .send 0, .shutdown, .compareAndSwap 0,
      .closeStop 0, .workerStop, .workerDrain, .workerClose, .workerExit]
    ∃ s, run step (newShardWorker 1) evs = some s ∧ s.handled = [(0, true)] ∧
      ∀ n s', run step (newShardWorker 1) (evs.take n) = some s' →
        s'.NoneLost ∧ (s'.handled.map Prod.fst).Nodup := by
  intro evs
  obtain ⟨s, hrun, hhandled⟩ : ∃ s, run step (newShardWorker 1) evs = some s ∧
      s.handled = [(0, true)] := by
    decide +kernel
  exact ⟨s, hrun, hhandled, (handled_once_iff 1 hrun).mpr (by decide +kernel)⟩

/-- `submit` loads `done`, then the worker is shut down, drains and is gone, and then the select
of `submit` takes the queue, which has room: it returns true, and nobody handles the job. -/
theorem job_left_in_queue :
    ∃ s, run step (newShardWorker 1) [.submit, .loadDone 0, .shutdown, .compareAndSwap 0,
        .closeStop 0, .workerStop, .workerExit, .send 0] = some s ∧
      s.worker = .exited ∧ s.submits = [.returned true] ∧ s.handled = [] ∧ s.queue = [0] := by
  decide +kernel

end ShardWorker

end Horreum.Transport
