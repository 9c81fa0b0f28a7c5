/-
  Foundation/CasLoop.lean --- one atomic variable, changed in loops of a load and a compare-and-swap.

  Any number of calls run at the same time, and a step is one access by one of them.  A call takes
  effect at its load, if it has nothing to change, or at the swap that succeeds.  `Linear`: the calls
  in the order in which they take effect explain every result and the value.
-/
import Horreum.Foundation.Runs
import Horreum.Foundation.Slots
import Mathlib.Data.List.Nodup

set_option autoImplicit false

namespace Horreum.Foundation

/-- What a call does when it looks at the variable. -/
inductive Attempt (V R : Type) where
  | done (result : R)
  /-- One atomic operation. -/
  | put (new : V) (result : R)
  /-- A compare-and-swap in a later step; if it fails, the call looks again. -/
  | swap (expected new : V) (result : R)

/-- Where a call is. -/
inductive CallAt (V R : Type) where
  | trying
  | swapping (expected new : V) (result : R)
  | returned (result : R)
  deriving DecidableEq, Repr

/-- The shared value, the calls and what they did. -/
structure CasLoop (O V R : Type) where
  value : V
  calls : List (O × CallAt V R)
  /-- The calls that have taken effect, with their results. -/
  log : List (Nat × O × R)

namespace CasLoop

variable {O V R : Type}

/-- No call is under way. -/
def start (v : V) : CasLoop O V R := ⟨v, [], []⟩

/-- A call begins, or call `i` goes on. -/
inductive Event (O : Type) where
  | call (op : O)
  | go (i : Nat)

/-- Call `i` gets to another place. -/
def moveTo (s : CasLoop O V R) (i : Nat) (op : O) (pos : CallAt V R) : CasLoop O V R :=
  { s with calls := s.calls.set i (op, pos) }

/-- The call takes effect and returns. -/
def commit (s : CasLoop O V R) (i : Nat) (op : O) (v : V) (result : R) : CasLoop O V R :=
  { s.moveTo i op (.returned result) with value := v, log := s.log ++ [(i, op, result)] }

variable (act : O → V → Attempt V R)

/-- What call `i` does with what it reads. -/
def attempt (s : CasLoop O V R) (i : Nat) (op : O) : Attempt V R → CasLoop O V R
  | .done result => s.commit i op s.value result
  | .put new result => s.commit i op new result
  | .swap expected new result => s.moveTo i op (.swapping expected new result)

/-- The same call in one step. -/
def spec (v : V) (op : O) : R × V :=
  match act op v with
  | .done result => (result, v)
  | .put new result => (result, new)
  | .swap _ new result => (result, new)

/-- On good values the loops compare with what they have loaded. -/
structure Sound (good : V → Prop) : Prop where
  swap : ∀ {op v expected new result}, good v → act op v = .swap expected new result → expected = v
  keeps : ∀ op v, good v → good (spec act v op).2

variable {act} {good : V → Prop} {s s' : CasLoop O V R} {i : Nat} {op : O} {v₀ : V}
  {pos : CallAt V R}

/-- A call that leaves out the swap when there is nothing to change. -/
theorem spec_of_skip {v e new : V} {r : R} {c : Prop} [Decidable c]
    (hact : act op v = if c then .done r else .swap e new r) (hc : c → new = v) :
    spec act v op = (r, new) := by
  unfold spec
  rw [hact]
  by_cases h : c
  · rw [if_pos h, hc h]
  · rw [if_neg h]

/-- What is known of a call from where it is. -/
def CallOk (act : O → V → Attempt V R) (good : V → Prop) (log : List (Nat × O × R)) (i : Nat)
    (call : O × CallAt V R) : Prop :=
  match call.2 with
  | .trying => i ∉ log.map Prod.fst
  | .swapping expected new result => i ∉ log.map Prod.fst ∧ good expected ∧
      act call.1 expected = .swap expected new result
  | .returned result => (i, call.1, result) ∈ log

/-- The calls that took effect are a serial run. -/
structure Linear (act : O → V → Attempt V R) (good : V → Prop) (v₀ : V) (s : CasLoop O V R) :
    Prop where
  value : good s.value
  serial : expected (spec act) v₀ (s.log.map fun e => e.2.1) =
    (s.log.map fun e => e.2.2, s.value)
  once : (s.log.map Prod.fst).Nodup
  started : ∀ e ∈ s.log, e.1 < s.calls.length
  calls : ∀ i call, s.calls[i]? = some call → CallOk act good s.log i call

theorem linear_start (hgood : good v₀) : Linear act good v₀ (start v₀) :=
  ⟨hgood, rfl, List.nodup_nil, nofun, nofun⟩

theorem CallOk.concat {log : List (Nat × O × R)} {call : O × CallAt V R} {e : Nat × O × R}
    (h : CallOk act good log i call) (he : e.1 ≠ i) : CallOk act good (log ++ [e]) i call := by
  have hnot : i ∉ log.map Prod.fst → i ∉ (log ++ [e]).map Prod.fst := by
    intro hi hmem
    rw [List.map_append, List.mem_append] at hmem
    rcases hmem with hold | hnew
    · exact hi hold
    · exact he (List.mem_singleton.mp hnew).symm
  unfold CallOk at h ⊢
  split at h
  · exact hnot h
  · exact ⟨hnot h.1, h.2⟩
  · exact List.mem_append_left _ h

theorem CallOk.not_mem {log : List (Nat × O × R)}
    (h : CallOk act good log i (op, pos)) (hpos : ∀ r, pos ≠ .returned r) : i ∉ log.map Prod.fst := by
  cases pos with
  | trying => exact h
  | swapping => exact h.1
  | returned r => exact absurd rfl (hpos r)

/-- A call takes effect as it would in one step. -/
theorem Linear.commit {v : V} {result : R} (h : Linear act good v₀ s) (hsound : Sound act good)
    (hcall : s.calls[i]? = some (op, pos)) (hpos : ∀ r, pos ≠ .returned r)
    (hspec : spec act s.value op = (result, v)) : Linear act good v₀ (s.commit i op v result) := by
  have hlt : i < s.calls.length := (List.getElem?_eq_some_iff.mp hcall).1
  have hnot := (h.calls i _ hcall).not_mem hpos
  refine ⟨?_, ?_, ?_, ?_, ?_⟩
  · have hkeep := hsound.keeps op s.value h.value
    rw [hspec] at hkeep
    exact hkeep
  · simp only [CasLoop.commit, List.map_append, List.map_cons, List.map_nil]
    refine Prod.ext ?_ ?_
    · rw [answers_expected_concat, h.serial, hspec]
    · rw [expected_concat, h.serial, hspec]
  · simp only [CasLoop.commit, List.map_append, List.map_cons, List.map_nil]
    exact List.nodup_append'.mpr ⟨h.once, List.nodup_singleton i,
      fun j hj hi => hnot (List.mem_singleton.mp hi ▸ hj)⟩
  · intro e he
    simp only [CasLoop.commit, moveTo, List.length_set]
    rcases List.mem_append.mp he with hold | hnew
    · exact h.started e hold
    · rw [List.mem_singleton.mp hnew]
      exact hlt
  · intro j call hj
    rw [CasLoop.commit, moveTo, getElem?_set_of_some hcall] at hj
    by_cases heq : j = i
    · rw [if_pos heq] at hj
      obtain rfl := Option.some.inj hj
      rw [heq]
      exact List.mem_append_right _ (List.mem_singleton.mpr rfl)
    · rw [if_neg heq] at hj
      exact (h.calls j call hj).concat (Ne.symm heq)

theorem Linear.moveTo (h : Linear act good v₀ s)
    (hok : CallOk act good s.log i (op, pos)) : Linear act good v₀ (s.moveTo i op pos) :=
  ⟨h.value, h.serial, h.once, fun e he => by
    rw [CasLoop.moveTo, List.length_set]
    exact h.started e he, forall_set h.calls hok⟩

/-- The log has the calls that have returned, with what they have returned. -/
theorem Linear.mem_log_iff {r : R} (h : Linear act good v₀ s) :
    (i, op, r) ∈ s.log ↔ s.calls[i]? = some (op, .returned r) := by
  refine ⟨fun hmem => ?_, fun hcall => h.calls i _ hcall⟩
  have hin : i ∈ s.log.map Prod.fst := List.mem_map.mpr ⟨_, hmem, rfl⟩
  obtain ⟨⟨op', pos⟩, hget⟩ : ∃ call, s.calls[i]? = some call :=
    ⟨_, List.getElem?_eq_getElem (h.started _ hmem)⟩
  have hok := h.calls i _ hget
  cases pos with
  | trying => exact absurd hin hok
  | swapping => exact absurd hin hok.1
  | returned r' =>
    cases List.inj_on_of_nodup_map h.once hmem hok rfl
    exact hget

variable [DecidableEq V]

/-- One event. -/
def step (act : O → V → Attempt V R) (s : CasLoop O V R) : Event O → Option (CasLoop O V R)
  | .call op => some { s with calls := s.calls ++ [(op, .trying)] }
  | .go i => do
    let (op, pos) ← s.calls[i]?
    match pos with
    | .trying => some (s.attempt i op (act op s.value))
    | .swapping expected new result =>
      some (if s.value = expected then s.commit i op new result else s.moveTo i op .trying)
    | .returned _ => none

/-- What a step does: a call begins, a call takes effect, or a call comes nearer to its swap or has to
look again. -/
inductive Steps (act : O → V → Attempt V R) (s : CasLoop O V R) : Event O → CasLoop O V R → Prop where
  | call (op : O) : Steps act s (.call op) { s with calls := s.calls ++ [(op, .trying)] }
  | commit (i : Nat) (op : O) (pos : CallAt V R) (v : V) (result : R)
      (at_ : s.calls[i]? = some (op, pos)) (pos_ : ∀ r, pos ≠ .returned r)
      (effect : pos = .trying ∧ spec act s.value op = (result, v) ∨
        pos = .swapping s.value v result) : Steps act s (.go i) (s.commit i op v result)
  | load (i : Nat) (op : O) (expected new : V) (result : R) (at_ : s.calls[i]? = some (op, .trying))
      (act_ : act op s.value = .swap expected new result) :
      Steps act s (.go i) (s.moveTo i op (.swapping expected new result))
  | retry (i : Nat) (op : O) (expected new : V) (result : R)
      (at_ : s.calls[i]? = some (op, .swapping expected new result)) (stale : s.value ≠ expected) :
      Steps act s (.go i) (s.moveTo i op .trying)

theorem step_cases {ev : Event O} (h : step act s ev = some s') : Steps act s ev s' := by
  cases ev with
  | call op =>
    cases h
    exact .call op
  | go i =>
    obtain ⟨⟨op, pos⟩, hcall, h⟩ := Option.bind_eq_some_iff.mp h
    cases pos with
    | returned r => cases h
    | trying =>
      cases h
      cases hact : act op s.value with
      | done r => exact .commit i op .trying _ _ hcall nofun (.inl ⟨rfl, by rw [spec, hact]⟩)
      | put v r => exact .commit i op .trying _ _ hcall nofun (.inl ⟨rfl, by rw [spec, hact]⟩)
      | swap e v r => exact .load i op e v r hcall hact
    | swapping e v r =>
      cases h
      by_cases hv : s.value = e
      · rw [if_pos hv]
        subst hv
        exact .commit i op _ v r hcall nofun (.inr rfl)
      · rw [if_neg hv]
        exact .retry i op e v r hcall hv

theorem Linear.step {ev : Event O} (h : Linear act good v₀ s) (hsound : Sound act good)
    (hstep : step act s ev = some s') : Linear act good v₀ s' := by
  cases step_cases hstep with
  | call op =>
    refine ⟨h.value, h.serial, h.once, fun e he => ?_, forall_concat h.calls fun hmem => ?_⟩
    · rw [List.length_append]
      exact Nat.lt_add_right _ (h.started e he)
    · obtain ⟨e, he, heq⟩ := List.mem_map.mp hmem
      exact absurd (h.started e he) (by rw [heq]; exact Nat.lt_irrefl _)
  | commit i op pos v result hcall hpos heffect =>
    refine h.commit hsound hcall hpos ?_
    rcases heffect with ⟨_, hspec⟩ | rfl
    · exact hspec
    · obtain ⟨_, _, hact⟩ := h.calls i _ hcall
      rw [spec, hact]
  | load i op e v r hcall hact =>
    obtain rfl := hsound.swap h.value hact
    exact h.moveTo ⟨h.calls i _ hcall, h.value, hact⟩
  | retry i op e v r hcall _ => exact h.moveTo (h.calls i _ hcall).1

theorem linear_of_run {evs : List (Event O)} (hsound : Sound act good) (hgood : good v₀)
    (hrun : run (step act) (start v₀) evs = some s) : Linear act good v₀ s :=
  run_keeps (Linear act good v₀) (fun _ _ _ hs hstep => hs.step hsound hstep) evs _ s
    (linear_start hgood) hrun

/-- What has taken effect stays so, in this order. -/
theorem log_grows : ∀ (evs : List (Event O)) {s s' : CasLoop O V R},
    run (step act) s evs = some s' → s.log <+: s'.log
  | [], _, _, hrun => by
    cases hrun
    exact List.prefix_rfl
  | _ :: evs, _, _, hrun => by
    obtain ⟨mid, hmid, hrest⟩ := Option.bind_eq_some_iff.mp hrun
    refine List.IsPrefix.trans ?_ (log_grows evs hrest)
    cases step_cases hmid with
    | call | load | retry => exact List.prefix_rfl
    | commit => exact List.prefix_append _ _

end CasLoop

end Horreum.Foundation
