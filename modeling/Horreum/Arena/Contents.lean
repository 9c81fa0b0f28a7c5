/-
  Arena/Contents.lean --- what the handles of an arena read over a whole run.

  The abstract arena is the list of live handles with the values they were returned for: `Put`
  adds an entry, `Free` removes one.  The manager refines it.  As long as only live handles are
  freed, `Put` never reaches outside a region and every live handle reads its value.
-/
import Horreum.Arena.Ownership
import Horreum.Foundation.Runs

set_option autoImplicit false

namespace Horreum.Arena

open Foundation

/-- A call of the arena. -/
inductive Request where
  | put (value : Bytes) (mmapOk : Bool)
  | free (h : Handle)
  deriving DecidableEq, Repr

/-- A manager and what its live handles were returned for. -/
structure Tenancy where
  mgr : Manager
  live : List (Handle × Bytes)

namespace Tenancy

/-- `none` is an index outside a slice. -/
def step (t : Tenancy) : Request → Option Tenancy
  | .put value mmapOk => (t.mgr.put value mmapOk).map fun (res, mgr) =>
    match res with
    | .ok h => ⟨mgr, (h, value) :: t.live⟩
    | .error _ => ⟨mgr, t.live⟩
  | .free h => some ⟨(t.mgr.free h).2, t.live.filter (fun p => p.1 ≠ h)⟩

/-- A value is not too large, and only what is live is freed. -/
def Allowed (t : Tenancy) : Request → Prop
  | .put value _ => value.length ≤ maxObjectSize
  | .free h => h ∈ t.live.map Prod.fst

instance (t : Tenancy) : ∀ r, Decidable (t.Allowed r)
  | .put value _ => inferInstanceAs (Decidable (value.length ≤ maxObjectSize))
  | .free h => inferInstanceAs (Decidable (h ∈ t.live.map Prod.fst))

/-- The manager owns the blocks of the live handles, and they read their values. -/
structure Refines (t : Tenancy) : Prop where
  owns : t.mgr.Owns { h | ∃ v, (h, v) ∈ t.live }
  view : ∀ h v, (h, v) ∈ t.live → t.mgr.view h = some (.ok v)

variable {m : Manager}

theorem refines_start (h : m.Owns ∅) : Refines ⟨m, []⟩ :=
  ⟨h.mono (by simp), by simp⟩

variable {t : Tenancy} {value : Bytes}

theorem step_put_ok {mmapOk : Bool} {h : Handle} (hput : t.mgr.put value mmapOk = some (.ok h, m)) :
    t.step (.put value mmapOk) = some ⟨m, (h, value) :: t.live⟩ := by
  rw [step, hput]
  rfl

theorem step_put_error {mmapOk : Bool} {e : Error}
    (hput : t.mgr.put value mmapOk = some (.error e, m)) :
    t.step (.put value mmapOk) = some ⟨m, t.live⟩ := by
  rw [step, hput]
  rfl

theorem handles_cons (live : List (Handle × Bytes)) (hd : Handle) (value : Bytes) :
    { h | ∃ v, (h, v) ∈ (hd, value) :: live } ⊆ insert hd { h | ∃ v, (h, v) ∈ live } := by
  rintro g ⟨v, hv⟩
  rcases List.mem_cons.mp hv with heq | hv
  · exact .inl (congrArg Prod.fst heq)
  · exact .inr ⟨v, hv⟩

theorem Refines.put (h : t.Refines) (mmapOk : Bool) (hlen : value.length ≤ maxObjectSize) :
    ∃ t', t.step (.put value mmapOk) = some t' ∧ t'.Refines := by
  obtain ⟨res, m, hput, hspec⟩ := Manager.put_spec h.owns value mmapOk
  have hwhole : value.take (value.length % 2 ^ 32) = value := by
    simp only [maxObjectSize] at hlen
    rw [Nat.mod_eq_of_lt (by omega), List.take_length]
  cases res with
  | error e =>
    obtain ⟨howns, hframe, _⟩ := hspec
    exact ⟨_, step_put_error hput, howns,
      fun g v hv => (hframe g ⟨v, hv⟩).1.trans (h.view g v hv)⟩
  | ok hd =>
    simp only [hwhole] at hspec
    refine ⟨_, step_put_ok hput, hspec.owns.mono (handles_cons t.live hd value), ?_⟩
    intro g v hv
    rcases List.mem_cons.mp hv with heq | hv
    · cases heq
      exact hspec.view
    · exact (hspec.frame g ⟨v, hv⟩).1.trans (h.view g v hv)

/-- Freeing a live handle gives up its block and keeps those of the others. -/
theorem owns_free (h : t.mgr.Owns { h | ∃ v, (h, v) ∈ t.live }) {hd : Handle}
    (hlive : hd ∈ t.live.map Prod.fst) :
    (t.mgr.free hd).2.Owns { h | ∃ v, (h, v) ∈ t.live.filter (fun p => p.1 ≠ hd) } := by
  have hmem : ∃ v, (hd, v) ∈ t.live := by simpa using hlive
  refine (Manager.free_spec h hmem).2.1.mono ?_
  rintro g ⟨v, hv⟩
  obtain ⟨hv, hne⟩ := List.mem_filter.mp hv
  exact ⟨⟨v, hv⟩, of_decide_eq_true hne⟩

theorem Refines.free (h : t.Refines) {hd : Handle} (hlive : hd ∈ t.live.map Prod.fst) :
    ∃ t', t.step (.free hd) = some t' ∧ t'.Refines :=
  ⟨_, rfl, owns_free h.owns hlive, fun g v hv =>
    (Manager.view_free _ _ _).trans (h.view g v (List.mem_filter.mp hv).1)⟩

theorem Refines.step (h : t.Refines) {r : Request} (hok : t.Allowed r) :
    ∃ t', t.step r = some t' ∧ t'.Refines := by
  cases r with
  | put value mmapOk => exact h.put mmapOk hok
  | free hd => exact h.free hok

/-- Over any run of requests, in an anonymous arena or one over a file: no request reaches
outside a slice, and in the end every live handle reads the value it was returned for. -/
theorem live_handles_read_values (regionSize : Nat) {m : Manager}
    (hnew : m = newManager regionSize ∨
      ∃ data, Cells.size data = regionSize ∧ m = openFileManager regionSize data)
    (requests : List Request) (hguard : Guarded step Allowed ⟨m, []⟩ requests) :
    ∃ t, run step ⟨m, []⟩ requests = some t ∧
      ∀ h v, (h, v) ∈ t.live → t.mgr.view h = some (.ok v) := by
  have howns : m.Owns ∅ := by
    rcases hnew with rfl | ⟨data, hdata, rfl⟩
    · exact Manager.owns_newManager regionSize
    · exact Manager.owns_openFileManager hdata
  obtain ⟨t, hrun, ht⟩ := run_total Refines (fun _ _ ht hok => ht.step hok) requests _
    (refines_start howns) hguard
  exact ⟨t, hrun, ht.view⟩

/-- Three values over two regions of 16 bytes, then the block of one of them reused for a
longer value. -/
theorem live_handles_read_values_reused :
    ∃ t, run step ⟨newManager 16, []⟩ [.put [1] true, .put [2, 3] true, .put [4] true,
        .free ⟨0, 1, 0, 0⟩, .free ⟨0, 1, 0, 1⟩, .put [5, 6, 7] true] = some t ∧
      t.live = [(⟨0, 3, 0, 1⟩, [5, 6, 7]), (⟨8, 2, 0, 0⟩, [2, 3])] ∧
      ∀ h v, (h, v) ∈ t.live → t.mgr.view h = some (.ok v) := by
  have hguard : Guarded step Allowed ⟨newManager 16, []⟩ [.put [1] true, .put [2, 3] true,
      .put [4] true, .free ⟨0, 1, 0, 0⟩, .free ⟨0, 1, 0, 1⟩, .put [5, 6, 7] true] := by
    decide +kernel
  have hlive : (run step ⟨newManager 16, []⟩ [.put [1] true, .put [2, 3] true, .put [4] true,
      .free ⟨0, 1, 0, 0⟩, .free ⟨0, 1, 0, 1⟩, .put [5, 6, 7] true]).any
      (fun t => decide (t.live = [(⟨0, 3, 0, 1⟩, [5, 6, 7]), (⟨8, 2, 0, 0⟩, [2, 3])])) = true := by
    decide +kernel
  obtain ⟨t, hrun, hview⟩ := live_handles_read_values 16 (.inl rfl) _ hguard
  rw [hrun, Option.any_some] at hlive
  exact ⟨t, hrun, of_decide_eq_true hlive, hview⟩

end Tenancy

end Horreum.Arena
