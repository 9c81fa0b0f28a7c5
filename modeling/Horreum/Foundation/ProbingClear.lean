/-
  Foundation/ProbingClear.lean --- a slot of a linear-probing table freed without closing the gap.

  A free slot ends a walk.  So the entries whose walk from home leads over the freed slot are
  still in the table and no search finds them (`Wf.lost_of_clear`); where there is no such entry
  the table is in order (`Wf.clear`).
-/
import Horreum.Foundation.Probing

set_option autoImplicit false

namespace Horreum.Foundation.Probing

section Clear

variable {κ σ : Type} {key : σ → κ} {hash : κ → Nat} {mask : Nat} {slots : List (Option σ)} {i j : Nat}
  {e : σ}

/-- The walk to the entry `e` at `j` leads over slot `i`. -/
def Crosses (key : σ → κ) (hash : κ → Nat) (mask : Nat) (slots : List (Option σ)) (i j : Nat)
    (e : σ) : Prop :=
  cell slots j = some e ∧
    dist slots.length (hash (key e) &&& mask) i < dist slots.length (hash (key e) &&& mask) j

variable [DecidableEq κ]

/-- Without a walk over it, a slot can be freed. -/
theorem Wf.clear (h : Wf key hash mask slots) (hi : cell slots i = some e)
    (hnone : ∀ j e', ¬ Crosses key hash mask slots i j e') :
    Wf key hash mask (slots.set i none) ∧
      lookup key (slots.set i none) = Function.update (lookup key slots) (key e) none := by
  have hlt := lt_of_cell_eq_some hi
  have hcell := fun j => cell_set slots i j none hlt
  have hlen : (slots.set i none).length = slots.length := List.length_set
  have hold : ∀ j e', cell (slots.set i none) j = some e' → j ≠ i ∧ cell slots j = some e' := by
    intro j e' hj
    rw [hcell] at hj
    split at hj
    · cases hj
    · exact ⟨‹_›, hj⟩
  have hwf : Wf key hash mask (slots.set i none) := by
    refine ⟨by rw [hlen]; exact h.masked, fun p e' hp q hq hdist => ?_, fun p q e₁ e₂ hp hq hkey => ?_⟩
    · rw [hlen] at hq hdist
      obtain ⟨_, hp⟩ := hold p e' hp
      have hqi : q ≠ i := fun heq => hnone p e' ⟨hp, heq ▸ hdist⟩
      rw [hcell, if_neg hqi]
      exact h.reach p e' hp q hq hdist
    · exact h.unique p q e₁ e₂ (hold p e₁ hp).2 (hold q e₂ hq).2 hkey
  refine ⟨hwf, funext fun k => ?_⟩
  by_cases hk : k = key e
  · rw [hk, Function.update_self, hwf.lookup_eq_none]
    intro p e' hp hkey
    obtain ⟨hpi, hp⟩ := hold p e' hp
    exact hpi (h.unique p i e' e hp hi hkey)
  · rw [Function.update_of_ne hk]
    cases hlook : lookup key slots k with
    | none =>
      rw [hwf.lookup_eq_none]
      exact fun p e' hp => h.lookup_eq_none.mp hlook p e' (hold p e' hp).2
    | some e' =>
      obtain ⟨⟨p, hp⟩, hkey⟩ := h.lookup_eq_some.mp hlook
      have hpi : p ≠ i := by
        rintro rfl
        rw [hi] at hp
        cases hp
        exact hk hkey.symm
      exact hwf.lookup_eq_some.mpr ⟨⟨p, by rw [hcell, if_neg hpi]; exact hp⟩, hkey⟩

omit [DecidableEq κ] in
/-- The search for an entry behind the freed slot ends at a free slot. -/
theorem Wf.lost_of_clear (h : Wf key hash mask slots) (hit : σ → Bool)
    (hhit : ∀ i e', cell slots i = some e' → (hit e' = true ↔ key e' = key e))
    (hi : i < slots.length) (hcross : Crosses key hash mask slots i j e) :
    ∃ r, probe (slots.set i none) mask hit slots.length (hash (key e) &&& mask) = some r ∧
      cell (slots.set i none) r = none := by
  obtain ⟨hj, hover⟩ := hcross
  have hcell := fun p => cell_set slots i p none hi
  have hlen : (slots.set i none).length = slots.length := List.length_set
  have hstart := h.masked.and_lt (hash (key e))
  have hfree : cell (slots.set i none) i = none := by rw [hcell, if_pos rfl]
  have hmasked : Masked (slots.set i none).length mask := by rw [hlen]; exact h.masked
  have hstop := probe_stops hit hmasked (by rw [hlen]; exact hstart)
    ⟨i, by rw [hlen]; exact hi, hfree⟩
  rw [hlen] at hstop
  obtain ⟨r, hprobe, hr, hpassed, hend⟩ := hstop
  refine ⟨r, hprobe, ?_⟩
  rcases hend with hnone | ⟨e', he', hite⟩
  · exact hnone
  · -- the wanted entry is further away than the freed slot, which the walk does not pass
    exfalso
    rw [hcell] at he'
    split at he'
    · cases he'
    · have hrj : r = j := h.unique r j e' e he' hj ((hhit r e' he').mp hite)
      rw [hlen, hrj] at hpassed
      obtain ⟨e'', he'', _⟩ := hpassed i (by rw [hlen]; exact hi) (by rw [hlen]; exact hover)
      rw [hfree] at he''
      cases he''

end Clear

end Horreum.Foundation.Probing
