/-
  Foundation/Slots.lean --- one element of a list is replaced.

  The processes of a machine stand in a list, and a step changes one of them.  These are the rules
  for what the step leaves as it was.
-/
import Mathlib.Data.List.Basic

set_option autoImplicit false

namespace Horreum.Foundation

variable {α β : Type} {xs : List α} {i : Nat} {x y : α}

theorem map_set_same {f : α → β} (hx : xs[i]? = some x) (hf : f y = f x) :
    (xs.set i y).map f = xs.map f := by
  obtain ⟨hi, rfl⟩ := List.getElem?_eq_some_iff.mp hx
  have hi' : i < (xs.map f).length := by rwa [List.length_map]
  have hget : f xs[i] = (xs.map f)[i] := (List.getElem_map f).symm
  rw [List.map_set, hf, hget, List.set_getElem_self]

theorem map_set_modify {f : α → β} {g : β → β} (hx : xs[i]? = some x) (hf : f y = g (f x)) :
    (xs.set i y).map f = (xs.map f).modify i g := by
  obtain ⟨hi, rfl⟩ := List.getElem?_eq_some_iff.mp hx
  rw [List.map_set, hf, List.modify_eq_set_getElem?, List.getElem?_map, hx]
  rfl

/-- A change that undoes a replacement. -/
theorem set_modify_eq_iff (hx : xs[i]? = some x) (hne : y ≠ x) (j : Nat) (f : α → α) :
    (xs.set i y).modify j f = xs ↔ j = i ∧ f y = x := by
  have hi := (List.getElem?_eq_some_iff.mp hx).1
  have hself : ((xs.set i y).modify j f)[i]? = some (if j = i then f y else y) := by
    rw [List.getElem?_modify, List.getElem?_set_self hi]
    rfl
  constructor
  · intro heq
    rw [heq, hx, Option.some.injEq] at hself
    split at hself
    · exact ⟨‹_›, hself.symm⟩
    · exact absurd hself.symm hne
  · rintro ⟨rfl, rfl⟩
    refine List.ext_getElem? fun k => ?_
    by_cases hk : j = k
    · rw [← hk, hself, if_pos rfl, hx]
    · rw [List.getElem?_modify, List.getElem?_set_ne hk]
      simp [hk]

theorem getElem?_set_of_some (hx : xs[i]? = some x) (y : α) (j : Nat) :
    (xs.set i y)[j]? = if j = i then some y else xs[j]? := by
  have hi : i < xs.length := (List.getElem?_eq_some_iff.mp hx).1
  by_cases hj : j = i
  · rw [if_pos hj, hj, List.getElem?_set_self hi]
  · rw [if_neg hj, List.getElem?_set_ne (Ne.symm hj)]

theorem forall_set {p : Nat → α → Prop} (h : ∀ j z, xs[j]? = some z → p j z) (hy : p i y) :
    ∀ j z, (xs.set i y)[j]? = some z → p j z := by
  intro j z hz
  by_cases hj : j = i
  · subst hj
    obtain ⟨_, rfl⟩ := List.getElem?_eq_some_iff.mp hz
    rw [List.getElem_set_self]
    exact hy
  · rw [List.getElem?_set_ne (Ne.symm hj)] at hz
    exact h j z hz

theorem forall_concat {p : Nat → α → Prop} (h : ∀ j z, xs[j]? = some z → p j z)
    (hy : p xs.length y) : ∀ j z, (xs ++ [y])[j]? = some z → p j z := by
  intro j z hz
  rcases Nat.lt_trichotomy j xs.length with hlt | rfl | hgt
  · rw [List.getElem?_append_left hlt] at hz
    exact h j z hz
  · rw [List.getElem?_concat_length] at hz
    cases hz
    exact hy
  · rw [List.getElem?_eq_none (by rw [List.length_append, List.length_singleton]; exact hgt)] at hz
    cases hz

end Horreum.Foundation
