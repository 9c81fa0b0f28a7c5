/-
  Foundation/LastWriter.lean --- maps under a sequence of writes.

  Every write gives one key a value.  At a key the last write to it counts, and the map before
  counts where there is none; so writing the same sequence once more changes nothing.
-/
import Mathlib.Logic.Function.Basic

set_option autoImplicit false

namespace Horreum.Foundation

variable {α κ ν : Type} [DecidableEq κ] (key : α → κ) (value : α → ν)

/-- The map after the writes. -/
def lastWriter (M : κ → ν) (as : List α) : κ → ν :=
  as.foldl (fun M a => Function.update M (key a) (value a)) M

variable {key value} {as : List α} {k : κ}

theorem lastWriter_cons (M : κ → ν) (a : α) (as : List α) :
    lastWriter key value M (a :: as) =
      lastWriter key value (Function.update M (key a) (value a)) as := rfl

theorem lastWriter_append (M : κ → ν) (as bs : List α) :
    lastWriter key value M (as ++ bs) = lastWriter key value (lastWriter key value M as) bs :=
  List.foldl_append

theorem lastWriter_of_not_mem {M : κ → ν} (h : ∀ a ∈ as, key a ≠ k) :
    lastWriter key value M as k = M k := by
  induction as generalizing M with
  | nil => rfl
  | cons a as ih =>
    rw [lastWriter_cons, ih fun b hb => h b (List.mem_cons_of_mem a hb),
      Function.update_of_ne (Ne.symm (h a List.mem_cons_self))]

/-- At a key that is written it does not matter what was there. -/
theorem lastWriter_congr {M M' : κ → ν} (h : (∀ a ∈ as, key a ≠ k) → M k = M' k) :
    lastWriter key value M as k = lastWriter key value M' as k := by
  induction as generalizing M M' with
  | nil => exact h (by simp)
  | cons a as ih =>
    rw [lastWriter_cons, lastWriter_cons]
    refine ih fun hrest => ?_
    by_cases hk : k = key a
    · simp [hk]
    · rw [Function.update_of_ne hk, Function.update_of_ne hk]
      refine h fun b hb => ?_
      rcases List.mem_cons.mp hb with rfl | hb
      · exact Ne.symm hk
      · exact hrest b hb

theorem lastWriter_again (M : κ → ν) (as : List α) :
    lastWriter key value (lastWriter key value M as) as = lastWriter key value M as :=
  funext fun _ => lastWriter_congr lastWriter_of_not_mem

end Horreum.Foundation
