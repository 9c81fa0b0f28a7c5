/-
  Foundation/Paging.lean --- a collection read page by page.

  A page call takes a cursor and returns some items and the next cursor; one cursor stands for
  the end.  The pages are complete if every page takes its items off the front of what is left
  at its cursor.
-/
import Mathlib.Data.List.Basic

set_option autoImplicit false

namespace Horreum.Foundation

variable {κ α : Type} [DecidableEq κ] {page : κ → List α × κ} {done : κ}

/-- The pages from `cursor` on, up to the one that returns `done`. -/
def pagesFrom (page : κ → List α × κ) (done : κ) : (fuel : Nat) → (cursor : κ) →
    Option (List (List α))
  | 0, _ => none
  | fuel + 1, cursor =>
    let (items, next) := page cursor
    if next = done then some [items] else (pagesFrom page done fuel next).map (items :: ·)

theorem pagesFrom_flatten (left : κ → List α) (size : κ → Nat)
    (hlast : ∀ c, (page c).2 = done → left c = (page c).1)
    (hmore : ∀ c, (page c).2 ≠ done →
      left c = (page c).1 ++ left (page c).2 ∧ size (page c).2 < size c) :
    ∀ (fuel : Nat) (c : κ), size c < fuel →
      ∃ pages, pagesFrom page done fuel c = some pages ∧ pages.flatten = left c := by
  intro fuel
  induction fuel with
  | zero => exact fun c hlt => absurd hlt (Nat.not_lt_zero _)
  | succ fuel ih =>
    intro c hlt
    by_cases hend : (page c).2 = done
    · exact ⟨[(page c).1], by simp [pagesFrom, hend], by simp [hlast c hend]⟩
    · obtain ⟨hsplit, hless⟩ := hmore c hend
      obtain ⟨pages, hpages, hflat⟩ := ih (page c).2 (by omega)
      exact ⟨(page c).1 :: pages, by simp [pagesFrom, hend, hpages], by simp [hflat, hsplit]⟩

end Horreum.Foundation
