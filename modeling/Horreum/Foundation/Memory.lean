/-
  Foundation/Memory.lean --- fixed-size memories and the extents inside them.

  `Cells` is a size and a content function, so that a write is a pointwise update and a frame fact is
  an inequality between indices.  `Extent` is a half-open interval of cells; disjoint extents keep two
  owners from seeing each other's writes.
-/
import Mathlib.Data.List.Basic

set_option autoImplicit false

namespace Horreum.Foundation

/-- A memory of `size` cells.  Cells at or past `size` are never reached by a
bounds-checked access. -/
structure Cells (α : Type) where
  size : Nat
  get : Nat → α

namespace Cells

variable {α : Type} {i : Nat}

/-- A memory all of whose cells hold `x`. -/
def fill (size : Nat) (x : α) : Cells α := ⟨size, fun _ => x⟩

/-- The `n` cells from `off` on. -/
def read (c : Cells α) (off n : Nat) : List α :=
  (List.range n).map fun i => c.get (off + i)

/-- Store `xs` from `off` on. -/
def write (c : Cells α) (off : Nat) (xs : List α) : Cells α :=
  { c with get := fun i => if off ≤ i then xs[i - off]?.getD (c.get i) else c.get i }

/-- Store one cell. -/
def set (c : Cells α) (i : Nat) (x : α) : Cells α :=
  { c with get := fun j => if j = i then x else c.get j }

@[simp] theorem size_fill (size : Nat) (x : α) : (fill size x).size = size := rfl

@[simp] theorem size_write (c : Cells α) (off : Nat) (xs : List α) :
    (c.write off xs).size = c.size := rfl

@[simp] theorem size_set (c : Cells α) (i : Nat) (x : α) : (c.set i x).size = c.size := rfl

@[simp] theorem length_read (c : Cells α) (off n : Nat) : (c.read off n).length = n := by
  simp [read]

theorem get_set (c : Cells α) (i j : Nat) (x : α) :
    (c.set i x).get j = if j = i then x else c.get j := rfl

theorem set_set (c : Cells α) (i : Nat) (x y : α) : (c.set i x).set i y = c.set i y := by
  simp only [set, Cells.mk.injEq, true_and]
  funext j
  split <;> rfl

theorem set_get_self (c : Cells α) (i : Nat) : c.set i (c.get i) = c := by
  obtain ⟨size, get⟩ := c
  simp only [set, Cells.mk.injEq, true_and]
  funext j
  split
  · rename_i heq
    rw [heq]
  · rfl

theorem get_write_of_lt (c : Cells α) (off : Nat) (xs : List α) (h : i < off) :
    (c.write off xs).get i = c.get i := by
  simp [write, Nat.not_le.mpr h]

theorem get_write_of_ge (c : Cells α) (off : Nat) (xs : List α) (h : off + xs.length ≤ i) :
    (c.write off xs).get i = c.get i := by
  have hnone : xs[i - off]? = none := List.getElem?_eq_none (by omega)
  simp [write, hnone]

theorem get_write_inside (c : Cells α) (off : Nat) (xs : List α) (h : i < xs.length) :
    (c.write off xs).get (off + i) = xs[i] := by
  simp [write, List.getElem?_eq_getElem h]

theorem read_congr {c d : Cells α} {off n : Nat}
    (h : ∀ i, off ≤ i → i < off + n → c.get i = d.get i) : c.read off n = d.read off n := by
  refine List.map_congr_left ?_
  intro i hi
  have hlt : i < n := List.mem_range.mp hi
  exact h (off + i) (by omega) (by omega)

theorem read_write (c : Cells α) (off : Nat) (xs : List α) :
    (c.write off xs).read off xs.length = xs := by
  apply List.ext_getElem
  · simp
  · intro i h₁ h₂
    simp only [read, List.getElem_map, List.getElem_range]
    exact c.get_write_inside off xs h₂

/-- A write leaves every disjoint range as it was. -/
theorem read_write_of_disjoint (c : Cells α) {off n : Nat} (at_ : Nat) (xs : List α)
    (h : off + n ≤ at_ ∨ at_ + xs.length ≤ off) :
    (c.write at_ xs).read off n = c.read off n := by
  apply read_congr
  intro i hlo hhi
  rcases h with h | h
  · exact c.get_write_of_lt at_ xs (by omega)
  · exact c.get_write_of_ge at_ xs (by omega)

theorem read_add (c : Cells α) (off n k : Nat) :
    c.read off (n + k) = c.read off n ++ c.read (off + n) k := by
  simp [read, List.range_add, Function.comp_def, Nat.add_assoc]

theorem read_write_inside (c : Cells α) {off n k : Nat} {xs : List α} (h : k + xs.length ≤ n) :
    (c.write (off + k) xs).read off n =
      (c.read off n).take k ++ xs ++ (c.read off n).drop (k + xs.length) := by
  obtain ⟨r, rfl⟩ := Nat.exists_eq_add_of_le h
  have hold : c.read off (k + xs.length + r) =
      c.read off k ++ c.read (off + k) xs.length ++ c.read (off + (k + xs.length)) r := by
    rw [read_add, read_add]
  have htake : (c.read off (k + xs.length + r)).take k = c.read off k := by
    rw [hold, List.append_assoc, List.take_left' (length_read c off k)]
  have hdrop : (c.read off (k + xs.length + r)).drop (k + xs.length) =
      c.read (off + (k + xs.length)) r := by
    rw [hold, List.drop_left' (by simp)]
  rw [htake, hdrop, read_add, read_add, read_write, read_write_of_disjoint c _ _ (by omega),
    read_write_of_disjoint c _ _ (by omega)]

theorem get_write_same {c : Cells α} {off : Nat} {xs : List α} (h : c.read off xs.length = xs)
    (i : Nat) : (c.write off xs).get i = c.get i := by
  by_cases hlo : i < off
  · exact get_write_of_lt c off xs hlo
  · by_cases hhi : i < off + xs.length
    · obtain ⟨j, rfl⟩ := Nat.exists_eq_add_of_le (Nat.le_of_not_lt hlo)
      have hj : j < xs.length := by omega
      have hread := congrArg (·[j]?) h
      simp only [read, List.getElem?_map, List.getElem?_range hj, Option.map_some,
        List.getElem?_eq_getElem hj, Option.some.injEq] at hread
      rw [get_write_inside c off xs hj, hread]
    · exact get_write_of_ge c off xs (by omega)

end Cells

/-! ## Extents -/

/-- A half-open interval of cells. -/
structure Extent where
  off : Nat
  len : Nat
  deriving DecidableEq, Repr

namespace Extent

/-- The first cell past the extent. -/
def stop (e : Extent) : Nat := e.off + e.len

/-- Neither extent reaches into the other. -/
def Disjoint (a b : Extent) : Prop := a.stop ≤ b.off ∨ b.stop ≤ a.off

instance (a b : Extent) : Decidable (a.Disjoint b) :=
  inferInstanceAs (Decidable (_ ∨ _))

theorem Disjoint.symm {a b : Extent} (h : a.Disjoint b) : b.Disjoint a := Or.symm h

/-- An extent with a cell in it is not disjoint from itself. -/
theorem not_disjoint_self {a : Extent} (h : 0 < a.len) : ¬ a.Disjoint a := by
  simp only [Disjoint, stop]
  omega

end Extent

end Horreum.Foundation
