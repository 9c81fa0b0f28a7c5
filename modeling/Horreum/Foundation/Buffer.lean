/-
  Foundation/Buffer.lean --- Go byte slices with their spare capacity.

  A buffer is the backing array of a slice, from the first byte of the slice to the end of its
  capacity, and the length of the slice.  `append` fills the spare capacity in place and takes a
  new array only when that does not suffice; how large a new array is, is the runtime's choice.
-/
import Horreum.Foundation.Bytes

set_option autoImplicit false

namespace Horreum.Foundation

/-- The capacity of the array the runtime takes for `need` bytes, from the old capacity. -/
structure Growth where
  cap : (old need : Nat) → Nat
  enough : ∀ old need, need ≤ cap old need

/-- Twice the old capacity where that is enough: the rule for small slices, before the runtime
rounds up to a size class of its allocator. -/
def Growth.doubling : Growth where
  cap old need := if need > 2 * old then need else 2 * old
  enough old need := by
    split <;> omega

/-- A slice with its capacity. -/
structure Buffer where
  array : Bytes
  len : Nat
  bounded : len ≤ array.length

namespace Buffer

/-- The nil slice. -/
def nil : Buffer := ⟨[], 0, Nat.le_refl 0⟩

/-- The capacity. -/
def cap (b : Buffer) : Nat := b.array.length

/-- The bytes up to the length. -/
def contents (b : Buffer) : Bytes := b.array.take b.len

@[simp] theorem length_contents (b : Buffer) : b.contents.length = b.len := by
  rw [contents, List.length_take, Nat.min_eq_left b.bounded]

/-- The array is the contents and whatever stands in the spare capacity. -/
theorem array_eq (b : Buffer) : b.array = b.contents ++ b.array.drop b.len :=
  (List.take_append_drop _ _).symm

/-- `b[:0]` -/
def truncate (b : Buffer) : Buffer := ⟨b.array, 0, Nat.zero_le _⟩

@[simp] theorem contents_truncate (b : Buffer) : b.truncate.contents = [] := rfl

/-- A slice with these contents in an array of `n` zeros, or of just their length if that is more. -/
def fresh (contents : Bytes) (n : Nat) : Buffer where
  array := contents ++ List.replicate (n - contents.length) 0
  len := contents.length
  bounded := by
    rw [List.length_append]
    omega

@[simp] theorem contents_fresh (contents : Bytes) (n : Nat) :
    (fresh contents n).contents = contents := List.take_left

/-- `copy(b[off:], xs)` -/
def copyAt (b : Buffer) (off : Nat) (xs : Bytes) : Buffer where
  array := overwrite b.array off (xs.take (b.len - off))
  len := b.len
  bounded := by
    rw [overwrite_length]
    exact Nat.le_trans b.bounded (Nat.le_max_left _ _)

/-- `b[:b.len+n]`, within the capacity. -/
def extend (b : Buffer) (n : Nat) : Buffer := ⟨b.array, min (b.len + n) b.cap, Nat.min_le_right _ _⟩

/-- `append(b, xs...)` -/
def append (g : Growth) (b : Buffer) (xs : Bytes) : Buffer :=
  if b.len + xs.length ≤ b.cap then (b.extend xs.length).copyAt b.len xs
  else fresh (b.contents ++ xs) (g.cap b.cap (b.len + xs.length))

/-- Room for `need` more bytes, in an array of twice the total if there is none. -/
def reserve (b : Buffer) (need : Nat) : Buffer :=
  if b.cap - b.len < need then fresh b.contents (2 * (b.len + need)) else b

/-- Copy the parts one behind the other from `off` on. -/
def copyParts (b : Buffer) (off : Nat) : List Bytes → Buffer
  | [] => b
  | x :: xs => (b.copyAt off x).copyParts (off + x.length) xs

theorem contents_copyAt (b : Buffer) {off : Nat} {xs : Bytes} (h : off + xs.length ≤ b.len) :
    (b.copyAt off xs).contents = overwrite b.contents off xs := by
  have hall : xs.take (b.len - off) = xs := List.take_of_length_le (by omega)
  have hlen : (overwrite b.contents off xs).length = b.len := by
    rw [overwrite_length, length_contents]
    omega
  have harray : (b.copyAt off xs).array = overwrite b.contents off xs ++ b.array.drop b.len := by
    rw [← overwrite_append_left (by rw [length_contents]; exact h), ← b.array_eq]
    simp only [copyAt, hall]
  rw [contents, harray]
  exact List.take_left' hlen

theorem contents_copyParts (parts : List Bytes) : ∀ (b : Buffer) {off : Nat},
    off + parts.flatten.length ≤ b.len →
    (b.copyParts off parts).contents = overwrite b.contents off parts.flatten := by
  induction parts with
  | nil =>
    intro b off h
    have hpad : off - b.len = 0 := by
      simp only [List.flatten_nil, List.length_nil] at h
      omega
    simp [copyParts, overwrite, hpad]
  | cons x parts ih =>
    intro b off h
    rw [List.flatten_cons, List.length_append] at h
    have hx : off + x.length ≤ b.len := by omega
    have hrest : off + x.length + parts.flatten.length ≤ (b.copyAt off x).len := by
      simp only [copyAt]
      omega
    rw [copyParts, ih (b.copyAt off x) hrest, contents_copyAt b hx, overwrite_append,
      List.flatten_cons]

/-- Parts that fill the room just made are what is appended. -/
theorem contents_extend_copyParts (b : Buffer) (parts : List Bytes)
    (hroom : b.len + parts.flatten.length ≤ b.cap) :
    ((b.extend parts.flatten.length).copyParts b.len parts).contents =
      b.contents ++ parts.flatten := by
  have hlen : (b.extend parts.flatten.length).len = b.len + parts.flatten.length :=
    Nat.min_eq_left hroom
  have hsplit : (b.extend parts.flatten.length).contents =
      b.contents ++ slice b.array b.len (b.len + parts.flatten.length) := by
    rw [contents, hlen, List.take_add, slice, Nat.add_sub_cancel_left]
    rfl
  have hnew : (slice b.array b.len (b.len + parts.flatten.length)).length =
      parts.flatten.length := by
    rw [slice_length (Nat.le_add_right _ _) hroom, Nat.add_sub_cancel_left]
  have hfill := overwrite_behind b.contents
    (slice b.array b.len (b.len + parts.flatten.length)) parts.flatten
  rw [length_contents, List.drop_eq_nil_of_le (Nat.le_of_eq hnew), List.append_nil] at hfill
  rw [contents_copyParts _ _ (Nat.le_of_eq hlen.symm), hsplit, hfill]

theorem contents_append (g : Growth) (b : Buffer) (xs : Bytes) :
    (b.append g xs).contents = b.contents ++ xs := by
  unfold append
  split
  · rename_i hroom
    have hone := contents_extend_copyParts b [xs] (by simpa using hroom)
    simpa [copyParts] using hone
  · exact contents_fresh _ _

theorem reserve_spec (b : Buffer) (need : Nat) :
    (b.reserve need).contents = b.contents ∧
      (b.reserve need).len + need ≤ (b.reserve need).cap := by
  have hbound := b.bounded
  unfold reserve
  split
  · refine ⟨contents_fresh _ _, ?_⟩
    simp only [fresh, cap, length_contents, List.length_append, List.length_replicate]
    omega
  · simp only [cap] at *
    exact ⟨trivial, by omega⟩

end Buffer

end Horreum.Foundation
