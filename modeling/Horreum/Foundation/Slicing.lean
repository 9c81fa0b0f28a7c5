/-
  Foundation/Slicing.lean --- reads and writes of Go byte slices, with their bounds checks.

  Every operation is `none` where Go panics: bounds in the wrong order or past the end, a buffer of
  negative length.  Go checks the upper bound of a slice expression against the capacity; here it is
  the length, so that `some` says more.
-/
import Horreum.Foundation.Bytes

set_option autoImplicit false

namespace Horreum.Foundation

/-- `binary.LittleEndian` on `b[off:off+w]`. -/
def word? (b : Bytes) (off w : Nat) : Option Nat := (slice? b off (off + w)).map leNat

/-- `make([]byte, n)` -/
def make? (n : Int) : Option Bytes := if n < 0 then none else some (List.replicate n.toNat 0)

/-- `copy(dst[lo:hi], src)` -/
def copy? (dst : Bytes) (lo hi : Nat) (src : Bytes) : Option Bytes :=
  if lo ≤ hi ∧ hi ≤ dst.length then some (overwrite dst lo (src.take (hi - lo))) else none

/-- `binary.LittleEndian` into `dst[off:off+w]`. -/
def putWord? (dst : Bytes) (off w n : Nat) : Option Bytes := copy? dst off (off + w) (leBytes w n)

variable {b dst done src : Bytes} {lo hi off w n : Nat}

theorem slice?_eq (hlo : lo ≤ hi) (hhi : hi ≤ b.length) : slice? b lo hi = some (slice b lo hi) :=
  if_pos ⟨hlo, hhi⟩

theorem slice?_front (h : hi ≤ b.length) : slice? b 0 hi = some (b.take hi) := by
  rw [slice?_eq (Nat.zero_le _) h, slice, List.drop_zero, Nat.sub_zero]

theorem slice?_rest (h : lo ≤ b.length) : slice? b lo b.length = some (b.drop lo) := by
  rw [slice?_eq h (Nat.le_refl _), slice, List.take_of_length_le (by rw [List.length_drop])]

theorem word?_eq (h : off + w ≤ b.length) : word? b off w = some (wordAt b off w) := by
  rw [word?, slice?_eq (Nat.le_add_right _ _) h]
  rfl

theorem make?_ofNat (n : Nat) : make? n = some (List.replicate n 0) := by
  rw [make?, if_neg (by omega), Int.toNat_natCast]

theorem putWord?_front (h : w ≤ dst.length) :
    putWord? dst 0 w n = some (leBytes w n ++ dst.drop w) := by
  have hall : (leBytes w n).take (0 + w - 0) = leBytes w n :=
    List.take_of_length_le (by rw [leBytes_length]; omega)
  rw [putWord?, copy?, if_pos ⟨Nat.zero_le _, by omega⟩, hall, overwrite_zero, leBytes_length]

/-! ## Filling a buffer from the front -/

/-- A buffer of which the front is written. -/
def filled (done : Bytes) (n : Nat) : Bytes := done ++ List.replicate n 0

@[simp] theorem length_filled (done : Bytes) (n : Nat) : (filled done n).length = done.length + n := by
  rw [filled, List.length_append, List.length_replicate]

@[simp] theorem filled_zero (done : Bytes) : filled done 0 = done := by
  rw [filled, List.replicate_zero, List.append_nil]

theorem make?_filled {z : Int} (h : z = n) : make? z = some (filled [] n) := by
  rw [h, make?_ofNat, filled, List.nil_append]

theorem copy?_filled (hlo : done.length = lo) (hhi : lo + src.length ≤ hi) (hend : hi ≤ lo + n) :
    copy? (filled done n) lo hi src = some (filled (done ++ src) (n - src.length)) := by
  have hall : src.take (hi - lo) = src := List.take_of_length_le (by omega)
  rw [copy?, if_pos ⟨by omega, by rw [length_filled]; omega⟩, hall, filled, ← hlo, overwrite_behind,
    List.drop_replicate, filled, List.append_assoc]

theorem putWord?_filled (hlo : done.length = off) (hroom : w ≤ n) (v : Nat) :
    putWord? (filled done n) off w v = some (filled (done ++ leBytes w v) (n - w)) := by
  rw [putWord?, copy?_filled hlo (by rw [leBytes_length]) (by omega), leBytes_length]

theorem copy?_last (hlo : done.length = lo) (hroom : src.length = n) :
    copy? (filled done n) lo (filled done n).length src = some (done ++ src) := by
  rw [copy?_filled hlo (by rw [length_filled]; omega) (by rw [length_filled]; omega), hroom,
    Nat.sub_self, filled_zero]

/-- The written front with its first word replaced. -/
theorem putWord?_filled_front (h : w ≤ done.length) (v : Nat) :
    putWord? (filled done n) 0 w v = some (filled (leBytes w v ++ done.drop w) n) := by
  rw [putWord?_front (by rw [length_filled]; omega), filled, List.drop_append_of_le_length h, filled,
    List.append_assoc]

end Horreum.Foundation
