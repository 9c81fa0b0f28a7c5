/-
  Foundation/Bytes.lean --- byte strings, little-endian words and slices.

  Every on-disk and on-wire format of a Go program is a byte slice indexed by
  plain integers.  This file fixes the vocabulary once: a byte string is a
  `List UInt8`, a fixed-width word is written and read in little-endian order,
  and a slice expression `b[lo:hi]` is partial, with `none` where Go panics.
-/
import Mathlib.Data.List.Basic
import Mathlib.Data.Nat.Basic
import Mathlib.Tactic.Ring

set_option autoImplicit false

namespace Horreum.Foundation

/-- A byte string. -/
abbrev Bytes : Type := List UInt8

/-! ## Little-endian words -/

/-- The `w` low-order bytes of `n`, least significant first. -/
def leBytes : Nat → Nat → Bytes
  | 0, _ => []
  | w + 1, n => UInt8.ofNat n :: leBytes w (n / 256)

/-- The number a little-endian byte string stands for. -/
def leNat : Bytes → Nat
  | [] => 0
  | b :: bs => b.toNat + 256 * leNat bs

@[simp] theorem leBytes_length (w n : Nat) : (leBytes w n).length = w := by
  induction w generalizing n with
  | zero => rfl
  | succ w ih => simp [leBytes, ih]

/-- Writing `w` bytes and reading them back keeps `n` modulo `256 ^ w`. -/
theorem leNat_leBytes (w n : Nat) : leNat (leBytes w n) = n % 256 ^ w := by
  induction w generalizing n with
  | zero => simp [leBytes, leNat, Nat.mod_one]
  | succ w ih =>
    have hbyte : (UInt8.ofNat n).toNat = n % 256 := by simp
    have hsplit : n % 256 ^ (w + 1) = n % 256 + 256 * (n / 256 % 256 ^ w) := by
      rw [Nat.pow_succ, Nat.mul_comm (256 ^ w) 256, Nat.mod_mul]
    simp only [leBytes, leNat, ih, hbyte, hsplit]

theorem leNat_leBytes_of_lt {w n : Nat} (h : n < 256 ^ w) :
    leNat (leBytes w n) = n := by
  rw [leNat_leBytes, Nat.mod_eq_of_lt h]

/-- The words below `n` are all different from that of `n`. -/
theorem leBytes_not_mem_range {w n : Nat} (h : n < 256 ^ w) :
    leBytes w n ∉ (List.range n).map (leBytes w) := by
  intro hmem
  obtain ⟨i, hi, heq⟩ := List.mem_map.mp hmem
  rw [List.mem_range] at hi
  have hnat := congrArg leNat heq
  rw [leNat_leBytes_of_lt (Nat.lt_trans hi h), leNat_leBytes_of_lt h] at hnat
  omega

theorem leNat_lt (bs : Bytes) : leNat bs < 256 ^ bs.length := by
  induction bs with
  | nil => simp [leNat]
  | cons b bs ih =>
    have hb : b.toNat < 256 := b.toNat_lt
    have hpow : 256 ^ (b :: bs).length = 256 * 256 ^ bs.length := by
      simp [Nat.pow_succ, Nat.mul_comm]
    rw [hpow, leNat]
    omega

/-- Byte strings of one length are told apart by the number they stand for. -/
theorem leNat_inj : ∀ {a b : Bytes}, a.length = b.length → leNat a = leNat b → a = b
  | [], [], _, _ => rfl
  | x :: a, y :: b, hlen, h => by
    have hx : x.toNat < 256 := x.toNat_lt
    have hy : y.toNat < 256 := y.toNat_lt
    simp only [leNat] at h
    have hhead : x = y := UInt8.toNat_inj.mp (by omega)
    have htail : a = b := leNat_inj (by simpa using hlen) (by omega)
    rw [hhead, htail]

/-! ## Slices -/

/-- `b[lo:hi]` where the bounds are known to be in range. -/
def slice (b : Bytes) (lo hi : Nat) : Bytes := (b.drop lo).take (hi - lo)

/-- The Go slice expression `b[lo:hi]`, with `none` for the bounds panic. -/
def slice? (b : Bytes) (lo hi : Nat) : Option Bytes :=
  if lo ≤ hi ∧ hi ≤ b.length then some (slice b lo hi) else none

variable {lo hi off : Nat}

theorem slice_length {b : Bytes} (hlo : lo ≤ hi) (hhi : hi ≤ b.length) :
    (slice b lo hi).length = hi - lo := by
  simp only [slice, List.length_take, List.length_drop]
  omega

theorem getElem?_slice {b : Bytes} {lo hi i : Nat} (hi' : i < hi - lo) :
    (slice b lo hi)[i]? = b[lo + i]? := by
  simp [slice, hi', List.getElem?_drop]

/-- Two slices at one place agree where the bytes do. -/
theorem slice_eq_iff {a b : Bytes} :
    slice a lo hi = slice b lo hi ↔ ∀ i, lo ≤ i → i < hi → a[i]? = b[i]? := by
  constructor
  · intro h i hlo hhi
    have hat := congrArg (fun s : Bytes => s[i - lo]?) h
    rw [getElem?_slice (by omega), getElem?_slice (by omega), Nat.add_sub_cancel' hlo] at hat
    exact hat
  · intro h
    refine List.ext_getElem? fun i => ?_
    rcases Nat.lt_or_ge i (hi - lo) with hi' | hi'
    · rw [getElem?_slice hi', getElem?_slice hi']
      exact h (lo + i) (by omega) (by omega)
    · have hout : ¬ i < hi - lo := Nat.not_lt.mpr hi'
      rw [slice, slice, List.getElem?_take, List.getElem?_take, if_neg hout, if_neg hout]

theorem slice_drop (b : Bytes) (off lo hi : Nat) :
    slice (b.drop off) lo hi = slice b (off + lo) (off + hi) := by
  rw [slice, slice, List.drop_drop, Nat.add_sub_add_left]

/-- The word of `w` bytes stored at `off`. -/
def wordAt (b : Bytes) (off w : Nat) : Nat := leNat (slice b off (off + w))

theorem wordAt_lt (b : Bytes) (off w : Nat) : wordAt b off w < 256 ^ w := by
  have hlen : (slice b off (off + w)).length ≤ w := by
    simp only [slice, List.length_take]
    omega
  exact Nat.lt_of_lt_of_le (leNat_lt _) (Nat.pow_le_pow_right (by decide) hlen)

theorem slice_append_left {a b : Bytes} (hlo : lo ≤ hi) (hhi : hi ≤ a.length) :
    slice (a ++ b) lo hi = slice a lo hi := by
  have hdrop : (a ++ b).drop lo = a.drop lo ++ b :=
    List.drop_append_of_le_length (by omega)
  have hfit : hi - lo ≤ (a.drop lo).length := by
    rw [List.length_drop]
    omega
  rw [slice, hdrop, List.take_append_of_le_length hfit, slice]

/-- A Go byte slice as a value: `none` is the nil slice, which is empty but not the same as
an empty slice. -/
abbrev Slice : Type := Option Bytes

/-- The content of a slice. -/
def Slice.bytes (s : Slice) : Bytes := s.getD []

/-- The slice that reading `b.length` bytes leaves in a variable that starts as nil. -/
def Slice.ofRead (b : Bytes) : Slice := if b.length > 0 then some b else none

@[simp] theorem Slice.bytes_some (b : Bytes) : Slice.bytes (some b) = b := rfl

@[simp] theorem Slice.bytes_ofRead (b : Bytes) : (Slice.ofRead b).bytes = b := by
  cases b <;> rfl

/-- A concatenation of nonempty parts is at least as long as there are parts. -/
theorem length_le_flatMap {α : Type} {f : α → Bytes} (hpos : ∀ a, 0 < (f a).length)
    (as : List α) : as.length ≤ (as.flatMap f).length := by
  induction as with
  | nil => exact Nat.le_refl 0
  | cons a as ih =>
    have := hpos a
    rw [List.flatMap_cons, List.length_append, List.length_cons]
    omega

/-- Overwrite `b` from `off` on with `data`, padding with zeros when `off` lies
past the end: what `WriteAt` does to the content of a file. -/
def overwrite (b : Bytes) (off : Nat) (data : Bytes) : Bytes :=
  b.take off ++ List.replicate (off - b.length) 0 ++ data ++ b.drop (off + data.length)

theorem overwrite_at_end (b data : Bytes) : overwrite b b.length data = b ++ data := by
  simp [overwrite, List.drop_eq_nil_of_le]

theorem overwrite_length (b data : Bytes) (off : Nat) :
    (overwrite b off data).length = max b.length (off + data.length) := by
  simp only [overwrite, List.length_append, List.length_take, List.length_replicate,
    List.length_drop]
  omega

theorem overwrite_append (b x y : Bytes) (off : Nat) :
    overwrite (overwrite b off x) (off + x.length) y = overwrite b off (x ++ y) := by
  have hlen : (b.take off ++ List.replicate (off - b.length) 0 ++ x).length = off + x.length := by
    simp only [List.length_append, List.length_take, List.length_replicate]
    omega
  have htake : (overwrite b off x).take (off + x.length) =
      b.take off ++ List.replicate (off - b.length) 0 ++ x := by
    rw [overwrite, ← hlen]
    exact List.take_left
  have hdrop : (overwrite b off x).drop (off + x.length + y.length) =
      b.drop (off + (x ++ y).length) := by
    rw [overwrite, ← List.drop_drop, List.drop_left' hlen, List.drop_drop, List.length_append,
      Nat.add_assoc]
  have hpad : off + x.length - (overwrite b off x).length = 0 := by
    rw [overwrite_length]
    omega
  rw [overwrite, htake, hdrop, hpad]
  simp [overwrite]

theorem overwrite_zero (b data : Bytes) : overwrite b 0 data = data ++ b.drop data.length := by
  simp [overwrite]

theorem overwrite_behind (b rest data : Bytes) :
    overwrite (b ++ rest) b.length data = b ++ (data ++ rest.drop data.length) := by
  have hpad : b.length - (b ++ rest).length = 0 := by
    rw [List.length_append]
    omega
  rw [overwrite, hpad, List.take_left, ← List.drop_drop, List.drop_left]
  simp

theorem overwrite_append_left {a data : Bytes} (h : off + data.length ≤ a.length) (rest : Bytes) :
    overwrite (a ++ rest) off data = overwrite a off data ++ rest := by
  have hpad : off - (a ++ rest).length = 0 := by
    rw [List.length_append]
    omega
  have hpad' : off - a.length = 0 := by omega
  rw [overwrite, overwrite, hpad, hpad', List.take_append_of_le_length (by omega),
    List.drop_append_of_le_length h]
  simp

theorem wordAt_append {a rest : Bytes} (w n : Nat) (hoff : a.length = off) :
    wordAt (a ++ (leBytes w n ++ rest)) off w = n % 256 ^ w := by
  subst hoff
  have hslice : slice (a ++ (leBytes w n ++ rest)) a.length (a.length + w) = leBytes w n := by
    rw [slice, Nat.add_sub_cancel_left, List.drop_left]
    exact List.take_left' (leBytes_length w n)
  rw [wordAt, hslice, leNat_leBytes]

theorem wordAt_zero (w n : Nat) (rest : Bytes) : wordAt (leBytes w n ++ rest) 0 w = n % 256 ^ w := by
  have hfront : wordAt ([] ++ (leBytes w n ++ rest)) 0 w = n % 256 ^ w :=
    wordAt_append w n List.length_nil
  exact hfront

theorem ofNat64_wordAt (x : UInt64) {p rest : Bytes} (hoff : p.length = off) :
    UInt64.ofNat (wordAt (p ++ (leBytes 8 x.toNat ++ rest)) off 8) = x := by
  have hlt : x.toNat < 256 ^ 8 := x.toNat_lt
  rw [wordAt_append 8 _ hoff, Nat.mod_eq_of_lt hlt, UInt64.ofNat_toNat]

theorem ofNat32_wordAt (x : UInt32) {p rest : Bytes} (hoff : p.length = off) :
    UInt32.ofNat (wordAt (p ++ (leBytes 4 x.toNat ++ rest)) off 4) = x := by
  have hlt : x.toNat < 256 ^ 4 := x.toNat_lt
  rw [wordAt_append 4 _ hoff, Nat.mod_eq_of_lt hlt, UInt32.ofNat_toNat]

theorem getD_append {a rest : Bytes} (b d : UInt8) (hoff : a.length = off) :
    (a ++ (b :: rest)).getD off d = b := by
  subst hoff
  simp [List.getD_eq_getElem?_getD]

theorem slice_append {a b rest : Bytes} (hlo : a.length = lo) (hhi : lo + b.length = hi) :
    slice (a ++ (b ++ rest)) lo hi = b := by
  subst hlo hhi
  rw [slice, Nat.add_sub_cancel_left, List.drop_left, List.take_left]

theorem slice_overwrite (b data : Bytes) (off : Nat) :
    slice (overwrite b off data) off (off + data.length) = data := by
  have hlen : (b.take off ++ List.replicate (off - b.length) 0).length = off := by
    simp only [List.length_append, List.length_take, List.length_replicate]
    omega
  rw [overwrite, List.append_assoc]
  exact slice_append hlen rfl

theorem slice?_append {a b rest : Bytes} (hlo : a.length = lo) (hhi : lo + b.length = hi) :
    slice? (a ++ (b ++ rest)) lo hi = some b := by
  rw [slice?, if_pos (by simp only [List.length_append]; omega), slice_append hlo hhi]

end Horreum.Foundation
