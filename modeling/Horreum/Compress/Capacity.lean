/-
  Compress/Capacity.lean --- the buffer of the LZ4 encoder is never too small.

  `Compress` takes a buffer of `n + n/255 + 16` bytes behind the size prefix and appends to it
  without a check, so an input that grows by more than that would panic.  A sequence is no
  longer than what it stands for, but for one byte in 255 of its literals; the last literals
  cost at most two bytes more.
-/
import Horreum.Compress.RoundTrip

set_option autoImplicit false

namespace Horreum.Compress

open Foundation

variable {cap : Nat} {src : Bytes}

/-! ## Lengths -/

theorem length_lenBytes (n : Nat) : (lenBytes n).length = n / 255 + 1 := by
  induction n using Nat.strongRecOn with
  | ind n ih =>
    unfold lenBytes
    split
    · rw [List.length_cons, ih (n - 255) (by omega)]
      omega
    · rw [List.length_singleton]
      omega

/-- The number of length bytes behind a token. -/
def extraLen (n : Nat) : Nat := if n ≥ 15 then (n - 15) / 255 + 1 else 0

theorem extraLen_le (n : Nat) : extraLen n ≤ n ∧ extraLen n ≤ n / 255 + 1 := by
  unfold extraLen
  split <;> omega

theorem length_extraBytes (n : Nat) : (extraBytes n).length = extraLen n := by
  unfold extraBytes extraLen
  split
  · exact length_lenBytes _
  · rfl

theorem length_sequenceBytes (lits : Bytes) (offset ml : Nat) :
    (sequenceBytes lits offset ml).length =
      extraLen lits.length + lits.length + extraLen ml + 3 := by
  simp only [sequenceBytes, List.length_cons, List.length_append, length_extraBytes]
  omega

/-! ## The encoder -/

theorem matchLength_le (src : Bytes) (stop : Nat) : ∀ (fuel ref cur : Nat), cur ≤ stop →
    cur + matchLength src stop fuel ref cur ≤ stop
  | 0, _, _, h => h
  | fuel + 1, ref, cur, h => by
    unfold matchLength
    split
    · rename_i hin
      have := matchLength_le src stop fuel (ref + 1) (cur + 1) hin.1
      omega
    · exact h

/-- What is written is at most one byte in 255 longer than the input up to the anchor. -/
structure Compact (src : Bytes) (s : Encoder) : Prop where
  anchor_le : s.anchor ≤ s.sp
  sp_le : s.sp ≤ src.length
  short : s.dst.length ≤ s.anchor + s.anchor / 255

theorem Compact.step {s : Encoder} (hinv : Compact src s)
    (hsp : s.sp + (lastLiterals + minMatch) ≤ src.length)
    (hcap : src.length + src.length / 255 ≤ cap) (mfLimit : Nat) :
    ∃ s', encodeStep cap src mfLimit s = some s' ∧ Compact src s' ∧ s.sp < s'.sp := by
  obtain ⟨hanchor, hsple, hshort⟩ := hinv
  simp only [lastLiterals, minMatch] at hsp
  unfold encodeStep
  simp only
  split
  · exact ⟨_, rfl, ⟨by simp only; omega, by simp only; omega, hshort⟩, Nat.lt_succ_self _⟩
  · generalize (s.hashTable (hashU32 (read32 src s.sp))).toNat = ref
    have hml := matchLength_le src src.length (src.length - s.sp) (ref + minMatch) (s.sp + minMatch)
      (by simp only [minMatch]; omega)
    generalize matchLength src src.length (src.length - s.sp) (ref + minMatch) (s.sp + minMatch) = ml
      at hml ⊢
    have hlits : (slice src s.anchor s.sp).length = s.sp - s.anchor := slice_length hanchor hsple
    have hlitExtra := (extraLen_le (s.sp - s.anchor)).2
    have hmatchExtra := (extraLen_le ml).1
    have hfit : (s.dst ++ sequenceBytes (slice src s.anchor s.sp) (s.sp - ref) ml).length ≤
        s.sp + 4 + ml + (s.sp + 4 + ml) / 255 := by
      rw [List.length_append, length_sequenceBytes, hlits]
      omega
    simp only [minMatch] at hml ⊢
    simp only [Option.bind_eq_bind, append_sequence]
    rw [if_pos (by rw [← List.length_append]; omega)]
    exact ⟨_, rfl, ⟨Nat.le_refl _, hml, hfit⟩, by simp only; omega⟩

theorem Compact.loop (hlong : lastLiterals + minMatch ≤ src.length)
    (hcap : src.length + src.length / 255 ≤ cap) : ∀ {fuel : Nat} {s : Encoder}, Compact src s →
    src.length < fuel + s.sp →
    ∃ s', encodeLoop cap src (src.length - lastLiterals - minMatch) fuel s = some s' ∧ Compact src s'
  | 0, s, hinv, hfuel => by
    have := hinv.sp_le
    omega
  | fuel + 1, s, hinv, hfuel => by
    unfold encodeLoop
    split
    · obtain ⟨mid, hmid, hinv', hlt⟩ := hinv.step (by omega) hcap
        (src.length - lastLiterals - minMatch)
      obtain ⟨s', hs', hdone⟩ := hinv'.loop hlong hcap (show src.length < fuel + mid.sp by omega)
      exact ⟨s', by rw [hmid]; exact hs', hdone⟩
    · exact ⟨s, rfl, hinv⟩

theorem compressBlock_total (hcap : src.length + src.length / 255 + 2 ≤ cap) :
    ∃ block, compressBlock cap src = some block ∧
      block.length ≤ src.length + src.length / 255 + 2 := by
  unfold compressBlock
  split
  · exact ⟨_, rfl, Nat.zero_le _⟩
  · rename_i hlong
    obtain ⟨s, hs, hanchor, hsp, hshort⟩ : ∃ s, encodeLoop cap src
        (src.length - lastLiterals - minMatch) (src.length + 1) ⟨fun _ => 0, 0, 0, []⟩ = some s ∧
          Compact src s :=
      Compact.loop (by omega) (by omega) ⟨Nat.le_refl 0, Nat.zero_le _, Nat.zero_le _⟩ (by simp)
    simp only [hs, Option.bind_eq_bind, Option.bind_some]
    split
    · exact ⟨_, rfl, Nat.zero_le _⟩
    · have hlits : (slice src s.anchor src.length).length = src.length - s.anchor :=
        slice_length (by omega) (Nat.le_refl _)
      have hextra := (extraLen_le (src.length - s.anchor)).2
      have hfit : (s.dst ++ lastBytes (slice src s.anchor src.length)).length ≤
          src.length + src.length / 255 + 2 := by
        simp only [lastBytes, List.length_append, List.length_cons, length_extraBytes, hlits]
        omega
      rw [append_last, if_pos (by rw [← List.length_append]; omega)]
      exact ⟨_, rfl, hfit⟩

theorem le_poolCap (n : Nat) : n ≤ poolCap n := by
  unfold poolCap
  cases h : poolClasses.find? fun c => n ≤ c with
  | none => exact Nat.le_refl n
  | some c => simpa using List.find?_some h

theorem Compressor.compress_total (c : Compressor) (src : Bytes) :
    ∃ out, c.compress src = some out := by
  cases c with
  | noop => exact ⟨none, rfl⟩
  | lz4 c =>
    simp only [Compressor.compress, LZ4.compress]
    split
    · exact ⟨_, rfl⟩
    · have hcap := le_poolCap (sizePrefix + src.length + src.length / 255 + 16)
      obtain ⟨block, hblock, _⟩ := compressBlock_total
        (show src.length + src.length / 255 + 2 ≤
          poolCap (sizePrefix + src.length + src.length / 255 + 16) - sizePrefix by
            simp only [sizePrefix] at *; omega)
      simp only [hblock, Option.bind_eq_bind, Option.bind_some]
      split <;> exact ⟨_, rfl⟩

end Horreum.Compress
