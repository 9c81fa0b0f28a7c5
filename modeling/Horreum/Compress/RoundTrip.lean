/-
  Compress/RoundTrip.lean --- decompressing what the LZ4 encoder wrote gives the input.

  `Encodes` is the invariant of the encoder's loop: decoding what has been written so far leads to
  the decoder state whose output is the input up to the anchor.
-/
import Horreum.Compress.Lz4

set_option autoImplicit false

namespace Horreum.Compress

open Foundation

/-! ## Lengths -/

/-- What `appendLen` writes. -/
def lenBytes (length : Nat) : Bytes :=
  if length ≥ 255 then 255 :: lenBytes (length - 255) else [UInt8.ofNat length]
termination_by length

/-- The bytes that follow a token for a length. -/
def extraBytes (length : Nat) : Bytes := if length ≥ 15 then lenBytes (length - 15) else []

/-- An append that writes `ws`, if there is room for all of it. -/
def Writes (f : Nat → Bytes → Option Bytes) (ws : Bytes) : Prop :=
  ∀ cap dst, f cap dst =
    if ws = [] ∨ dst.length + ws.length ≤ cap then some (dst ++ ws) else none

theorem Writes.bind {f g : Nat → Bytes → Option Bytes} {u v : Bytes} (hf : Writes f u)
    (hg : Writes g v) : Writes (fun cap dst => (f cap dst).bind (g cap)) (u ++ v) := by
  intro cap dst
  dsimp only
  rw [hf]
  split
  · rw [Option.bind_some, hg, List.append_assoc]
    refine if_congr ?_ rfl rfl
    cases u <;> cases v <;> simp at * <;> omega
  · rw [if_neg]
    · rfl
    · cases u <;> simp at *
      omega

theorem writes_byte (b : UInt8) : Writes (appendByte · · b) [b] := by
  intro cap dst
  simp [appendByte]

theorem writes_bytes (src : Bytes) : Writes (appendBytes · · src) src := by
  intro cap dst
  cases src <;> simp [appendBytes]

theorem writes_len (length : Nat) : Writes (appendLen · · length) (lenBytes length) := by
  induction length using Nat.strongRecOn with
  | ind length ih =>
    intro cap dst
    dsimp only
    unfold appendLen lenBytes
    split
    · exact (writes_byte 255).bind (ih (length - 255) (by omega)) cap dst
    · exact writes_byte _ cap dst

theorem writes_extra (length : Nat) : Writes (appendExtra · · length) (extraBytes length) := by
  intro cap dst
  dsimp only
  unfold appendExtra extraBytes
  split
  · exact writes_len _ cap dst
  · simp

theorem writes_literals (lits : Bytes) :
    Writes (appendLiterals · · lits) (extraBytes lits.length ++ lits) :=
  (writes_extra _).bind (writes_bytes lits)

theorem Writes.eq_of_cons {f : Nat → Bytes → Option Bytes} {w : UInt8} {ws : Bytes}
    (h : Writes f (w :: ws)) (cap : Nat) (dst : Bytes) :
    f cap dst = if dst.length + (w :: ws).length ≤ cap then some (dst ++ w :: ws) else none :=
  (h cap dst).trans (if_congr (or_iff_right (List.cons_ne_nil w ws)) rfl rfl)

theorem readExtra_lenBytes (n : Nat) : ∀ (rest : Bytes) (acc : Nat),
    readExtra (lenBytes n ++ rest) acc = (acc + n, rest) := by
  induction n using Nat.strongRecOn with
  | ind n ih =>
    intro rest acc
    unfold lenBytes
    split
    · rw [List.cons_append, readExtra, if_neg (by decide), ih (n - 255) (by omega)]
      have hsum : acc + (255 : UInt8).toNat + (n - 255) = acc + n := by
        have hbyte : (255 : UInt8).toNat = 255 := by decide
        omega
      rw [hsum]
    · have hbyte : (UInt8.ofNat n).toNat = n := UInt8.toNat_ofNat_of_lt' (by
        simp only [UInt8.size]; omega)
      simp only [List.cons_append, List.nil_append, readExtra, hbyte]
      rw [if_pos (by omega)]

theorem readLen_extraBytes (n : Nat) (rest : Bytes) :
    readLen (min n 15) (extraBytes n ++ rest) = (n, rest) := by
  unfold readLen extraBytes
  by_cases hn : n ≥ 15
  · rw [if_pos (by omega), if_pos hn, readExtra_lenBytes]
    congr 1
    omega
  · rw [if_neg (by omega), if_neg hn, Nat.min_eq_left (by omega)]
    rfl

/-! ## Tokens -/

theorem literalNibble_eq (n : Nat) : literalNibble n = UInt8.ofNat (min n 15 * 16) := by
  unfold literalNibble
  split
  · rw [Nat.min_eq_right (by omega)]
    rfl
  · rw [Nat.min_eq_left (by omega), Nat.shiftLeft_eq]

theorem matchNibble_eq (n : Nat) : matchNibble n = UInt8.ofNat (min n 15) := by
  unfold matchNibble
  split
  · rw [Nat.min_eq_right (by omega)]
    rfl
  · rw [Nat.min_eq_left (by omega)]

theorem token_nibbles : ∀ a < 16, ∀ b < 16,
    ((UInt8.ofNat (a * 16) ||| UInt8.ofNat b) >>> 4).toNat = a ∧
      ((UInt8.ofNat (a * 16) ||| UInt8.ofNat b) &&& 0x0F).toNat = b := by
  decide

theorem token_spec (litLen ml : Nat) :
    ((literalNibble litLen ||| matchNibble ml) >>> 4).toNat = min litLen 15 ∧
      ((literalNibble litLen ||| matchNibble ml) &&& 0x0F).toNat = min ml 15 := by
  rw [literalNibble_eq, matchNibble_eq]
  exact token_nibbles _ (by omega) _ (by omega)

theorem lastToken_spec (litLen : Nat) : (literalNibble litLen >>> 4).toNat = min litLen 15 := by
  have h := (token_spec litLen 0).1
  simpa [matchNibble] using h

theorem offset_bytes {offset : Nat} (h : offset < 2 ^ 16) :
    (UInt8.ofNat offset).toNat ||| (UInt8.ofNat (offset >>> 8)).toNat <<< 8 = offset := by
  have hlo : (UInt8.ofNat offset).toNat = offset % 2 ^ 8 := by simp
  have hhi : (UInt8.ofNat (offset >>> 8)).toNat = offset >>> 8 := by
    refine UInt8.toNat_ofNat_of_lt' ?_
    rw [Nat.shiftRight_eq_div_pow]
    simp only [UInt8.size]
    omega
  rw [hlo, hhi, Nat.or_comm, ← Nat.shiftLeft_add_eq_or_of_lt (by omega)]
  rw [Nat.shiftLeft_eq, Nat.shiftRight_eq_div_pow]
  omega

/-! ## One sequence -/

/-- The bytes of a sequence with a match. -/
def sequenceBytes (lits : Bytes) (offset ml : Nat) : Bytes :=
  (literalNibble lits.length ||| matchNibble ml) ::
    (extraBytes lits.length ++ (lits ++
      (UInt8.ofNat offset :: UInt8.ofNat (offset >>> 8) :: extraBytes ml)))

theorem append_sequence {α : Type} (cap : Nat) (dst lits : Bytes) (offset ml : Nat)
    (k : Bytes → Option α) :
    ((appendByte cap dst (literalNibble lits.length ||| matchNibble ml)).bind fun dst =>
      (appendLiterals cap dst lits).bind fun dst => (appendByte cap dst (UInt8.ofNat offset)).bind
        fun dst => (appendByte cap dst (UInt8.ofNat (offset >>> 8))).bind fun dst =>
          (appendExtra cap dst ml).bind k) =
      if dst.length + (sequenceBytes lits offset ml).length ≤ cap then
        k (dst ++ sequenceBytes lits offset ml)
      else none := by
  have h := (writes_byte (literalNibble lits.length ||| matchNibble ml)).bind
    ((writes_literals lits).bind ((writes_byte (UInt8.ofNat offset)).bind
      ((writes_byte (UInt8.ofNat (offset >>> 8))).bind (writes_extra ml))))
  rw [List.append_assoc] at h
  have hseq := congrArg (Option.bind · k) (h.eq_of_cons cap dst)
  simp only [Option.bind_assoc] at hseq
  exact hseq.trans (apply_ite (Option.bind · k) _ _ _)

/-- The bytes of the last literals. -/
def lastBytes (lits : Bytes) : Bytes :=
  literalNibble lits.length :: (extraBytes lits.length ++ lits)

theorem append_last (cap : Nat) (dst lits : Bytes) :
    ((appendByte cap dst (literalNibble lits.length)).bind fun dst => appendLiterals cap dst lits) =
      if dst.length + (lastBytes lits).length ≤ cap then some (dst ++ lastBytes lits) else none :=
  ((writes_byte _).bind (writes_literals lits)).eq_of_cons cap dst

theorem decodeSequence_sequenceBytes {dn : Nat} {lits dst rest : Bytes} {offset ml : Nat}
    (hpos : 0 < offset) (hwin : offset < 2 ^ 16) (hback : offset ≤ dst.length + lits.length)
    (hfit : dst.length + lits.length + (ml + minMatch) ≤ dn) :
    decodeSequence dn (literalNibble lits.length ||| matchNibble ml)
      (extraBytes lits.length ++ (lits ++
        (UInt8.ofNat offset :: UInt8.ofNat (offset >>> 8) :: (extraBytes ml ++ rest)))) dst =
      .ok (some rest,
        copyMatch (ml + minMatch) (dst ++ lits) (dst.length + lits.length - offset)) := by
  obtain ⟨hlit, hml⟩ := token_spec lits.length ml
  have hoff := offset_bytes hwin
  unfold decodeSequence
  simp only [hlit, readLen_extraBytes, hml, List.take_left, List.drop_left, hoff,
    List.length_append]
  rw [if_neg (by omega), if_neg (by omega), if_neg (by omega)]

theorem decodeSequence_last {dn : Nat} {lits dst : Bytes}
    (hfit : dst.length + lits.length ≤ dn) :
    decodeSequence dn (literalNibble lits.length) (extraBytes lits.length ++ lits) dst =
      .ok (none, dst ++ lits) := by
  unfold decodeSequence
  simp only [lastToken_spec, readLen_extraBytes, List.take_length, List.drop_length]
  rw [if_neg (by omega)]

/-- A match whose bytes repeat those at `ref` extends a prefix of the input. -/
theorem copyMatch_take (src : Bytes) : ∀ (n pos ref : Nat), ref < pos →
    pos + n ≤ src.length → (∀ i < n, src[ref + i]? = src[pos + i]?) →
    copyMatch n (src.take pos) ref = src.take (pos + n)
  | 0, _, _, _, _, _ => rfl
  | n + 1, pos, ref, hlt, hlen, hsame => by
    have hhead : src[ref]? = src[pos]? := hsame 0 (by omega)
    have hbyte : (src.take pos).getD ref 0 = src[pos] := by
      rw [List.getD_eq_getElem?_getD, List.getElem?_take_of_lt hlt, hhead,
        List.getElem?_eq_getElem (by omega)]
      rfl
    have hnext : src.take pos ++ [src[pos]] = src.take (pos + 1) :=
      List.take_append_getElem (by omega)
    rw [copyMatch, hbyte, hnext, copyMatch_take src n (pos + 1) (ref + 1) (by omega) (by omega)]
    · congr 1
      omega
    · intro i hi
      have := hsame (i + 1) (by omega)
      simpa [Nat.add_assoc, Nat.add_comm 1 i] using this

/-! ## The search -/

theorem matchLength_spec (src : Bytes) (stop : Nat) : ∀ (fuel ref cur : Nat),
    ∀ i < matchLength src stop fuel ref cur, cur + i < stop ∧ src[ref + i]? = src[cur + i]?
  | 0, _, _, i, hi => absurd hi (Nat.not_lt_zero i)
  | fuel + 1, ref, cur, i, hi => by
    unfold matchLength at hi
    split at hi
    · rename_i hcond
      cases i with
      | zero => exact ⟨hcond.1, hcond.2.2⟩
      | succ i =>
        have := matchLength_spec src stop fuel (ref + 1) (cur + 1) i (by omega)
        simpa [Nat.add_assoc, Nat.add_comm 1 i] using this
    · exact absurd hi (Nat.not_lt_zero i)

variable {src out : Bytes} {cap : Nat}

/-- Four equal bytes, from one word comparison. -/
theorem read32_eq {a b : Nat} (ha : a + 4 ≤ src.length) (hb : b + 4 ≤ src.length)
    (h : read32 src a = read32 src b) : ∀ i < 4, src[a + i]? = src[b + i]? := by
  have hla : (slice src a (a + 4)).length = 4 := by rw [slice_length] <;> omega
  have hlb : (slice src b (b + 4)).length = 4 := by rw [slice_length] <;> omega
  have hlta := leNat_lt (slice src a (a + 4))
  have hltb := leNat_lt (slice src b (b + 4))
  rw [hla] at hlta
  rw [hlb] at hltb
  have hword : leNat (slice src a (a + 4)) = leNat (slice src b (b + 4)) := by
    have hnat := congrArg UInt32.toNat h
    simp only [read32, wordAt] at hnat
    rwa [UInt32.toNat_ofNat_of_lt' hlta, UInt32.toNat_ofNat_of_lt' hltb] at hnat
  have hslice := leNat_inj (hla.trans hlb.symm) hword
  intro i hi
  have hga : (slice src a (a + 4))[i]? = src[a + i]? := getElem?_slice (by omega)
  have hgb : (slice src b (b + 4))[i]? = src[b + i]? := getElem?_slice (by omega)
  rw [← hga, hslice, hgb]

theorem update_cases (f : UInt32 → UInt32) (a b v : UInt32) :
    Function.update f a b v = f v ∨ Function.update f a b v = b := by
  by_cases hv : v = a
  · subst hv
    exact Or.inr (Function.update_self ..)
  · exact Or.inl (Function.update_of_ne hv ..)

theorem encodeStep_cases {cap mfLimit : Nat} {s s' : Encoder}
    (h : encodeStep cap src mfLimit s = some s') :
    (s'.sp = s.sp + 1 ∧ s'.anchor = s.anchor ∧ s'.dst = s.dst ∧
      ∀ v, s'.hashTable v = s.hashTable v ∨ s'.hashTable v = UInt32.ofNat s.sp) ∨
    ∃ v ml, (s.hashTable v).toNat ≠ 0 ∧ s.sp - (s.hashTable v).toNat < winSize ∧
      read32 src (s.hashTable v).toNat = read32 src s.sp ∧
      ml = matchLength src src.length (src.length - s.sp) ((s.hashTable v).toNat + minMatch)
        (s.sp + minMatch) ∧
      s'.sp = s.sp + minMatch + ml ∧ s'.anchor = s'.sp ∧
      s'.dst = s.dst ++ sequenceBytes (slice src s.anchor s.sp)
        (s.sp - (s.hashTable v).toNat) ml ∧
      ∀ v, s'.hashTable v = s.hashTable v ∨ s'.hashTable v = UInt32.ofNat s.sp ∨
        s'.hashTable v = UInt32.ofNat (s'.sp - 2) := by
  unfold encodeStep at h
  simp only at h
  split at h
  · cases h
    exact Or.inl ⟨rfl, rfl, rfl, fun v => update_cases _ _ _ v⟩
  · rename_i hmatch
    push Not at hmatch
    obtain ⟨hzero, hwin, hsame⟩ := hmatch
    simp only [Option.bind_eq_bind, append_sequence, Option.ite_none_right_eq_some] at h
    obtain ⟨-, h⟩ := h
    cases h
    refine Or.inr ⟨_, _, hzero, hwin, hsame, rfl, rfl, rfl, rfl, fun v => ?_⟩
    have hnow := update_cases s.hashTable (hashU32 (read32 src s.sp)) (UInt32.ofNat s.sp) v
    simp only
    split
    · rcases update_cases _ _ _ v with hv | hv
      · rw [hv]
        exact hnow.imp_right Or.inl
      · exact Or.inr (Or.inr hv)
    · exact hnow.imp_right Or.inl

/-- The table only knows positions behind the current one, and decoding what was written
leads to the input up to the anchor in `rounds` rounds. -/
structure Encodes (src : Bytes) (s : Encoder) : Prop where
  anchor_le : s.anchor ≤ s.sp
  sp_le : s.sp ≤ src.length
  table : ∀ v, (s.hashTable v).toNat < s.sp ∨ (s.hashTable v).toNat = 0
  decodes : ∃ rounds ≤ s.dst.length, ∀ (rest : Bytes) (fuel : Nat),
    decodeLoop src.length (fuel + rounds) (s.dst ++ rest) [] =
      decodeLoop src.length fuel rest (src.take s.anchor)

theorem toNat_ofNat_le (n : Nat) : (UInt32.ofNat n).toNat ≤ n := by
  rw [UInt32.toNat_ofNat']
  exact Nat.mod_le _ _

theorem decodeLoop_sequenceBytes {dn fuel offset ml : Nat} {lits dst rest : Bytes}
    (hpos : 0 < offset) (hwin : offset < 2 ^ 16) (hback : offset ≤ dst.length + lits.length)
    (hfit : dst.length + lits.length + (ml + minMatch) ≤ dn) :
    decodeLoop dn (fuel + 1) (sequenceBytes lits offset ml ++ rest) dst =
      decodeLoop dn fuel rest
        (copyMatch (ml + minMatch) (dst ++ lits) (dst.length + lits.length - offset)) := by
  simp only [sequenceBytes, List.cons_append, List.append_assoc, decodeLoop,
    decodeSequence_sequenceBytes hpos hwin hback hfit]

theorem Encodes.step {s s' : Encoder} (hinv : Encodes src s)
    (hsp : s.sp + (lastLiterals + minMatch) ≤ src.length)
    (h : encodeStep cap src (src.length - lastLiterals - minMatch) s = some s') :
    Encodes src s' ∧ s.sp < s'.sp := by
  simp only [lastLiterals, minMatch] at hsp
  obtain ⟨hanchor, hsple, htable, rounds, hrounds, hdec⟩ := hinv
  have hnow := toNat_ofNat_le s.sp
  rcases encodeStep_cases h with ⟨hsp', ha', hd', ht'⟩ |
    ⟨v, ml, hzero, hwin, hsame, hml, hsp', ha', hd', ht'⟩
  · refine ⟨⟨by omega, by omega, ?_, rounds, by rw [hd']; exact hrounds, ?_⟩, by omega⟩
    · intro v
      have := htable v
      rcases ht' v with hv | hv <;> rw [hv] <;> omega
    · rw [hd', ha']
      exact hdec
  · obtain ⟨ref, href⟩ : ∃ ref, ref = (s.hashTable v).toNat := ⟨_, rfl⟩
    rw [← href] at hzero hwin hsame hml hd'
    have hlt : ref < s.sp := by
      have := htable v
      omega
    simp only [minMatch, winSize] at *
    -- the matched bytes: four from the word comparison, the others one by one
    have hbytes : ∀ i < ml + 4, s.sp + i < src.length ∧ src[ref + i]? = src[s.sp + i]? := by
      intro i hi
      by_cases hi4 : i < 4
      · exact ⟨by omega, read32_eq (by omega) (by omega) hsame i hi4⟩
      · have hlong := matchLength_spec src src.length (src.length - s.sp) (ref + 4) (s.sp + 4)
          (i - 4) (by omega)
        have hr : ref + 4 + (i - 4) = ref + i := by omega
        have hs : s.sp + 4 + (i - 4) = s.sp + i := by omega
        rwa [hr, hs] at hlong
    have hend : s.sp + (ml + 4) ≤ src.length := by
      have := (hbytes (ml + 3) (by omega)).1
      omega
    have hlits : (slice src s.anchor s.sp).length = s.sp - s.anchor :=
      slice_length hanchor (by omega)
    have htake : (src.take s.anchor).length = s.anchor := by simp; omega
    have hjoin : src.take s.anchor ++ slice src s.anchor s.sp = src.take s.sp := by
      rw [slice, ← List.take_add]
      congr 1
      omega
    have hcopy := copyMatch_take src (ml + 4) s.sp ref hlt hend fun i hi => (hbytes i hi).2
    refine ⟨⟨by omega, by omega, ?_, rounds + 1, ?_, ?_⟩, by omega⟩
    · intro w
      have := htable w
      have hprev := toNat_ofNat_le (s'.sp - 2)
      rcases ht' w with hw | hw | hw <;> rw [hw] <;> omega
    · rw [hd']
      simp [sequenceBytes]
      omega
    · intro rest fuel
      rw [hd', ha', hsp', List.append_assoc, ← Nat.add_assoc, Nat.add_right_comm, hdec,
        decodeLoop_sequenceBytes (by omega) (by omega) (by omega) (by simp only [minMatch]; omega)]
      have hpos : (src.take s.anchor).length + (slice src s.anchor s.sp).length - (s.sp - ref) =
          ref := by omega
      rw [hpos, hjoin]
      simp only [minMatch]
      rw [hcopy]
      congr 2
      omega

theorem Encodes.loop : ∀ {fuel : Nat} {s s' : Encoder},
    Encodes src s →
    encodeLoop cap src (src.length - lastLiterals - minMatch) fuel s = some s' → 
    lastLiterals + minMatch ≤ src.length → Encodes src s'
  | 0, _, _, _, h, _ => by cases h
  | fuel + 1, s, s', hinv, h, hlen => by
    unfold encodeLoop at h
    split at h
    · rename_i hsp
      obtain ⟨mid, hmid, hrest⟩ := Option.bind_eq_some_iff.mp h
      have hroom : s.sp + (lastLiterals + minMatch) ≤ src.length := by omega
      exact (hinv.step hroom hmid).1.loop hrest hlen
    · cases h
      exact hinv

theorem encodes_start (src : Bytes) : Encodes src ⟨fun _ => 0, 0, 0, []⟩ :=
  ⟨Nat.le_refl 0, Nat.zero_le _, fun _ => Or.inr rfl, 0, Nat.zero_le _, fun _ _ => rfl⟩

/-- What the block encoder writes, if anything, decodes to the input. -/
theorem decompressBlock_compressBlock {src block : Bytes} (h : compressBlock cap src = some block)
    (hne : block ≠ []) :
    decompressBlock src.length block = .ok src := by
  unfold compressBlock at h
  split at h
  · cases h
    exact absurd rfl hne
  · rename_i hlong
    simp only [Option.bind_eq_bind, Option.bind_eq_some_iff] at h
    obtain ⟨s, hs, h⟩ := h
    obtain ⟨hanchor, hsp, _, rounds, hrounds, hdec⟩ :=
      (encodes_start src).loop hs (by omega)
    split at h
    · cases h
      exact absurd rfl hne
    · rw [append_last] at h
      have hblock := (Option.some.inj (Option.ite_none_right_eq_some.mp h).2).symm
      obtain ⟨lits, hlits⟩ : ∃ lits, lits = slice src s.anchor src.length := ⟨_, rfl⟩
      rw [← hlits] at hblock
      have hlen : lits.length = src.length - s.anchor := by
        rw [hlits]
        exact slice_length (by omega) (Nat.le_refl _)
      have hjoin : src.take s.anchor ++ lits = src := by
        rw [hlits, slice, ← List.take_add]
        exact List.take_of_length_le (by omega)
      -- one round more than the sequences takes the decoder over the last literals
      obtain ⟨fuel, hfuel⟩ : ∃ fuel, block.length = (fuel + 1) + rounds :=
        ⟨block.length - rounds - 1, by rw [hblock]; simp [lastBytes]; omega⟩
      rw [decompressBlock, hfuel, hblock, hdec, lastBytes, decodeLoop, decodeSequence_last]
      · simp only [hjoin]
      · rw [List.length_take]
        omega

/-- Whatever LZ4 compression returns decompresses to the value it was given. -/
theorem LZ4.decompress_compress {c : LZ4}
    (h : c.compress src = some (some out)) : LZ4.decompress out = .ok src := by
  unfold LZ4.compress at h
  simp only at h
  split at h
  · cases h
  · rename_i hsize
    obtain ⟨block, hblock, h⟩ := Option.bind_eq_some_iff.mp h
    split at h
    · cases h
    · rename_i hsmall
      obtain rfl : leBytes sizePrefix src.length ++ block = out := by simpa using h
      have hne : block ≠ [] := by
        rintro rfl
        simp at hsmall
      have hn : src.length < 256 ^ sizePrefix := by
        simp only [maxInputSize, sizePrefix] at *
        omega
      have htake : (leBytes sizePrefix src.length ++ block).take sizePrefix =
          leBytes sizePrefix src.length := List.take_left' (by simp)
      have hdrop : (leBytes sizePrefix src.length ++ block).drop sizePrefix = block :=
        List.drop_left' (by simp)
      unfold LZ4.decompress
      rw [if_neg (by simp), htake, leNat_leBytes_of_lt hn, hdrop]
      simp only [decompressBlock_compressBlock hblock hne]
      rw [if_neg (by omega), if_neg (by simp)]

/-- Compression is used only where it saves space. -/
theorem Compressor.length_compress_lt {c : Compressor}
    (h : c.compress src = some (some out)) : out.length < src.length := by
  cases c with
  | noop => cases h
  | lz4 c =>
    simp only [Compressor.compress, LZ4.compress] at h
    split at h
    · cases h
    · obtain ⟨block, _, h⟩ := Option.bind_eq_some_iff.mp h
      split at h
      · cases h
      · rename_i hsmall
        obtain rfl : leBytes sizePrefix src.length ++ block = out := by simpa using h
        simp only [List.length_append, leBytes_length]
        omega

/-- A block that compression returns is shorter than the value and decompresses to it. -/
theorem LZ4.shorter_and_decompresses (c : LZ4) (src out : Bytes)
    (h : c.compress src = some (some out)) :
    out.length < src.length ∧ LZ4.decompress out = .ok src :=
  ⟨Compressor.length_compress_lt (c := .lz4 c) h, LZ4.decompress_compress h⟩

/-- Twenty zeros: two literals, and a match over itself that runs to the end. -/
theorem LZ4.shorter_and_decompresses_zeros :
    ∃ out, (LZ4.mk (-3)).compress (List.replicate 20 0) = some (some out) ∧
      out.length < 20 ∧ LZ4.decompress out = .ok (List.replicate 20 0) := by
  have hout : ((LZ4.mk (-3)).compress (List.replicate 20 0)).any Option.isSome = true := by
    decide +kernel
  obtain ⟨res, hres, hsome⟩ := (Option.any_eq_true _ _).mp hout
  obtain ⟨out, rfl⟩ := Option.isSome_iff_exists.mp hsome
  obtain ⟨hlen, hdec⟩ := LZ4.shorter_and_decompresses ⟨-3⟩ _ out hres
  exact ⟨out, hres, by simpa using hlen, hdec⟩

/-- Every compressor gives back what it compressed. -/
theorem Compressor.decompress_compress {c : Compressor}
    (h : c.compress src = some (some out)) : c.decompress out = .ok src := by
  cases c with
  | noop => cases h
  | lz4 c => exact LZ4.decompress_compress h

end Horreum.Compress
