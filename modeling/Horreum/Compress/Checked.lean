/-
  Compress/Checked.lean --- the LZ4 codec, access by access.

  Encoder and decoder work with cursors into their slices, as in the source, and `none` is where Go
  would panic or go on for ever.  The pooled buffers hold what the last user left in them.  The
  encoder never asks for more than it has, and the decoder never reads what it has not written.
-/
import Horreum.Compress.Capacity
import Horreum.Foundation.Slicing

set_option autoImplicit false

namespace Horreum.Compress

open Foundation

namespace Checked

/-- The array behind the buffer of `n` bytes that the pool gives out.  `pooled` is what the pool of
the size class holds, if it holds anything; a buffer that is too small is dropped. -/
def poolGet (pooled : Option Bytes) (n : Nat) : Bytes :=
  match poolClasses.find? fun c => n ≤ c with
  | none => List.replicate n 0
  | some c =>
    match pooled with
    | some buf => if buf.length ≥ n then buf else List.replicate c 0
    | none => List.replicate c 0

theorem le_length_poolGet (pooled : Option Bytes) (n : Nat) : n ≤ (poolGet pooled n).length := by
  unfold poolGet
  cases hfind : poolClasses.find? fun c => n ≤ c with
  | none => simp
  | some c =>
    have hle : n ≤ c := by simpa using List.find?_some hfind
    cases pooled with
    | none => simpa using hle
    | some buf =>
      dsimp only
      split
      · assumption
      · simpa using hle

/-! ## Encoder -/

/-- `read32(src[i:])` -/
def read32 (src : Bytes) (i : Nat) : Option UInt32 := (word? src i 4).map UInt32.ofNat

/-- The length of the hash table. -/
def hashTableSize : Nat := 2 ^ 16

/-- An index into the hash table. -/
def slot (h : UInt32) : Option UInt32 := if h.toNat < hashTableSize then some h else none

/-- The loop that extends a match, with its reads checked. -/
def matchLength (src : Bytes) (stop : Nat) : (fuel ref cur : Nat) → Option Nat
  | 0, _, _ => none
  | fuel + 1, ref, cur =>
    if cur < stop ∧ ref < stop then do
      let a ← src[ref]?
      let b ← src[cur]?
      if a = b then (matchLength src stop fuel (ref + 1) (cur + 1)).map (· + 1) else some 0
    else some 0

/-- The part of a round behind the test for a match with the bytes at `ref`. -/
def emit (cap : Nat) (src : Bytes) (mfLimit : Nat) (s : Encoder) (hashTable : UInt32 → UInt32)
    (ref : Nat) : Option Encoder := do
  let lits ← slice? src s.anchor s.sp
  let ml ← matchLength src src.length (src.length - s.sp) (ref + minMatch) (s.sp + minMatch)
  let dst ← appendByte cap s.dst (literalNibble lits.length ||| matchNibble ml)
  let dst ← appendLiterals cap dst lits
  let offset := s.sp - ref
  let dst ← appendByte cap dst (UInt8.ofNat offset)
  let dst ← appendByte cap dst (UInt8.ofNat (offset >>> 8))
  let dst ← appendExtra cap dst ml
  let sp := s.sp + minMatch + ml
  if sp ≤ mfLimit then do
    let h ← slot (hashU32 (← read32 src (sp - 2)))
    some ⟨Function.update hashTable h (UInt32.ofNat (sp - 2)), sp, sp, dst⟩
  else some ⟨hashTable, sp, sp, dst⟩

/-- The four bytes at `ref` are read only if it lies within the window. -/
def encodeStep (cap : Nat) (src : Bytes) (mfLimit : Nat) (s : Encoder) : Option Encoder := do
  let h ← slot (hashU32 (← read32 src s.sp))
  let ref := (s.hashTable h).toNat
  let hashTable := Function.update s.hashTable h (UInt32.ofNat s.sp)
  if ref = 0 ∨ (s.sp : Int) - ref ≥ winSize then
    some { s with hashTable := hashTable, sp := s.sp + 1 }
  else do
    let old ← read32 src ref
    let new ← read32 src s.sp
    if old ≠ new then some { s with hashTable := hashTable, sp := s.sp + 1 }
    else emit cap src mfLimit s hashTable ref

/-- The main loop of the encoder. -/
def encodeLoop (cap : Nat) (src : Bytes) (mfLimit : Nat) : (fuel : Nat) → Encoder → Option Encoder
  | 0, _ => none
  | fuel + 1, s =>
    if s.sp ≤ mfLimit then do
      let s ← encodeStep cap src mfLimit s
      encodeLoop cap src mfLimit fuel s
    else some s

/-- `compressBlock` with its slices and reads checked. -/
def compressBlock (cap : Nat) (src : Bytes) : Option Bytes :=
  if src.length < minMatch + lastLiterals then some []
  else do
    let mfLimit := src.length - lastLiterals - minMatch
    let s ← encodeLoop cap src mfLimit (src.length + 1) ⟨fun _ => 0, 0, 0, []⟩
    let lits ← slice? src s.anchor src.length
    if lits.length = 0 ∧ s.dst.length = 0 then some []
    else do
      let dst ← appendByte cap s.dst (literalNibble lits.length)
      appendLiterals cap dst lits

/-- `Compress` with a buffer from the pool. -/
def compress (c : LZ4) (pooled : Option Bytes) (src : Bytes) : Option (Option Bytes) :=
  let n := src.length
  if n < c.minSize ∨ n > maxInputSize then some none
  else do
    let maxOut := sizePrefix + n + n / 255 + 16
    let dst ← putWord? (poolGet pooled maxOut) 0 sizePrefix n
    let block ← compressBlock (dst.length - sizePrefix) src
    if block.length = 0 ∨ sizePrefix + block.length ≥ n then some none
    else some (some (dst.take sizePrefix ++ block))

/-! ### The reads of the encoder -/

variable {cap : Nat} {src : Bytes}

theorem read32_eq {i : Nat} (h : i + 4 ≤ src.length) :
    read32 src i = some (Compress.read32 src i) := by
  rw [read32, word?_eq h]
  rfl

theorem slot_eq (v : UInt32) : slot (hashU32 v) = some (hashU32 v) := by
  have hshift : (hashU32 v).toNat < hashTableSize := by
    rw [hashU32, UInt32.toNat_shiftRight, Nat.shiftRight_eq_div_pow, hashTableSize]
    have hlt := (v * 2654435761).toNat_lt
    exact Nat.div_lt_of_lt_mul hlt
  exact if_pos hshift

theorem matchLength_eq : ∀ {fuel cur : Nat} (ref : Nat), src.length - cur < fuel →
    matchLength src src.length fuel ref cur =
      some (Compress.matchLength src src.length fuel ref cur)
  | 0, _, _, h => absurd h (Nat.not_lt_zero _)
  | fuel + 1, cur, ref, h => by
    unfold matchLength Compress.matchLength
    split
    · rename_i hin
      rw [List.getElem?_eq_getElem hin.1, List.getElem?_eq_getElem hin.2]
      simp only [Option.bind_eq_bind, Option.bind_some, hin, Option.some.injEq, true_and]
      split
      · rw [matchLength_eq (ref + 1) (by omega)]
        rfl
      · rfl
    · rename_i hout
      rw [if_neg fun hin => hout ⟨hin.1, hin.2.1⟩]

/-- In a round of the search loop all reads are in range: the table has earlier positions only. -/
theorem encodeStep_eq {s : Encoder} (hinv : Encodes src s)
    (hsp : s.sp + (lastLiterals + minMatch) ≤ src.length) :
    encodeStep cap src (src.length - lastLiterals - minMatch) s =
      Compress.encodeStep cap src (src.length - lastLiterals - minMatch) s := by
  have hanchor := hinv.anchor_le
  simp only [lastLiterals, minMatch] at hsp
  have htable := hinv.table (hashU32 (Compress.read32 src s.sp))
  unfold encodeStep Compress.encodeStep
  rw [read32_eq (show s.sp + 4 ≤ src.length by omega)]
  simp only [Option.bind_eq_bind, Option.bind_some, slot_eq]
  generalize (s.hashTable (hashU32 (Compress.read32 src s.sp))).toNat = ref at htable ⊢
  by_cases hfar : ref = 0 ∨ s.sp - ref ≥ winSize
  · rw [if_pos (hfar.imp_right fun h => by omega), if_pos (hfar.imp_right .inl)]
  · have hnear : ¬ (ref = 0 ∨ (s.sp : Int) - ref ≥ winSize) := fun h =>
      hfar (h.imp_right fun h => by omega)
    rw [if_neg hnear, read32_eq (show ref + 4 ≤ src.length by omega), Option.bind_some]
    by_cases hsame : Compress.read32 src ref = Compress.read32 src s.sp
    · have hstay : ¬ (ref = 0 ∨ s.sp - ref ≥ winSize ∨
          Compress.read32 src ref ≠ Compress.read32 src s.sp) := fun h =>
        h.elim (fun h => hfar (.inl h)) fun h => h.elim (fun h => hfar (.inr h)) fun h => h hsame
      rw [if_neg (not_not.mpr hsame), if_neg hstay, emit, slice?_eq hanchor (by omega),
        matchLength_eq _ (by simp only [minMatch]; omega)]
      simp only [Option.bind_eq_bind, Option.bind_some]
      generalize Compress.matchLength src src.length (src.length - s.sp) (ref + minMatch)
        (s.sp + minMatch) = ml
      by_cases hin : s.sp + minMatch + ml ≤ src.length - lastLiterals - minMatch
      · have hword : s.sp + minMatch + ml - 2 + 4 ≤ src.length := by
          simp only [minMatch, lastLiterals] at hin ⊢
          omega
        simp only [hin, if_true, read32_eq hword, Option.bind_some, slot_eq]
      · simp only [hin, if_false]
    · rw [if_pos hsame, if_pos (.inr (.inr hsame))]

theorem encodeLoop_eq (hlong : lastLiterals + minMatch ≤ src.length) :
    ∀ {fuel : Nat} {s : Encoder}, Encodes src s →
      encodeLoop cap src (src.length - lastLiterals - minMatch) fuel s =
        Compress.encodeLoop cap src (src.length - lastLiterals - minMatch) fuel s
  | 0, _, _ => rfl
  | fuel + 1, s, hinv => by
    unfold encodeLoop Compress.encodeLoop
    split
    · have hsp : s.sp + (lastLiterals + minMatch) ≤ src.length := by omega
      rw [encodeStep_eq hinv hsp]
      cases hstep : Compress.encodeStep cap src (src.length - lastLiterals - minMatch) s with
      | none => rfl
      | some s' => exact encodeLoop_eq hlong (hinv.step hsp hstep).1
    · rfl

theorem compressBlock_eq (cap : Nat) (src : Bytes) :
    compressBlock cap src = Compress.compressBlock cap src := by
  unfold compressBlock Compress.compressBlock
  split
  · rfl
  · rename_i hlong
    have hlong : lastLiterals + minMatch ≤ src.length := by omega
    dsimp only
    rw [encodeLoop_eq hlong (encodes_start src)]
    cases hloop : Compress.encodeLoop cap src (src.length - lastLiterals - minMatch)
        (src.length + 1) ⟨fun _ => 0, 0, 0, []⟩ with
    | none => rfl
    | some s =>
      have hinv := (encodes_start src).loop hloop hlong
      have hanchor := Nat.le_trans hinv.anchor_le hinv.sp_le
      simp only [Option.bind_eq_bind, Option.bind_some, slice?_eq hanchor (Nat.le_refl _)]

/-- With any buffer that the pool may give, the encoder keeps to its input and to its buffer, and
writes at most what `Compress` takes for the worst case. -/
theorem encoder_in_buffer (pooled : Option Bytes) (src : Bytes) :
    ∃ block, compressBlock
        ((poolGet pooled (sizePrefix + src.length + src.length / 255 + 16)).length - sizePrefix) src =
          some block ∧
      block.length ≤ src.length + src.length / 255 + 16 := by
  have hcap := le_length_poolGet pooled (sizePrefix + src.length + src.length / 255 + 16)
  simp only [sizePrefix] at hcap ⊢
  rw [compressBlock_eq]
  have hroom : src.length + src.length / 255 + 2 ≤
      (poolGet pooled (4 + src.length + src.length / 255 + 16)).length - 4 := by omega
  obtain ⟨block, hblock, hlen⟩ := compressBlock_total hroom
  exact ⟨block, hblock, by omega⟩

/-! ### The size of the buffer -/

variable {cap' sp : Nat}

theorem encodeStep_mono (hcap : cap ≤ cap') {mfLimit : Nat} {s s' : Encoder}
    (h : Compress.encodeStep cap src mfLimit s = some s') :
    Compress.encodeStep cap' src mfLimit s = some s' := by
  unfold Compress.encodeStep at h ⊢
  simp only at h ⊢
  split at h
  · rwa [if_pos ‹_›]
  · rw [if_neg ‹_›]
    simp only [Option.bind_eq_bind, append_sequence, Option.ite_none_right_eq_some] at h ⊢
    exact ⟨by omega, h.2⟩

theorem encodeLoop_mono (hcap : cap ≤ cap') {mfLimit : Nat} : ∀ {fuel : Nat} {s s' : Encoder},
    Compress.encodeLoop cap src mfLimit fuel s = some s' →
    Compress.encodeLoop cap' src mfLimit fuel s = some s'
  | 0, _, _, h => by cases h
  | fuel + 1, s, s', h => by
    unfold Compress.encodeLoop at h ⊢
    split at h
    · rw [if_pos ‹_›]
      obtain ⟨mid, hmid, hrest⟩ := Option.bind_eq_some_iff.mp h
      rw [encodeStep_mono hcap hmid]
      exact encodeLoop_mono hcap hrest
    · rwa [if_neg ‹_›]

/-- A larger buffer gives the same block. -/
theorem compressBlock_mono (hcap : cap ≤ cap') {block : Bytes}
    (h : Compress.compressBlock cap src = some block) :
    Compress.compressBlock cap' src = some block := by
  unfold Compress.compressBlock at h ⊢
  split at h
  · rwa [if_pos ‹_›]
  · rw [if_neg ‹_›]
    dsimp only at h ⊢
    obtain ⟨s, hs, hrest⟩ := Option.bind_eq_some_iff.mp h
    rw [encodeLoop_mono hcap hs]
    simp only [Option.bind_eq_bind, Option.bind_some] at hrest ⊢
    split at hrest
    · rwa [if_pos ‹_›]
    · rw [if_neg ‹_›]
      rw [append_last, Option.ite_none_right_eq_some] at hrest ⊢
      exact ⟨by omega, hrest.2⟩

/-- `Compress` gives the same with any buffer of the pool. -/
theorem compress_eq (c : LZ4) (pooled : Option Bytes) (src : Bytes) :
    compress c pooled src = c.compress src := by
  have hcap := le_length_poolGet pooled (sizePrefix + src.length + src.length / 255 + 16)
  have hpool := le_poolCap (sizePrefix + src.length + src.length / 255 + 16)
  obtain ⟨block, hblock, _⟩ := compressBlock_total (Nat.le_refl (src.length + src.length / 255 + 2))
  unfold compress LZ4.compress
  simp only [sizePrefix] at hcap hpool ⊢
  split
  · rfl
  · rw [putWord?_front (by omega)]
    simp only [Option.bind_eq_bind, Option.bind_some, compressBlock_eq]
    rw [compressBlock_mono (by simp; omega) hblock, compressBlock_mono (by omega) hblock]
    simp

/-! ## Decoder -/

/-- The loop over the extra bytes of a length, from position `sp` on: the position behind them and
the length. -/
def readExtra (src : Bytes) : (fuel sp length : Nat) → Option (Nat × Nat)
  | 0, _, _ => none
  | fuel + 1, sp, length =>
    if sp < src.length then do
      let extra := (← src[sp]?).toNat
      if extra < 255 then some (sp + 1, length + extra)
      else readExtra src fuel (sp + 1) (length + extra)
    else some (sp, length)

/-- A length with its extra bytes. -/
def readLen (src : Bytes) (nibble sp : Nat) : Option (Nat × Nat) :=
  if nibble = 15 then readExtra src (src.length + 1) sp 15 else some (sp, nibble)

/-- `dst[dp+i] = dst[matchPos+i]`, byte by byte. -/
def copyMatch : (n : Nat) → (dst : Bytes) → (dp matchPos : Nat) → Option Bytes
  | 0, dst, _, _ => some dst
  | n + 1, dst, dp, matchPos => do
    let b ← dst[matchPos]?
    let dst ← copy? dst dp (dp + 1) [b]
    copyMatch n dst (dp + 1) (matchPos + 1)

/-- The destination and the two cursors. -/
structure Decoder where
  dst : Bytes
  sp : Nat
  dp : Nat

/-- The literals of a sequence, if it has any. -/
def copyLiterals (src : Bytes) (s : Decoder) (litLen : Nat) : Option (Except Error Decoder) :=
  if litLen > 0 then
    if s.sp + litLen > src.length ∨ s.dp + litLen > s.dst.length then some (.error .corrupt)
    else do
      let lits ← slice? src s.sp (s.sp + litLen)
      let dst ← copy? s.dst s.dp (s.dp + litLen) lits
      some (.ok ⟨dst, s.sp + litLen, s.dp + litLen⟩)
  else some (.ok s)

/-- The match of a sequence behind its two bytes of offset. -/
def decodeMatch (src : Bytes) (token : UInt8) (offset : Nat) (s : Decoder) :
    Option (Except Error Decoder) :=
  if offset = 0 then some (.error .corrupt)
  else do
    let (sp, ml) ← readLen src (token &&& 0x0F).toNat s.sp
    let matchLen := ml + minMatch
    let matchPos : Int := s.dp - offset
    if matchPos < 0 ∨ s.dp + matchLen > s.dst.length then some (.error .corrupt)
    else do
      let dst ← copyMatch matchLen s.dst s.dp matchPos.toNat
      some (.ok ⟨dst, sp, s.dp + matchLen⟩)

/-- One round of the loop.  The flag tells whether it goes on. -/
def decodeSequence (src : Bytes) (s : Decoder) : Option (Except Error (Bool × Decoder)) := do
  let token ← src[s.sp]?
  let (sp, litLen) ← readLen src (token >>> 4).toNat (s.sp + 1)
  match ← copyLiterals src { s with sp := sp } litLen with
  | .error e => some (.error e)
  | .ok s =>
    if s.sp ≥ src.length then some (.ok (false, s))
    else if s.sp + 2 > src.length then some (.error .corrupt)
    else do
      let lo ← src[s.sp]?
      let hi ← src[s.sp + 1]?
      let offset := lo.toNat ||| hi.toNat <<< 8
      (decodeMatch src token offset { s with sp := s.sp + 2 }).map fun r => r.map fun s => (true, s)

/-- The main loop of the decoder. -/
def decodeLoop (src : Bytes) : (fuel : Nat) → Decoder → Option (Except Error Decoder)
  | 0, _ => none
  | fuel + 1, s =>
    if s.sp < src.length then do
      match ← decodeSequence src s with
      | .error e => some (.error e)
      | .ok (false, s) => some (.ok s)
      | .ok (true, s) => decodeLoop src fuel s
    else some (.ok s)

/-- The number of bytes written, and the destination. -/
def decompressBlock (dst src : Bytes) : Option (Except Error (Nat × Bytes)) :=
  (decodeLoop src (src.length + 1) ⟨dst, 0, 0⟩).map fun r => r.map fun s => (s.dp, s.dst)

/-- `Decompress` with a buffer from the pool. -/
def decompress (pooled : Option Bytes) (src : Bytes) : Option (Except Error Bytes) :=
  if src.length < sizePrefix then some (.error .corrupt)
  else do
    let origSize ← word? src 0 sizePrefix
    if origSize > maxInputSize then some (.error .tooLarge)
    else do
      let dst ← slice? (poolGet pooled origSize) 0 origSize
      match ← decompressBlock dst (← slice? src sizePrefix src.length) with
      | .error e => some (.error e)
      | .ok (n, dst) =>
        if n ≠ origSize then some (.error (.length n origSize)) else some (.ok dst)

/-! ### What the decoder has written

`out` is what is written, in front of what was in the destination before. -/

theorem readExtra_eq (src : Bytes) : ∀ {fuel sp : Nat} (length : Nat), sp ≤ src.length →
    src.length - sp < fuel →
    ∃ sp', readExtra src fuel sp length = some (sp', (Compress.readExtra (src.drop sp) length).1) ∧
      (Compress.readExtra (src.drop sp) length).2 = src.drop sp' ∧ sp ≤ sp' ∧ sp' ≤ src.length
  | 0, _, _, _, hfuel => absurd hfuel (Nat.not_lt_zero _)
  | fuel + 1, sp, length, hsp, hfuel => by
    unfold readExtra
    split
    · rename_i hlt
      rw [List.drop_eq_getElem_cons hlt, List.getElem?_eq_getElem hlt, Compress.readExtra]
      simp only [Option.bind_eq_bind, Option.bind_some]
      split
      · exact ⟨sp + 1, rfl, rfl, Nat.le_succ _, hlt⟩
      · obtain ⟨sp', hread, hrest, hle, hin⟩ :=
          readExtra_eq src (length + src[sp].toNat) (show sp + 1 ≤ src.length from hlt)
            (show src.length - (sp + 1) < fuel by omega)
        exact ⟨sp', hread, hrest, by omega, hin⟩
    · rename_i hend
      rw [List.drop_eq_nil_of_le (Nat.le_of_not_lt hend), Compress.readExtra]
      refine ⟨sp, rfl, ?_, Nat.le_refl _, hsp⟩
      rw [List.drop_eq_nil_of_le (Nat.le_of_not_lt hend)]

theorem readLen_eq (src : Bytes) (nibble : Nat) (hsp : sp ≤ src.length) :
    ∃ sp', readLen src nibble sp = some (sp', (Compress.readLen nibble (src.drop sp)).1) ∧
      (Compress.readLen nibble (src.drop sp)).2 = src.drop sp' ∧ sp ≤ sp' ∧ sp' ≤ src.length := by
  unfold readLen Compress.readLen
  split
  · exact readExtra_eq src 15 hsp (by omega)
  · exact ⟨sp, rfl, rfl, Nat.le_refl _, hsp⟩

/-- The next part goes over what was behind the written bytes. -/
theorem copy?_behind {out init : Bytes} (data : Bytes) (h : out.length + data.length ≤ init.length) :
    copy? (out ++ init.drop out.length) out.length (out.length + data.length) data =
      some ((out ++ data) ++ init.drop (out ++ data).length) := by
  have hlen : (out ++ init.drop out.length).length = init.length := by
    rw [List.length_append, List.length_drop]
    omega
  have hall : data.take (out.length + data.length - out.length) = data :=
    List.take_of_length_le (by omega)
  rw [copy?, if_pos ⟨by omega, by omega⟩, hall, overwrite_behind, List.drop_drop, List.length_append,
    List.append_assoc]

theorem length_copyMatch : ∀ (n : Nat) (dst : Bytes) (matchPos : Nat),
    (Compress.copyMatch n dst matchPos).length = dst.length + n
  | 0, _, _ => rfl
  | n + 1, dst, matchPos => by
    rw [Compress.copyMatch, length_copyMatch n, List.length_append, List.length_singleton]
    omega

/-- A match reads only what is written. -/
theorem copyMatch_eq (init : Bytes) : ∀ {n matchPos : Nat} {out : Bytes}, matchPos < out.length →
    out.length + n ≤ init.length →
    copyMatch n (out ++ init.drop out.length) out.length matchPos =
      some (Compress.copyMatch n out matchPos ++
        init.drop (Compress.copyMatch n out matchPos).length)
  | 0, _, _, _, _ => rfl
  | n + 1, matchPos, out, hpos, hroom => by
    have hget : (out ++ init.drop out.length)[matchPos]? = some (out.getD matchPos 0) := by
      rw [List.getElem?_append_left hpos, List.getD_eq_getElem?_getD,
        List.getElem?_eq_getElem hpos, Option.getD_some]
    have hcopy := copy?_behind [out.getD matchPos 0]
      (show out.length + 1 ≤ init.length by omega)
    rw [copyMatch, hget]
    simp only [Option.bind_eq_bind, Option.bind_some]
    rw [show out.length + 1 = out.length + [out.getD matchPos 0].length from rfl, hcopy,
      Option.bind_some, ← List.length_append]
    have hlen : (out ++ [out.getD matchPos 0]).length = out.length + 1 := by
      rw [List.length_append, List.length_singleton]
    exact copyMatch_eq init (by omega) (by omega)

/-- `out` is written over the front of `init`. -/
structure Wrote (init : Bytes) (s : Decoder) (out : Bytes) : Prop where
  dst_eq : s.dst = out ++ init.drop out.length
  dp_eq : s.dp = out.length
  fits : out.length ≤ init.length

variable {init out : Bytes} {s : Decoder}

theorem Wrote.length_dst (h : Wrote init s out) : s.dst.length = init.length := by
  have hfits := h.fits
  rw [h.dst_eq, List.length_append, List.length_drop]
  omega

theorem Wrote.at (h : Wrote init s out) (sp : Nat) : Wrote init { s with sp := sp } out :=
  ⟨h.dst_eq, h.dp_eq, h.fits⟩

theorem Wrote.literals_corrupt (h : Wrote init s out) {litLen : Nat} (hlit : litLen > 0)
    (hout : litLen > (src.drop s.sp).length ∨ out.length + litLen > init.length)
    (hsp : s.sp ≤ src.length) :
    copyLiterals src s litLen = some (.error .corrupt) := by
  rw [List.length_drop] at hout
  rw [copyLiterals, if_pos hlit, h.length_dst, h.dp_eq, if_pos (by omega)]

theorem Wrote.literals (h : Wrote init s out) {litLen : Nat} (hsp : s.sp ≤ src.length)
    (hin : ¬ (litLen > 0 ∧ (litLen > (src.drop s.sp).length ∨ out.length + litLen > init.length))) :
    ∃ s', copyLiterals src s litLen = some (.ok s') ∧ s'.sp = s.sp + litLen ∧ s'.sp ≤ src.length ∧
      Wrote init s' (out ++ (src.drop s.sp).take litLen) := by
  rw [List.length_drop] at hin
  unfold copyLiterals
  split
  · rename_i hlit
    have hlen : ((src.drop s.sp).take litLen).length = litLen := by
      rw [List.length_take, List.length_drop]
      omega
    have hcopy := copy?_behind ((src.drop s.sp).take litLen)
      (show out.length + _ ≤ init.length by omega)
    have hslice : slice src s.sp (s.sp + litLen) = (src.drop s.sp).take litLen := by
      rw [slice, Nat.add_sub_cancel_left]
    rw [hlen, ← h.dst_eq, ← h.dp_eq] at hcopy
    rw [h.length_dst, h.dp_eq, if_neg (by omega), slice?_eq (Nat.le_add_right _ _) (by omega), hslice]
    simp only [Option.bind_eq_bind, Option.bind_some, ← h.dp_eq, hcopy]
    refine ⟨_, rfl, rfl, by simp only; omega, rfl, ?_, ?_⟩
    · rw [h.dp_eq, List.length_append, hlen]
    · rw [List.length_append, hlen]
      omega
  · rename_i hlit
    obtain rfl : litLen = 0 := by omega
    exact ⟨s, rfl, rfl, hsp, by simpa using h⟩

/-- How a round of the loop and one on lists agree; the cursor has moved on from `sp`. -/
def Agrees (init src : Bytes) (sp : Nat) :
    Except Error (Bool × Decoder) → Except Error (Option Bytes × Bytes) → Prop
  | .error e, .error e' => e = e'
  | .ok (false, s), .ok (none, out) => Wrote init s out
  | .ok (true, s), .ok (some rest, out) =>
    Wrote init s out ∧ src.drop s.sp = rest ∧ sp < s.sp ∧ s.sp ≤ src.length
  | _, _ => False

theorem Agrees.cases {r : Except Error (Bool × Decoder)} {r' : Except Error (Option Bytes × Bytes)}
    (h : Agrees init src sp r r') :
    (∃ e, r = .error e ∧ r' = .error e) ∨
    (∃ s out, r = .ok (false, s) ∧ r' = .ok (none, out) ∧ Wrote init s out) ∨
    ∃ s out, r = .ok (true, s) ∧ r' = .ok (some (src.drop s.sp), out) ∧ Wrote init s out ∧
      sp < s.sp ∧ s.sp ≤ src.length := by
  rcases r with e | ⟨_ | _, s⟩ <;> rcases r' with e' | ⟨_ | rest, out⟩
  case error.error =>
    cases h
    exact .inl ⟨e, rfl, rfl⟩
  case ok.false.ok.none => exact .inr (.inl ⟨s, out, rfl, rfl, h⟩)
  case ok.true.ok.some =>
    obtain ⟨hwrote, rfl, hmoved, hin⟩ := h
    exact .inr (.inr ⟨s, out, rfl, rfl, hwrote, hmoved, hin⟩)
  all_goals cases h

theorem decodeMatch_agrees (h : Wrote init s out) (hsp : s.sp ≤ src.length) (token : UInt8)
    (offset : Nat) (hle : sp < s.sp) :
    ∃ r, decodeMatch src token offset s = some r ∧
      Agrees init src sp (r.map fun s => (true, s))
        (if offset = 0 then .error .corrupt
        else
          let (ml, rest) := Compress.readLen (token &&& 0x0F).toNat (src.drop s.sp)
          if offset > out.length ∨ out.length + (ml + minMatch) > init.length then .error .corrupt
          else .ok (some rest, Compress.copyMatch (ml + minMatch) out (out.length - offset))) := by
  unfold decodeMatch
  split
  · exact ⟨_, rfl, rfl⟩
  · rename_i hoffset
    obtain ⟨sp', hread, hrest, hle', hin⟩ := readLen_eq src (token &&& 0x0F).toNat hsp
    simp only [Option.bind_eq_bind, Option.bind_some, hread, hrest, h.dp_eq, h.length_dst]
    generalize (Compress.readLen (token &&& 0x0F).toNat (src.drop s.sp)).1 = ml
    by_cases hbad : offset > out.length ∨ out.length + (ml + minMatch) > init.length
    · rw [if_pos (hbad.imp_left fun hback => by omega), if_pos hbad]
      exact ⟨_, rfl, rfl⟩
    · have hgood : ¬ ((out.length : Int) - offset < 0 ∨
          out.length + (ml + minMatch) > init.length) := fun hneg =>
        hbad (hneg.imp_left fun hback => by omega)
      have hpos : ((out.length : Int) - offset).toNat = out.length - offset := by omega
      have hlen := length_copyMatch (ml + minMatch) out (out.length - offset)
      rw [if_neg hgood, if_neg hbad, hpos, h.dst_eq, copyMatch_eq init (by omega) (by omega),
        Option.bind_some]
      refine ⟨_, rfl, ⟨rfl, hlen.symm, by rw [hlen]; omega⟩, rfl, ?_, hin⟩
      exact Nat.lt_of_lt_of_le hle hle'

/-- A round of the loop does on the slices what the round of `Lz4.lean` does on lists. -/
theorem decodeSequence_agrees (h : Wrote init s out) (hsp : s.sp < src.length) :
    ∃ r, decodeSequence src s = some r ∧ Agrees init src s.sp r
      (Compress.decodeSequence init.length src[s.sp] (src.drop (s.sp + 1)) out) := by
  obtain ⟨sp, hread, hrest, hle, hin⟩ := readLen_eq src (src[s.sp] >>> 4).toNat
    (show s.sp + 1 ≤ src.length from hsp)
  unfold decodeSequence Compress.decodeSequence
  rw [List.getElem?_eq_getElem hsp]
  simp only [Option.bind_eq_bind, Option.bind_some, hread, hrest]
  generalize (Compress.readLen (src[s.sp] >>> 4).toNat (src.drop (s.sp + 1))).1 = litLen
  by_cases hcorrupt : litLen > 0 ∧
      (litLen > (src.drop sp).length ∨ out.length + litLen > init.length)
  · rw [(h.at sp).literals_corrupt hcorrupt.1 hcorrupt.2 hin, Option.bind_some, if_pos hcorrupt]
    exact ⟨_, rfl, rfl⟩
  · obtain ⟨s₁, hcopy, hsp₁, hin₁, h₁⟩ := (h.at sp).literals hin hcorrupt
    dsimp only at hsp₁ h₁
    have hdrop : (src.drop sp).drop litLen = src.drop s₁.sp := by rw [List.drop_drop, hsp₁]
    have hleft : (src.drop s₁.sp).length = src.length - s₁.sp := List.length_drop
    rw [hcopy, Option.bind_some, hdrop, if_neg hcorrupt]
    generalize out ++ (src.drop sp).take litLen = out₁ at h₁ ⊢
    dsimp only
    -- what is left behind the literals: nothing, half an offset, or an offset
    rcases hcase : src.drop s₁.sp with _ | ⟨lo, _ | ⟨hi, rest⟩⟩ <;> rw [hcase] at hleft
    · rw [if_pos (by rw [List.length_nil] at hleft; omega)]
      exact ⟨_, rfl, h₁⟩
    · rw [List.length_singleton] at hleft
      rw [if_neg (by omega), if_pos (by omega)]
      exact ⟨_, rfl, rfl⟩
    · simp only [List.length_cons] at hleft
      have hlo : src[s₁.sp]? = some lo := by
        rw [← List.head?_drop, hcase, List.head?_cons]
      have htail : src.drop (s₁.sp + 1) = hi :: rest := by
        rw [← List.drop_drop, hcase, List.drop_succ_cons, List.drop_zero]
      have hhi : src[s₁.sp + 1]? = some hi := by
        rw [← List.head?_drop, htail, List.head?_cons]
      have hrest₁ : rest = src.drop (s₁.sp + 2) := by
        rw [← List.drop_drop, hcase, List.drop_succ_cons, List.drop_succ_cons, List.drop_zero]
      rw [if_neg (by omega), if_neg (by omega), hlo, hhi]
      simp only [Option.bind_some]
      obtain ⟨r, hr, hagrees⟩ := decodeMatch_agrees (h₁.at (s₁.sp + 2))
        (show s₁.sp + 2 ≤ src.length by omega) src[s.sp] (lo.toNat ||| hi.toNat <<< 8)
        (show s.sp < s₁.sp + 2 by omega)
      rw [hr]
      refine ⟨_, rfl, ?_⟩
      rw [hrest₁]
      exact hagrees

/-- How the two loops agree at their end. -/
def Ends (init : Bytes) : Except Error Decoder → Except Error Bytes → Prop
  | .error e, .error e' => e = e'
  | .ok s, .ok out => Wrote init s out
  | _, _ => False

theorem Ends.cases {r : Except Error Decoder} {r' : Except Error Bytes} (h : Ends init r r') :
    (∃ e, r = .error e ∧ r' = .error e) ∨ ∃ s out, r = .ok s ∧ r' = .ok out ∧ Wrote init s out := by
  rcases r with e | s <;> rcases r' with e' | out
  case error.error =>
    cases h
    exact .inl ⟨e, rfl, rfl⟩
  case ok.ok => exact .inr ⟨s, out, rfl, rfl, h⟩
  all_goals cases h

/-- Induction on the fuel of the cursor loop: a round takes at least its token, so the lists need
no more fuel than there are bytes left. -/
theorem decodeLoop_ends : ∀ {fuel fuel' : Nat} {s : Decoder} {out : Bytes}, Wrote init s out →
    s.sp ≤ src.length → src.length - s.sp < fuel → src.length - s.sp ≤ fuel' →
    ∃ r, decodeLoop src fuel s = some r ∧
      Ends init r (Compress.decodeLoop init.length fuel' (src.drop s.sp) out)
  | 0, _, _, _, _, _, hfuel, _ => absurd hfuel (Nat.not_lt_zero _)
  | fuel + 1, fuel', s, out, h, hsp, hfuel, hfuel' => by
    unfold decodeLoop
    split
    · rename_i hlt
      obtain ⟨fuel', rfl⟩ : ∃ k, fuel' = k + 1 := ⟨fuel' - 1, by omega⟩
      obtain ⟨r, hr, hagrees⟩ := decodeSequence_agrees h hlt
      rw [hr, List.drop_eq_getElem_cons hlt, Compress.decodeLoop]
      simp only [Option.bind_eq_bind, Option.bind_some]
      rcases hagrees.cases with ⟨e, rfl, hlists⟩ | ⟨s', out', rfl, hlists, h'⟩ |
        ⟨s', out', rfl, hlists, h', hmoved, hin⟩
      all_goals rw [hlists]
      · exact ⟨_, rfl, rfl⟩
      · exact ⟨_, rfl, h'⟩
      · exact decodeLoop_ends h' hin (by omega) (by omega)
    · rename_i hend
      rw [List.drop_eq_nil_of_le (Nat.le_of_not_lt hend)]
      refine ⟨_, rfl, ?_⟩
      cases fuel' <;> exact h

/-- The decoder returns on any bytes, and leaves in the destination what `Lz4.lean` gives, in front
of what was behind it before. -/
theorem decompressBlock_eq (dst src : Bytes) :
    decompressBlock dst src = some ((Compress.decompressBlock dst.length src).map fun out =>
      (out.length, out ++ dst.drop out.length)) := by
  have hstart : Wrote dst ⟨dst, 0, 0⟩ [] := ⟨rfl, rfl, Nat.zero_le _⟩
  obtain ⟨r, hr, hends⟩ := decodeLoop_ends hstart (Nat.zero_le src.length)
    (Nat.lt_succ_self src.length) (Nat.le_refl src.length)
  rw [decompressBlock, hr, Compress.decompressBlock]
  rw [List.drop_zero] at hends
  rcases hends.cases with ⟨e, rfl, hlists⟩ | ⟨s, out, rfl, hlists, hwrote⟩
  · rw [hlists]
    rfl
  · rw [hlists, Option.map_some, Except.map, Except.map, hwrote.dst_eq, hwrote.dp_eq]

/-- `Decompress` gives the same with any buffer of the pool. -/
theorem decompress_eq (pooled : Option Bytes) (src : Bytes) :
    decompress pooled src = some (LZ4.decompress src) := by
  unfold decompress LZ4.decompress
  split
  · rfl
  · rename_i hlong
    have hlong := Nat.le_of_not_lt hlong
    rw [word?_eq (by omega)]
    have hword : wordAt src 0 sizePrefix = leNat (src.take sizePrefix) := by
      rw [wordAt, slice, List.drop_zero, Nat.zero_add, Nat.sub_zero]
    simp only [Option.bind_eq_bind, Option.bind_some, hword]
    generalize leNat (src.take sizePrefix) = origSize
    split
    · rfl
    · have hbuf := le_length_poolGet pooled origSize
      have hlen : ((poolGet pooled origSize).take origSize).length = origSize := by
        rw [List.length_take]
        omega
      rw [slice?_front hbuf, slice?_rest hlong]
      simp only [Option.bind_some, decompressBlock_eq, hlen]
      cases Compress.decompressBlock origSize (src.drop sizePrefix) with
      | error e => rfl
      | ok out =>
        simp only [Except.map]
        split
        · rfl
        · rename_i hfull
          rw [List.drop_eq_nil_of_le (by omega), List.append_nil]

/-- On any bytes the decoder stays in its slices and ends, and nothing of what it returns depends
on what was in its destination, be it given or out of the pool. -/
theorem decoder_safe_and_blind (src : Bytes) :
    (∀ dst, ∃ r, decompressBlock dst src = some r) ∧
    (∀ dst dst' : Bytes, dst.length = dst'.length →
      (decompressBlock dst src).map (fun r => r.map fun out => (out.1, out.2.take out.1)) =
        (decompressBlock dst' src).map fun r => r.map fun out => (out.1, out.2.take out.1)) ∧
    ∀ pooled pooled', ∃ r, decompress pooled src = some r ∧ decompress pooled' src = some r := by
  refine ⟨fun dst => ⟨_, decompressBlock_eq dst src⟩, fun dst dst' hlen => ?_, fun pooled pooled' =>
    ⟨_, decompress_eq pooled src, decompress_eq pooled' src⟩⟩
  rw [decompressBlock_eq, decompressBlock_eq, hlen]
  cases Compress.decompressBlock dst'.length src with
  | error e => rfl
  | ok out => simp [Except.map]

end Checked

end Horreum.Compress
