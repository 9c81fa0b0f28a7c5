/-
  Proto/Frame.lean --- frames of the wire protocol, `internal/proto/proto.go`.

  A frame is a header of ten bytes, a key and a value.  The encoders write one behind the
  contents of a destination slice, and `parseIn` reads one off the front of some bytes.

    magic (2)  op (1)  flags (1)  keyLen (2)  valLen (4)  key  value
-/
import Horreum.Foundation.Buffer
import Horreum.Foundation.Streaming

set_option autoImplicit false

namespace Horreum.Proto

open Foundation

/-- `HH` -/
def magic : Nat := 0x4848

/-- Magic, op, flags and the two lengths. -/
def headerSize : Nat := 10

/-- The limit of the parser. -/
def maxFrameSize : Nat := 64 * 2 ^ 20

/-- The operations. -/
inductive OpCode where
  | get | set | del | setEx | cas | incr | scan | delPrefix
  | hSet | hGet | hDel | hGetAll
  | lPush | lPop | rPush | rPop | lLen
  | sAdd | sRem | sIsMember | sMembers
  deriving DecidableEq, Repr

/-- Their codes. -/
def OpCode.code : OpCode → UInt8
  | .get => 1
  | .set => 2
  | .del => 3
  | .setEx => 4
  | .cas => 5
  | .incr => 6
  | .scan => 7
  | .delPrefix => 8
  | .hSet => 9
  | .hGet => 10
  | .hDel => 11
  | .hGetAll => 12
  | .lPush => 13
  | .lPop => 14
  | .rPush => 15
  | .rPop => 16
  | .lLen => 17
  | .sAdd => 18
  | .sRem => 19
  | .sIsMember => 20
  | .sMembers => 21

/-- Every operation. -/
def OpCode.all : List OpCode :=
  [.get, .set, .del, .setEx, .cas, .incr, .scan, .delPrefix, .hSet, .hGet, .hDel, .hGetAll,
    .lPush, .lPop, .rPush, .rPop, .lLen, .sAdd, .sRem, .sIsMember, .sMembers]

/-- The switch of `parseIn`. -/
def OpCode.ofCode (b : UInt8) : Option OpCode := OpCode.all.find? fun op => op.code == b

theorem OpCode.ofCode_code (op : OpCode) : OpCode.ofCode op.code = some op := by
  cases op <;> rfl

/-- The errors of the parser; `shortBuffer` is `io.ErrShortBuffer`, which `Feed` keeps to
itself. -/
inductive ParseError where
  | shortBuffer
  | badMagic
  | unknownOp
  | frameTooLarge
  deriving DecidableEq, Repr

/-- A decoded frame. -/
structure Frame where
  op : OpCode
  flags : UInt8
  key : Bytes
  value : Bytes
  deriving DecidableEq, Repr

/-- `headerSize + len(f.Key) + len(f.Value)` -/
def Frame.size (f : Frame) : Nat := headerSize + f.key.length + f.value.length

/-! ## Reading -/

/-- The frame at the front of the bytes. -/
def parseIn (work : Bytes) : Except ParseError Frame :=
  if work.length < headerSize then .error .shortBuffer
  else if wordAt work 0 2 ≠ magic then .error .badMagic
  else
    let op := work.getD 2 0
    let flags := work.getD 3 0
    let keyLen := wordAt work 4 2
    let valLen := wordAt work 6 4
    let total := headerSize + keyLen + valLen
    if total > maxFrameSize then .error .frameTooLarge
    else if work.length < total then .error .shortBuffer
    else
      match OpCode.ofCode op with
      | none => .error .unknownOp
      | some opc => .ok {
          op := opc
          flags := flags
          key := slice work headerSize (headerSize + keyLen)
          value := slice work (headerSize + keyLen) total }

theorem wordAt_append_left {a : Bytes} (b : Bytes) {off w : Nat} (h : off + w ≤ a.length) :
    wordAt (a ++ b) off w = wordAt a off w := by
  rw [wordAt, wordAt, slice_append_left (Nat.le_add_right _ _) h]

theorem getD_append_left {a : Bytes} (b : Bytes) {i : Nat} (h : i < a.length) :
    (a ++ b).getD i 0 = a.getD i 0 := by
  rw [List.getD_eq_getElem?_getD, List.getD_eq_getElem?_getD, List.getElem?_append_left h]

variable {work : Bytes} {f : Frame}

/-- A verdict other than "short" does not depend on what comes behind. -/
theorem parseIn_append (rest : Bytes) (h : parseIn work ≠ .error .shortBuffer) :
    parseIn (work ++ rest) = parseIn work := by
  by_cases hhdr : work.length < headerSize
  · exact absurd (if_pos hhdr) h
  have hlen : 10 ≤ work.length := Nat.le_of_not_lt hhdr
  have hhdr' : ¬ (work ++ rest).length < headerSize := by
    rw [List.length_append]
    omega
  unfold parseIn at h ⊢
  simp only [if_neg hhdr, if_neg hhdr', wordAt_append_left rest (show 0 + 2 ≤ work.length by omega),
    wordAt_append_left rest (show 4 + 2 ≤ work.length by omega),
    wordAt_append_left rest (show 6 + 4 ≤ work.length by omega),
    getD_append_left rest (show 2 < work.length by omega),
    getD_append_left rest (show 3 < work.length by omega)] at h ⊢
  by_cases hmagic : wordAt work 0 2 ≠ magic
  · rw [if_pos hmagic, if_pos hmagic]
  rw [if_neg hmagic] at h ⊢
  rw [if_neg hmagic]
  by_cases hbig : headerSize + wordAt work 4 2 + wordAt work 6 4 > maxFrameSize
  · rw [if_pos hbig, if_pos hbig]
  rw [if_neg hbig] at h ⊢
  rw [if_neg hbig]
  by_cases hshort : work.length < headerSize + wordAt work 4 2 + wordAt work 6 4
  · exact absurd (if_pos hshort) h
  have hfit := Nat.le_of_not_lt hshort
  have hshort' : ¬ (work ++ rest).length < headerSize + wordAt work 4 2 + wordAt work 6 4 := by
    rw [List.length_append]
    omega
  rw [if_neg hshort, if_neg hshort', slice_append_left (Nat.le_add_right _ _) (by omega),
    slice_append_left (Nat.le_add_right _ _) hfit]

theorem parseIn_ok (h : parseIn work = .ok f) :
    f.size ≤ work.length ∧ f.key = slice work headerSize (headerSize + f.key.length) ∧
      f.value = slice work (headerSize + f.key.length) f.size := by
  unfold parseIn at h
  split at h
  · cases h
  · split at h
    · cases h
    · simp only at h
      split at h
      · cases h
      · split at h
        · cases h
        · rename_i hshort
          have hfit := Nat.le_of_not_lt hshort
          split at h
          · cases h
          · cases h
            have hkey : (slice work headerSize (headerSize + wordAt work 4 2)).length =
                wordAt work 4 2 := by
              rw [slice_length (Nat.le_add_right _ _) (by omega), Nat.add_sub_cancel_left]
            have hval : (slice work (headerSize + wordAt work 4 2)
                (headerSize + wordAt work 4 2 + wordAt work 6 4)).length = wordAt work 6 4 := by
              rw [slice_length (Nat.le_add_right _ _) hfit, Nat.add_sub_cancel_left]
            simp only [Frame.size, hkey, hval]
            exact ⟨hfit, trivial, trivial⟩

/-- What is read keeps to the limits. -/
theorem parseIn_limits (h : parseIn work = .ok f) :
    f.key.length < 2 ^ 16 ∧ f.size ≤ maxFrameSize := by
  unfold parseIn at h
  split at h
  · cases h
  · split at h
    · cases h
    · simp only at h
      split at h
      · cases h
      · rename_i hbig
        split at h
        · cases h
        · split at h
          · cases h
          · cases h
            have hword : wordAt work 4 2 < 2 ^ 16 := wordAt_lt work 4 2
            simp only [Frame.size, slice, List.length_take, List.length_drop]
            omega

/-- The parser as a reader of streams. -/
def reader : Streaming.Reader UInt8 ParseError Frame where
  next work :=
    match parseIn work with
    | .ok f => .item f
    | .error .shortBuffer => .short
    | .error e => .fault e
  size := Frame.size
  size_pos f := by
    simp only [Frame.size, headerSize]
    omega
  size_le := by
    intro w f h
    split at h <;> cases h
    rename_i hp
    exact (parseIn_ok hp).1
  item_append := by
    intro w f v h
    rw [parseIn_append v (fun hshort => by rw [hshort] at h; cases h)]
    exact h
  fault_append := by
    intro w e v h
    rw [parseIn_append v (fun hshort => by rw [hshort] at h; cases h)]
    exact h

@[simp] theorem reader_size (f : Frame) : reader.size f = f.size := rfl

/-! ## Writing -/

/-- What the encoders share: make room, then write header, key and the parts of the value. -/
def encodeFrame (dst : Buffer) (op flags : UInt8) (key : Bytes) (valLen : Nat)
    (value : List Bytes) : Buffer :=
  let need := headerSize + key.length + valLen
  let dst := dst.reserve need
  (dst.extend need).copyParts dst.len
    ([leBytes 2 magic, [op], [flags], leBytes 2 key.length, leBytes 4 valLen, key] ++ value)

/-- `EncodeRequest` -/
def encodeRequest (dst : Buffer) (op : OpCode) (key value : Bytes) : Buffer :=
  encodeFrame dst op.code 0 key value.length [value]

/-- `EncodeSetEx` -/
def encodeSetEx (dst : Buffer) (key value : Bytes) (ttlSeconds : UInt32) : Buffer :=
  encodeFrame dst OpCode.setEx.code 0 key (4 + value.length) [leBytes 4 ttlSeconds.toNat, value]

/-- `EncodeCAS` -/
def encodeCAS (dst : Buffer) (key expectedValue newValue : Bytes) : Buffer :=
  encodeFrame dst OpCode.cas.code 0 key (4 + expectedValue.length + newValue.length)
    [leBytes 4 expectedValue.length, expectedValue, newValue]

/-- `EncodeIncr` -/
def encodeIncr (dst : Buffer) (key : Bytes) (delta : Int64) : Buffer :=
  encodeFrame dst OpCode.incr.code 0 key 8 [leBytes 8 delta.toUInt64.toNat]

/-- `EncodeScan` -/
def encodeScan (dst : Buffer) (pre : Bytes) (cursor : UInt64) (count : UInt32) : Buffer :=
  encodeFrame dst OpCode.scan.code 0 pre 12 [leBytes 8 cursor.toNat, leBytes 4 count.toNat]

/-- `EncodeDelPrefix` -/
def encodeDelPrefix (dst : Buffer) (pre : Bytes) : Buffer :=
  encodeFrame dst OpCode.delPrefix.code 0 pre 0 []

/-- `EncodeResponse`: the status stands in the flags. -/
def encodeResponse (dst : Buffer) (op : OpCode) (status : UInt8) (key value : Bytes) : Buffer :=
  encodeFrame dst op.code status key value.length [value]

/-- The bytes of a frame. -/
def Frame.bytes (f : Frame) : Bytes :=
  leBytes 2 magic ++ ([f.op.code] ++ ([f.flags] ++ (leBytes 2 f.key.length ++
    (leBytes 4 f.value.length ++ (f.key ++ f.value)))))

/-- The encoders append the bytes of a frame to what was there. -/
theorem contents_encodeFrame (dst : Buffer) (f : Frame) {value : List Bytes}
    (hvalue : value.flatten = f.value) :
    (encodeFrame dst f.op.code f.flags f.key f.value.length value).contents =
      dst.contents ++ f.bytes := by
  obtain ⟨hsame, hroom⟩ := dst.reserve_spec (headerSize + f.key.length + f.value.length)
  have hparts : ([leBytes 2 magic, [f.op.code], [f.flags], leBytes 2 f.key.length,
      leBytes 4 f.value.length, f.key] ++ value).flatten = f.bytes := by
    simp [Frame.bytes, hvalue]
  have hlen : f.bytes.length = headerSize + f.key.length + f.value.length := by
    simp only [Frame.bytes, List.length_append, leBytes_length, List.length_singleton, headerSize]
    omega
  have happend := Buffer.contents_extend_copyParts
    (dst.reserve (headerSize + f.key.length + f.value.length))
    ([leBytes 2 magic, [f.op.code], [f.flags], leBytes 2 f.key.length, leBytes 4 f.value.length,
      f.key] ++ value)
  rw [hparts, hlen, hsame] at happend
  exact happend hroom

/-- The header of a frame, up to the key. -/
def Frame.header (f : Frame) : Bytes :=
  leBytes 2 magic ++ ([f.op.code] ++ ([f.flags] ++ (leBytes 2 f.key.length ++
    leBytes 4 f.value.length)))

theorem Frame.length_header (f : Frame) : f.header.length = headerSize := by
  simp [Frame.header, headerSize]

theorem Frame.bytes_eq (f : Frame) (rest : Bytes) :
    f.bytes ++ rest = f.header ++ (f.key ++ (f.value ++ rest)) := by
  simp [Frame.bytes, Frame.header]

theorem header_fields (f : Frame) (rest : Bytes) :
    wordAt (f.header ++ rest) 0 2 = magic ∧ (f.header ++ rest).getD 2 0 = f.op.code ∧
      (f.header ++ rest).getD 3 0 = f.flags ∧
      wordAt (f.header ++ rest) 4 2 = f.key.length % 2 ^ 16 ∧
      wordAt (f.header ++ rest) 6 4 = f.value.length % 2 ^ 32 := by
  have hat0 : f.header ++ rest = [] ++ (leBytes 2 magic ++ (f.op.code :: f.flags ::
      (leBytes 2 f.key.length ++ (leBytes 4 f.value.length ++ rest)))) := by simp [Frame.header]
  have hat2 : f.header ++ rest = leBytes 2 magic ++ (f.op.code :: f.flags ::
      (leBytes 2 f.key.length ++ (leBytes 4 f.value.length ++ rest))) := by simp [Frame.header]
  have hat3 : f.header ++ rest = (leBytes 2 magic ++ [f.op.code]) ++ (f.flags ::
      (leBytes 2 f.key.length ++ (leBytes 4 f.value.length ++ rest))) := by simp [Frame.header]
  have hat4 : f.header ++ rest = (leBytes 2 magic ++ [f.op.code, f.flags]) ++
      (leBytes 2 f.key.length ++ (leBytes 4 f.value.length ++ rest)) := by simp [Frame.header]
  have hat6 : f.header ++ rest = (leBytes 2 magic ++ [f.op.code, f.flags] ++
      leBytes 2 f.key.length) ++ (leBytes 4 f.value.length ++ rest) := by simp [Frame.header]
  refine ⟨?_, ?_, ?_, ?_, ?_⟩
  · rw [hat0, wordAt_append 2 magic List.length_nil]
    rfl
  · rw [hat2, getD_append _ _ (leBytes_length 2 magic)]
  · rw [hat3, getD_append _ _ (by simp)]
  · rw [hat4, wordAt_append 2 _ (by simp)]
    rfl
  · rw [hat6, wordAt_append 4 _ (by simp)]
    rfl

/-- A frame within the limits is read back from in front of anything. -/
theorem parseIn_bytes (hkey : f.key.length < 2 ^ 16) (hsize : f.size ≤ maxFrameSize)
    (rest : Bytes) : parseIn (f.bytes ++ rest) = .ok f := by
  obtain ⟨hmagic, hop, hflags, hkeyLen, hvalLen⟩ := header_fields f (f.key ++ (f.value ++ rest))
  have hhdr := f.length_header
  simp only [Frame.size] at hsize
  have hval : f.value.length < 2 ^ 32 := by
    simp only [maxFrameSize] at hsize
    omega
  rw [Nat.mod_eq_of_lt hkey] at hkeyLen
  rw [Nat.mod_eq_of_lt hval] at hvalLen
  rw [Frame.bytes_eq]
  have hlen : (f.header ++ (f.key ++ (f.value ++ rest))).length =
      headerSize + f.key.length + f.value.length + rest.length := by
    simp only [List.length_append, hhdr]
    omega
  have hslice : slice (f.header ++ (f.key ++ (f.value ++ rest))) headerSize
      (headerSize + f.key.length) = f.key := slice_append hhdr rfl
  have hslice' : slice (f.header ++ (f.key ++ (f.value ++ rest))) (headerSize + f.key.length)
      (headerSize + f.key.length + f.value.length) = f.value := by
    rw [← List.append_assoc]
    exact slice_append (by rw [List.length_append, hhdr]) rfl
  rw [parseIn, if_neg (by omega), if_neg (not_not.mpr hmagic)]
  simp only [hop, hflags, hkeyLen, hvalLen, OpCode.ofCode_code, hslice, hslice']
  rw [if_neg (by omega), if_neg (by omega)]

theorem Frame.length_bytes (f : Frame) : f.bytes.length = f.size := by
  have hsplit := f.bytes_eq []
  rw [List.append_nil, List.append_nil] at hsplit
  rw [hsplit, List.length_append, List.length_append, f.length_header, Frame.size, Nat.add_assoc]

/-- Frames within the limits that stand one behind the other are all read, with nothing left. -/
theorem readAll_bytes (fs : List Frame)
    (hfit : ∀ f ∈ fs, f.key.length < 2 ^ 16 ∧ f.size ≤ maxFrameSize) :
    reader.readAll (fs.flatMap Frame.bytes) = (fs, .ok []) := by
  induction fs with
  | nil => rfl
  | cons f fs ih =>
    obtain ⟨hkey, hsize⟩ := hfit f List.mem_cons_self
    have hnext : reader.next (f.bytes ++ fs.flatMap Frame.bytes) = .item f := by
      simp only [reader, parseIn_bytes hkey hsize]
    rw [List.flatMap_cons, Streaming.Reader.readAll_of_item hnext, reader_size,
      List.drop_left' f.length_bytes, ih fun f' hf' => hfit f' (List.mem_cons_of_mem _ hf')]

end Horreum.Proto
