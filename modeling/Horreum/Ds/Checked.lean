/-
  Ds/Checked.lean --- the functions of `internal/ds`, access by access.

  The count and the length fields of a payload, which can be anything, drive the loops and the sizes
  of the buffers.  `none` is where Go would panic.  `Payload.lean` has the same functions on values;
  each of those here returns, and gives what the one there gives.
-/
import Horreum.Ds.Payload
import Horreum.Foundation.Slicing

set_option autoImplicit false

namespace Horreum.Ds

open Foundation

/-- A part `raw[lo:hi]` of a payload. -/
structure Span where
  lo : Nat
  hi : Nat
  deriving DecidableEq, Repr

/-- The bytes of a part. -/
def Span.bytes (raw : Bytes) (s : Span) : Bytes := slice raw s.lo s.hi

/-- A part that lies in the payload. -/
def Span.Within (raw : Bytes) (s : Span) : Prop := s.lo ≤ s.hi ∧ s.hi ≤ raw.length

/-- Parts of a payload, and the capacity that was asked for with `make` before any was found. -/
structure Listing (α : Type) where
  request : Option Nat
  items : List α
  deriving DecidableEq, Repr

/-- The new payload and the element that was taken. -/
structure Taken where
  newRaw : Bytes
  popped : Span
  deriving DecidableEq, Repr

/-- The same with the bytes of the element. -/
def Taken.value (raw : Bytes) (t : Taken) : Popped := ⟨t.newRaw, t.popped.lo, t.popped.bytes raw⟩

namespace Checked

/-- The count, where the payload is long enough for one. -/
def payloadCount (raw : Bytes) : Option Nat := word? raw 0 4

/-- `raw` without the bytes from `start` to `stop`, and with another count. -/
def without (raw : Bytes) (start stop count : Nat) : Option Bytes := do
  let newBuf ← make? (raw.length - (stop - start : Int))
  let newBuf ← copy? newBuf 0 start (← slice? raw 0 start)
  let newBuf ← copy? newBuf start newBuf.length (← slice? raw stop raw.length)
  putWord? newBuf 0 4 count

/-! ## Hash -/

/-- The record at `off` with its field; the inner `none` is a record that is not complete. -/
def fieldAt (raw : Bytes) (off : Nat) : Option (Option (FieldSpan × Bytes)) :=
  let start := off
  if off + 2 > raw.length then some none
  else do
    let flen ← word? raw off 2
    let off := off + 2
    if off + flen > raw.length then some none
    else do
      let f ← slice? raw off (off + flen)
      let off := off + flen
      if off + 4 > raw.length then some none
      else do
        let vlen ← word? raw off 4
        let off := off + 4
        if off + vlen > raw.length then some none
        else do
          -- only `HGet` and `HGetAll` take the slice of the value
          let _ ← slice? raw off (off + vlen)
          some (some (⟨start, flen, vlen⟩, f))

/-- The search for a field, with its reads checked. -/
def findField (raw field : Bytes) : (count off : Nat) → Option (Option FieldSpan)
  | 0, _ => some none
  | count + 1, off => do
    match ← fieldAt raw off with
    | none => some none
    | some (span, f) =>
      if f = field then some (some span) else findField raw field count span.stop

/-- `HSet` on a payload without a count. -/
def newHash (field value : Bytes) : Option Bytes := do
  let hdr ← make? (4 + 2 + field.length + 4 + value.length)
  let hdr ← putWord? hdr 0 4 1
  let hdr ← putWord? hdr 4 2 field.length
  let hdr ← copy? hdr 6 (6 + field.length) field
  let valOff := 6 + field.length
  let hdr ← putWord? hdr valOff 4 value.length
  copy? hdr (valOff + 4) hdr.length value

/-- `HSet` of a field that is not there. -/
def appendField (raw field value : Bytes) (count : Nat) : Option Bytes := do
  let newBuf ← make? (raw.length + 2 + field.length + 4 + value.length)
  let newBuf ← copy? newBuf 0 newBuf.length raw
  let newBuf ← putWord? newBuf 0 4 (count + 1)
  let appendOff := raw.length
  let newBuf ← putWord? newBuf appendOff 2 field.length
  let newBuf ← copy? newBuf (appendOff + 2) (appendOff + 2 + field.length) field
  let valOff := appendOff + 2 + field.length
  let newBuf ← putWord? newBuf valOff 4 value.length
  copy? newBuf (valOff + 4) newBuf.length value

/-- `HSet` of a field that is there: in place, or with another length. -/
def replaceValue (raw value : Bytes) (vOff vlen : Nat) : Option HSetResult :=
  if vlen = value.length then
    (copy? raw vOff (vOff + vlen) value).map fun raw => ⟨raw, false, some vOff⟩
  else do
    -- an empty buffer of this capacity, and what is appended to it
    let _ ← make? (raw.length - vlen + value.length)
    let front ← slice? raw 0 (vOff - 4)
    let rest ← slice? raw (vOff + vlen) raw.length
    some ⟨front ++ leBytes 4 value.length ++ value ++ rest, false, none⟩

/-- `HSet`, checked. -/
def hSet (raw field value : Bytes) : Option HSetResult :=
  if raw.length < 4 then (newHash field value).map fun hdr => ⟨hdr, true, none⟩
  else do
    let count ← payloadCount raw
    match ← findField raw field count 4 with
    | some f => replaceValue raw value f.valOff f.vlen
    | none => (appendField raw field value count).map fun newBuf => ⟨newBuf, true, none⟩

/-- `HGet`, checked: where the value is. -/
def hGet (raw field : Bytes) : Option (Option Span) :=
  if raw.length < 4 then some none
  else do
    let count ← payloadCount raw
    let found ← findField raw field count 4
    some (found.map fun f => ⟨f.valOff, f.stop⟩)

/-- `HDel`, checked. -/
def hDel (raw field : Bytes) : Option (Option Bytes) :=
  if raw.length < 4 then some none
  else do
    let count ← payloadCount raw
    match ← findField raw field count 4 with
    | none => some none
    | some f =>
      if count = 1 then some (some [])
      else (without raw f.start f.valOff (count - 1)).map some

/-- The loop of `HGetAll`. -/
def hGetAllFrom (raw : Bytes) : (count off : Nat) → Option (List (Span × Span))
  | 0, _ => some []
  | count + 1, off => do
    match ← fieldAt raw off with
    | none => some []
    | some (f, _) =>
      (hGetAllFrom raw count f.stop).map fun rest =>
        (⟨f.fieldOff, f.fieldOff + f.flen⟩, ⟨f.valOff, f.stop⟩) :: rest

/-- Two slices are made, both for `count` parts. -/
def hGetAll (raw : Bytes) : Option (Listing (Span × Span)) :=
  if raw.length < 4 then some ⟨none, []⟩
  else do
    let count ← payloadCount raw
    (hGetAllFrom raw count 4).map fun items => ⟨some count, items⟩

/-! ## List -/

/-- `LPush`, checked. -/
def lPush (raw elem : Bytes) : Option Bytes := do
  let count ← (if raw.length ≥ 4 then payloadCount raw else some 0)
  let body ← (if raw.length ≥ 4 then slice? raw 4 raw.length else some [])
  let newBuf ← make? (4 + 4 + elem.length + body.length)
  let newBuf ← putWord? newBuf 0 4 (count + 1)
  let newBuf ← putWord? newBuf 4 4 elem.length
  let newBuf ← copy? newBuf 8 (8 + elem.length) elem
  copy? newBuf (8 + elem.length) newBuf.length body

/-- For a payload without a count the buffer is too short for the reslice. -/
def rPush (raw elem : Bytes) : Option Bytes := do
  let count ← (if raw.length ≥ 4 then payloadCount raw else some 0)
  let newBuf ← make? (raw.length + 4 + elem.length)
  let newBuf ← (if raw.length ≥ 4 then copy? newBuf 0 newBuf.length raw
    else slice? newBuf 0 (4 + 4 + elem.length))
  let newBuf ← putWord? newBuf 0 4 (count + 1)
  let appendOff := if raw.length < 4 then 4 else raw.length
  let newBuf ← putWord? newBuf appendOff 4 elem.length
  copy? newBuf (appendOff + 4) newBuf.length elem

/-- `LPop`, checked. -/
def lPop (raw : Bytes) : Option (Option Taken) :=
  if raw.length < 8 then some none
  else do
    let count ← payloadCount raw
    if count = 0 then some none
    else do
      let firstLen ← word? raw 4 4
      if 8 + firstLen > raw.length then some none
      else do
        let _ ← slice? raw 8 (8 + firstLen)
        let popped : Span := ⟨8, 8 + firstLen⟩
        if count = 1 then some (some ⟨[], popped⟩)
        else do
          let remainingBody ← slice? raw (8 + firstLen) raw.length
          let newRaw ← make? (4 + remainingBody.length)
          let newRaw ← putWord? newRaw 0 4 (count - 1)
          let newRaw ← copy? newRaw 4 newRaw.length remainingBody
          some (some ⟨newRaw, popped⟩)

/-- The walk to the last element. -/
def lastElem (raw : Bytes) : (count off : Nat) → (last : Nat × Nat) → Option (Option (Nat × Nat))
  | 0, _, last => some (some last)
  | count + 1, off, _ =>
    if off + 4 > raw.length then some none
    else do
      let lastLen ← word? raw off 4
      if off + 4 + lastLen > raw.length then some none
      else lastElem raw count (off + 4 + lastLen) (off, lastLen)

/-- `RPop`, checked. -/
def rPop (raw : Bytes) : Option (Option Taken) :=
  if raw.length < 8 then some none
  else do
    let count ← payloadCount raw
    if count = 0 then some none
    else do
      match ← lastElem raw count 4 (0, 0) with
      | none => some none
      | some (lastStartOff, lastLen) => do
        let _ ← slice? raw (lastStartOff + 4) (lastStartOff + 4 + lastLen)
        let popped : Span := ⟨lastStartOff + 4, lastStartOff + 4 + lastLen⟩
        if count = 1 then some (some ⟨[], popped⟩)
        else do
          let newRaw ← make? lastStartOff
          let newRaw ← copy? newRaw 0 newRaw.length (← slice? raw 0 lastStartOff)
          let newRaw ← putWord? newRaw 0 4 (count - 1)
          some (some ⟨newRaw, popped⟩)

/-- `LLen`, checked. -/
def lLen (raw : Bytes) : Option Nat := if raw.length < 4 then some 0 else payloadCount raw

/-! ## Set -/

/-- The member at `off` and its length; the inner `none` is one that is not complete. -/
def memberAt (raw : Bytes) (off : Nat) : Option (Option (Nat × Bytes)) :=
  if off + 2 > raw.length then some none
  else do
    let mlen ← word? raw off 2
    if off + 2 + mlen > raw.length then some none
    else do
      let m ← slice? raw (off + 2) (off + 2 + mlen)
      some (some (mlen, m))

/-- The search for a member. -/
def findMember (raw member : Bytes) : (count off : Nat) → Option (Option (Nat × Nat))
  | 0, _ => some none
  | count + 1, off => do
    match ← memberAt raw off with
    | none => some none
    | some (mlen, m) =>
      if m = member then some (some (off, mlen))
      else findMember raw member count (off + 2 + mlen)

/-- `SAdd` on a payload without a count. -/
def newSet (member : Bytes) : Option Bytes := do
  let newBuf ← make? (4 + 2 + member.length)
  let newBuf ← putWord? newBuf 0 4 1
  let newBuf ← putWord? newBuf 4 2 member.length
  copy? newBuf 6 newBuf.length member

/-- `SAdd` of a member that is not there. -/
def appendMember (raw member : Bytes) (count : Nat) : Option Bytes := do
  let newBuf ← make? (raw.length + 2 + member.length)
  let newBuf ← copy? newBuf 0 newBuf.length raw
  let newBuf ← putWord? newBuf 0 4 (count + 1)
  let appendOff := raw.length
  let newBuf ← putWord? newBuf appendOff 2 member.length
  copy? newBuf (appendOff + 2) newBuf.length member

/-- `SAdd`, checked. -/
def sAdd (raw member : Bytes) : Option (Bytes × Bool) :=
  if raw.length < 4 then (newSet member).map fun newBuf => (newBuf, true)
  else do
    let count ← payloadCount raw
    match ← findMember raw member count 4 with
    | some _ => some (raw, false)
    | none => (appendMember raw member count).map fun newBuf => (newBuf, true)

/-- `SRem`, checked. -/
def sRem (raw member : Bytes) : Option (Option Bytes) :=
  if raw.length < 4 then some none
  else do
    let count ← payloadCount raw
    match ← findMember raw member count 4 with
    | none => some none
    | some (off, mlen) =>
      if count = 1 then some (some [])
      else (without raw off (off + 2 + mlen) (count - 1)).map some

/-- `SIsMember`, checked. -/
def sIsMember (raw member : Bytes) : Option Bool :=
  if raw.length < 4 then some false
  else do
    let count ← payloadCount raw
    let found ← findMember raw member count 4
    some found.isSome

/-- The loop of `SMembers`. -/
def sMembersFrom (raw : Bytes) : (count off : Nat) → Option (List Span)
  | 0, _ => some []
  | count + 1, off => do
    match ← memberAt raw off with
    | none => some []
    | some (mlen, _) =>
      (sMembersFrom raw count (off + 2 + mlen)).map fun rest =>
        ⟨off + 2, off + 2 + mlen⟩ :: rest

/-- `SMembers`, checked: the count and where the members are. -/
def sMembers (raw : Bytes) : Option (Listing Span) :=
  if raw.length < 4 then some ⟨none, []⟩
  else do
    let count ← payloadCount raw
    (sMembersFrom raw count 4).map fun items => ⟨some count, items⟩

/-! ## Buffers -/

variable {raw field value member elem : Bytes} {start stop count : Nat}

theorem payloadCount_eq (h : 4 ≤ raw.length) : payloadCount raw = some (Ds.payloadCount raw) :=
  word?_eq (by omega)

theorem without_eq (hfour : 4 ≤ start) (hle : start ≤ stop) (hstop : stop ≤ raw.length) :
    without raw start stop count =
      some (withCount (raw.take start ++ raw.drop stop) count) := by
  have hfront : (raw.take start).length = start := by
    rw [List.length_take]
    omega
  have hrest : (raw.drop stop).length = raw.length - stop := List.length_drop
  have hsize : (raw.length - (stop - start : Int)) = (start + (raw.length - stop) : Nat) := by omega
  rw [without, make?_filled hsize, slice?_front (by omega)]
  simp only [Option.bind_eq_bind, Option.bind_some]
  rw [copy?_filled List.length_nil (by omega) (by omega), slice?_rest hstop]
  simp only [Option.bind_some, List.nil_append]
  rw [copy?_last hfront (by omega), Option.bind_some,
    putWord?_front (by rw [List.length_append]; omega), withCount]

/-- The payload in a longer buffer, with another count. -/
theorem recount_eq (hlen : 4 ≤ raw.length) (k n : Nat) :
    (copy? (filled [] (raw.length + k)) 0 (filled [] (raw.length + k)).length raw).bind
      (putWord? · 0 4 n) = some (filled (leBytes 4 n ++ raw.drop 4) k) := by
  rw [copy?_filled List.length_nil (by rw [length_filled]; omega) (by rw [length_filled]; simp),
    Option.bind_some, List.nil_append, Nat.add_sub_cancel_left, putWord?_filled_front hlen]

theorem length_recounted (hlen : 4 ≤ raw.length) (n : Nat) :
    (leBytes 4 n ++ raw.drop 4).length = raw.length := by
  rw [List.length_append, leBytes_length, List.length_drop]
  omega

theorem newHash_eq (field value : Bytes) :
    newHash field value = some (leBytes 4 1 ++ fieldRecord field value) := by
  have hsize : (4 + 2 + field.length + 4 + value.length : Int) =
      (4 + (2 + (field.length + (4 + value.length))) : Nat) := by omega
  rw [newHash, make?_filled hsize]
  simp only [Option.bind_eq_bind, Option.bind_some]
  rw [putWord?_filled List.length_nil (by omega), Option.bind_some,
    putWord?_filled (by simp) (by omega), Option.bind_some,
    copy?_filled (by simp) (by omega) (by omega), Option.bind_some,
    putWord?_filled (by simp; omega) (by omega), Option.bind_some,
    copy?_last (by simp; omega) (by omega)]
  simp [fieldRecord]

theorem appendField_eq (hlen : 4 ≤ raw.length) :
    appendField raw field value count =
      some (withCount raw (count + 1) ++ fieldRecord field value) := by
  have hsize : (raw.length + 2 + field.length + 4 + value.length : Int) =
      (raw.length + (2 + (field.length + (4 + value.length))) : Nat) := by omega
  have hcounted := length_recounted hlen (count + 1)
  rw [appendField, make?_filled hsize]
  simp only [Option.bind_eq_bind, Option.bind_some]
  rw [← Option.bind_assoc, recount_eq hlen, Option.bind_some, putWord?_filled hcounted (by omega),
    Option.bind_some,
    copy?_filled (by rw [List.length_append, hcounted, leBytes_length]) (by omega) (by omega),
    Option.bind_some,
    putWord?_filled (by simp only [List.length_append, hcounted, leBytes_length]) (by omega),
    Option.bind_some,
    copy?_last (by simp only [List.length_append, hcounted, leBytes_length]) (by omega)]
  simp [withCount, fieldRecord]

/-- `replaceValue` for a record that is in the payload. -/
theorem replaceValue_eq {vOff vlen : Nat} (hstop : vOff + vlen ≤ raw.length) :
    replaceValue raw value vOff vlen =
      some (if vlen = value.length then
        ⟨raw.take vOff ++ value ++ raw.drop (vOff + vlen), false, some vOff⟩
      else ⟨raw.take (vOff - 4) ++ leBytes 4 value.length ++ value ++ raw.drop (vOff + vlen),
        false, none⟩) := by
  unfold replaceValue
  split
  · rename_i hsame
    have hall : value.take (vOff + vlen - vOff) = value :=
      List.take_of_length_le (by omega)
    have hpad : vOff - raw.length = 0 := by omega
    rw [copy?, if_pos ⟨by omega, hstop⟩, hall, overwrite, hpad, hsame]
    simp
  · have hsize : (raw.length - vlen + value.length : Int) =
        (raw.length - vlen + value.length : Nat) := by omega
    rw [make?_filled hsize, slice?_front (by omega), slice?_rest hstop]
    rfl

theorem newSet_eq (member : Bytes) :
    newSet member = some (leBytes 4 1 ++ memberRecord member) := by
  have hsize : (4 + 2 + member.length : Int) = (4 + (2 + member.length) : Nat) := by omega
  rw [newSet, make?_filled hsize]
  simp only [Option.bind_eq_bind, Option.bind_some]
  rw [putWord?_filled List.length_nil (by omega), Option.bind_some,
    putWord?_filled (by simp) (by omega), Option.bind_some, copy?_last (by simp) (by omega)]
  simp [memberRecord]

theorem appendMember_eq (hlen : 4 ≤ raw.length) :
    appendMember raw member count =
      some (withCount raw (count + 1) ++ memberRecord member) := by
  have hsize : (raw.length + 2 + member.length : Int) =
      (raw.length + (2 + member.length) : Nat) := by omega
  have hcounted := length_recounted hlen (count + 1)
  rw [appendMember, make?_filled hsize]
  simp only [Option.bind_eq_bind, Option.bind_some]
  rw [← Option.bind_assoc, recount_eq hlen, Option.bind_some, putWord?_filled hcounted (by omega),
    Option.bind_some,
    copy?_last (by rw [List.length_append, hcounted, leBytes_length]) (by omega)]
  simp [withCount, memberRecord]

/-! ## Scanning -/

theorem fieldAt_eq (raw : Bytes) (off : Nat) :
    fieldAt raw off =
      some ((Ds.fieldAt raw off).map fun f => (f, slice raw f.fieldOff (f.fieldOff + f.flen))) := by
  unfold fieldAt Ds.fieldAt
  dsimp only
  split
  · rfl
  · rename_i hlen
    rw [word?_eq (Nat.le_of_not_lt hlen)]
    simp only [Option.bind_eq_bind, Option.bind_some]
    split
    · rfl
    · rename_i hfield
      rw [slice?_eq (Nat.le_add_right _ _) (Nat.le_of_not_lt hfield), Option.bind_some]
      split
      · rfl
      · rename_i hword
        rw [word?_eq (Nat.le_of_not_lt hword), Option.bind_some]
        split
        · rfl
        · rename_i hvalue
          rw [slice?_eq (Nat.le_add_right _ _) (Nat.le_of_not_lt hvalue), Option.bind_some]
          rfl

theorem fieldAt_within {off : Nat} {f : FieldSpan} (h : Ds.fieldAt raw off = some f) :
    f.start = off ∧ f.stop ≤ raw.length := by
  unfold Ds.fieldAt at h
  dsimp only at h
  split_ifs at h
  cases h
  exact ⟨rfl, by simp only [FieldSpan.stop, FieldSpan.valOff]; omega⟩

theorem start_lt_stop (f : FieldSpan) : f.start < f.stop := by
  simp only [FieldSpan.stop, FieldSpan.valOff]
  omega

theorem findField_eq (raw field : Bytes) : ∀ count off : Nat,
    findField raw field count off = some (Ds.findField raw field count off)
  | 0, _ => rfl
  | count + 1, off => by
    rw [findField, fieldAt_eq, Ds.findField]
    cases Ds.fieldAt raw off with
    | none => rfl
    | some f =>
      simp only [Option.map_some, Option.bind_eq_bind, Option.bind_some]
      split
      · rfl
      · exact findField_eq raw field count f.stop

theorem findField_within {f : FieldSpan} : ∀ {count off : Nat},
    Ds.findField raw field count off = some f → off ≤ f.start ∧ f.stop ≤ raw.length
  | 0, _, h => by cases h
  | count + 1, off, h => by
    rw [Ds.findField] at h
    cases hat : Ds.fieldAt raw off with
    | none =>
      rw [hat] at h
      cases h
    | some g =>
      obtain ⟨hstart, hstop⟩ := fieldAt_within hat
      rw [hat] at h
      dsimp only at h
      split at h
      · cases h
        exact ⟨Nat.le_of_eq hstart.symm, hstop⟩
      · have hlt := start_lt_stop g
        obtain ⟨hle, hin⟩ := findField_within h
        exact ⟨by omega, hin⟩

theorem hGetAllFrom_eq (raw : Bytes) : ∀ count off : Nat,
    ∃ items, hGetAllFrom raw count off = some items ∧
      (∀ p ∈ items, p.1.Within raw ∧ p.2.Within raw) ∧
      items.map (fun p => (p.1.bytes raw, p.2.bytes raw)) = Ds.hGetAllFrom raw count off
  | 0, _ => ⟨[], rfl, by simp, rfl⟩
  | count + 1, off => by
    rw [hGetAllFrom, fieldAt_eq, Ds.hGetAllFrom]
    cases hat : Ds.fieldAt raw off with
    | none => exact ⟨[], rfl, by simp, rfl⟩
    | some f =>
      have hstop := (fieldAt_within hat).2
      obtain ⟨items, hitems, hwithin, hbytes⟩ := hGetAllFrom_eq raw count f.stop
      simp only [Option.map_some, Option.bind_eq_bind, Option.bind_some, hitems]
      refine ⟨_, rfl, ?_, ?_⟩
      · intro p hp
        rcases List.mem_cons.mp hp with rfl | hp
        · simp only [Span.Within, FieldSpan.stop, FieldSpan.valOff, FieldSpan.fieldOff] at *
          omega
        · exact hwithin p hp
      · rw [List.map_cons, hbytes]
        rfl

theorem lastElem_eq (raw : Bytes) : ∀ (count off : Nat) (last : Nat × Nat),
    lastElem raw count off last = some (Ds.lastElem raw count off last)
  | 0, _, _ => rfl
  | count + 1, off, last => by
    rw [lastElem, Ds.lastElem]
    split
    · rfl
    · rename_i hlen
      rw [word?_eq (Nat.le_of_not_lt hlen)]
      simp only [Option.bind_eq_bind, Option.bind_some]
      split
      · rfl
      · exact lastElem_eq raw count _ _

/-- The last element lies in the payload, behind the count. -/
theorem lastElem_within {last : Nat × Nat} : ∀ {count off : Nat} {prev : Nat × Nat},
    4 ≤ off → (count = 0 → 4 ≤ prev.1 ∧ prev.1 + 4 + prev.2 ≤ raw.length) →
    Ds.lastElem raw count off prev = some last →
    4 ≤ last.1 ∧ last.1 + 4 + last.2 ≤ raw.length
  | 0, _, _, _, hfrom, h => by
    cases h
    exact hfrom rfl
  | count + 1, off, prev, hoff, _, h => by
    rw [Ds.lastElem] at h
    dsimp only at h
    split_ifs at h with hlen hfits
    exact lastElem_within (by omega) (fun _ => ⟨hoff, by omega⟩) h

theorem memberAt_eq (raw : Bytes) (off : Nat) :
    memberAt raw off =
      some ((Ds.memberAt raw off).map fun mlen => (mlen, slice raw (off + 2) (off + 2 + mlen))) := by
  unfold memberAt Ds.memberAt
  dsimp only
  split
  · rfl
  · rename_i hlen
    rw [word?_eq (Nat.le_of_not_lt hlen)]
    simp only [Option.bind_eq_bind, Option.bind_some]
    split
    · rfl
    · rename_i hmember
      rw [slice?_eq (Nat.le_add_right _ _) (Nat.le_of_not_lt hmember), Option.bind_some]
      rfl

theorem memberAt_within {off mlen : Nat} (h : Ds.memberAt raw off = some mlen) :
    off + 2 + mlen ≤ raw.length := by
  unfold Ds.memberAt at h
  dsimp only at h
  split_ifs at h with hlen hmember
  cases h
  exact Nat.le_of_not_lt hmember

theorem findMember_eq (raw member : Bytes) : ∀ count off : Nat,
    findMember raw member count off = some (Ds.findMember raw member count off)
  | 0, _ => rfl
  | count + 1, off => by
    rw [findMember, memberAt_eq, Ds.findMember]
    cases Ds.memberAt raw off with
    | none => rfl
    | some mlen =>
      simp only [Option.map_some, Option.bind_eq_bind, Option.bind_some]
      split
      · rfl
      · exact findMember_eq raw member count _

theorem findMember_within {pos mlen : Nat} : ∀ {count off : Nat},
    Ds.findMember raw member count off = some (pos, mlen) →
    off ≤ pos ∧ pos + 2 + mlen ≤ raw.length
  | 0, _, h => by cases h
  | count + 1, off, h => by
    rw [Ds.findMember] at h
    cases hat : Ds.memberAt raw off with
    | none =>
      rw [hat] at h
      cases h
    | some n =>
      have hin := memberAt_within hat
      rw [hat] at h
      dsimp only at h
      split at h
      · cases h
        exact ⟨Nat.le_refl _, hin⟩
      · obtain ⟨hle, hin'⟩ := findMember_within h
        exact ⟨by omega, hin'⟩

theorem sMembersFrom_eq (raw : Bytes) : ∀ count off : Nat,
    ∃ items, sMembersFrom raw count off = some items ∧ (∀ s ∈ items, s.Within raw) ∧
      items.map (Span.bytes raw) = Ds.sMembersFrom raw count off
  | 0, _ => ⟨[], rfl, by simp, rfl⟩
  | count + 1, off => by
    rw [sMembersFrom, memberAt_eq, Ds.sMembersFrom]
    cases hat : Ds.memberAt raw off with
    | none => exact ⟨[], rfl, by simp, rfl⟩
    | some mlen =>
      have hin := memberAt_within hat
      obtain ⟨items, hitems, hwithin, hbytes⟩ := sMembersFrom_eq raw count (off + 2 + mlen)
      simp only [Option.map_some, Option.bind_eq_bind, Option.bind_some, hitems]
      refine ⟨_, rfl, ?_, ?_⟩
      · intro s hs
        rcases List.mem_cons.mp hs with rfl | hs
        · exact ⟨Nat.le_add_right _ _, hin⟩
        · exact hwithin s hs
      · rw [List.map_cons, hbytes]
        rfl

/-! ## The functions -/

theorem hSet_eq (raw field value : Bytes) :
    hSet raw field value = some (Ds.hSet raw field value) := by
  unfold hSet Ds.hSet
  split
  · rw [newHash_eq]
    rfl
  · rename_i hlen
    have hfour := Nat.le_of_not_lt hlen
    rw [payloadCount_eq hfour]
    simp only [Option.bind_eq_bind, Option.bind_some, findField_eq]
    cases hfind : Ds.findField raw field (Ds.payloadCount raw) 4 with
    | none =>
      simp only [appendField_eq hfour]
      rfl
    | some f =>
      have hstop := (findField_within hfind).2
      rw [FieldSpan.stop] at hstop
      dsimp only
      rw [replaceValue_eq hstop]

theorem hGet_eq (raw field : Bytes) :
    ∃ found, hGet raw field = some found ∧ (∀ s ∈ found, s.Within raw) ∧
      found.map (Span.bytes raw) = Ds.hGet raw field := by
  unfold hGet Ds.hGet
  split
  · exact ⟨none, rfl, by simp, rfl⟩
  · rename_i hlen
    rw [payloadCount_eq (Nat.le_of_not_lt hlen)]
    simp only [Option.bind_eq_bind, Option.bind_some, findField_eq]
    refine ⟨_, rfl, ?_, ?_⟩
    · intro s hs
      obtain ⟨f, hf, rfl⟩ := Option.map_eq_some_iff.mp hs
      exact ⟨Nat.le_add_right _ _, (findField_within hf).2⟩
    · rw [Option.map_map]
      rfl

theorem hDel_eq (raw field : Bytes) : hDel raw field = some (Ds.hDel raw field) := by
  unfold hDel Ds.hDel
  split
  · rfl
  · rename_i hlen
    rw [payloadCount_eq (Nat.le_of_not_lt hlen)]
    simp only [Option.bind_eq_bind, Option.bind_some, findField_eq]
    cases hfind : Ds.findField raw field (Ds.payloadCount raw) 4 with
    | none => rfl
    | some f =>
      obtain ⟨hstart, hstop⟩ := findField_within hfind
      have hle : f.start ≤ f.valOff := by
        simp only [FieldSpan.valOff]
        omega
      have hin : f.valOff ≤ raw.length := Nat.le_trans (Nat.le_add_right _ _) hstop
      dsimp only
      rw [without_eq hstart hle hin, Option.map_some, Option.map_some]
      split <;> rfl

theorem hGetAll_eq (raw : Bytes) :
    ∃ l, hGetAll raw = some l ∧ (∀ p ∈ l.items, p.1.Within raw ∧ p.2.Within raw) ∧
      l.items.map (fun p => (p.1.bytes raw, p.2.bytes raw)) = Ds.hGetAll raw ∧
      l.request = if raw.length < 4 then none else some (Ds.payloadCount raw) := by
  unfold hGetAll Ds.hGetAll
  split
  · exact ⟨_, rfl, by simp, rfl, rfl⟩
  · rename_i hlen
    rw [payloadCount_eq (Nat.le_of_not_lt hlen)]
    obtain ⟨items, hitems, hwithin, hbytes⟩ := hGetAllFrom_eq raw (Ds.payloadCount raw) 4
    simp only [Option.bind_eq_bind, Option.bind_some, hitems]
    exact ⟨_, rfl, hwithin, hbytes, rfl⟩

theorem lPush_eq (raw elem : Bytes) : lPush raw elem = some (Ds.lPush raw elem) := by
  obtain ⟨count, body, hcount, hbody, hpush⟩ : ∃ (count : Nat) (body : Bytes),
      (if raw.length ≥ 4 then payloadCount raw else some 0) = some count ∧
      (if raw.length ≥ 4 then slice? raw 4 raw.length else some []) = some body ∧
      Ds.lPush raw elem = leBytes 4 (count + 1) ++ elemRecord elem ++ body := by
    by_cases hlen : raw.length ≥ 4
    · refine ⟨Ds.payloadCount raw, raw.drop 4, ?_, ?_, ?_⟩
      · rw [if_pos hlen, payloadCount_eq hlen]
      · rw [if_pos hlen, slice?_rest hlen]
      · rw [Ds.lPush, if_pos hlen, if_pos hlen]
    · exact ⟨0, [], if_neg hlen, if_neg hlen, by rw [Ds.lPush, if_neg hlen, if_neg hlen]⟩
  have hsize : (4 + 4 + elem.length + body.length : Int) =
      (4 + (4 + (elem.length + body.length)) : Nat) := by omega
  rw [lPush, hcount, hbody, hpush]
  simp only [Option.bind_eq_bind, Option.bind_some]
  rw [make?_filled hsize, Option.bind_some, putWord?_filled List.length_nil (by omega),
    Option.bind_some, putWord?_filled (by simp) (by omega), Option.bind_some,
    copy?_filled (by simp) (by omega) (by omega), Option.bind_some,
    copy?_last (by simp; omega) (by omega)]
  simp [elemRecord]

/-- The one function that a short payload stops. -/
theorem rPush_eq (raw elem : Bytes) : rPush raw elem = Ds.rPush raw elem := by
  have hsize : (raw.length + 4 + elem.length : Int) =
      (raw.length + (4 + elem.length) : Nat) := by omega
  unfold rPush Ds.rPush
  rw [make?_filled hsize]
  by_cases hlen : raw.length ≥ 4
  · have hcounted := length_recounted hlen (Ds.payloadCount raw + 1)
    rw [if_pos hlen, if_pos hlen, payloadCount_eq hlen]
    simp only [Option.bind_eq_bind, Option.bind_some]
    rw [if_pos hlen, if_neg (by omega),
      ← Option.bind_assoc, recount_eq hlen, Option.bind_some, putWord?_filled hcounted (by omega),
      Option.bind_some,
      copy?_last (by rw [List.length_append, hcounted, leBytes_length]) (by omega)]
    simp [withCount, elemRecord]
  · have hout : slice? (filled [] (raw.length + (4 + elem.length))) 0 (4 + 4 + elem.length) =
        none := if_neg fun h => by
      rw [length_filled, List.length_nil] at h
      omega
    rw [if_neg hlen, if_neg hlen]
    simp only [Option.bind_eq_bind, Option.bind_some]
    rw [if_neg hlen, hout, Option.bind_none]

theorem lPop_eq (raw : Bytes) :
    ∃ out, lPop raw = some out ∧ (∀ t ∈ out, t.popped.Within raw) ∧
      out.map (Taken.value raw) = Ds.lPop raw := by
  unfold lPop Ds.lPop
  split
  · exact ⟨none, rfl, by simp, rfl⟩
  · rename_i hlen
    have height := Nat.le_of_not_lt hlen
    rw [payloadCount_eq (by omega)]
    simp only [Option.bind_eq_bind, Option.bind_some]
    split
    · exact ⟨none, rfl, by simp, rfl⟩
    · rw [word?_eq (by omega), Option.bind_some]
      split
      · exact ⟨none, rfl, by simp, rfl⟩
      · rename_i hfits
        have hin := Nat.le_of_not_lt hfits
        have hwithin : Span.Within raw ⟨8, 8 + wordAt raw 4 4⟩ := ⟨Nat.le_add_right _ _, hin⟩
        rw [slice?_eq (Nat.le_add_right _ _) hin, Option.bind_some]
        split
        · exact ⟨_, rfl, by simpa using hwithin, rfl⟩
        · have hsize : (4 + (raw.drop (8 + wordAt raw 4 4)).length : Int) =
              (4 + (raw.drop (8 + wordAt raw 4 4)).length : Nat) := by omega
          rw [slice?_rest hin, Option.bind_some, make?_filled hsize, Option.bind_some,
            putWord?_filled List.length_nil (by omega), Option.bind_some,
            copy?_last (by simp) (by omega), Option.bind_some]
          exact ⟨_, rfl, by simpa using hwithin, by simp [Taken.value, Span.bytes]⟩

theorem rPop_eq (raw : Bytes) :
    ∃ out, rPop raw = some out ∧ (∀ t ∈ out, t.popped.Within raw) ∧
      out.map (Taken.value raw) = Ds.rPop raw := by
  unfold rPop Ds.rPop
  split
  · exact ⟨none, rfl, by simp, rfl⟩
  · rename_i hlen
    have height := Nat.le_of_not_lt hlen
    rw [payloadCount_eq (by omega)]
    simp only [Option.bind_eq_bind, Option.bind_some, lastElem_eq]
    split
    · exact ⟨none, rfl, by simp, rfl⟩
    · rename_i hcount
      cases hlast : Ds.lastElem raw (Ds.payloadCount raw) 4 (0, 0) with
      | none => exact ⟨none, rfl, by simp, rfl⟩
      | some last =>
        obtain ⟨lastStartOff, lastLen⟩ := last
        obtain ⟨hfour, hin⟩ := lastElem_within (Nat.le_refl 4) (fun h => absurd h hcount) hlast
        dsimp only at hfour hin ⊢
        have hwithin : Span.Within raw ⟨lastStartOff + 4, lastStartOff + 4 + lastLen⟩ :=
          ⟨Nat.le_add_right _ _, hin⟩
        rw [slice?_eq (Nat.le_add_right _ _) hin, Option.bind_some]
        split
        · exact ⟨_, rfl, by simpa using hwithin, rfl⟩
        · have hfront : (raw.take lastStartOff).length = lastStartOff := by
            rw [List.length_take]
            omega
          rw [make?_filled rfl, slice?_front (by omega)]
          simp only [Option.bind_some]
          rw [copy?_last List.length_nil hfront, Option.bind_some, List.nil_append,
            putWord?_front (by omega), Option.bind_some]
          exact ⟨_, rfl, by simpa using hwithin, by simp [Taken.value, Span.bytes, withCount]⟩

theorem lLen_eq (raw : Bytes) : lLen raw = some (Ds.lLen raw) := by
  unfold lLen Ds.lLen
  split
  · rfl
  · rename_i hlen
    exact payloadCount_eq (Nat.le_of_not_lt hlen)

theorem sAdd_eq (raw member : Bytes) : sAdd raw member = some (Ds.sAdd raw member) := by
  unfold sAdd Ds.sAdd
  split
  · rw [newSet_eq]
    rfl
  · rename_i hlen
    have hfour := Nat.le_of_not_lt hlen
    rw [payloadCount_eq hfour]
    simp only [Option.bind_eq_bind, Option.bind_some, findMember_eq]
    cases Ds.findMember raw member (Ds.payloadCount raw) 4 with
    | none =>
      simp only [appendMember_eq hfour]
      rfl
    | some found => rfl

theorem sRem_eq (raw member : Bytes) : sRem raw member = some (Ds.sRem raw member) := by
  unfold sRem Ds.sRem
  split
  · rfl
  · rename_i hlen
    rw [payloadCount_eq (Nat.le_of_not_lt hlen)]
    simp only [Option.bind_eq_bind, Option.bind_some, findMember_eq]
    cases hfind : Ds.findMember raw member (Ds.payloadCount raw) 4 with
    | none => rfl
    | some found =>
      obtain ⟨off, mlen⟩ := found
      obtain ⟨hoff, hin⟩ := findMember_within hfind
      dsimp only
      rw [without_eq hoff (by omega) hin, Option.map_some, Option.map_some]
      split <;> rfl

theorem sIsMember_eq (raw member : Bytes) :
    sIsMember raw member = some (Ds.sIsMember raw member) := by
  unfold sIsMember Ds.sIsMember
  split
  · rfl
  · rename_i hlen
    rw [payloadCount_eq (Nat.le_of_not_lt hlen)]
    simp only [Option.bind_eq_bind, Option.bind_some, findMember_eq]

theorem sMembers_eq (raw : Bytes) :
    ∃ l, sMembers raw = some l ∧ (∀ s ∈ l.items, s.Within raw) ∧
      l.items.map (Span.bytes raw) = Ds.sMembers raw ∧
      l.request = if raw.length < 4 then none else some (Ds.payloadCount raw) := by
  unfold sMembers Ds.sMembers
  split
  · exact ⟨_, rfl, by simp, rfl, rfl⟩
  · rename_i hlen
    rw [payloadCount_eq (Nat.le_of_not_lt hlen)]
    obtain ⟨items, hitems, hwithin, hbytes⟩ := sMembersFrom_eq raw (Ds.payloadCount raw) 4
    simp only [Option.bind_eq_bind, Option.bind_some, hitems]
    exact ⟨_, rfl, hwithin, hbytes, rfl⟩

/-- On any bytes and with any arguments the functions return without an index or a bound out of
range, and what they return of the payload lies in it. -/
theorem decoding_in_range (raw field value elem member : Bytes) :
    hSet raw field value = some (Ds.hSet raw field value) ∧
    (∃ found, hGet raw field = some found ∧ (∀ s ∈ found, s.Within raw) ∧
      found.map (Span.bytes raw) = Ds.hGet raw field) ∧
    hDel raw field = some (Ds.hDel raw field) ∧
    (∃ l, hGetAll raw = some l ∧ (∀ p ∈ l.items, p.1.Within raw ∧ p.2.Within raw) ∧
      l.items.map (fun p => (p.1.bytes raw, p.2.bytes raw)) = Ds.hGetAll raw) ∧
    lPush raw elem = some (Ds.lPush raw elem) ∧
    (∃ out, lPop raw = some out ∧ (∀ t ∈ out, t.popped.Within raw) ∧
      out.map (Taken.value raw) = Ds.lPop raw) ∧
    (∃ out, rPop raw = some out ∧ (∀ t ∈ out, t.popped.Within raw) ∧
      out.map (Taken.value raw) = Ds.rPop raw) ∧
    lLen raw = some (Ds.lLen raw) ∧
    sAdd raw member = some (Ds.sAdd raw member) ∧
    sRem raw member = some (Ds.sRem raw member) ∧
    sIsMember raw member = some (Ds.sIsMember raw member) ∧
    ∃ l, sMembers raw = some l ∧ (∀ s ∈ l.items, s.Within raw) ∧
      l.items.map (Span.bytes raw) = Ds.sMembers raw := by
  obtain ⟨fields, hfields, hfieldsIn, hfieldsEq, _⟩ := hGetAll_eq raw
  obtain ⟨members, hmembers, hmembersIn, hmembersEq, _⟩ := sMembers_eq raw
  exact ⟨hSet_eq raw field value, hGet_eq raw field, hDel_eq raw field,
    ⟨fields, hfields, hfieldsIn, hfieldsEq⟩, lPush_eq raw elem, lPop_eq raw, rPop_eq raw,
    lLen_eq raw, sAdd_eq raw member, sRem_eq raw member, sIsMember_eq raw member,
    members, hmembers, hmembersIn, hmembersEq⟩

end Checked

end Horreum.Ds
