/-
  Ds/Payload.lean --- hashes, lists and sets packed into one value, as `internal/ds` does.

  A payload is a 32-bit count followed by the records.  Every function is total except `RPush`, which
  panics on a payload too short to hold the count.  `HSet` may write into the payload it was given,
  a view of the arena, and a pop returns a slice of it; the results say where.
-/
import Horreum.Foundation.Bytes

set_option autoImplicit false

namespace Horreum.Ds

open Foundation

/-- The record count at the head of a payload. -/
def payloadCount (raw : Bytes) : Nat := wordAt raw 0 4

/-- `raw` with its count replaced. -/
def withCount (raw : Bytes) (count : Nat) : Bytes := leBytes 4 count ++ raw.drop 4

/-! ## Hash -/

/-- Where the record at `start` has its parts. -/
structure FieldSpan where
  start : Nat
  flen : Nat
  vlen : Nat

namespace FieldSpan

/-- Where the name of the field starts. -/
def fieldOff (f : FieldSpan) : Nat := f.start + 2

/-- Where the value starts. -/
def valOff (f : FieldSpan) : Nat := f.start + 2 + f.flen + 4

/-- Where the record ends. -/
def stop (f : FieldSpan) : Nat := f.valOff + f.vlen

end FieldSpan

/-- `[FieldLen:2][Field][ValLen:4][Val]` at `off`, if the payload holds all of it. -/
def fieldAt (raw : Bytes) (off : Nat) : Option FieldSpan :=
  if off + 2 > raw.length then none
  else
    let flen := wordAt raw off 2
    if off + 2 + flen > raw.length then none
    else if off + 2 + flen + 4 > raw.length then none
    else
      let vlen := wordAt raw (off + 2 + flen) 4
      if off + 2 + flen + 4 + vlen > raw.length then none
      else some ⟨off, flen, vlen⟩

/-- The first of `count` records from `off` on with the given field. -/
def findField (raw field : Bytes) : (count off : Nat) → Option FieldSpan
  | 0, _ => none
  | count + 1, off =>
    match fieldAt raw off with
    | none => none
    | some f =>
      if slice raw f.fieldOff (f.fieldOff + f.flen) = field then some f
      else findField raw field count f.stop

/-- A record; the lengths are cut to their widths. -/
def fieldRecord (field value : Bytes) : Bytes :=
  leBytes 2 field.length ++ field ++ leBytes 4 value.length ++ value

/-- The new payload, and where the value went if it was written in place. -/
structure HSetResult where
  newRaw : Bytes
  updated : Bool
  inPlace : Option Nat

/-- `HSet` -/
def hSet (raw field value : Bytes) : HSetResult :=
  if raw.length < 4 then ⟨leBytes 4 1 ++ fieldRecord field value, true, none⟩
  else
    let count := payloadCount raw
    match findField raw field count 4 with
    | some f =>
      if f.vlen = value.length then
        ⟨raw.take f.valOff ++ value ++ raw.drop (f.valOff + f.vlen), false, some f.valOff⟩
      else
        ⟨raw.take (f.valOff - 4) ++ leBytes 4 value.length ++ value ++
          raw.drop (f.valOff + f.vlen), false, none⟩
    | none => ⟨withCount raw (count + 1) ++ fieldRecord field value, true, none⟩

/-- `HGet` -/
def hGet (raw field : Bytes) : Option Bytes :=
  if raw.length < 4 then none
  else (findField raw field (payloadCount raw) 4).map fun f => slice raw f.valOff f.stop

/-- The new payload, `none` when the field is not there.  The end of the removed range is
taken before the value: the value's bytes stay behind. -/
def hDel (raw field : Bytes) : Option Bytes :=
  if raw.length < 4 then none
  else
    let count := payloadCount raw
    (findField raw field count 4).map fun f =>
      if count = 1 then []
      else withCount (raw.take f.start ++ raw.drop f.valOff) (count - 1)

/-- The loop of `HGetAll`. -/
def hGetAllFrom (raw : Bytes) : (count off : Nat) → List (Bytes × Bytes)
  | 0, _ => []
  | count + 1, off =>
    match fieldAt raw off with
    | none => []
    | some f =>
      (slice raw f.fieldOff (f.fieldOff + f.flen), slice raw f.valOff f.stop) ::
        hGetAllFrom raw count f.stop

/-- `HGetAll` -/
def hGetAll (raw : Bytes) : List (Bytes × Bytes) :=
  if raw.length < 4 then [] else hGetAllFrom raw (payloadCount raw) 4

/-! ## List -/

/-- `[ElemLen:4][Elem]` -/
def elemRecord (elem : Bytes) : Bytes := leBytes 4 elem.length ++ elem

/-- `LPush` -/
def lPush (raw elem : Bytes) : Bytes :=
  let count := if raw.length ≥ 4 then payloadCount raw else 0
  let body := if raw.length ≥ 4 then raw.drop 4 else []
  leBytes 4 (count + 1) ++ elemRecord elem ++ body

/-- The buffer has `len(raw) + 4 + len(elem)` bytes, so for a short payload the reslice to
`4 + 4 + len(elem)` is out of range. -/
def rPush (raw elem : Bytes) : Option Bytes :=
  if raw.length ≥ 4 then some (withCount raw (payloadCount raw + 1) ++ elemRecord elem)
  else none

/-- The new payload, and the element taken with its place in the old one: the source returns a
slice of the payload it was given. -/
structure Popped where
  newRaw : Bytes
  off : Nat
  elem : Bytes
  deriving DecidableEq, Repr

/-- `LPop` -/
def lPop (raw : Bytes) : Option Popped :=
  if raw.length < 8 then none
  else
    let count := payloadCount raw
    if count = 0 then none
    else
      let firstLen := wordAt raw 4 4
      if 8 + firstLen > raw.length then none
      else
        let popped := slice raw 8 (8 + firstLen)
        if count = 1 then some ⟨[], 8, popped⟩
        else some ⟨leBytes 4 (count - 1) ++ raw.drop (8 + firstLen), 8, popped⟩

/-- Offset and length of the last of `count` elements from `off` on. -/
def lastElem (raw : Bytes) : (count off : Nat) → (last : Nat × Nat) → Option (Nat × Nat)
  | 0, _, last => some last
  | count + 1, off, _ =>
    if off + 4 > raw.length then none
    else
      let lastLen := wordAt raw off 4
      if off + 4 + lastLen > raw.length then none
      else lastElem raw count (off + 4 + lastLen) (off, lastLen)

/-- `RPop` -/
def rPop (raw : Bytes) : Option Popped :=
  if raw.length < 8 then none
  else
    let count := payloadCount raw
    if count = 0 then none
    else
      match lastElem raw count 4 (0, 0) with
      | none => none
      | some (lastStartOff, lastLen) =>
        let popped := slice raw (lastStartOff + 4) (lastStartOff + 4 + lastLen)
        if count = 1 then some ⟨[], lastStartOff + 4, popped⟩
        else some ⟨withCount (raw.take lastStartOff) (count - 1), lastStartOff + 4, popped⟩

/-- `LLen` -/
def lLen (raw : Bytes) : Nat := if raw.length < 4 then 0 else payloadCount raw

/-! ## Set -/

/-- `[MemberLen:2][Member]` -/
def memberRecord (member : Bytes) : Bytes := leBytes 2 member.length ++ member

/-- The length of the member at `off`, if the payload holds all of it. -/
def memberAt (raw : Bytes) (off : Nat) : Option Nat :=
  if off + 2 > raw.length then none
  else
    let mlen := wordAt raw off 2
    if off + 2 + mlen > raw.length then none else some mlen

/-- Offset and length of the record of a member. -/
def findMember (raw member : Bytes) : (count off : Nat) → Option (Nat × Nat)
  | 0, _ => none
  | count + 1, off =>
    match memberAt raw off with
    | none => none
    | some mlen =>
      if slice raw (off + 2) (off + 2 + mlen) = member then some (off, mlen)
      else findMember raw member count (off + 2 + mlen)

/-- The new payload and whether the member is new. -/
def sAdd (raw member : Bytes) : Bytes × Bool :=
  if raw.length < 4 then (leBytes 4 1 ++ memberRecord member, true)
  else
    let count := payloadCount raw
    match findMember raw member count 4 with
    | some _ => (raw, false)
    | none => (withCount raw (count + 1) ++ memberRecord member, true)

/-- `SRem` -/
def sRem (raw member : Bytes) : Option Bytes :=
  if raw.length < 4 then none
  else
    let count := payloadCount raw
    (findMember raw member count 4).map fun (off, mlen) =>
      if count = 1 then []
      else withCount (raw.take off ++ raw.drop (off + 2 + mlen)) (count - 1)

/-- `SIsMember` -/
def sIsMember (raw member : Bytes) : Bool :=
  if raw.length < 4 then false else (findMember raw member (payloadCount raw) 4).isSome

/-- The loop of `SMembers`. -/
def sMembersFrom (raw : Bytes) : (count off : Nat) → List Bytes
  | 0, _ => []
  | count + 1, off =>
    match memberAt raw off with
    | none => []
    | some mlen =>
      slice raw (off + 2) (off + 2 + mlen) :: sMembersFrom raw count (off + 2 + mlen)

/-- `SMembers` -/
def sMembers (raw : Bytes) : List Bytes :=
  if raw.length < 4 then [] else sMembersFrom raw (payloadCount raw) 4

end Horreum.Ds
