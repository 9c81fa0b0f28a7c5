/-
  Server/Counts.lean --- the counts in front of payloads and of checkpoints.

  A payload of a collection and a checkpoint begin with the number of their records.  `HGetAll`,
  `SMembers` and `decodeCheckpoint` ask for room for that many records before they have looked at
  one, and nothing compares the number with the bytes that are there.  The records they then find
  are in the input, so only the room that is asked for can exceed it.
-/
import Horreum.Ds.Checked
import Horreum.Persist.Snapshots

set_option autoImplicit false

namespace Horreum.Server

open Foundation
open Ds (Checked.hGetAll Checked.sMembers payloadCount)
open Index (Bucket)
open Persist (Error checkpointEntryFixedSize checkpointHeaderSize checkpointMagic
  checkpointVersion)
open Persist.Snapshot (Headed decodeEntries decodeHeader decodeHeader_eq_ok)

namespace Counts

/-! ## What is asked for -/

/-- `decodeCheckpoint`, and before its result the capacity that it asks for with `make`. -/
def decodeCheckpoint (buf : Bytes) : Option Nat × Except Error (List Bucket × Nat) :=
  ((decodeHeader buf).toOption, Persist.Snapshot.decodeCheckpoint buf)

theorem decodeCheckpoint_fst (buf : Bytes) (n : Nat) :
    n ∈ (decodeCheckpoint buf).1 ↔ Headed buf ∧ n = wordAt buf 8 4 := by
  rw [← decodeHeader_eq_ok, decodeCheckpoint]
  cases decodeHeader buf <;> simp [Except.toOption]

/-- A collection asks for as many records as the count says, if there is a count. -/
theorem forall_request_iff {raw : Bytes} {request : Option Nat} {p : Nat → Prop}
    (h : request = if raw.length < 4 then none else some (payloadCount raw)) :
    (∀ n ∈ request, p n) ↔ (4 ≤ raw.length → p (payloadCount raw)) := by
  rw [h]
  split_ifs with hshort
  · simp [Nat.not_le_of_lt hshort]
  · simp [Nat.le_of_not_lt hshort]

/-! ## What is found -/

/-- A pair takes at least its two length fields. -/
theorem hGetAllFrom_fits (raw : Bytes) : ∀ (count : Nat) {off : Nat}, off ≤ raw.length →
    off + 6 * (Ds.hGetAllFrom raw count off).length ≤ raw.length
  | 0, _, hoff => by simpa [Ds.hGetAllFrom] using hoff
  | count + 1, off, hoff => by
    rw [Ds.hGetAllFrom]
    split
    · simpa using hoff
    · rename_i f hf
      have hin := Ds.Checked.fieldAt_within hf
      have hrest := hGetAllFrom_fits raw count hin.2
      have hstop : off + 6 ≤ f.stop := by
        simp only [← hin.1, Ds.FieldSpan.stop, Ds.FieldSpan.valOff]
        omega
      rw [List.length_cons]
      omega

/-- A member takes at least its length field. -/
theorem sMembersFrom_fits (raw : Bytes) : ∀ (count : Nat) {off : Nat}, off ≤ raw.length →
    off + 2 * (Ds.sMembersFrom raw count off).length ≤ raw.length
  | 0, _, hoff => by simpa [Ds.sMembersFrom] using hoff
  | count + 1, off, hoff => by
    rw [Ds.sMembersFrom]
    split
    · simpa using hoff
    · rename_i mlen hm
      have hin := Ds.Checked.memberAt_within hm
      have hrest := sMembersFrom_fits raw count hin
      rw [List.length_cons]
      omega

theorem hGetAll_fits (raw : Bytes) : (Ds.hGetAll raw).length ≤ raw.length := by
  unfold Ds.hGetAll
  split_ifs with hshort
  · exact Nat.zero_le _
  · have hfits := hGetAllFrom_fits raw (payloadCount raw) (Nat.le_of_not_lt hshort)
    omega

theorem sMembers_fits (raw : Bytes) : (Ds.sMembers raw).length ≤ raw.length := by
  unfold Ds.sMembers
  split_ifs with hshort
  · exact Nat.zero_le _
  · have hfits := sMembersFrom_fits raw (payloadCount raw) (Nat.le_of_not_lt hshort)
    omega

theorem length_decodeEntries {buf : Bytes} : ∀ {n i pos pos' : Nat} {snap : List Bucket},
    decodeEntries buf n i pos = .ok (snap, pos') → snap.length = n
  | 0, _, _, _, _, h => by
    cases h
    rfl
  | n + 1, i, pos, pos', snap, h => by
    rw [decodeEntries] at h
    obtain ⟨⟨se, mid⟩, -, h⟩ := bind_eq_ok h
    obtain ⟨⟨rest, last⟩, hrest, h⟩ := bind_eq_ok h
    cases h
    rw [List.length_cons, length_decodeEntries hrest]

/-- A checkpoint that decodes has all the entries of its count. -/
theorem count_le_of_decode {buf : Bytes} {n : Nat} {out : List Bucket × Nat}
    (h : decodeCheckpoint buf = (some n, .ok out)) : n ≤ buf.length := by
  have hdecode : Persist.Snapshot.decodeCheckpoint buf = .ok out := (Prod.mk.inj h).2
  have hheader : decodeHeader buf = .ok n :=
    decodeHeader_eq_ok.mpr ((decodeCheckpoint_fst buf n).mp (by rw [h]; rfl))
  have hentries : decodeEntries buf n 0 checkpointHeaderSize = .ok out := by
    rwa [Persist.Snapshot.decodeCheckpoint, hheader] at hdecode
  have hlen := (Persist.Snapshot.decodeCheckpoint_ok hdecode).1
  rw [length_decodeEntries hentries, checkpointEntryFixedSize] at hlen
  omega

/-- The room that is asked for fits in the input for exactly the payloads whose count does and the
checkpoints whose header has a count that does, if it is accepted at all.  It fits as well whenever
the records that were announced are there. -/
theorem requests_le_iff (raw buf : Bytes) :
    (((∀ l, Checked.hGetAll raw = some l → ∀ n ∈ l.request, n ≤ raw.length) ∧
        (∀ l, Checked.sMembers raw = some l → ∀ n ∈ l.request, n ≤ raw.length) ∧
        ∀ n ∈ (decodeCheckpoint buf).1, n ≤ buf.length) ↔
      (4 ≤ raw.length → payloadCount raw ≤ raw.length) ∧
        (Headed buf → wordAt buf 8 4 ≤ buf.length)) ∧
    (∀ l, Checked.hGetAll raw = some l → ∀ n ∈ l.request, n ≤ l.items.length → n ≤ raw.length) ∧
    (∀ l, Checked.sMembers raw = some l → ∀ n ∈ l.request, n ≤ l.items.length → n ≤ raw.length) ∧
    ∀ n out, decodeCheckpoint buf = (some n, .ok out) → n ≤ buf.length := by
  obtain ⟨fields, hfields, -, hpairs, hfieldsRequest⟩ := Ds.Checked.hGetAll_eq raw
  obtain ⟨members, hmembers, -, hbytes, hmembersRequest⟩ := Ds.Checked.sMembers_eq raw
  refine ⟨?_, ?_, ?_, ?_⟩
  · constructor
    · rintro ⟨hf, -, hc⟩
      refine ⟨(forall_request_iff hfieldsRequest).mp (hf fields hfields), fun hheaded => ?_⟩
      exact hc _ ((decodeCheckpoint_fst buf _).mpr ⟨hheaded, rfl⟩)
    · rintro ⟨hcount, hheader⟩
      refine ⟨fun l hl => ?_, fun l hl => ?_, fun n hn => ?_⟩
      · cases hfields.symm.trans hl
        exact (forall_request_iff hfieldsRequest).mpr hcount
      · cases hmembers.symm.trans hl
        exact (forall_request_iff hmembersRequest).mpr hcount
      · obtain ⟨hheaded, rfl⟩ := (decodeCheckpoint_fst buf n).mp hn
        exact hheader hheaded
  · intro l hl n _ hn
    cases hfields.symm.trans hl
    have hfits := hGetAll_fits raw
    rw [← hpairs, List.length_map] at hfits
    omega
  · intro l hl n _ hn
    cases hmembers.symm.trans hl
    have hfits := sMembers_fits raw
    rw [← hbytes, List.length_map] at hfits
    omega
  · exact fun n out hout => count_le_of_decode hout

/-- Four bytes that a client stores with `SET` make `HGETALL` and `SMEMBERS` ask for 4294967295
places, and so does a bare header of a checkpoint. -/
theorem requests_of_short_inputs :
    Checked.hGetAll [255, 255, 255, 255] = some ⟨some 4294967295, []⟩ ∧
    Checked.sMembers [255, 255, 255, 255] = some ⟨some 4294967295, []⟩ ∧
    decodeCheckpoint (checkpointMagic ++ leBytes 4 checkpointVersion ++ [255, 255, 255, 255]) =
      (some 4294967295, .error (.truncated 0)) ∧
    (checkpointMagic ++ leBytes 4 checkpointVersion ++ [255, 255, 255, 255]).length = 12 := by
  refine ⟨by decide, by decide, ?_, by decide⟩
  rfl

end Counts

end Horreum.Server
