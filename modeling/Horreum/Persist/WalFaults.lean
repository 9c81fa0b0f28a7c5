/-
  Persist/WalFaults.lean --- a log whose writes may fail.

  A failing append does not move the write offset, so what it has written stays behind it
  until a later append overwrites it.  If that is shorter, the rest of the old bytes follows
  the new record.  `Leaves w done extra` describes the file as replay sees it: the records of
  the calls that succeeded, complete records behind the write offset, and then nothing that
  replay accepts.
-/
import Horreum.Persist.WalRepair

set_option autoImplicit false

namespace Horreum.Persist.WAL

open Foundation

/-! ## Records determine their calls -/

theorem record_injective {a b : Append} (h : a.record = b.record) : a = b := by
  have hop : a.op = b.op := congrArg WALRecord.op h
  have hkey : a.key = b.key := by
    rw [← Slice.bytes_ofRead a.key, ← Slice.bytes_ofRead b.key]
    exact congrArg (fun r : WALRecord => r.key.bytes) h
  have hvalue : a.value = b.value := by
    rw [← Slice.bytes_ofRead a.value, ← Slice.bytes_ofRead b.value]
    exact congrArg (fun r : WALRecord => r.value.bytes) h
  have hhandle : a.handle = b.handle := by
    have hoff : a.handle.offset = b.handle.offset := congrArg WALRecord.offset h
    have hsize : a.handle.size = b.handle.size := congrArg WALRecord.size h
    have hregion : a.handle.region = b.handle.region := congrArg WALRecord.region h
    cases ha : a.handle
    cases hb : b.handle
    simp only [ha, hb] at hoff hsize hregion
    rw [hoff, hsize, hregion]
  have hexpires : a.expiresAt = b.expiresAt := congrArg WALRecord.expiresAt h
  cases a <;> cases b <;>
    simp_all [Append.op, Append.key, Append.value, Append.handle, Append.expiresAt]

/-! ## What a failing append leaves -/

/-- Where the last record ends that the call has written completely. -/
def completeEnd (w : WAL) (a : Append) (fault : Option Nat) : Nat :=
  if w.off + a.bytes.length > w.maxOff then w.off
  else
    match fault with
    | some n => if n < a.bytes.length then w.off else w.off + a.bytes.length
    | none => w.off + a.bytes.length

/-- The call leaves the file as it was, or nothing that replay accepts is behind the last record
it has written completely. -/
def LeavesNoStray (w : WAL) (a : Append) (fault : Option Nat) : Prop :=
  let file := (w.append a fault).2.file
  file = w.file ∨ (next file (w.completeEnd a fault) file.length).toOption = none

instance (w : WAL) (a : Append) (fault : Option Nat) : Decidable (w.LeavesNoStray a fault) :=
  inferInstanceAs (Decidable (_ ∨ _))

/-- The records before the write offset, and those that faults have left behind it. -/
structure Leaves (w : WAL) (done extra : List Append) : Prop where
  off : w.off = (logBytes done).length
  file : ∃ rest, w.file = logBytes (done ++ extra) ++ rest
  stop : (next w.file (logBytes (done ++ extra)).length w.file.length).toOption = none
  fits : ∀ a ∈ done ++ extra, a.Fits
  maxOff : w.maxOff ≤ 2 ^ 26

variable {w : WAL} {a : Append} {done extra : List Append}

theorem logBytes_snoc (as : List Append) (a : Append) :
    logBytes (as ++ [a]) = logBytes as ++ a.bytes := by
  simp [logBytes]

/-- Where the file begins with `a` behind the write offset, the first record there is `a`. -/
theorem Leaves.extra_eq (h : w.Leaves done extra) (hfit : a.Fits) {rest : Bytes}
    (hfile : w.file = logBytes (done ++ [a]) ++ rest) : ∃ extra', extra = a :: extra' := by
  have hlen : w.file.length = (logBytes done).length + a.bytes.length + rest.length := by
    rw [hfile, logBytes_snoc, List.length_append, List.length_append]
  have hnext : next w.file (logBytes done).length w.file.length =
      .ok (a.record, (logBytes done).length + a.bytes.length) := by
    have hle : (logBytes done).length + a.bytes.length ≤ w.file.length := by omega
    have hread := next_bytes (logBytes done) rest hfit hle
    rwa [← List.append_assoc, ← logBytes_snoc, ← hfile] at hread
  cases extra with
  | nil =>
    have hstop := h.stop
    rw [List.append_nil, hnext] at hstop
    cases hstop
  | cons b extra' =>
    obtain ⟨rest', hfile'⟩ := h.file
    have hb : b.Fits := h.fits b (by simp)
    have hsplit : w.file = logBytes done ++ (b.bytes ++ (logBytes extra' ++ rest')) := by
      simp [hfile']
    have hle : (logBytes done).length + b.bytes.length ≤ w.file.length := by
      rw [hsplit]
      simp
    have hnext' := next_bytes (logBytes done) (logBytes extra' ++ rest') hb hle
    rw [← hsplit, hnext] at hnext'
    exact ⟨extra', by rw [record_injective (Prod.mk.inj (Except.ok.inj hnext')).1]⟩

/-- A record that is written completely, whether or not the call then succeeds. -/
theorem Leaves.complete (h : w.Leaves done extra) (hfit : a.Fits)
    (hstray : overwrite w.file w.off a.bytes = w.file ∨
      (next (overwrite w.file w.off a.bytes) (w.off + a.bytes.length)
        (overwrite w.file w.off a.bytes).length).toOption = none) :
    ∃ extra', (done ++ a :: extra' = done ++ extra ∨ extra' = []) ∧
      (∃ rest, overwrite w.file w.off a.bytes = logBytes (done ++ a :: extra') ++ rest) ∧
      (next (overwrite w.file w.off a.bytes) (logBytes (done ++ a :: extra')).length
        (overwrite w.file w.off a.bytes).length).toOption = none ∧
      ∀ b ∈ done ++ a :: extra', b.Fits := by
  obtain ⟨rest, hfile⟩ := h.file
  have hnew : overwrite w.file w.off a.bytes =
      logBytes (done ++ [a]) ++ (logBytes extra ++ rest).drop a.bytes.length := by
    rw [hfile, h.off, logBytes_append, List.append_assoc, overwrite_behind, logBytes_snoc,
      List.append_assoc]
  have hend : (logBytes (done ++ [a])).length = w.off + a.bytes.length := by
    rw [logBytes_snoc, List.length_append, h.off]
  rcases hstray with hsame | hstray
  · rw [hsame] at hnew ⊢
    obtain ⟨extra', rfl⟩ := h.extra_eq hfit hnew
    exact ⟨extra', .inl rfl, ⟨rest, hfile⟩, h.stop, h.fits⟩
  · refine ⟨[], .inr rfl, ⟨_, hnew⟩, by rw [hend]; exact hstray, fun b hb => ?_⟩
    rcases List.mem_append.mp hb with hb | hb
    · exact h.fits b (List.mem_append_left extra hb)
    · obtain rfl := List.mem_singleton.mp hb
      exact hfit

/-- What an append that meets the condition can do to the records: nothing, drop those behind
the write offset, or add its own record, before the write offset or behind it. -/
theorem Leaves.append (h : w.Leaves done extra) {fault : Option Nat}
    (hkey : w.KeyFits a.op a.key a.value) (hstray : w.LeavesNoStray a fault) :
    ∃ done' extra', (w.append a fault).2.Leaves done' extra' ∧
      (done' = done ∨ done' = done ++ [a]) ∧
      (done' ++ extra' = done ++ extra ∨ done' ++ extra' = done ∨ done' ++ extra' = done ++ [a]) := by
  have hmax := h.maxOff
  simp only [LeavesNoStray, completeEnd, append_eq] at hstray
  rw [append_eq]
  by_cases hroom : w.off + a.bytes.length > w.maxOff
  · simp only [if_pos hroom]
    exact ⟨done, extra, h, .inl rfl, .inl rfl⟩
  · simp only [if_neg hroom] at hstray ⊢
    have hfit : a.Fits := by
      have hlen := length_bytes a
      exact ⟨hkey.short (by omega), by omega⟩
    cases fault with
    | none =>
      obtain ⟨extra', hcase, hfile, hstop, hfits⟩ := h.complete hfit hstray
      have hassoc : (done ++ [a]) ++ extra' = done ++ a :: extra' := by simp
      refine ⟨done ++ [a], extra', ⟨?_, ?_, ?_, ?_, hmax⟩, .inr rfl, ?_⟩
      · rw [logBytes_snoc, List.length_append, h.off]
      · rwa [hassoc]
      · rwa [hassoc]
      · rwa [hassoc]
      · rw [hassoc]
        rcases hcase with heq | rfl
        · exact .inl heq
        · exact .inr (.inr rfl)
    | some n =>
      by_cases hn : n < a.bytes.length
      · simp only [if_pos hn] at hstray
        rcases hstray with hsame | hstop
        · simp only [hsame]
          exact ⟨done, extra, h, .inl rfl, .inl rfl⟩
        · obtain ⟨rest, hfile⟩ := h.file
          refine ⟨done, [], ⟨h.off, ?_, ?_, ?_, hmax⟩, .inl rfl,
            .inr (.inl (List.append_nil done))⟩
          · simp only [hfile, h.off, logBytes_append, List.append_assoc, overwrite_behind,
              List.append_nil]
            exact ⟨_, rfl⟩
          · rwa [List.append_nil, ← h.off]
          · exact fun b hb => h.fits b (List.mem_append_left extra (by simpa using hb))
      · have hall : a.bytes.take n = a.bytes := List.take_of_length_le (by omega)
        simp only [if_neg hn, hall] at hstray
        obtain ⟨extra', hcase, hfile, hstop, hfits⟩ := h.complete hfit hstray
        simp only [hall]
        refine ⟨done, a :: extra', ⟨h.off, hfile, hstop, hfits, hmax⟩, .inl rfl, ?_⟩
        rcases hcase with heq | rfl
        · exact .inl heq
        · exact .inr (.inr rfl)

/-! ## Replay -/

theorem Leaves.iterate (h : w.Leaves done extra) :
    w.iterate 0 = some (done.map Append.record, w.off, .eof) := by
  obtain ⟨rest, hfile⟩ := h.file
  have hfits : ∀ a ∈ done, a.Fits := fun a ha => h.fits a (List.mem_append_left extra ha)
  have hyields := yields_logBytes done (logBytes extra ++ rest) hfits [] w.off
    (by rw [h.off]; simp)
  rw [List.nil_append, ← List.append_assoc, ← logBytes_append, ← hfile] at hyields
  simp only [List.length_nil, Nat.zero_add, ← h.off] at hyields
  exact iterate_of_yields hyields (next_eof (Nat.le_refl _))

theorem le_repairLoop_logBytes (as : List Append) (tail : Bytes) (hfits : ∀ a ∈ as, a.Fits)
    (pre : Bytes) (fuel : Nat) (hfuel : as.length ≤ fuel) : pre.length + (logBytes as).length ≤
      repairLoop (pre ++ (logBytes as ++ tail)) fuel pre.length := by
  obtain ⟨fuel, rfl⟩ := Nat.exists_eq_add_of_le hfuel
  rw [repairLoop_over as tail hfits]
  exact (repairLoop_bounds _ fuel _ (by simp)).1

/-- A file of whole records and then nothing that replay accepts. -/
structure Replays (file : Bytes) (as : List Append) : Prop where
  records : ∃ rest, file = logBytes as ++ rest
  stop : (next file (logBytes as).length file.length).toOption = none
  fits : ∀ a ∈ as, a.Fits

theorem Leaves.replays (h : w.Leaves done extra) : Replays w.file (done ++ extra) :=
  ⟨h.file, h.stop, h.fits⟩

/-- Opening the file keeps its records, and replay reads them. -/
theorem Replays.openWAL {file : Bytes} {as : List Append} (h : Replays file as) (maxLen : Nat) :
    Replays (openWAL file maxLen).file as ∧
      ∃ stop, (WAL.openWAL file maxLen).iterate 0 = some (as.map Append.record, stop) := by
  obtain ⟨rest, hfile⟩ := h.records
  have hpos : (logBytes as).length ≤ repairTail file := by
    have hle := le_repairLoop_logBytes as rest h.fits [] file.length (by
      rw [hfile, List.length_append]
      exact Nat.le_add_right_of_le (length_le_logBytes as))
    rwa [List.nil_append, ← hfile, List.length_nil, Nat.zero_add] at hle
  have hbound : repairTail file ≤ file.length :=
    (repairLoop_bounds file file.length 0 (Nat.zero_le _)).2
  have htake : file.take (repairTail file) =
      logBytes as ++ rest.take (repairTail file - (logBytes as).length) := by
    rw [hfile, List.take_append, List.take_of_length_le (hfile ▸ hpos)]
  have hlen : (file.take (repairTail file)).length = repairTail file := by
    rw [List.length_take, Nat.min_eq_left hbound]
  -- what replay accepts in the shorter file it accepts in the longer one
  have hstop : (next (file.take (repairTail file)) (logBytes as).length
      (repairTail file)).toOption = none := by
    cases hnext : next (file.take (repairTail file)) (logBytes as).length (repairTail file) with
    | error e => rfl
    | ok p =>
      have hlong := (next_ok hnext).2.2 (file.drop (repairTail file)) file.length hbound
      have hnone := h.stop
      rw [List.take_append_drop] at hlong
      rw [hlong] at hnone
      cases hnone
  rw [openWAL_eq]
  refine ⟨⟨⟨_, htake⟩, by simpa only [hlen] using hstop, h.fits⟩, ?_⟩
  have hyields := yields_logBytes as (rest.take (repairTail file - (logBytes as).length)) h.fits []
    (repairTail file) (by simpa using hpos)
  rw [List.nil_append, ← htake, List.length_nil, Nat.zero_add] at hyields
  cases hnext : next (file.take (repairTail file)) (logBytes as).length (repairTail file) with
  | error e => exact ⟨_, iterate_of_yields hyields hnext⟩
  | ok p =>
    rw [hnext] at hstop
    cases hstop

end Horreum.Persist.WAL
