/-
  Persist/WalRepair.lean --- opening a log that a crash has left.

  A log that was cut off anywhere opens with exactly the records that lie before the cut,
  and goes on from there.  For arbitrary file content the two scanners agree exactly when
  every record that the repair scan passes over starts with the magic, which that scan does
  not look at.
-/
import Horreum.Persist.WalLog

set_option autoImplicit false

namespace Horreum.Persist.WAL

open Foundation

/-! ## Torn tails -/

/-- A sequence of appends, defined when each of them succeeds. -/
def appendAll (w : WAL) : List Append → Option WAL
  | [] => some w
  | a :: as =>
    match w.append a none with
    | (.ok _, w) => w.appendAll as
    | (.error _, _) => none

/-- The records that lie wholly before position `n` of the file. -/
def wholeBefore : List Append → (n : Nat) → List Append
  | [], _ => []
  | a :: as, n =>
    if a.bytes.length ≤ n then a :: wholeBefore as (n - a.bytes.length) else []

variable {w w' : WAL} {data : Bytes}

/-- Successful appends at the end of the file extend it by their log. -/
theorem appendAll_file (hend : w.off = w.file.length) : ∀ {as : List Append},
    w.appendAll as = some w' → w'.file = w.file ++ logBytes as ∧ w'.off = w'.file.length := by
  intro as
  induction as generalizing w with
  | nil =>
    intro hrun
    cases hrun
    exact ⟨(List.append_nil _).symm, hend⟩
  | cons a as ih =>
    intro hrun
    rw [WAL.appendAll, append_eq] at hrun
    split at hrun
    · rename_i off w₁ happ
      split at happ
      · cases happ
      · cases happ
        have hfile : overwrite w.file w.off a.bytes = w.file ++ a.bytes := by
          rw [hend, overwrite_at_end]
        obtain ⟨hfile', hoff'⟩ := ih (by rw [hfile, List.length_append, hend]) hrun
        refine ⟨?_, hoff'⟩
        rw [hfile']
        simp only [hfile, logBytes_cons, List.append_assoc]
    · cases hrun

theorem Logs.appendAll {as bs : List Append} (h : w.Logs as) (hrun : w.appendAll bs = some w') :
    w'.Logs (as ++ bs) := by
  obtain ⟨hfile, hoff⟩ := appendAll_file (by rw [h.off, h.file]) hrun
  rw [h.file, ← logBytes_append] at hfile
  exact ⟨hfile, by rw [hoff, hfile]⟩

theorem mem_wholeBefore {as : List Append} {n : Nat} {a : Append} (h : a ∈ wholeBefore as n) :
    a ∈ as := by
  induction as generalizing n with
  | nil => cases h
  | cons b bs ih =>
    rw [wholeBefore] at h
    split at h
    · rcases List.mem_cons.mp h with rfl | h
      · exact List.mem_cons_self ..
      · exact List.mem_cons_of_mem b (ih h)
    · cases h

/-- A cut log is its whole records and a tail that the repair scan stops at. -/
theorem take_logBytes {as : List Append} (hfits : ∀ a ∈ as, a.Fits) : ∀ (pre : Bytes) (n : Nat),
    ∃ tail, (logBytes as).take n = logBytes (wholeBefore as n) ++ tail ∧
      recordLen (pre ++ (logBytes (wholeBefore as n) ++ tail))
        (pre.length + (logBytes (wholeBefore as n)).length) = none := by
  induction as with
  | nil =>
    intro pre n
    refine ⟨[], by simp [wholeBefore, logBytes], ?_⟩
    have hend := recordLen_end pre
    simpa [wholeBefore, logBytes] using hend
  | cons a as ih =>
    intro pre n
    by_cases hle : a.bytes.length ≤ n
    · obtain ⟨tail, htake, hstop⟩ := ih (fun b hb => hfits b (List.mem_cons_of_mem a hb))
        (pre ++ a.bytes) (n - a.bytes.length)
      refine ⟨tail, ?_, ?_⟩
      · rw [wholeBefore, if_pos hle, logBytes_cons, logBytes_cons, List.take_append,
          List.take_of_length_le hle, htake, List.append_assoc]
      · rw [wholeBefore, if_pos hle, logBytes_cons]
        simpa [Nat.add_assoc] using hstop
    · have hlt : n < a.bytes.length := Nat.lt_of_not_le hle
      refine ⟨a.bytes.take n, ?_, ?_⟩
      · rw [wholeBefore, if_neg hle, logBytes_cons, List.take_append_of_le_length (by omega)]
        rfl
      · rw [wholeBefore, if_neg hle]
        exact recordLen_take pre (hfits a (List.mem_cons_self ..)) hlt

/-- A log cut off at any position opens with the records before the cut, and appends go on
behind them. -/
theorem iterate_cut_log (maxLen maxLen' : Nat) (as : List Append) (hfits : ∀ a ∈ as, a.Fits)
    (hrun : (openWAL [] maxLen).appendAll as = some w) (n : Nat) :
    (openWAL (w.file.take n) maxLen').iterate 0 =
        some ((wholeBefore as n).map Append.record, (openWAL (w.file.take n) maxLen').off, .eof) ∧
      ∀ (bs : List Append), (∀ b ∈ bs, b.Fits) →
        (openWAL (w.file.take n) maxLen').appendAll bs = some w' →
        w'.iterate 0 = some ((wholeBefore as n ++ bs).map Append.record, w'.off, .eof) := by
  have hlog : w.Logs as := by
    have hfresh : (openWAL [] maxLen).Logs [] := ⟨rfl, rfl⟩
    simpa using hfresh.appendAll hrun
  have hfits' : ∀ a ∈ wholeBefore as n, a.Fits := fun a ha => hfits a (mem_wholeBefore ha)
  obtain ⟨tail, htake, hstop⟩ := take_logBytes hfits [] n
  have hopen : (openWAL (w.file.take n) maxLen').Logs (wholeBefore as n) := by
    rw [hlog.file, htake]
    exact openWAL_logs maxLen' hfits' (by simpa using hstop)
  refine ⟨hopen.iterate hfits', fun bs hbs hrun' => ?_⟩
  refine (hopen.appendAll hrun').iterate ?_
  intro a ha
  rcases List.mem_append.mp ha with ha | ha
  · exact hfits' a ha
  · exact hbs a ha

/-- Three records cut inside the second, and one more after reopening. -/
theorem iterate_cut_log_inside_second :
    ∃ w w', (openWAL [] 4096).appendAll [.set [97] [1, 2] ⟨8192, 2, 0⟩,
        .setEx [98] [3] ⟨8200, 1, 0⟩ 7, .del [97]] = some w ∧
      (openWAL (w.file.take 40) 4096).appendAll [.del [99]] = some w' ∧
      w'.iterate 0 = some ([⟨.set, some [97], some [1, 2], 8192, 2, 0, 0⟩,
        ⟨.del, some [99], none, 0, 0, 0, 0⟩], w'.off, .eof) := by
  obtain ⟨w, hrun, w', hrun'⟩ : ∃ w, (openWAL [] 4096).appendAll [.set [97] [1, 2] ⟨8192, 2, 0⟩,
      .setEx [98] [3] ⟨8200, 1, 0⟩ 7, .del [97]] = some w ∧
      ∃ w', (openWAL (w.file.take 40) 4096).appendAll [.del [99]] = some w' := by
    decide +kernel
  exact ⟨w, w', hrun, hrun',
    (iterate_cut_log 4096 4096 _ (by decide) hrun 40).2 [.del [99]] (by decide) hrun'⟩

/-! ## Arbitrary content -/

/-- Where the records start that the repair scan passes over. -/
def recordStarts (data : Bytes) : (fuel : Nat) → (pos : Nat) → List Nat
  | 0, _ => []
  | fuel + 1, pos =>
    match recordLen data pos with
    | none => []
    | some recLen => pos :: recordStarts data fuel (pos + recLen)

/-- Every record that the repair scan passes over starts with the magic. -/
def MagicThroughout (data : Bytes) : Prop :=
  ∀ pos ∈ recordStarts data data.length 0, (data.drop pos).take 4 = walMagic

instance (data : Bytes) : Decidable (MagicThroughout data) :=
  inferInstanceAs (Decidable (∀ pos ∈ recordStarts data data.length 0, _))

/-- What the repair scan knows of a record that it passes over. -/
theorem recordLen_cases {pos n : Nat} (h : recordLen data pos = some n) :
    ∃ op, WalOp.ofCode (data.getD (pos + 4) 0) = some op ∧
      n = walHeaderSize op + wordAt data (pos + 5) 2 + wordAt data (pos + 7) 4 ∧
      pos + n ≤ data.length := by
  simp only [recordLen] at h
  split at h
  · cases h
  · rename_i hmin
    split at h
    · cases h
    · rename_i op hop
      split at h
      · cases h
      · split at h
        · cases h
        · cases h
          simp only [walHeaderSizeDel] at hmin
          exact ⟨op, hop, rfl, by omega⟩

theorem recordLen_pos {pos n : Nat} (h : recordLen data pos = some n) : 11 ≤ n := by
  obtain ⟨op, _, hlen, _⟩ := recordLen_cases h
  have hle := walHeaderSizeDel_le op
  simp only [walHeaderSizeDel] at hle
  omega

theorem repairLoop_bounds (data : Bytes) : ∀ (fuel pos : Nat), pos ≤ data.length →
    pos ≤ repairLoop data fuel pos ∧ repairLoop data fuel pos ≤ data.length
  | 0, pos, hpos => ⟨Nat.le_refl _, hpos⟩
  | fuel + 1, pos, hpos => by
    rw [repairLoop]
    split
    · exact ⟨Nat.le_refl _, hpos⟩
    · rename_i n hn
      obtain ⟨_, _, _, hin⟩ := recordLen_cases hn
      obtain ⟨hlo, hhi⟩ := repairLoop_bounds data fuel (pos + n) hin
      exact ⟨by omega, hhi⟩

theorem readAt_take {stop off n : Nat} (hstop : stop ≤ data.length) (hin : off + n ≤ stop) :
    readAt (data.take stop) off n = .ok (slice data off (off + n)) := by
  have hlen : (data.take stop).length = stop := by
    rw [List.length_take]
    omega
  have hslice : slice (data.take stop) off (off + n) = slice data off (off + n) := by
    conv_rhs => rw [← List.take_append_drop stop data]
    rw [slice_append_left (by omega) (by omega)]
  rw [readAt, slice?, if_pos (by omega), hslice]

theorem wordAt_slice {lo hi at_ w : Nat} (hin : lo + at_ + w ≤ hi) :
    wordAt (slice data lo hi) at_ w = wordAt data (lo + at_) w := by
  have hdrop : ((data.drop lo).take (hi - lo)).drop at_ =
      (data.drop (lo + at_)).take (hi - lo - at_) := by
    rw [List.drop_take, List.drop_drop]
  simp only [wordAt, slice, hdrop, List.take_take, Nat.add_sub_cancel_left]
  rw [Nat.min_eq_left (by omega)]

/-- At a record that the repair scan passes over, the iterator agrees about its length or
stops at its magic. -/
theorem next_of_recordLen {pos n stop : Nat} (hn : recordLen data pos = some n)
    (hin : pos + n ≤ stop) (hstop : stop ≤ data.length) :
    ((data.drop pos).take 4 = walMagic →
      ∃ r, next (data.take stop) pos stop = .ok (r, pos + n)) ∧
    ((data.drop pos).take 4 ≠ walMagic →
      next (data.take stop) pos stop = .error .badMagic) := by
  obtain ⟨op, hop, hlen, _⟩ := recordLen_cases hn
  have hle := walHeaderSizeDel_le op
  have hmin : pos + walHeaderSizeDel ≤ stop := by omega
  have hhdr := readAt_take hstop hmin
  have hmagic : (slice data pos (pos + walHeaderSizeDel)).take 4 = (data.drop pos).take 4 := by
    rw [slice, List.take_take, Nat.add_sub_cancel_left]
    rfl
  simp only [walHeaderSizeDel] at hle hmin
  constructor
  · intro hok
    have hcode : (slice data pos (pos + walHeaderSizeDel)).getD 4 0 = data.getD (pos + 4) 0 := by
      simp only [List.getD_eq_getElem?_getD]
      rw [getElem?_slice (by simp [walHeaderSizeDel])]
    have hparts : slice data pos (pos + walHeaderSizeDel) ++
        slice data (pos + walHeaderSizeDel) (pos + walHeaderSizeDel +
          (walHeaderSize op - walHeaderSizeDel)) = slice data pos (pos + walHeaderSize op) := by
      have hsum : pos + walHeaderSize op - pos =
          walHeaderSizeDel + (walHeaderSize op - walHeaderSizeDel) := by
        simp only [walHeaderSizeDel]
        omega
      simp only [slice, Nat.add_sub_cancel_left, hsum]
      rw [List.take_add, List.drop_drop]
    rw [next, if_neg (by omega)]
    simp only [hhdr, bind, Except.bind, hmagic, hok, ne_eq, not_true_eq_false, if_false, hcode,
      hop]
    rw [readAt_take hstop (by simp only [walHeaderSizeDel]; omega)]
    simp only [hparts]
    rw [wordAt_slice (by omega), wordAt_slice (by omega), ← hlen, if_neg (by omega),
      readAt_take hstop (by omega)]
    simp only
    rw [readAt_take hstop (by split <;> omega)]
    exact ⟨_, rfl⟩
  · intro hbad
    rw [next, if_neg (by omega)]
    simp only [hhdr, bind, Except.bind, hmagic, ne_eq, hbad, not_false_eq_true, if_true]

/-- The iterator gets through what the repair scan left exactly when it meets the magic at
every record. -/
theorem yields_iff_magic (data : Bytes) : ∀ (fuel pos : Nat), pos ≤ data.length →
    ((∃ recs, Yields (data.take (repairLoop data fuel pos)) (repairLoop data fuel pos) pos recs
        (repairLoop data fuel pos)) ↔
      ∀ p ∈ recordStarts data fuel pos, (data.drop p).take 4 = walMagic)
  | 0, pos, _ => ⟨fun _ p hp => (by cases hp), fun _ => ⟨[], .done pos⟩⟩
  | fuel + 1, pos, hpos => by
    rw [repairLoop, recordStarts]
    cases hn : recordLen data pos with
    | none => exact ⟨fun _ p hp => (by cases hp), fun _ => ⟨[], .done pos⟩⟩
    | some n =>
      obtain ⟨_, _, hlen, hin⟩ := recordLen_cases hn
      obtain ⟨hlo, hhi⟩ := repairLoop_bounds data fuel (pos + n) hin
      have ih := yields_iff_magic data fuel (pos + n) hin
      obtain ⟨hgood, hbad⟩ := next_of_recordLen hn hlo hhi
      simp only [List.mem_cons, forall_eq_or_imp]
      constructor
      · rintro ⟨recs, hyields⟩
        by_cases hmagic : (data.drop pos).take 4 = walMagic
        · obtain ⟨r, hr⟩ := hgood hmagic
          refine ⟨hmagic, ih.mp ?_⟩
          generalize repairLoop data fuel (pos + n) = stop at *
          cases hyields with
          | done =>
            have hle := recordLen_pos hn
            omega
          | step hnext hrest =>
            rw [hr] at hnext
            cases hnext
            exact ⟨_, hrest⟩
        · have hstop := hbad hmagic
          generalize repairLoop data fuel (pos + n) = stop at *
          cases hyields with
          | done =>
            have hle := recordLen_pos hn
            omega
          | step hnext _ =>
            rw [hstop] at hnext
            cases hnext
      · rintro ⟨hmagic, hrest⟩
        obtain ⟨r, hr⟩ := hgood hmagic
        obtain ⟨recs, hyields⟩ := ih.mpr hrest
        exact ⟨r :: recs, .step hr hyields⟩

theorem openWAL_eq (content : Bytes) (maxLen : Nat) :
    openWAL content maxLen = ⟨content.take (repairTail content), repairTail content, maxLen⟩ := by
  have hbound := (repairLoop_bounds content content.length 0 (Nat.zero_le _)).2
  simp only [openWAL]
  split
  · rfl
  · rename_i hall
    have hlen : repairTail content = content.length :=
      Nat.le_antisymm hbound (Nat.le_of_not_lt hall)
    rw [hlen, List.take_length]

/-- A record that the cut keeps is still there. -/
theorem recordLen_cut {pos n stop : Nat} (hn : recordLen data pos = some n) (hin : pos + n ≤ stop)
    (hstop : stop ≤ data.length) :
    recordLen (data.take stop) pos = some n := by
  obtain ⟨op, hop, hlen, _⟩ := recordLen_cases hn
  have hle := walHeaderSizeDel_le op
  have hmin := recordLen_pos hn
  simp only [walHeaderSizeDel] at hle
  have htake : data.take stop = slice data 0 stop := by rw [slice, List.drop_zero, Nat.sub_zero]
  have hcode : (data.take stop).getD (pos + 4) 0 = data.getD (pos + 4) 0 := by
    rw [List.getD_eq_getElem?_getD, List.getD_eq_getElem?_getD,
      List.getElem?_take_of_lt (by omega)]
  have hword : ∀ at_ w, at_ + w ≤ stop → wordAt (data.take stop) at_ w = wordAt data at_ w := by
    intro at_ w hw
    rw [htake, wordAt_slice (by omega), Nat.zero_add]
  have hcut : (data.take stop).length = stop := by
    rw [List.length_take]
    omega
  simp only [recordLen, hcut, hcode, hop]
  rw [if_neg (by simp only [walHeaderSizeDel]; omega), if_neg (by omega), hword _ _ (by omega),
    hword _ _ (by omega), ← hlen, if_neg (by omega)]

/-- The scan of what the repair has left goes to its end. -/
theorem repairLoop_cut (data : Bytes) : ∀ (fuel pos fuel' : Nat), pos ≤ data.length →
    repairLoop data fuel pos ≤ pos + fuel' →
    repairLoop (data.take (repairLoop data fuel pos)) fuel' pos = repairLoop data fuel pos := by
  have hend : ∀ pos fuel', pos ≤ data.length → repairLoop (data.take pos) fuel' pos = pos := by
    intro pos fuel' hpos
    have hlen : (data.take pos).length = pos := List.length_take_of_le hpos
    cases fuel' with
    | zero => rfl
    | succ fuel' =>
      have hstop := recordLen_end (data.take pos)
      rw [hlen] at hstop
      rw [repairLoop, hstop]
  intro fuel
  induction fuel with
  | zero => exact fun pos fuel' hpos _ => hend pos fuel' hpos
  | succ fuel ih =>
    intro pos fuel' hpos hfuel
    rw [repairLoop] at hfuel ⊢
    cases hn : recordLen data pos with
    | none => exact hend pos fuel' hpos
    | some n =>
      obtain ⟨_, _, _, hin⟩ := recordLen_cases hn
      have hmin := recordLen_pos hn
      obtain ⟨hlo, hhi⟩ := repairLoop_bounds data fuel (pos + n) hin
      simp only [hn] at hfuel ⊢
      obtain ⟨more, rfl⟩ : ∃ more, fuel' = more + 1 := ⟨fuel' - 1, by omega⟩
      rw [repairLoop, recordLen_cut hn hlo hhi]
      exact ih (pos + n) more hin (by omega)

/-- Opening a log twice is opening it once. -/
theorem openWAL_openWAL (content : Bytes) (maxLen : Nat) :
    openWAL (openWAL content maxLen).file maxLen = openWAL content maxLen := by
  have hbound := (repairLoop_bounds content content.length 0 (Nat.zero_le _)).2
  have hlen : (content.take (repairTail content)).length = repairTail content :=
    List.length_take_of_le hbound
  have hsame : repairTail (content.take (repairTail content)) = repairTail content := by
    rw [repairTail, hlen]
    exact repairLoop_cut content content.length 0 _ (Nat.zero_le _) (Nat.le_add_left _ _)
  rw [openWAL_eq content, openWAL_eq, hsame, List.take_take, Nat.min_self]

/-- After any file content is opened, the iterator reaches the write offset without an error,
and then everything appended, exactly when all records kept by the repair have the magic. -/
theorem iterate_reaches_off_iff (content : Bytes) (maxLen : Nat) :
    (∃ recs, (openWAL content maxLen).iterate 0 =
        some (recs, (openWAL content maxLen).off, .eof) ∧
      ∀ (as : List Append) (w' : WAL), (∀ a ∈ as, a.Fits) →
        (openWAL content maxLen).appendAll as = some w' →
        w'.iterate 0 = some (recs ++ as.map Append.record, w'.off, .eof)) ↔
      MagicThroughout content := by
  have hbound := (repairLoop_bounds content content.length 0 (Nat.zero_le _)).2
  have hiff := yields_iff_magic content content.length 0 (Nat.zero_le _)
  rw [openWAL_eq]
  constructor
  · rintro ⟨recs, hiter, _⟩
    exact hiff.mp ⟨recs, yields_of_iterateLoop hiter⟩
  · intro hmagic
    obtain ⟨recs, hyields⟩ := hiff.mpr hmagic
    refine ⟨recs, iterate_of_yields hyields (next_eof (Nat.le_refl _)), ?_⟩
    intro as w' hfits hrun
    have hlen : (content.take (repairTail content)).length = repairTail content := by
      rw [List.length_take]
      exact Nat.min_eq_left hbound
    obtain ⟨hfile, hoff⟩ := appendAll_file (by simp only [hlen]) hrun
    simp only at hfile
    have hoff' : w'.off = repairTail content + (logBytes as).length := by
      rw [hoff, hfile, List.length_append, hlen]
    have hall := yields_logBytes as [] hfits (content.take (repairTail content)) w'.off
      (by rw [hlen, hoff'])
    rw [List.append_nil, hlen, ← hfile, ← hoff'] at hall
    have hgrow : repairTail content ≤ w'.off := by
      rw [hoff']
      exact Nat.le_add_right _ _
    have hold := hyields.extend (logBytes as) hgrow
    rw [← repairTail, ← hfile] at hold
    have hwhole := hold.trans hall
    exact iterate_of_yields hwhole (next_eof (Nat.le_refl _))

/-- Eleven bytes that look like a DEL record but for the magic: opening keeps them, and the
iterator never gets past them to a record appended later. -/
theorem bad_magic_hides_appends :
    ∃ w', (openWAL [0x58, 0x58, 0x58, 0x58, 2, 0, 0, 0, 0, 0, 0] 4096).off = 11 ∧
      (openWAL [0x58, 0x58, 0x58, 0x58, 2, 0, 0, 0, 0, 0, 0] 4096).iterate 0 =
        some ([], 0, .badMagic) ∧
      (openWAL [0x58, 0x58, 0x58, 0x58, 2, 0, 0, 0, 0, 0, 0] 4096).appendAll [.del [97]] =
        some w' ∧
      w'.iterate 0 = some ([], 0, .badMagic) := by
  refine ⟨⟨[0x58, 0x58, 0x58, 0x58, 2, 0, 0, 0, 0, 0, 0, 0x57, 0x41, 0x4c, 0, 2, 1, 0, 0, 0, 0, 0,
    97], 23, 4096⟩, ?_, ?_, ?_, ?_⟩ <;> decide +kernel

end Horreum.Persist.WAL
