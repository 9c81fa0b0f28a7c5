/-
  Persist/WalLog.lean --- the log file as a list of appends.

  `Append.bytes` is what a complete append writes and `Append.record` what the iterator
  makes of it.  Both scanners, run over the bytes of a list of appends, step from record to
  record; a tail that is not a complete record is where the repair scan cuts.
-/
import Horreum.Foundation.Runs
import Horreum.Persist.Wal

set_option autoImplicit false

namespace Horreum.Persist.WAL

open Foundation

namespace Append

/-- The operation of a record. -/
def op : Append → WalOp
  | .set .. => .set
  | .setEx .. => .setEx
  | .del _ => .del

/-- Its key. -/
def key : Append → Bytes
  | .set key _ _ => key
  | .setEx key _ _ _ => key
  | .del key => key

/-- Its value, empty for a deletion. -/
def value : Append → Bytes
  | .set _ value _ => value
  | .setEx _ value _ _ => value
  | .del _ => []

/-- Its handle, zero for a deletion. -/
def handle : Append → ArenaHandleLike
  | .set _ _ h => h
  | .setEx _ _ h _ => h
  | .del _ => ⟨0, 0, 0⟩

/-- Its expiry, or zero. -/
def expiresAt : Append → UInt32
  | .setEx _ _ _ expiresAt => expiresAt
  | _ => 0

/-- The record that the iterator yields for the call. -/
def record (a : Append) : WALRecord :=
  ⟨a.op, Slice.ofRead a.key, Slice.ofRead a.value, a.handle.offset, a.handle.size,
    a.handle.region, a.expiresAt⟩

/-- The header of the record. -/
def header (a : Append) : Bytes :=
  WAL.header a.op a.key.length a.value.length a.handle a.expiresAt

/-- The record in the file. -/
def bytes (a : Append) : Bytes := a.header ++ (a.key ++ a.value)

/-- The lengths fit in the fields of the header. -/
structure Fits (a : Append) : Prop where
  key : a.key.length < 2 ^ 16
  value : a.value.length < 2 ^ 32

instance (a : Append) : Decidable a.Fits :=
  decidable_of_iff (a.key.length < 2 ^ 16 ∧ a.value.length < 2 ^ 32)
    ⟨fun h => ⟨h.1, h.2⟩, fun h => ⟨h.1, h.2⟩⟩

end Append

theorem ofCode_code (op : WalOp) : WalOp.ofCode op.code = some op := by
  cases op <;> rfl

theorem walHeaderSizeDel_le (op : WalOp) : walHeaderSizeDel ≤ walHeaderSize op := by
  cases op <;> decide

theorem length_header (a : Append) : a.header.length = walHeaderSize a.op := by
  cases a <;> simp [Append.header, header, Append.op, walMagic, walHeaderSize, walHeaderSizeDel]

theorem length_bytes (a : Append) :
    a.bytes.length = walHeaderSize a.op + a.key.length + a.value.length := by
  rw [Append.bytes, List.length_append, length_header, List.length_append, Nat.add_assoc]

theorem eleven_le_length_bytes (a : Append) : 11 ≤ a.bytes.length := by
  have hsize := walHeaderSizeDel_le a.op
  rw [length_bytes]
  simp only [walHeaderSizeDel] at hsize
  omega

/-! ## What an append does to the file -/

theorem append_eq (w : WAL) (a : Append) (fault : Option Nat) :
    w.append a fault =
      if w.off + a.bytes.length > w.maxOff then (.error .logFull, w)
      else
        match fault with
        | some n => (.error .write, { w with file := overwrite w.file w.off (a.bytes.take n) })
        | none => (.ok w.off, { w with
            file := overwrite w.file w.off a.bytes
            off := w.off + a.bytes.length }) := by
  have happ : w.append a fault =
      w.appendRecord a.op a.key a.value a.handle a.expiresAt fault := by
    cases a <;> rfl
  rw [happ, appendRecord, length_bytes]
  split
  · rfl
  · cases fault with
    | some n => rfl
    | none =>
      have hhdr : header a.op a.key.length a.value.length a.handle a.expiresAt = a.header := rfl
      simp only [Append.bytes, hhdr]
      rw [← length_header, overwrite_append, overwrite_append]

/-- The log refuses the record, or the length of its key fits in the header. -/
def KeyFits (w : WAL) (op : WalOp) (key value : Bytes) : Prop :=
  w.off + (walHeaderSize op + key.length + value.length) ≤ w.maxOff → key.length < 2 ^ 16

instance (w : WAL) (op : WalOp) (key value : Bytes) : Decidable (w.KeyFits op key value) :=
  inferInstanceAs (Decidable (_ → _))

theorem KeyFits.short {w : WAL} {a : Append} (h : w.KeyFits a.op a.key a.value)
    (hroom : w.off + a.bytes.length ≤ w.maxOff) : a.key.length < 2 ^ 16 :=
  h (length_bytes a ▸ hroom)

/-! ## Reading one record -/

/-- The four fields that all operations have in common, in front of the rest. -/
theorem header_split (a : Append) : ∃ rest,
    a.header = walMagic ++ ([a.op.code] ++ (leBytes 2 a.key.length ++
      (leBytes 4 a.value.length ++ rest))) := by
  cases a with
  | set key value h => exact ⟨_, rfl⟩
  | setEx key value h expiresAt => exact ⟨_, rfl⟩
  | del key => exact ⟨[], by simp [Append.header, header, Append.op, Append.key, Append.value]⟩

variable {a : Append} (pre post : Bytes) {file : Bytes} {recs : List WALRecord}

theorem code_at : (pre ++ (a.header ++ post)).getD (pre.length + 4) 0 = a.op.code := by
  obtain ⟨rest, hhdr⟩ := header_split a
  simp [hhdr, walMagic, List.getD_eq_getElem?_getD]

/-- The key length is cut to 16 bits. -/
theorem keyLen_cut :
    wordAt (pre ++ (a.header ++ post)) (pre.length + 5) 2 = a.key.length % 2 ^ 16 := by
  obtain ⟨rest, hhdr⟩ := header_split a
  have hsplit : pre ++ (a.header ++ post) = (pre ++ walMagic ++ [a.op.code]) ++
      (leBytes 2 a.key.length ++ (leBytes 4 a.value.length ++ rest ++ post)) := by
    simp [hhdr]
  rw [hsplit]
  exact wordAt_append 2 _ (by simp [walMagic])

/-- The value length is cut to 32 bits. -/
theorem valLen_cut :
    wordAt (pre ++ (a.header ++ post)) (pre.length + 7) 4 = a.value.length % 2 ^ 32 := by
  obtain ⟨rest, hhdr⟩ := header_split a
  have hsplit : pre ++ (a.header ++ post) =
      (pre ++ walMagic ++ [a.op.code] ++ leBytes 2 a.key.length) ++
        (leBytes 4 a.value.length ++ (rest ++ post)) := by
    simp [hhdr]
  rw [hsplit]
  exact wordAt_append 4 _ (by simp [walMagic])

theorem keyLen_at (hfit : a.Fits) :
    wordAt (pre ++ (a.header ++ post)) (pre.length + 5) 2 = a.key.length := by
  rw [keyLen_cut, Nat.mod_eq_of_lt hfit.key]

theorem valLen_at (hfit : a.Fits) :
    wordAt (pre ++ (a.header ++ post)) (pre.length + 7) 4 = a.value.length := by
  rw [valLen_cut, Nat.mod_eq_of_lt hfit.value]

/-- The repair scan passes over a complete record. -/
theorem recordLen_bytes (hfit : a.Fits) :
    recordLen (pre ++ (a.bytes ++ post)) pre.length = some a.bytes.length := by
  have hlen := length_bytes a
  have heleven := eleven_le_length_bytes a
  have hrem : (pre ++ (a.bytes ++ post)).length - pre.length = a.bytes.length + post.length := by
    simp
  have hfile : pre ++ (a.bytes ++ post) = pre ++ (a.header ++ (a.key ++ a.value ++ post)) := by
    simp [Append.bytes]
  simp only [recordLen, hrem, walHeaderSizeDel]
  rw [if_neg (by omega), hfile, code_at, ofCode_code, keyLen_at _ _ hfit, valLen_at _ _ hfit]
  simp only
  rw [if_neg (by omega), if_neg (by omega), hlen]

theorem readAt_append {b rest : Bytes} {off n : Nat} (hoff : pre.length = off)
    (hn : b.length = n) : readAt (pre ++ (b ++ rest)) off n = .ok b := by
  rw [readAt, slice?_append hoff (by rw [hn])]

/-- The fields of a header that only the SET operations have. -/
theorem header_fields (a : Append) :
    (a.op ≠ .del → UInt32.ofNat (wordAt a.header 11 4) = a.handle.offset ∧
      UInt32.ofNat (wordAt a.header 15 4) = a.handle.size ∧
      a.header.getD 19 0 = a.handle.region) ∧
    (a.op = .setEx → UInt32.ofNat (wordAt a.header 20 4) = a.expiresAt) := by
  cases a with
  | del key => exact ⟨fun h => absurd rfl h, fun h => nomatch h⟩
  | set key value h =>
    have hhdr : (Append.set key value h).header = walMagic ++ [WalOp.set.code] ++
        leBytes 2 key.length ++ leBytes 4 value.length ++
          (leBytes 4 h.offset.toNat ++ (leBytes 4 h.size.toNat ++ [h.region])) := by
      simp [Append.header, header, Append.op, Append.key, Append.value, Append.handle]
    refine ⟨fun _ => ⟨?_, ?_, ?_⟩, fun h => nomatch h⟩
    · rw [hhdr]
      exact ofNat32_wordAt h.offset (by simp [walMagic])
    · rw [hhdr, ← List.append_assoc]
      exact ofNat32_wordAt h.size (by simp [walMagic])
    · rw [hhdr]
      simp [walMagic, Append.handle, List.getD_eq_getElem?_getD]
  | setEx key value h expiresAt =>
    have hhdr : (Append.setEx key value h expiresAt).header = walMagic ++ [WalOp.setEx.code] ++
        leBytes 2 key.length ++ leBytes 4 value.length ++ (leBytes 4 h.offset.toNat ++
          (leBytes 4 h.size.toNat ++ ([h.region] ++ leBytes 4 expiresAt.toNat))) := by
      simp [Append.header, header, Append.op, Append.key, Append.value, Append.handle,
        Append.expiresAt]
    refine ⟨fun _ => ⟨?_, ?_, ?_⟩, fun _ => ?_⟩
    · rw [hhdr]
      exact ofNat32_wordAt h.offset (by simp [walMagic])
    · rw [hhdr, ← List.append_assoc]
      exact ofNat32_wordAt h.size (by simp [walMagic])
    · rw [hhdr]
      simp [walMagic, Append.handle, List.getD_eq_getElem?_getD]
    · rw [hhdr, ← List.append_assoc, ← List.append_assoc, ← List.append_assoc,
        ← List.append_nil (leBytes 4 expiresAt.toNat)]
      exact ofNat32_wordAt expiresAt (by simp [walMagic])

/-- The iterator reads the header in two parts. -/
theorem readAt_header :
    readAt (pre ++ (a.header ++ post)) pre.length walHeaderSizeDel =
      .ok (a.header.take walHeaderSizeDel) ∧
    readAt (pre ++ (a.header ++ post)) (pre.length + walHeaderSizeDel)
      (walHeaderSize a.op - walHeaderSizeDel) = .ok (a.header.drop walHeaderSizeDel) := by
  have hsize := length_header a
  have hle := walHeaderSizeDel_le a.op
  have hparts : a.header ++ post = a.header.take walHeaderSizeDel ++
      (a.header.drop walHeaderSizeDel ++ post) := by
    rw [← List.append_assoc, List.take_append_drop]
  rw [hparts]
  constructor
  · exact readAt_append _ rfl (by rw [List.length_take, hsize]; omega)
  · rw [← List.append_assoc]
    exact readAt_append _ (by rw [List.length_append, List.length_take, hsize]; omega)
      (by rw [List.length_drop, hsize])

/-- What the iterator makes of a complete record. -/
theorem next_bytes (hfit : a.Fits) {endOff : Nat} (hend : pre.length + a.bytes.length ≤ endOff) :
    next (pre ++ (a.bytes ++ post)) pre.length endOff =
      .ok (a.record, pre.length + a.bytes.length) := by
  obtain ⟨rest, hsplit⟩ := header_split a
  obtain ⟨hset, hex⟩ := header_fields a
  have hkeyLen : wordAt a.header 5 2 = a.key.length := by
    simpa using keyLen_at [] [] hfit
  have hvalLen : wordAt a.header 7 4 = a.value.length := by
    simpa using valLen_at [] [] hfit
  have hfile : pre ++ (a.bytes ++ post) = pre ++ (a.header ++ (a.key ++ (a.value ++ post))) := by
    simp [Append.bytes]
  have hlen := length_bytes a
  have heleven := eleven_le_length_bytes a
  have hsize := length_header a
  obtain ⟨hmin, hextra⟩ := readAt_header (a := a) pre (a.key ++ (a.value ++ post))
  have hkey : readAt (pre ++ (a.header ++ (a.key ++ (a.value ++ post))))
      (pre.length + walHeaderSize a.op) a.key.length = .ok a.key := by
    rw [← List.append_assoc]
    exact readAt_append _ (by rw [List.length_append, hsize]) rfl
  have hvalue : readAt (pre ++ (a.header ++ (a.key ++ (a.value ++ post))))
      (pre.length + walHeaderSize a.op + a.key.length)
      (if a.op = .del then 0 else a.value.length) = .ok a.value := by
    rw [← List.append_assoc, ← List.append_assoc]
    refine readAt_append _ (by rw [List.length_append, List.length_append, hsize]) ?_
    cases a <;> rfl
  have hmagic : (a.header.take walHeaderSizeDel).take 4 = walMagic := by
    rw [hsplit, List.take_take]
    rfl
  have hcode : (a.header.take walHeaderSizeDel).getD 4 0 = a.op.code := by
    rw [hsplit]
    simp [walMagic, walHeaderSizeDel, List.getD_eq_getElem?_getD]
  rw [hfile, next, if_neg (by omega)]
  simp only [hmin, hextra, hmagic, hcode, ofCode_code, List.take_append_drop, hkeyLen, hvalLen,
    bind, Except.bind, ne_eq, not_true_eq_false, if_false, hkey, hvalue]
  rw [if_neg (by omega), ← hlen]
  cases a with
  | del key => rfl
  | set key value h =>
    obtain ⟨hoff, hsz, hreg⟩ := hset (fun h => nomatch h)
    simp only [Append.record, Append.op, hoff, hsz, hreg]
    rfl
  | setEx key value h expiresAt =>
    obtain ⟨hoff, hsz, hreg⟩ := hset (fun h => nomatch h)
    simp only [Append.record, Append.op, hoff, hsz, hreg, hex rfl]
    rfl

/-! ## Reading a log -/

/-- The file that a list of appends leaves. -/
def logBytes (as : List Append) : Bytes := as.flatMap Append.bytes

@[simp] theorem logBytes_cons (a : Append) (as : List Append) :
    logBytes (a :: as) = a.bytes ++ logBytes as := rfl

/-- The first record of a log, between what is before and after. -/
theorem append_logBytes_cons (pre tail : Bytes) (a : Append) (as : List Append) :
    pre ++ (logBytes (a :: as) ++ tail) = pre ++ (a.bytes ++ (logBytes as ++ tail)) := by
  rw [logBytes_cons, List.append_assoc]

@[simp] theorem logBytes_append (as bs : List Append) :
    logBytes (as ++ bs) = logBytes as ++ logBytes bs :=
  List.flatMap_append

theorem length_le_logBytes (as : List Append) : as.length ≤ (logBytes as).length :=
  length_le_flatMap (fun a => Nat.lt_of_lt_of_le (by decide) (eleven_le_length_bytes a)) as

/-- The repair scan steps over whole records. -/
theorem repairLoop_over (as : List Append) (tail : Bytes) (hfits : ∀ a ∈ as, a.Fits) :
    ∀ (pre : Bytes) (fuel : Nat), repairLoop (pre ++ (logBytes as ++ tail)) (as.length + fuel)
      pre.length = repairLoop (pre ++ (logBytes as ++ tail)) fuel
        (pre.length + (logBytes as).length) := by
  induction as with
  | nil => exact fun pre fuel => by rw [List.length_nil, Nat.zero_add]; rfl
  | cons a as ih =>
    intro pre fuel
    have hend : pre.length + (logBytes (a :: as)).length =
        (pre ++ a.bytes).length + (logBytes as).length := by
      simp [Nat.add_assoc]
    rw [append_logBytes_cons, hend, List.length_cons, Nat.add_right_comm, repairLoop,
      recordLen_bytes _ _ (hfits a List.mem_cons_self), ← List.append_assoc]
    dsimp only
    rw [← List.length_append]
    exact ih (fun b hb => hfits b (List.mem_cons_of_mem a hb)) _ _

/-- It stops at a tail that is none. -/
theorem repairLoop_logBytes (as : List Append) (tail : Bytes) (hfits : ∀ a ∈ as, a.Fits)
    (pre : Bytes) (fuel : Nat) (hfuel : as.length ≤ fuel)
    (hstop : recordLen (pre ++ (logBytes as ++ tail)) (pre.length + (logBytes as).length) = none) :
    repairLoop (pre ++ (logBytes as ++ tail)) fuel pre.length =
      pre.length + (logBytes as).length := by
  obtain ⟨fuel, rfl⟩ := Nat.exists_eq_add_of_le hfuel
  rw [repairLoop_over as tail hfits]
  cases fuel with
  | zero => rfl
  | succ fuel => rw [repairLoop, hstop]

theorem next_eof {off endOff : Nat} (h : endOff ≤ off) : next file off endOff = .error .eof := by
  rw [next, if_pos h]

/-- The iterator goes from `pos` to `stop` and yields `recs` on the way. -/
inductive Yields (file : Bytes) (endOff : Nat) : (pos : Nat) → List WALRecord → (stop : Nat) → Prop
  | done (pos : Nat) : Yields file endOff pos [] pos
  | step {pos pos' stop : Nat} {r : WALRecord} {recs : List WALRecord} :
      next file pos endOff = .ok (r, pos') → Yields file endOff pos' recs stop →
      Yields file endOff pos (r :: recs) stop

theorem Yields.trans {endOff pos mid stop : Nat} {recs recs' : List WALRecord}
    (h : Yields file endOff pos recs mid) (h' : Yields file endOff mid recs' stop) :
    Yields file endOff pos (recs ++ recs') stop := by
  induction h with
  | done pos => exact h'
  | step hnext _ ih => exact .step hnext (ih h')

theorem readAt_extend {file b : Bytes} {off n : Nat} (h : readAt file off n = .ok b) (ext : Bytes) :
    readAt (file ++ ext) off n = .ok b := by
  simp only [readAt, slice?] at h ⊢
  split at h
  · rename_i c hc
    split at hc
    · rename_i hin
      rw [if_pos ⟨hin.1, by rw [List.length_append]; omega⟩, slice_append_left hin.1 hin.2]
      cases hc
      exact h
    · cases hc
  · cases h

/-- A record has at least eleven bytes, ends before the end of the log, and is still read
when the log has grown. -/
theorem next_ok {off off' endOff : Nat} {r : WALRecord} (h : next file off endOff = .ok (r, off')) :
    off + 11 ≤ off' ∧ off' ≤ endOff ∧
      ∀ ext endOff', endOff ≤ endOff' → next (file ++ ext) off endOff' = .ok (r, off') := by
  unfold next at h
  split at h
  · cases h
  · rename_i hoff
    obtain ⟨hdr, hhdr, h⟩ := bind_eq_ok h
    split at h
    · cases h
    · rename_i hmagic
      split at h
      · cases h
      · rename_i op hop
        obtain ⟨extra, hextra, h⟩ := bind_eq_ok h
        dsimp only at h
        split at h
        · cases h
        · rename_i hend
          obtain ⟨key, hkey, h⟩ := bind_eq_ok h
          obtain ⟨value, hvalue, h⟩ := bind_eq_ok h
          have hle := walHeaderSizeDel_le op
          obtain ⟨hr, hoff'⟩ := Prod.mk.inj (Except.ok.inj h)
          simp only [walHeaderSizeDel] at hle
          refine ⟨by omega, by omega, fun ext endOff' hgrow => ?_⟩
          rw [next, if_neg (by omega)]
          simp only [readAt_extend hhdr ext, readAt_extend hextra ext, bind, Except.bind, hop,
            if_neg hmagic, readAt_extend hkey ext, readAt_extend hvalue ext]
          rw [if_neg (by omega)]
          exact h

theorem Yields.bound {endOff pos stop : Nat} (h : Yields file endOff pos recs stop) :
    pos + recs.length ≤ stop ∧ (recs ≠ [] → stop ≤ endOff) := by
  induction h with
  | done pos => exact ⟨Nat.le_refl _, fun h => absurd rfl h⟩
  | step hnext hrest ih =>
    obtain ⟨hmin, hmax, _⟩ := next_ok hnext
    refine ⟨by rw [List.length_cons]; omega, fun _ => ?_⟩
    cases hrest with
    | done => exact hmax
    | step => exact ih.2 (by simp)

/-- A longer log yields the same records first. -/
theorem Yields.extend {endOff endOff' pos stop : Nat} (h : Yields file endOff pos recs stop)
    (ext : Bytes) (hgrow : endOff ≤ endOff') :
    Yields (file ++ ext) endOff' pos recs stop := by
  induction h with
  | done pos => exact .done pos
  | step hnext _ ih => exact .step ((next_ok hnext).2.2 ext endOff' hgrow) ih

theorem iterateLoop_of_yields {endOff pos stop : Nat} {e : WalError}
    (h : Yields file endOff pos recs stop)
    (hstop : next file stop endOff = .error e) : ∀ {fuel : Nat}, recs.length < fuel →
    iterateLoop file endOff fuel pos = some (recs, stop, e) := by
  induction h with
  | done pos =>
    intro fuel hfuel
    obtain ⟨fuel, rfl⟩ := Nat.exists_eq_succ_of_ne_zero (Nat.ne_of_gt hfuel)
    rw [iterateLoop, hstop]
  | step hnext _ ih =>
    intro fuel hfuel
    obtain ⟨fuel, rfl⟩ := Nat.exists_eq_succ_of_ne_zero (Nat.ne_of_gt (Nat.zero_lt_of_lt hfuel))
    rw [iterateLoop, hnext]
    simp only [ih hstop (Nat.lt_of_succ_lt_succ hfuel), Option.map_some]

/-- What the iterator returns is what it yields up to where it stops. -/
theorem iterate_of_yields {w : WAL} {stop : Nat} {e : WalError}
    (h : Yields w.file w.off 0 recs stop) (hstop : next w.file stop w.off = .error e) :
    w.iterate 0 = some (recs, stop, e) := by
  refine iterateLoop_of_yields h hstop ?_
  obtain ⟨hlen, hend⟩ := h.bound
  cases recs with
  | nil => exact Nat.succ_pos _
  | cons r recs =>
    have := hend (by simp)
    omega

theorem yields_of_iterateLoop {endOff : Nat} : ∀ {fuel pos stop : Nat} {recs : List WALRecord}
    {e : WalError},
    iterateLoop file endOff fuel pos = some (recs, stop, e) → Yields file endOff pos recs stop
  | 0, _, _, _, _, h => by cases h
  | fuel + 1, pos, stop, recs, e, h => by
    rw [iterateLoop] at h
    split at h
    · cases h
      exact .done pos
    · rename_i r pos' hnext
      obtain ⟨⟨recs', rest⟩, hrest, h⟩ := Option.map_eq_some_iff.mp h
      cases h
      exact .step hnext (yields_of_iterateLoop hrest)

/-- The records of a log, in front of anything. -/
theorem yields_logBytes (as : List Append) (tail : Bytes) (hfits : ∀ a ∈ as, a.Fits) :
    ∀ (pre : Bytes) (endOff : Nat), pre.length + (logBytes as).length ≤ endOff →
      Yields (pre ++ (logBytes as ++ tail)) endOff pre.length (as.map Append.record)
        (pre.length + (logBytes as).length) := by
  induction as with
  | nil =>
    intro pre endOff _
    exact .done pre.length
  | cons a as ih =>
    intro pre endOff hend
    have hlen : (logBytes (a :: as)).length = a.bytes.length + (logBytes as).length := by
      rw [logBytes_cons, List.length_append]
    have hend' : (pre ++ a.bytes).length + (logBytes as).length ≤ endOff := by
      rw [List.length_append]
      omega
    have hrest := ih (fun b hb => hfits b (List.mem_cons_of_mem a hb)) (pre ++ a.bytes) endOff hend'
    rw [append_logBytes_cons, hlen, ← Nat.add_assoc]
    refine .step (next_bytes _ _ (hfits a (List.mem_cons_self ..)) (by omega)) ?_
    rw [← List.append_assoc, ← List.length_append]
    exact hrest

/-! ## Logs without leftovers -/

/-- The file is the log of `as` and nothing else. -/
structure Logs (w : WAL) (as : List Append) : Prop where
  file : w.file = logBytes as
  off : w.off = (logBytes as).length

variable {w w' : WAL} {as : List Append}

theorem Logs.append {off : Nat} (h : w.Logs as) (happ : w.append a none = (.ok off, w')) :
    w'.Logs (as ++ [a]) ∧ w'.maxOff = w.maxOff := by
  rw [append_eq] at happ
  split at happ
  · cases happ
  · cases happ
    have hsnoc : logBytes (as ++ [a]) = logBytes as ++ a.bytes := by simp [logBytes]
    refine ⟨⟨?_, ?_⟩, rfl⟩
    · rw [hsnoc, h.off, ← h.file, overwrite_at_end]
    · rw [hsnoc, h.off, List.length_append]

theorem Logs.iterate (h : w.Logs as) (hfits : ∀ a ∈ as, a.Fits) :
    w.iterate 0 = some (as.map Append.record, w.off, .eof) := by
  have hyields := yields_logBytes as [] hfits [] _ (Nat.le_refl _)
  simp only [List.nil_append, List.append_nil, List.length_nil, Nat.zero_add] at hyields
  rw [← h.off, ← h.file] at hyields
  exact iterate_of_yields hyields (next_eof (Nat.le_refl _))

/-- Opening keeps the records and drops a tail that the repair scan stops at. -/
theorem openWAL_logs {tail : Bytes} (maxLen : Nat) (hfits : ∀ a ∈ as, a.Fits)
    (hstop : recordLen (logBytes as ++ tail) (logBytes as).length = none) :
    (openWAL (logBytes as ++ tail) maxLen).Logs as := by
  have hpos : repairTail (logBytes as ++ tail) = (logBytes as).length := by
    have hrun := repairLoop_logBytes as tail hfits [] (logBytes as ++ tail).length
      (by rw [List.length_append]; exact Nat.le_add_right_of_le (length_le_logBytes as))
      (by simpa using hstop)
    simpa [repairTail] using hrun
  simp only [openWAL, hpos]
  split
  · exact ⟨List.take_left, rfl⟩
  · rename_i hall
    have hnil : tail = [] := by
      rw [List.length_append] at hall
      exact List.eq_nil_of_length_eq_zero (by omega)
    subst hnil
    exact ⟨List.append_nil _, by rw [List.append_nil]⟩

/-- A record that is not complete is none. -/
theorem recordLen_take (hfit : a.Fits) {n : Nat} (hn : n < a.bytes.length) :
    recordLen (pre ++ a.bytes.take n) pre.length = none := by
  have hlen := length_bytes a
  have hrem : (pre ++ a.bytes.take n).length - pre.length = n := by
    simp only [List.length_append, List.length_take]
    omega
  simp only [recordLen, hrem]
  by_cases hshort : n < walHeaderSizeDel
  · rw [if_pos hshort]
  · have hcode : (pre ++ a.bytes.take n).getD (pre.length + 4) 0 = a.op.code := by
      have hwhole := code_at (a := a) [] (a.key ++ a.value)
      simp only [walHeaderSizeDel] at hshort
      simp only [List.nil_append, List.length_nil, Nat.zero_add] at hwhole
      rw [← hwhole, ← Append.bytes]
      simp only [List.getD_eq_getElem?_getD]
      rw [List.getElem?_append_right (by omega), Nat.add_sub_cancel_left,
        List.getElem?_take_of_lt (by omega)]
    rw [if_neg hshort, hcode, ofCode_code]
    simp only
    by_cases hhdr : n < walHeaderSize a.op
    · rw [if_pos hhdr]
    · have hfile : a.bytes.take n = a.header ++ (a.key ++ a.value).take (n - a.header.length) := by
        have hle : a.header.length ≤ n := by
          rw [length_header]
          omega
        rw [Append.bytes, List.take_append, List.take_of_length_le hle]
      rw [if_neg hhdr, hfile, keyLen_at _ _ hfit, valLen_at _ _ hfit, if_pos (by omega)]

theorem recordLen_end (data : Bytes) : recordLen data data.length = none := by
  simp [recordLen, walHeaderSizeDel]

end Horreum.Persist.WAL
