/-
  Proto/Parser.lean --- the streaming parser, `Parser.Feed` in `internal/proto/proto.go`.

  The frames that `Feed` returns are slices of the input or of the parser's own buffer.  So `feed` reads
  key and value at the end, from the memory as it then is: the leftover bytes may have been moved to the
  front of the very array the frames point into.
-/
import Horreum.Foundation.Runs
import Horreum.Proto.Frame

set_option autoImplicit false

namespace Horreum.Proto

open Foundation
open Foundation.Streaming.Reader (faultOf readAll_of_short readAll_of_fault readAll_of_item)

/-- The bytes of a frame that is not complete. -/
structure Parser where
  pending : Buffer

/-- `NewParser` -/
def newParser : Parser := ⟨Buffer.nil⟩

/-- `Reset` -/
def Parser.reset (p : Parser) : Parser := ⟨p.pending.truncate⟩

/-- A frame and where it starts in the memory it points into. -/
structure FrameRef where
  start : Nat
  frame : Frame

/-- The frame with key and value as `mem` holds them. -/
def FrameRef.view (mem : Bytes) (ref : FrameRef) : Frame :=
  let key := ref.start + headerSize
  let value := key + ref.frame.key.length
  { ref.frame with
    key := slice mem key value
    value := slice mem value (value + ref.frame.value.length) }

/-- The loop of `Feed` over `work`, which begins at `start`: the frames, the error, and the
bytes it stopped at. -/
def feedLoop : (fuel start : Nat) → (work : Bytes) → (frames : List FrameRef) →
    List FrameRef × Option ParseError × Bytes
  | 0, _, work, frames => (frames, none, work)
  | fuel + 1, start, work, frames =>
    match parseIn work with
    | .error .shortBuffer => (frames, none, work)
    | .error e => (frames, some e, work)
    | .ok f => feedLoop fuel (start + f.size) (work.drop f.size) (frames ++ [⟨start, f⟩])

/-- A leftover that takes up less than half of the array is moved to its front. -/
def slides (pending : Buffer) (work : Bytes) : Bool :=
  work.length ≠ 0 && work.length < pending.cap / 2

/-- The array of the pending bytes after a call that stopped at `work`. -/
def settled (pending : Buffer) (work : Bytes) : Bytes :=
  if slides pending work then overwrite pending.array 0 work else pending.array

/-- What the parser keeps: nothing, the leftover at the front, or the leftover where it is. -/
def keep (pending : Buffer) (work : Bytes) : Buffer :=
  if work.length = 0 then pending.truncate
  else if slides pending work then
    { array := overwrite pending.array 0 work
      len := work.length
      bounded := by
        rw [overwrite_zero, List.length_append]
        omega }
  else
    let consumed := pending.len - work.length
    { array := pending.array.drop consumed
      len := pending.len - consumed
      bounded := by
        have := pending.bounded
        rw [List.length_drop]
        omega }

/-- `Feed`: the frames as they read when it returns, the error, and the parser. -/
def Parser.feed (g : Growth) (p : Parser) (buf : Bytes) :
    List Frame × Option ParseError × Parser :=
  if p.pending.len = 0 then
    let (frames, err, work) := feedLoop (buf.length + 1) 0 buf []
    let frames := frames.map (FrameRef.view buf)
    match err with
    | some e => (frames, some e, p.reset)
    | none =>
      (frames, none, if work.length > 0 then ⟨p.pending.truncate.append g work⟩ else p)
  else
    let pending := p.pending.append g buf
    let (frames, err, work) := feedLoop (pending.len + 1) 0 pending.contents []
    match err with
    | some e => (frames.map (FrameRef.view pending.array), some e, ⟨pending.truncate⟩)
    | none => (frames.map (FrameRef.view (settled pending work)), none, ⟨keep pending work⟩)

/-- The calls of one connection, up to the first that fails: all frames, and the error. -/
def Parser.feedAll (g : Growth) : Parser → List Bytes → List Frame × Option ParseError
  | _, [] => ([], none)
  | p, buf :: bufs =>
    match p.feed g buf with
    | (frames, some e, _) => (frames, some e)
    | (frames, none, p) => (frames ++ (feedAll g p bufs).1, (feedAll g p bufs).2)

/-! ## What one call does -/

variable {w : Bytes}

theorem parseIn_of_short (h : reader.next w = .short) : parseIn w = .error .shortBuffer := by
  simp only [reader] at h
  split at h <;> simp_all

theorem parseIn_of_fault {e : ParseError} (h : reader.next w = .fault e) :
    parseIn w = .error e ∧ e ≠ .shortBuffer := by
  simp only [reader] at h
  split at h <;> simp_all

theorem parseIn_of_item {f : Frame} (h : reader.next w = .item f) : parseIn w = .ok f := by
  simp only [reader] at h
  split at h <;> simp_all

/-- The positions of frames that stand one behind the other. -/
def refsFrom : (start : Nat) → List Frame → List FrameRef
  | _, [] => []
  | start, f :: fs => ⟨start, f⟩ :: refsFrom (start + f.size) fs

/-- The loop reads off all frames. -/
theorem feedLoop_spec (work : Bytes) : ∀ (fuel start : Nat) (frames : List FrameRef),
    work.length < fuel →
    (feedLoop fuel start work frames).1 = frames ++ refsFrom start (reader.readAll work).1 ∧
      (feedLoop fuel start work frames).2.1 = faultOf (reader.readAll work).2 ∧
      ∀ rest, (reader.readAll work).2 = .ok rest →
        (feedLoop fuel start work frames).2.2 = rest := by
  induction work using reader.front_induction with
  | short work hnext =>
    intro fuel start frames hfuel
    obtain ⟨fuel, rfl⟩ := Nat.exists_eq_succ_of_ne_zero (Nat.ne_of_gt (Nat.zero_lt_of_lt hfuel))
    rw [feedLoop, parseIn_of_short hnext, readAll_of_short hnext]
    refine ⟨by simp [refsFrom], rfl, fun rest h => ?_⟩
    cases h
    rfl
  | fault work e hnext =>
    intro fuel start frames hfuel
    obtain ⟨fuel, rfl⟩ := Nat.exists_eq_succ_of_ne_zero (Nat.ne_of_gt (Nat.zero_lt_of_lt hfuel))
    obtain ⟨hparse, hne⟩ := parseIn_of_fault hnext
    rw [feedLoop, hparse, readAll_of_fault hnext]
    refine ⟨?_, ?_, fun rest h => ?_⟩
    · cases e <;> simp_all [refsFrom]
    · cases e <;> simp_all [faultOf]
    · cases h
  | item work f hnext ih =>
    intro fuel start frames hfuel
    obtain ⟨fuel, rfl⟩ := Nat.exists_eq_succ_of_ne_zero (Nat.ne_of_gt (Nat.zero_lt_of_lt hfuel))
    have hlen := reader.length_drop_size_lt hnext
    obtain ⟨hrefs, herr, hrest⟩ :=
      ih fuel (start + f.size) (frames ++ [⟨start, f⟩]) (by omega)
    rw [feedLoop, parseIn_of_item hnext, readAll_of_item hnext]
    exact ⟨by simpa [refsFrom] using hrefs, herr, hrest⟩

/-- Frames read from memory that still holds the bytes they were parsed from. -/
theorem view_refsFrom (work : Bytes) : ∀ (mem rest : Bytes) (start : Nat),
    mem.drop start = work ++ rest →
    (refsFrom start (reader.readAll work).1).map (FrameRef.view mem) =
      (reader.readAll work).1 := by
  induction work using reader.front_induction with
  | short work hnext =>
    intro mem rest start _
    rw [readAll_of_short hnext]
    rfl
  | fault work e hnext =>
    intro mem rest start _
    rw [readAll_of_fault hnext]
    rfl
  | item work f hnext ih =>
    intro mem rest start hmem
    have hsize := reader.size_le hnext
    obtain ⟨hle, hkey, hvalue⟩ := parseIn_ok (parseIn_of_item hnext)
    have hnextMem : mem.drop (start + f.size) = work.drop f.size ++ rest := by
      rw [← List.drop_drop, hmem, List.drop_append_of_le_length hle]
    rw [readAll_of_item hnext]
    simp only [refsFrom, List.map_cons, List.cons.injEq]
    refine ⟨?_, ih mem rest (start + f.size) hnextMem⟩
    have hread : ∀ {lo hi : Nat}, lo ≤ hi → hi ≤ work.length →
        slice mem (start + lo) (start + hi) = slice work lo hi := by
      intro lo hi hlo hhi
      rw [← slice_drop, hmem, slice_append_left hlo hhi]
    simp only [Frame.size] at hle hvalue
    simp only [FrameRef.view, Nat.add_assoc] at hle hvalue ⊢
    rw [hread (Nat.le_add_right _ _) (by omega), hread (by omega) hle, ← hkey, ← hvalue]

/-- The bytes of key and value. -/
def FrameRef.Covers (ref : FrameRef) (i : Nat) : Prop :=
  ref.start + headerSize ≤ i ∧ i < ref.start + ref.frame.size

/-- Two memories show a frame alike where their bytes agree on it. -/
theorem FrameRef.view_eq_iff (ref : FrameRef) (mem mem' : Bytes) :
    ref.view mem = ref.view mem' ↔ ∀ i, ref.Covers i → mem[i]? = mem'[i]? := by
  simp only [FrameRef.view, Frame.mk.injEq, true_and, slice_eq_iff, FrameRef.Covers, Frame.size]
  constructor
  · rintro ⟨hkey, hvalue⟩ i ⟨hlo, hhi⟩
    rcases Nat.lt_or_ge i (ref.start + headerSize + ref.frame.key.length) with hlt | hge
    · exact hkey i hlo hlt
    · exact hvalue i hge (by omega)
  · intro h
    exact ⟨fun i hlo hhi => h i ⟨hlo, by omega⟩, fun i hlo hhi => h i ⟨by omega, by omega⟩⟩

/-- Where a slide changes the array. -/
theorem settled_of_slides {pending : Buffer} {work : Bytes} (h : slides pending work = true)
    (i : Nat) : (settled pending work)[i]? =
      if i < work.length then work[i]? else pending.array[i]? := by
  rw [settled, if_pos h, overwrite_zero]
  split
  · rename_i hi
    exact List.getElem?_append_left hi
  · rename_i hi
    have hge := Nat.le_of_not_lt hi
    rw [List.getElem?_append_right hge, List.getElem?_drop, Nat.add_sub_cancel' hge]

theorem contents_keep {pending : Buffer} {work : Bytes} {n : Nat}
    (hwork : work = pending.contents.drop n) : (keep pending work).contents = work := by
  have hlen : work.length = pending.len - n := by
    rw [hwork, List.length_drop, Buffer.length_contents]
  unfold keep
  split
  · rename_i hzero
    rw [Buffer.contents_truncate]
    exact (List.length_eq_zero_iff.mp hzero).symm
  · rename_i hpos
    split
    · simp only [Buffer.contents, overwrite_zero]
      exact List.take_left
    · have hn : pending.len - work.length = n := by omega
      simp only [Buffer.contents, hn]
      rw [hwork, Buffer.contents, List.drop_take]

/-- No byte of key or value of a frame that the call returns is overwritten by a different one
when the leftover is moved. -/
def Calm (g : Growth) (p : Parser) (buf : Bytes) : Prop :=
  p.pending.len ≠ 0 →
    let pending := p.pending.append g buf
    let (refs, err, work) := feedLoop (pending.len + 1) 0 pending.contents []
    err = none → slides pending work = true →
      ∀ ref ∈ refs, ∀ i, ref.Covers i → i < work.length → work[i]? = pending.array[i]?

/-- One call against the reader. -/
structure Reads (g : Growth) (p : Parser) (buf : Bytes) : Prop where
  error : (p.feed g buf).2.1 = faultOf (reader.readAll (p.pending.contents ++ buf)).2
  length : (p.feed g buf).1.length = (reader.readAll (p.pending.contents ++ buf)).1.length
  frames : (p.feed g buf).1 = (reader.readAll (p.pending.contents ++ buf)).1 ↔ Calm g p buf
  kept : ∀ rest, (reader.readAll (p.pending.contents ++ buf)).2 = .ok rest →
    (p.feed g buf).2.2.pending.contents = rest

/-- The frames of the fast path point into the input, which nothing changes. -/
theorem reads_fast (g : Growth) {p : Parser} (buf : Bytes) (hempty : p.pending.len = 0) :
    Reads g p buf := by
  have hnone : p.pending.contents = [] := by
    rw [← List.length_eq_zero_iff, Buffer.length_contents, hempty]
  have hwhole : p.pending.contents ++ buf = buf := by rw [hnone, List.nil_append]
  have hspec := feedLoop_spec buf (buf.length + 1) 0 [] (Nat.lt_succ_self _)
  have hview := view_refsFrom buf buf [] 0 (by simp)
  rcases hloop : feedLoop (buf.length + 1) 0 buf [] with ⟨refs, err, work⟩
  rw [hloop] at hspec
  obtain ⟨hrefs, herr, hwork⟩ := hspec
  simp only [List.nil_append] at hrefs herr hwork
  rw [← hrefs] at hview
  have hcalm : Calm g p buf := fun hne => absurd hempty hne
  obtain ⟨p', hfeed, hkept⟩ : ∃ p', p.feed g buf = (refs.map (FrameRef.view buf), err, p') ∧
      (err = none → p'.pending.contents = work) := by
    rw [Parser.feed, if_pos hempty]
    simp only [hloop]
    cases err with
    | some e => exact ⟨p.reset, rfl, fun h => absurd h (Option.some_ne_none e)⟩
    | none =>
      refine ⟨_, rfl, fun _ => ?_⟩
      split
      · rw [Buffer.contents_append, Buffer.contents_truncate, List.nil_append]
      · rename_i hzero
        rw [hnone]
        exact (List.length_eq_zero_iff.mp (Nat.eq_zero_of_not_pos hzero)).symm
  refine ⟨by rw [hfeed, hwhole]; exact herr, by rw [hfeed, hwhole, ← hview], ?_,
    fun rest hrest => ?_⟩
  · rw [hfeed, hwhole, ← hview]
    exact ⟨fun _ => hcalm, fun _ => rfl⟩
  · rw [hwhole] at hrest
    rw [hrest] at herr
    rw [hfeed, ← hwork rest hrest]
    exact hkept herr

/-- The frames of the slow path point into the array of the pending bytes. -/
theorem reads_slow (g : Growth) {p : Parser} (buf : Bytes) (hsome : p.pending.len ≠ 0) :
    Reads g p buf := by
  generalize hpending : p.pending.append g buf = pending
  have hcontents : pending.contents = p.pending.contents ++ buf := by
    rw [← hpending, Buffer.contents_append]
  have hspec := feedLoop_spec pending.contents (pending.len + 1) 0 []
    (by rw [Buffer.length_contents]; exact Nat.lt_succ_self _)
  have hview := view_refsFrom pending.contents pending.array (pending.array.drop pending.len) 0
    pending.array_eq
  rcases hloop : feedLoop (pending.len + 1) 0 pending.contents [] with ⟨refs, err, work⟩
  rw [hloop] at hspec
  obtain ⟨hrefs, herr, hwork⟩ := hspec
  simp only [List.nil_append] at hrefs herr hwork
  rw [hcontents] at hview hrefs herr hwork
  rw [← hrefs] at hview
  have hcalm : Calm g p buf ↔ (err = none → slides pending work = true →
      ∀ ref ∈ refs, ∀ i, ref.Covers i → i < work.length → work[i]? = pending.array[i]?) := by
    simp only [Calm, hpending, hloop]
    exact ⟨fun h => h hsome, fun h _ => h⟩
  cases err with
  | some e =>
    have hfeed : p.feed g buf =
        (refs.map (FrameRef.view pending.array), some e, ⟨pending.truncate⟩) := by
      rw [Parser.feed, if_neg hsome]
      simp only [hpending, hloop]
    refine ⟨by rw [hfeed]; exact herr, by rw [hfeed, ← hview], ?_, fun rest hrest => ?_⟩
    · rw [hfeed, hcalm, hview]
      exact ⟨fun _ h => absurd h (Option.some_ne_none e), fun _ => rfl⟩
    · rw [hrest] at herr
      cases herr
  | none =>
    have hfeed : p.feed g buf =
        (refs.map (FrameRef.view (settled pending work)), none, ⟨keep pending work⟩) := by
      rw [Parser.feed, if_neg hsome]
      simp only [hpending, hloop]
    refine ⟨by rw [hfeed]; exact herr, by rw [hfeed, ← hview]; simp, ?_, fun rest hrest => ?_⟩
    · rw [hfeed, hcalm, ← hview, List.map_inj_left]
      simp only [FrameRef.view_eq_iff, forall_const]
      cases hslides : slides pending work with
      | false => simp [settled, hslides]
      | true =>
        simp only [settled_of_slides hslides, forall_const]
        refine forall₂_congr fun ref _ => forall₂_congr fun i _ => ?_
        split <;> simp_all
    · have hend := (reader.readAll_rest _ _ rest (Prod.ext rfl hrest)).2.1
      rw [hfeed, ← hwork rest hrest] at *
      rw [← hcontents] at hend
      exact contents_keep hend

theorem Parser.reads (g : Growth) (p : Parser) (buf : Bytes) : Reads g p buf := by
  by_cases hempty : p.pending.len = 0
  · exact reads_fast g buf hempty
  · exact reads_slow g buf hempty

/-! ## Whole streams -/

/-- The next call, after one that did not fail. -/
def Parser.feedStep (g : Growth) (p : Parser) (buf : Bytes) : Option Parser :=
  match p.feed g buf with
  | (_, some _, _) => none
  | (_, none, p) => some p

/-- The calls of a connection give the reader's error, as many frames as the reader, and the
reader's frames exactly if all of them are calm. -/
theorem feedAll_spec (g : Growth) (bufs : List Bytes) : ∀ p : Parser,
    (p.feedAll g bufs).2 = (reader.collect p.pending.contents bufs).2 ∧
      (p.feedAll g bufs).1.length = (reader.collect p.pending.contents bufs).1.length ∧
      ((p.feedAll g bufs).1 = (reader.collect p.pending.contents bufs).1 ↔
        Guarded (Parser.feedStep g) (Calm g) p bufs) := by
  induction bufs with
  | nil =>
    intro p
    exact ⟨rfl, rfl, ⟨fun _ => trivial, fun _ => rfl⟩⟩
  | cons buf bufs ih =>
    intro p
    obtain ⟨herr, hlen, hframes, hkept⟩ := p.reads g buf
    rcases hfeed : p.feed g buf with ⟨frames, err, p'⟩
    rw [hfeed] at herr hlen hframes hkept
    rcases hread : reader.readAll (p.pending.contents ++ buf) with ⟨items, out⟩
    rw [hread] at herr hlen hframes hkept
    cases out with
    | error e =>
      obtain rfl : err = some e := herr
      have hstop : p.feedStep g buf = none := by rw [Parser.feedStep, hfeed]
      simp only [Parser.feedAll, Streaming.Reader.collect, hfeed, hread, Guarded, hstop]
      refine ⟨trivial, hlen, ?_⟩
      simpa using hframes
    | ok rest =>
      obtain rfl : err = none := herr
      have hnext : p.feedStep g buf = some p' := by rw [Parser.feedStep, hfeed]
      obtain ⟨herr', hlen', hframes'⟩ := ih p'
      rw [hkept rest rfl] at herr' hlen' hframes'
      simp only [Parser.feedAll, Streaming.Reader.collect, hfeed, hread, Guarded, hnext,
        Option.some_inj, forall_eq']
      refine ⟨herr', by simp only [List.length_append, hlen', hlen], ?_⟩
      rw [← hframes, ← hframes']
      constructor
      · intro h
        exact List.append_inj h hlen
      · rintro ⟨rfl, h⟩
        rw [h]

/-- However a stream is cut into calls, up to the first that fails: it fails with the error of
feeding the stream at once, and the frames are those of feeding it at once exactly if no call
overwrites key or value of a frame it returns with other bytes. -/
theorem feed_chunks_iff (g : Growth) (chunks : List Bytes) :
    (newParser.feedAll g chunks).2 = (newParser.feed g chunks.flatten).2.1 ∧
      ((newParser.feedAll g chunks).1 = (newParser.feed g chunks.flatten).1 ↔
        Guarded (Parser.feedStep g) (Calm g) newParser chunks) := by
  obtain ⟨herr, _, hframes⟩ := feedAll_spec g chunks newParser
  obtain ⟨herr', _, hframes', _⟩ := newParser.reads g chunks.flatten
  have hempty : newParser.pending.contents = [] := rfl
  have hcut := reader.collect_eq chunks [] rfl
  rw [hempty, hcut] at herr hframes
  rw [hempty] at herr' hframes'
  have hwhole := hframes'.mpr fun hne => absurd rfl hne
  rw [hwhole, herr']
  exact ⟨herr, hframes⟩

/-- Two SET requests, for the keys `k` and `z`, of which the second has arrived up to the first
byte of its value.  Cut one byte before the end of the first, they read as a SET of `z`. -/
theorem first_key_overwritten :
    let first : Frame := ⟨.set, 0, [107], List.replicate 20 1⟩
    let second : Frame := ⟨.set, 0, [122], List.replicate 20 2⟩
    let chunks := [first.bytes.take 30, first.bytes.drop 30 ++ second.bytes.take 12]
    (newParser.feed .doubling chunks.flatten).1 = [first] ∧
      (newParser.feedAll .doubling chunks).1 = [⟨.set, 0, [122], 2 :: List.replicate 19 1⟩] ∧
      (newParser.feedAll .doubling chunks).1 ≠ (newParser.feed .doubling chunks.flatten).1 := by
  decide +kernel

/-! ## A whole stream at once -/

/-- A new parser takes the bytes for these frames, without an error and with nothing left. -/
def Decodes (g : Growth) (bytes : Bytes) (fs : List Frame) : Prop :=
  (newParser.feed g bytes).1 = fs ∧ (newParser.feed g bytes).2.1 = none ∧
    (newParser.feed g bytes).2.2.pending.contents = []

theorem decodes_iff {g : Growth} {bytes : Bytes} {fs : List Frame} :
    Decodes g bytes fs ↔ reader.readAll bytes = (fs, .ok []) := by
  obtain ⟨herr, _, hframes, hkept⟩ := newParser.reads g bytes
  have hwhole := hframes.mpr fun hne => absurd rfl hne
  have hnone : newParser.pending.contents ++ bytes = bytes := rfl
  rw [hnone] at herr hwhole hkept
  unfold Decodes
  rw [hwhole, herr]
  rcases hread : reader.readAll bytes with ⟨items, out⟩
  rw [hread] at hkept
  cases out with
  | error e => simp [faultOf]
  | ok rest =>
    rw [hkept rest rfl]
    simp [faultOf]

theorem decodes_bytes (g : Growth) {fs : List Frame}
    (hfit : ∀ f ∈ fs, f.key.length < 2 ^ 16 ∧ f.size ≤ maxFrameSize) :
    Decodes g (fs.flatMap Frame.bytes) fs :=
  decodes_iff.mpr (readAll_bytes fs hfit)

/-- What is taken for one frame, with nothing left, is within the limit. -/
theorem size_le_of_decodes {g : Growth} {f f' : Frame} (h : Decodes g f.bytes [f']) :
    f.size ≤ maxFrameSize := by
  have hread := decodes_iff.mp h
  obtain ⟨hle, hrest, _⟩ := reader.readAll_rest _ _ _ hread
  have hsize : f'.size = f.size := by
    have hlen := List.drop_eq_nil_iff.mp hrest.symm
    simp only [Streaming.Reader.extent, List.foldr_cons, List.foldr_nil, reader_size,
      f.length_bytes] at hle hlen
    omega
  cases hnext : reader.next f.bytes with
  | short =>
    rw [readAll_of_short hnext] at hread
    cases hread
  | fault e =>
    rw [readAll_of_fault hnext] at hread
    cases hread
  | item x =>
    rw [readAll_of_item hnext] at hread
    cases (List.cons.inj (Prod.mk.inj hread).1).1
    exact hsize ▸ (parseIn_limits (parseIn_of_item hnext)).2

end Horreum.Proto
