/-
  Transport/Tcp.lean --- one connection, `Transport.serve` in `internal/transport/tcp/server.go`.

  The loop reads a chunk, feeds it to the parser and hands the frames, taken as values, to the worker of
  the connection as one job.  A parse error ends the connection before the job is made, and the frames
  in front of the malformed one are lost: which requests are executed depends on the cuts.
-/
import Horreum.Proto.Parser
import Horreum.Transport.Serving

set_option autoImplicit false

namespace Horreum.Transport

open Foundation
open Proto

/-- `Feed`, with the frames as copied bytes. -/
def feedCopied (g : Growth) (p : Parser) (buf : Bytes) : List Frame × Option ParseError × Parser :=
  let work := p.pending.contents ++ buf
  let (refs, err, _) := feedLoop (work.length + 1) 0 work []
  (refs.map FrameRef.frame, err, (p.feed g buf).2.2)

namespace Tcp

/-- What surrounds the execution of a frame: what the workers do before it, and its time. -/
structure Turn where
  before : List Job
  env : Env

/-- A round of the loop: the bytes that `Read` returns and what becomes of the job. -/
structure Round where
  chunk : Bytes
  turns : Nat → Turn
  /-- The answer of `Submit`. -/
  submitted : Bool
  /-- The argument that the worker calls the job with. -/
  canceled : Bool
  /-- Whether `Write` succeeds. -/
  written : Bool

/-- The state of the loop, the shards, and what has been executed and sent so far. -/
structure Conn where
  parser : Parser
  writeBuf : Buffer
  set : ShardSet
  executed : List Frame
  sent : Bytes

/-- The capacity of a new write buffer. -/
def initialWriteBufCap : Nat := 1024

/-- A new connection. -/
def newConn (ss : ShardSet) : Conn := ⟨newParser, .fresh [] initialWriteBufCap, ss, [], []⟩

variable (H : Hashes) (g : Growth) (workerIdx : Nat)

/-- The loop of the job over the frames from number `i` on. -/
def handleFrames (turns : Nat → Turn) : (i : Nat) → List Frame → Conn → Option (Bool × Conn)
  | _, [], s => some (true, s)
  | i, fr :: frames, s => do
    let ss ← run (ShardSet.serve H) s.set (turns i).before
    let (goOn, writeBuf, ss) ← ss.handleFrame H (turns i).env fr s.writeBuf workerIdx
    let s := { s with set := ss, writeBuf := writeBuf, executed := s.executed ++ [fr] }
    if goOn then handleFrames turns (i + 1) frames s else some (false, s)

/-- One round: the state, and whether the loop goes on.  `none` is a handler that does not
return. -/
def serveRound (r : Round) (s : Conn) : Option (Bool × Conn) :=
  if r.chunk.length = 0 then some (false, s)
  else
    let (frames, perr, parser) := feedCopied g s.parser r.chunk
    let s := { s with parser := parser }
    match perr with
    | some _ => some (false, s)
    | none =>
      if frames.length > 0 then
        if !r.submitted then some (false, s)
        else if r.canceled then some (false, s)
        else do
          let (goOn, s) ← handleFrames H workerIdx r.turns 0 frames s
          if !goOn then some (false, s)
          else if s.writeBuf.len > 0 then
            if !r.written then some (false, s)
            else some (true, { s with
              sent := s.sent ++ s.writeBuf.contents, writeBuf := s.writeBuf.truncate })
          else some (true, s)
      else some (true, s)

/-- The connection up to its end; behind the last round `Read` fails. -/
def serve : List Round → Conn → Option Conn
  | [], s => some s
  | r :: rounds, s => do
    let (goOn, s) ← serveRound H g workerIdx r s
    if goOn then serve rounds s else some s

/-- A round in which only the parser can end the connection. -/
structure Round.Smooth (r : Round) : Prop where
  chunk : r.chunk ≠ []
  submitted : r.submitted = true
  canceled : r.canceled = false
  written : r.written = true

/-- The bytes of the client. -/
def stream (rounds : List Round) : Bytes := (rounds.map Round.chunk).flatten

/-! ## One round -/

variable {H g workerIdx} {s s' : Conn} {r : Round}

theorem map_frame_refsFrom : ∀ (fs : List Frame) (start : Nat),
    (refsFrom start fs).map FrameRef.frame = fs
  | [], _ => rfl
  | f :: fs, start => congrArg (f :: ·) (map_frame_refsFrom fs (start + f.size))

/-- A call against the reader: unlike the views, the copied frames are always those it reads. -/
theorem feedCopied_eq (g : Growth) (p : Parser) (buf : Bytes) :
    (feedCopied g p buf).1 = (reader.readAll (p.pending.contents ++ buf)).1 ∧
    (feedCopied g p buf).2.1 =
      Streaming.Reader.faultOf (reader.readAll (p.pending.contents ++ buf)).2 ∧
    ∀ rest, (reader.readAll (p.pending.contents ++ buf)).2 = .ok rest →
      (feedCopied g p buf).2.2.pending.contents = rest := by
  obtain ⟨hrefs, herr, _⟩ := feedLoop_spec (p.pending.contents ++ buf)
    ((p.pending.contents ++ buf).length + 1) 0 [] (Nat.lt_succ_self _)
  refine ⟨?_, herr, (p.reads g buf).kept⟩
  rw [feedCopied]
  dsimp only
  rw [hrefs, List.nil_append, map_frame_refsFrom]

theorem goOn_of_handleFrame {ss ss' : ShardSet} {env : Env} {fr : Frame} {writeBuf buf : Buffer}
    {goOn : Bool} (h : ss.handleFrame H env fr writeBuf workerIdx = some (goOn, buf, ss')) :
    goOn = true := by
  unfold ShardSet.handleFrame at h
  split at h
  · cases h
    rfl
  · obtain ⟨_, _, h⟩ := Option.map_eq_some_iff.mp h
    cases h
    rfl

/-- A job executes its frames, each once and in their order. -/
theorem handleFrames_executed {turns : Nat → Turn} : ∀ {frames : List Frame} {i : Nat} {goOn : Bool}
    {s s' : Conn}, handleFrames H workerIdx turns i frames s = some (goOn, s') →
    goOn = true ∧ s'.executed = s.executed ++ frames ∧ s'.parser = s.parser
  | [], _, _, _, _, h => by
    cases h
    exact ⟨rfl, (List.append_nil _).symm, rfl⟩
  | fr :: frames, i, goOn, s, s', h => by
    rw [handleFrames] at h
    obtain ⟨ss, _, h⟩ := Option.bind_eq_some_iff.mp h
    obtain ⟨⟨cont, buf, ss'⟩, hframe, h⟩ := Option.bind_eq_some_iff.mp h
    obtain rfl := goOn_of_handleFrame hframe
    obtain ⟨hgo, hexec, hparser⟩ := handleFrames_executed h
    exact ⟨hgo, by rw [hexec, List.append_assoc]; rfl, hparser⟩

/-- Everything a round can do to what is executed: with a fault the connection ends and the frames
are dropped, without one they are executed and the parser keeps the rest. -/
theorem serveRound_cases (hr : r.Smooth) {goOn : Bool}
    (h : serveRound H g workerIdx r s = some (goOn, s')) :
    (∃ xs e, reader.readAll (s.parser.pending.contents ++ r.chunk) = (xs, .error e) ∧
      goOn = false ∧ s'.executed = s.executed) ∨
    ∃ xs rest, reader.readAll (s.parser.pending.contents ++ r.chunk) = (xs, .ok rest) ∧
      goOn = true ∧ s'.executed = s.executed ++ xs ∧ s'.parser.pending.contents = rest := by
  obtain ⟨hframes, herr, hkept⟩ := feedCopied_eq g s.parser r.chunk
  have hsome : r.chunk.length ≠ 0 := fun hzero => hr.chunk (List.length_eq_zero_iff.mp hzero)
  rw [serveRound, if_neg hsome] at h
  rcases hread : reader.readAll (s.parser.pending.contents ++ r.chunk) with ⟨xs, e | rest⟩
  all_goals
    rw [hread] at hframes herr hkept
    rcases hfeed : feedCopied g s.parser r.chunk with ⟨frames, perr, parser⟩
    rw [hfeed] at hframes herr hkept h
    dsimp only at hframes herr hkept h
    subst hframes
    subst herr
  · cases h
    exact .inl ⟨_, e, rfl, rfl, rfl⟩
  · have hrest := hkept rest rfl
    simp only [Streaming.Reader.faultOf, hr.submitted, hr.canceled, hr.written, Bool.not_true,
      Bool.false_eq_true, if_false] at h
    refine .inr ⟨frames, rest, rfl, ?_⟩
    split at h
    · obtain ⟨⟨cont, mid⟩, hjob, h⟩ := Option.bind_eq_some_iff.mp h
      obtain ⟨rfl, hexec, hparser⟩ := handleFrames_executed hjob
      simp only [Bool.not_true, Bool.false_eq_true, if_false] at h
      have hpending := (congrArg (fun p : Parser => p.pending.contents) hparser).trans hrest
      split at h <;> cases h <;> exact ⟨rfl, hexec, hpending⟩
    · rename_i hnone
      cases h
      rw [List.length_eq_zero_iff.mp (Nat.eq_zero_of_not_pos hnone), List.append_nil]
      exact ⟨rfl, rfl, hrest⟩

/-! ## The connection -/

/-- The frames of a stream that come before the read with the fault. -/
theorem serve_executed : ∀ {rounds : List Round} {s s' : Conn}, (∀ r ∈ rounds, r.Smooth) →
    serve H g workerIdx rounds s = some s' →
    s'.executed = s.executed ++
      reader.accept s.parser.pending.contents (rounds.map Round.chunk)
  | [], s, s', _, h => by
    cases h
    exact (List.append_nil _).symm
  | r :: rounds, s, s', hsmooth, h => by
    obtain ⟨⟨goOn, mid⟩, hround, h⟩ := Option.bind_eq_some_iff.mp h
    rw [List.map_cons, Streaming.Reader.accept]
    rcases serveRound_cases (hsmooth r List.mem_cons_self) hround with
      ⟨xs, e, hread, rfl, hexec⟩ | ⟨xs, rest, hread, rfl, hexec, hrest⟩
    · cases h
      rw [hread, hexec, List.append_nil]
    · have hlater := serve_executed (fun r' hr' => hsmooth r' (List.mem_cons_of_mem r hr')) h
      rw [hread, hlater, hexec, hrest, List.append_assoc]

/-- The frames of the stream are executed in order, each at most once; all those before the first
malformed one exactly if the read that brings the malformed one completes none of them. -/
theorem executed_iff (H : Hashes) (g : Growth) (workerIdx : Nat) (ss : ShardSet)
    {rounds : List Round} {s' : Conn} (hsmooth : ∀ r ∈ rounds, r.Smooth)
    (hserve : serve H g workerIdx rounds (newConn ss) = some s') :
    s'.executed <+: (reader.readAll (stream rounds)).1 ∧
    (s'.executed = (reader.readAll (stream rounds)).1 ↔
      reader.FaultApart [] (rounds.map Round.chunk)) := by
  have hexec : s'.executed = reader.accept [] (rounds.map Round.chunk) := by
    rw [serve_executed hsmooth hserve]
    rfl
  have hiff := reader.accept_eq_iff (rounds.map Round.chunk) [] rfl
  have hfront := reader.accept_prefix (rounds.map Round.chunk) []
  rw [List.nil_append] at hiff hfront
  rw [hexec]
  exact ⟨hfront, hiff⟩

/-- A round with nothing else going on. -/
def quiet (chunk : Bytes) : Round := ⟨chunk, fun _ => ⟨[], ⟨0, none, true⟩⟩, true, false, true⟩

theorem quiet_smooth {chunk : Bytes} (h : chunk ≠ []) : (quiet chunk).Smooth := ⟨h, rfl, rfl, rfl⟩

/-- A GET. -/
def getFrame : Frame := ⟨.get, 0, [107], []⟩

/-- Ten bytes without the magic number. -/
def junk : Bytes := List.replicate 10 255

theorem readAll_getFrame : reader.readAll getFrame.bytes = ([getFrame], .ok []) := by
  have h := readAll_bytes [getFrame] (by decide)
  rwa [List.flatMap_singleton] at h

theorem readAll_junk : reader.readAll junk = ([], .error .badMagic) :=
  Streaming.Reader.readAll_of_fault rfl

theorem readAll_getFrame_junk :
    reader.readAll (getFrame.bytes ++ junk) = ([getFrame], .error .badMagic) := by
  rw [Streaming.Reader.readAll_append, readAll_getFrame]
  simp only [List.nil_append, readAll_junk, List.append_nil]

/-- Cut between the frames, the first is executed. -/
theorem executed_cut_between : ∃ ss s',
    newShardSet 1 1 1024 40 .noop .noop = some ss ∧
    serve Hashes.source .doubling 0 [quiet getFrame.bytes, quiet junk] (newConn ss) = some s' ∧
    s'.executed = [getFrame] := by
  obtain ⟨ss, hss, s', hserve⟩ : ∃ ss, newShardSet 1 1 1024 40 .noop .noop = some ss ∧
      ∃ s', serve Hashes.source .doubling 0 [quiet getFrame.bytes, quiet junk] (newConn ss) =
        some s' := by
    decide +kernel
  have hsmooth : ∀ r ∈ [quiet getFrame.bytes, quiet junk], r.Smooth := by
    simp only [List.mem_cons, List.not_mem_nil, or_false, forall_eq_or_imp, forall_eq]
    exact ⟨quiet_smooth (by decide), quiet_smooth (by decide)⟩
  have hapart : reader.FaultApart [] [getFrame.bytes, junk] := by
    have hget : reader.readAll ([] ++ getFrame.bytes) = ([getFrame], .ok []) := readAll_getFrame
    have hjunk : reader.readAll ([] ++ junk) = ([], .error .badMagic) := readAll_junk
    rw [Streaming.Reader.faultApart_of_rest hget, Streaming.Reader.faultApart_of_fault rfl hjunk]
  refine ⟨ss, s', hss, hserve, ?_⟩
  rw [(executed_iff Hashes.source .doubling 0 ss hsmooth hserve).2.mpr hapart]
  exact congrArg Prod.fst readAll_getFrame_junk

/-- In one read, the parse error of the second frame takes the first with it. -/
theorem frame_lost_with_fault : (reader.readAll (getFrame.bytes ++ junk)).1 = [getFrame] ∧
    ∃ ss s', newShardSet 1 1 1024 40 .noop .noop = some ss ∧
      serve Hashes.source .doubling 0 [quiet (getFrame.bytes ++ junk)] (newConn ss) = some s' ∧
      s'.executed = [] := by
  refine ⟨congrArg Prod.fst readAll_getFrame_junk, ?_⟩
  simp only [exists_and_left]
  decide +kernel

end Tcp

end Horreum.Transport
