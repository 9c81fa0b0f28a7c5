/-
  Transport/Server.lean --- the running server: the connections of
  `internal/transport/tcp/server.go`, the workers of `internal/transport/shard_worker.go`, the
  clean-up loop and the shards.

  A step is one read or write on a connection, one channel operation on a worker, or the beginning or
  the end of a call on a shard.  Nothing takes a lock, so such a call reads the shard when it begins and
  what it changes is seen when it ends.  `serveStream` of `internal/transport/quic/server.go` is the same
  loop with a stream for the connection.  A handler that does not return takes the process with it.
-/
import Horreum.Transport.ShardWorker
import Horreum.Transport.Tcp

set_option autoImplicit false

namespace Horreum.Transport

open Foundation
open Proto

/-- The shards with shard `i` as it is in `src`. -/
def ShardSet.publish (ss src : ShardSet) (i : Nat) : ShardSet :=
  match src.cacheAt i with
  | some c => ss.setCache i c
  | none => ss

namespace Server

/-- One thing that a job does. -/
inductive Task where
  | frame (fr : Frame)
  /-- `DeleteExpired` on a shard, from the clean-up loop. -/
  | sweep (shard : Nat)
  deriving DecidableEq, Repr

/-- A job: the connection that waits for it, if one does, and what it does. -/
structure Body where
  conn : Option Nat
  tasks : List Task
  deriving DecidableEq, Repr

/-- Where a worker is within a task.  `snap` is what the call under way has read. -/
inductive Busy where
  | call (task : Task) (env : Env) (snap : ShardSet)
  /-- In the loop of DELPREFIX, before the call on `shard`. -/
  | next (fr : Frame) (shard total : Nat)
  | clear (fr : Frame) (shard total : Nat) (snap : ShardSet)

/-- A worker of the pool, the job of each `submit` call, what is left of the job that it handles,
and where it is in the first task of that. -/
structure Worker where
  core : ShardWorker
  jobs : List Body
  rest : List Task
  busy : Option Busy

/-- Where the goroutine of a connection is. -/
inductive ConnAt where
  /-- At `c.Read`. -/
  | reading
  /-- In `Submit`, with job `j` of its worker. -/
  | submitting (j : Nat)
  /-- At `<-done`. -/
  | waiting (j : Nat)
  /-- At `c.Write`. -/
  | writing
  | closed
  deriving DecidableEq, Repr

/-- A connection. -/
structure Conn where
  workerIdx : Nat
  parser : Parser
  writeBuf : Buffer
  pos : ConnAt
  /-- What was written so far. -/
  sent : Bytes

/-- A connection that has been accepted. -/
def newConn (workerIdx : Nat) : Conn :=
  ⟨workerIdx, newParser, .fresh [] Tcp.initialWriteBufCap, .reading, []⟩

/-- What a worker has done to the shards in one call. -/
inductive Op where
  | frame (conn : Option Nat) (w : Nat) (env : Env) (fr : Frame)
  | sweep (shard : Nat) (now : UInt32)
  /-- One call of the loop of DELPREFIX. -/
  | clear (conn : Option Nat) (fr : Frame) (shard : Nat)

/-- What a call of a worker gives. -/
inductive Outcome where
  | replied (r : Reply)
  | swept
  | cleared (n : Nat)

/-- `StartGCLoop(t.workers, 100)` -/
def sweepLimit : Int := 100

/-- The call made in one step, on the shards as they are. -/
def perform (H : Hashes) (ss : ShardSet) : Op → Option (Outcome × ShardSet)
  | .frame _ w env fr => (ss.answerTo H w env fr).map fun (r, ss) => (.replied r, ss)
  | .sweep shard now =>
    (ss.serve H (.sweep shard now sweepLimit)).map fun ss => (.swept, ss)
  | .clear _ fr shard =>
    (ss.onShard shard fun c => c.delPrefix H fr.key).map fun (n, ss) => (.cleared n, ss)

end Server

/-- The server, and what its workers have done so far in the order in which the calls ended. -/
structure Server where
  set : ShardSet
  workers : List Server.Worker
  conns : List Server.Conn
  log : List (Server.Op × Server.Outcome)

namespace Server

/-- `transport.NewWorkerPool(numShards, 4096)`, started. -/
def newServer (ss : ShardSet) : Server where
  set := ss
  workers := List.replicate (if ss.shards.length = 0 then 8 else ss.shards.length)
    ⟨newShardWorker 4096, [], [], none⟩
  conns := []
  log := []

/-- What can happen next. -/
inductive Event where
  | accept (workerIdx : Nat)
  | read (c : Nat) (chunk : Bytes)
  /-- `Read` fails or returns nothing. -/
  | hangUp (c : Nat)
  /-- `Submit` has returned. -/
  | submitted (c : Nat)
  /-- `<-done` -/
  | woken (c : Nat)
  | write (c : Nat)
  /-- `Write` fails after `n` bytes. -/
  | writeFails (c n : Nat)
  /-- The clean-up loop calls `Submit` for a shard. -/
  | tick (shard : Nat)
  /-- A step of worker `w`, or of a `submit` or `shutdown` call on it. -/
  | worker (w : Nat) (ev : ShardWorker.Event)
  /-- The beginning of a call on a shard. -/
  | enter (w : Nat) (env : Env)
  /-- The end of it. -/
  | leave (w : Nat)

/-- The size of the buffer of `Read`. -/
def readChunkSize : Nat := 4096

/-- Replace a connection. -/
def setConn (s : Server) (c : Nat) (conn : Conn) : Server :=
  { s with conns := s.conns.set c conn }

/-- Replace a worker. -/
def setWorker (s : Server) (w : Nat) (wk : Worker) : Server :=
  { s with workers := s.workers.set w wk }

/-- A `submit` call on worker `w` begins. -/
def Worker.submit (wk : Worker) (body : Body) : Worker :=
  { wk with
    core := { wk.core with submits := wk.core.submits ++ [.entered] }
    jobs := wk.jobs ++ [body] }

/-- The shard that the call of a frame on worker `w` reads. -/
def reads (H : Hashes) (ss : ShardSet) (w : Nat) (fr : Frame) : Option Nat :=
  if fr.op = .scan then (scanArgs fr.value).map fun (cursor, _) => (cursor >>> 48).toNat
  else if ss.cacheIndexFor H fr.key = w then some w
  else none

/-- The shards after the call of a frame on worker `w`, which has made `src` of what it has read.
SCAN changes nothing, and a frame that is refused does not either. -/
def publishFrame (H : Hashes) (ss src : ShardSet) (w : Nat) (fr : Frame) : ShardSet :=
  if fr.op = .scan ∨ ss.cacheIndexFor H fr.key ≠ w then ss else ss.publish src w

/-- Append the response. -/
def Conn.respond (conn : Conn) (fr : Frame) (r : Reply) : Conn :=
  { conn with writeBuf := r.write fr conn.writeBuf }

/-- The response to `fr` goes to the buffer of the connection that waits for it. -/
def respond (s : Server) (client : Option Nat) (fr : Frame) (r : Reply) : Server :=
  match client with
  | none => s
  | some c => { s with conns := s.conns.modify c fun conn => conn.respond fr r }

/-- A call has ended: what the shards are now, and what it was. -/
def record (s : Server) (set : ShardSet) (op : Op) (out : Outcome) : Server :=
  { s with set := set, log := s.log ++ [(op, out)] }

/-- The job that the worker handles. -/
def Worker.current (wk : Worker) : Option Body :=
  match wk.core.worker with
  | .handling j => wk.jobs[j]?
  | _ => none

/-- The connection that waits for the job that the worker handles. -/
def Worker.client (wk : Worker) : Option Nat := wk.current.bind Body.conn

/-- The worker is done with the first of its tasks. -/
def Worker.advance (wk : Worker) : Worker := { wk with rest := wk.rest.tail, busy := none }

/-- A worker begins with a frame, a sweep or the next shard of a DELPREFIX. -/
def enterCall (s : Server) (w : Nat) (wk : Worker) (env : Env) : Option Server :=
  match wk.current, wk.busy, wk.rest with
  | some _, none, .frame fr :: _ =>
    if fr.op = .delPrefix then
      some (s.setWorker w { wk with busy := some (.clear fr 0 0 s.set) })
    else some (s.setWorker w { wk with busy := some (.call (.frame fr) env s.set) })
  | some _, none, .sweep shard :: _ =>
    some (s.setWorker w { wk with busy := some (.call (.sweep shard) env s.set) })
  | some _, some (.next fr shard total), _ =>
    some (s.setWorker w { wk with busy := some (.clear fr shard total s.set) })
  | _, _, _ => none

/-- A worker is done with what it has begun. -/
def leaveCall (H : Hashes) (s : Server) (w : Nat) (wk : Worker) : Option Server :=
  match wk.busy with
  | some (.call (.frame fr) env snap) => do
    let (r, src) ← snap.answerTo H w env fr
    let s := s.record (publishFrame H s.set src w fr) (.frame wk.client w env fr) (.replied r)
    some ((s.setWorker w wk.advance).respond wk.client fr r)
  | some (.call (.sweep shard) env snap) => do
    let src ← snap.serve H (.sweep shard env.now sweepLimit)
    let s := s.record (s.set.publish src shard) (.sweep shard env.now) .swept
    some (s.setWorker w wk.advance)
  | some (.clear fr shard total snap) => do
    let (n, src) ← snap.onShard shard fun c => c.delPrefix H fr.key
    let s := s.record (s.set.publish src shard) (.clear wk.client fr shard) (.cleared n)
    if shard + 1 < s.set.shards.length then
      some (s.setWorker w { wk with busy := some (.next fr (shard + 1) (total + n)) })
    else
      some ((s.setWorker w wk.advance).respond wk.client fr ⟨0, leBytes 8 (total + n)⟩)
  | some (.next _ _ _) | none => none

/-- A step of the worker itself.  `Submit` is called by the connections and the clean-up loop
only, a job is loaded when it is taken and is over when all its tasks are. -/
def workerStep (s : Server) (w : Nat) (wk : Worker) (ev : ShardWorker.Event) : Option Server :=
  match ev with
  | .submit => none
  | .workerTake => do
    let core ← wk.core.step .workerTake
    let wk := { wk with core := core }
    let body ← wk.current
    some (s.setWorker w { wk with rest := body.tasks, busy := none })
  | .workerHandle =>
    if wk.rest = [] ∧ wk.busy.isNone then
      (wk.core.step .workerHandle).map fun core => s.setWorker w { wk with core := core }
    else none
  | ev => (wk.core.step ev).map fun core => s.setWorker w { wk with core := core }

/-- `Submit` with the frames that were read. -/
def submitFrames (s : Server) (c : Nat) (conn : Conn) (frames : List Frame) : Server :=
  match s.workers[conn.workerIdx]? with
  | none => s.setConn c { conn with pos := .closed }
  | some wk =>
    (s.setWorker conn.workerIdx (wk.submit ⟨some c, frames.map .frame⟩)).setConn c
      { conn with pos := .submitting wk.jobs.length }

/-- A chunk has been read. -/
def readChunk (g : Growth) (s : Server) (c : Nat) (conn : Conn) (chunk : Bytes) : Server :=
  let (frames, perr, parser) := feedCopied g conn.parser chunk
  let conn := { conn with parser := parser }
  match perr with
  | some _ => s.setConn c { conn with pos := .closed }
  | none => if frames.length > 0 then s.submitFrames c conn frames else s.setConn c conn

/-- `Read` has failed or returned nothing. -/
def Conn.hangUp (conn : Conn) : Option Conn :=
  if conn.pos = .reading then some { conn with pos := .closed } else none

/-- `Submit` has returned. -/
def Conn.submitted (workers : List Worker) (conn : Conn) : Option Conn :=
  match conn.pos with
  | .submitting j =>
    match workers[conn.workerIdx]?.bind fun wk => wk.core.submits[j]? with
    | some (.returned ok) => some { conn with pos := if ok then .waiting j else .closed }
    | _ => none
  | _ => none

/-- `done` is closed; `processErr` is set if the job was canceled. -/
def Conn.woken (workers : List Worker) (conn : Conn) : Option Conn :=
  match conn.pos with
  | .waiting j => do
    let wk ← workers[conn.workerIdx]?
    let (_, canceled) ← wk.core.handled.find? fun e => e.1 = j
    some { conn with
      pos := if canceled then .closed else if conn.writeBuf.len > 0 then .writing else .reading }
  | _ => none

/-- `Write`: everything is sent. -/
def Conn.write (conn : Conn) : Option Conn :=
  if conn.pos = .writing then
    some { conn with
      sent := conn.sent ++ conn.writeBuf.contents
      writeBuf := conn.writeBuf.truncate
      pos := .reading }
  else none

/-- `Write` has failed after `n` bytes. -/
def Conn.writeFails (n : Nat) (conn : Conn) : Option Conn :=
  if conn.pos = .writing then
    some { conn with sent := conn.sent ++ conn.writeBuf.contents.take n, pos := .closed }
  else none

/-- A step of the goroutine of connection `c`. -/
def onConn (s : Server) (c : Nat) (next : Conn → Option Conn) : Option Server := do
  let conn ← s.conns[c]?
  let conn ← next conn
  some (s.setConn c conn)

/-- The step, if it can be taken. -/
def step (H : Hashes) (g : Growth) (s : Server) : Event → Option Server
  | .accept workerIdx =>
    if workerIdx < s.workers.length then some { s with conns := s.conns ++ [newConn workerIdx] }
    else none
  | .read c chunk => do
    let conn ← s.conns[c]?
    if conn.pos = .reading ∧ chunk ≠ [] ∧ chunk.length ≤ readChunkSize then
      some (s.readChunk g c conn chunk)
    else none
  | .tick shard => do
    let wk ← s.workers[shard]?
    if shard < s.set.shards.length then
      some (s.setWorker shard (wk.submit ⟨none, [.sweep shard]⟩))
    else none
  | .worker w ev => do
    let wk ← s.workers[w]?
    s.workerStep w wk ev
  | .enter w env => do
    let wk ← s.workers[w]?
    s.enterCall w wk env
  | .leave w => do
    let wk ← s.workers[w]?
    s.leaveCall H w wk
  | .hangUp c => s.onConn c Conn.hangUp
  | .submitted c => s.onConn c (Conn.submitted s.workers)
  | .woken c => s.onConn c (Conn.woken s.workers)
  | .write c => s.onConn c Conn.write
  | .writeFails c n => s.onConn c (Conn.writeFails n)

/-! ## Calls on one shard at the same time -/

/-- The shard that a call under way works on. -/
def Busy.touches (H : Hashes) (ss : ShardSet) (w : Nat) : Busy → Option Nat
  | .call (.frame fr) _ _ => reads H ss w fr
  | .call (.sweep shard) _ _ => some shard
  | .next _ _ _ => none
  | .clear _ shard _ _ => some shard

/-- What a worker is doing. -/
def busyAt (s : Server) (w : Nat) : Option Busy := s.workers[w]?.bind Worker.busy

/-- The shard that worker `w` works on. -/
def touches (H : Hashes) (s : Server) (w : Nat) : Option Nat :=
  (s.busyAt w).bind (Busy.touches H s.set w)

/-- Every call begins while no other worker is in a call on its shard. -/
def Apart (H : Hashes) (g : Growth) (s : Server) : Event → Prop
  | .enter w env => ∀ s' ∈ s.step H g (.enter w env),
      ∀ w' < s.workers.length, w' ≠ w → ∀ i ∈ touches H s' w, i ∉ touches H s w'
  | _ => True

instance (H : Hashes) (g : Growth) (s : Server) : ∀ ev, Decidable (s.Apart H g ev)
  | .enter w env => inferInstanceAs (Decidable (∀ s' ∈ s.step H g (.enter w env), _))
  | .accept _ | .read _ _ | .hangUp _ | .submitted _ | .woken _ | .write _ | .writeFails _ _
  | .tick _ | .worker _ _ | .leave _ => isTrue trivial

/-- No client asks for a SCAN or a DELPREFIX. -/
def Keyed (g : Growth) (s : Server) : Event → Prop
  | .read c chunk => ∀ conn ∈ s.conns[c]?, ∀ fr ∈ (feedCopied g conn.parser chunk).1,
      fr.op ≠ .scan ∧ fr.op ≠ .delPrefix
  | _ => True

instance (g : Growth) (s : Server) : ∀ ev, Decidable (s.Keyed g ev)
  | .read c chunk => inferInstanceAs (Decidable (∀ conn ∈ s.conns[c]?,
      ∀ fr ∈ (feedCopied g conn.parser chunk).1, _ ∧ _))
  | .accept _ | .hangUp _ | .submitted _ | .woken _ | .write _ | .writeFails _ _ | .tick _
  | .worker _ _ | .enter _ _ | .leave _ => isTrue trivial

end Server

end Horreum.Transport
