/-
  Transport/Handler.lean --- one frame on one shard worker, `HandleFrame` in
  `internal/transport/handler.go`.

  Every handler makes at most one call on the shard that owns the key, or on the whole set, and
  appends one response to the write buffer.  A response is a status and a value; `none` is a
  call that does not return.
-/
import Horreum.Transport.Requests
import Horreum.Transport.ShardSet

set_option autoImplicit false

namespace Horreum.Transport

open Foundation
open Proto

/-- Status and value of a response. -/
structure Reply where
  status : UInt8
  value : Bytes

/-- The answer to anything that went wrong. -/
def Reply.failed : Reply := ⟨1, []⟩

/-- `EncodeResponse` with the op and the key of the request. -/
def Reply.write (r : Reply) (fr : Frame) (writeBuf : Buffer) : Buffer :=
  encodeResponse writeBuf fr.op r.status fr.key r.value

/-- Status zero without a value. -/
def Reply.done : Reply := ⟨0, []⟩

namespace ShardSet

variable (H : Hashes)

/-- The common shape: a call on the shard of the key, and a reply to its result. -/
def answer {α : Type} (ss : ShardSet) (key : Bytes)
    (call : ShardCache → Option (α × ShardCache)) (reply : α → Reply) :
    Option (Reply × ShardSet) :=
  (ss.onKey H key call).map fun (res, ss) => (reply res, ss)

/-- The collection calls return a value and an error. -/
def okOr {α : Type} (reply : α → Reply) : α × Option Error → Reply
  | (value, none) => reply value
  | (_, some _) => .failed

/-- `handleGet` -/
def handleGet (ss : ShardSet) (env : Env) (fr : Frame) : Option (Reply × ShardSet) :=
  ss.answer H fr.key (fun c => c.get H env.now fr.key) fun
    | .error _ => .failed
    | .ok val => ⟨0, val⟩

/-- `handleSet` -/
def handleSet (ss : ShardSet) (env : Env) (fr : Frame) : Option (Reply × ShardSet) :=
  ss.answer H fr.key (fun c => c.set H env fr.key fr.value 0) fun
    | .error _ => .failed
    | .ok _ => .done

/-- `handleSetEx` -/
def handleSetEx (ss : ShardSet) (env : Env) (fr : Frame) : Option (Reply × ShardSet) :=
  match setExArgs fr.value with
  | none => some (.failed, ss)
  | some (ttl, val) =>
    ss.answer H fr.key (fun c => c.set H env fr.key val ttl) fun
      | .error _ => .failed
      | .ok _ => .done

/-- The error of `Delete` is dropped. -/
def handleDel (ss : ShardSet) (fr : Frame) : Option (Reply × ShardSet) :=
  ss.answer H fr.key (fun c => c.delete H fr.key) fun _ => .done

/-- Not swapped is an error too, with the current value. -/
def handleCAS (ss : ShardSet) (env : Env) (fr : Frame) : Option (Reply × ShardSet) :=
  match casArgs fr.value with
  | none => some (.failed, ss)
  | some (expectedValue, newValue) =>
    ss.answer H fr.key (fun c => c.cas H env fr.key expectedValue newValue) fun
      | .error _ => .failed
      | .ok res => if res.swapped then .done else ⟨1, res.current.getD []⟩

/-- `handleIncr` -/
def handleIncr (ss : ShardSet) (env : Env) (fr : Frame) : Option (Reply × ShardSet) :=
  match incrArgs fr.value with
  | none => some (.failed, ss)
  | some delta =>
    ss.answer H fr.key (fun c => c.incr H env fr.key delta) fun
      | .error _ => .failed
      | .ok newVal => ⟨0, leBytes 8 newVal.toUInt64.toNat⟩

/-- Next cursor, number of keys, and each key behind its length. -/
def handleScan (ss : ShardSet) (env : Env) (fr : Frame) : Option (Reply × ShardSet) :=
  match scanArgs fr.value with
  | none => some (.failed, ss)
  | some (cursor, count) =>
    let (keys, nextCursor) := ss.scan fr.key cursor count env.now
    some (⟨0, leBytes 8 nextCursor.toNat ++ leBytes 4 keys.length ++
      keys.flatMap fun k => leBytes 2 k.length ++ k⟩, ss)

/-- `handleDelPrefix` -/
def handleDelPrefix (ss : ShardSet) (fr : Frame) : Option (Reply × ShardSet) :=
  (ss.delPrefix H fr.key).map fun (deleted, ss) => (⟨0, leBytes 8 deleted⟩, ss)

/-- `handleHSet` -/
def handleHSet (ss : ShardSet) (env : Env) (fr : Frame) : Option (Reply × ShardSet) :=
  match hSetArgs fr.value with
  | none => some (.failed, ss)
  | some (field, val) =>
    ss.answer H fr.key (fun c => c.hSet H env fr.key field val) (okOr fun _ => .done)

/-- `handleHGet` -/
def handleHGet (ss : ShardSet) (env : Env) (fr : Frame) : Option (Reply × ShardSet) :=
  ss.answer H fr.key (fun c => c.hGet H env fr.key fr.value)
    (okOr fun val => ⟨0, val.getD []⟩)

/-- Done only if something was deleted. -/
def handleHDel (ss : ShardSet) (env : Env) (fr : Frame) : Option (Reply × ShardSet) :=
  ss.answer H fr.key (fun c => c.hDel H env fr.key fr.value)
    (okOr fun deleted => if deleted then .done else .failed)

/-- The number of pairs, and each field and value behind its length. -/
def handleHGetAll (ss : ShardSet) (env : Env) (fr : Frame) : Option (Reply × ShardSet) :=
  ss.answer H fr.key (fun c => c.hGetAll H env fr.key) (okOr fun pairs =>
    ⟨0, leBytes 4 pairs.length ++ pairs.flatMap fun (field, val) =>
      leBytes 2 field.length ++ field ++ leBytes 4 val.length ++ val⟩)

/-- `handleLPush` -/
def handleLPush (ss : ShardSet) (env : Env) (fr : Frame) : Option (Reply × ShardSet) :=
  ss.answer H fr.key (fun c => c.lPush H env fr.key fr.value)
    (okOr fun length => ⟨0, leBytes 4 length⟩)

/-- `handleRPush` -/
def handleRPush (ss : ShardSet) (env : Env) (fr : Frame) : Option (Reply × ShardSet) :=
  ss.answer H fr.key (fun c => c.rPush H env fr.key fr.value)
    (okOr fun length => ⟨0, leBytes 4 length⟩)

/-- `handleLPop` -/
def handleLPop (ss : ShardSet) (env : Env) (fr : Frame) : Option (Reply × ShardSet) :=
  ss.answer H fr.key (fun c => c.lPop H env fr.key) (okOr fun elem => ⟨0, elem.getD []⟩)

/-- `handleRPop` -/
def handleRPop (ss : ShardSet) (env : Env) (fr : Frame) : Option (Reply × ShardSet) :=
  ss.answer H fr.key (fun c => c.rPop H env fr.key) (okOr fun elem => ⟨0, elem.getD []⟩)

/-- `handleLLen` -/
def handleLLen (ss : ShardSet) (env : Env) (fr : Frame) : Option (Reply × ShardSet) :=
  ss.answer H fr.key (fun c => c.lLen H env fr.key) (okOr fun length => ⟨0, leBytes 4 length⟩)

/-- `handleSAdd` -/
def handleSAdd (ss : ShardSet) (env : Env) (fr : Frame) : Option (Reply × ShardSet) :=
  ss.answer H fr.key (fun c => c.sAdd H env fr.key fr.value)
    (okOr fun added => if added then .done else .failed)

/-- `handleSRem` -/
def handleSRem (ss : ShardSet) (env : Env) (fr : Frame) : Option (Reply × ShardSet) :=
  ss.answer H fr.key (fun c => c.sRem H env fr.key fr.value)
    (okOr fun removed => if removed then .done else .failed)

/-- `handleSIsMember` -/
def handleSIsMember (ss : ShardSet) (env : Env) (fr : Frame) : Option (Reply × ShardSet) :=
  ss.answer H fr.key (fun c => c.sIsMember H env fr.key fr.value)
    (okOr fun isMember => if isMember then .done else .failed)

/-- The number of members, and each behind its length. -/
def handleSMembers (ss : ShardSet) (env : Env) (fr : Frame) : Option (Reply × ShardSet) :=
  ss.answer H fr.key (fun c => c.sMembers H env fr.key) (okOr fun members =>
    ⟨0, leBytes 4 members.length ++ members.flatMap fun m => leBytes 2 m.length ++ m⟩)

/-- The switch over the opcodes. -/
def dispatch (ss : ShardSet) (env : Env) (fr : Frame) : Option (Reply × ShardSet) :=
  match fr.op with
  | .get => ss.handleGet H env fr
  | .set => ss.handleSet H env fr
  | .setEx => ss.handleSetEx H env fr
  | .del => ss.handleDel H fr
  | .cas => ss.handleCAS H env fr
  | .incr => ss.handleIncr H env fr
  | .scan => ss.handleScan env fr
  | .delPrefix => ss.handleDelPrefix H fr
  | .hSet => ss.handleHSet H env fr
  | .hGet => ss.handleHGet H env fr
  | .hDel => ss.handleHDel H env fr
  | .hGetAll => ss.handleHGetAll H env fr
  | .lPush => ss.handleLPush H env fr
  | .lPop => ss.handleLPop H env fr
  | .rPush => ss.handleRPush H env fr
  | .rPop => ss.handleRPop H env fr
  | .lLen => ss.handleLLen H env fr
  | .sAdd => ss.handleSAdd H env fr
  | .sRem => ss.handleSRem H env fr
  | .sIsMember => ss.handleSIsMember H env fr
  | .sMembers => ss.handleSMembers H env fr

/-- A key of another shard is refused, except to the two calls that are not about one key.  The
flag is whether the connection goes on. -/
def handleFrame (ss : ShardSet) (env : Env) (fr : Frame) (writeBuf : Buffer) (workerIdx : Nat) :
    Option (Bool × Buffer × ShardSet) :=
  if fr.op ≠ .scan ∧ fr.op ≠ .delPrefix ∧ ss.cacheIndexFor H fr.key ≠ workerIdx then
    some (true, encodeResponse writeBuf fr.op 1 fr.key [], ss)
  else
    (ss.dispatch H env fr).map fun (reply, ss) =>
      (true, encodeResponse writeBuf fr.op reply.status fr.key reply.value, ss)

/-- What `HandleFrame` answers on worker `w`, and the shards after it. -/
def answerTo (ss : ShardSet) (w : Nat) (env : Env) (fr : Frame) : Option (Reply × ShardSet) :=
  if fr.op ≠ .scan ∧ fr.op ≠ .delPrefix ∧ ss.cacheIndexFor H fr.key ≠ w then some (.failed, ss)
  else ss.dispatch H env fr

theorem handleFrame_eq (ss : ShardSet) (env : Env) (fr : Frame) (writeBuf : Buffer) (w : Nat) :
    ss.handleFrame H env fr writeBuf w =
      (ss.answerTo H w env fr).map fun out => (true, out.1.write fr writeBuf, out.2) := by
  unfold handleFrame answerTo
  split <;> rfl

end ShardSet

end Horreum.Transport
