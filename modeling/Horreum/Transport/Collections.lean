/-
  Transport/Collections.lean --- hashes, lists and sets on top of a shard: the `H*`, `L*` and
  `S*` calls of `internal/transport/transport.go`.

  All thirteen read a payload with `Get`, let `internal/ds` work on it and write the result
  back, remove the key or only answer.  `update` is that shape; each call is `update` with
  its own plan.  The two pops answer with a slice of the payload, which may by then have been
  written over.
-/
import Horreum.Ds.Payload
import Horreum.Transport.ShardCache

set_option autoImplicit false

namespace Horreum.Transport

open Foundation
open Arena (Handle)

/-- What a call does with the payload it has read.  Answers are pairs of a value and an
error, as the source returns both. -/
inductive Plan (α : Type) where
  | answer (value : α) (err : Option Error)
  /-- `Set` the new payload without expiry; `inPlace` is a write that has gone through the
  slice that `Get` returned. -/
  | write (newRaw : Bytes) (inPlace : Option (Nat × Bytes)) (reply : Option Error → α × Option Error)
  | remove (value : α)
  | crash

/-- `if len(newRaw) == 0 { _ = s.Delete(key) } else { _, _ = s.Set(key, newRaw, 0) }` -/
def Plan.replace {α : Type} (newRaw : Bytes) (value : α) : Plan α :=
  if newRaw.length = 0 then .remove value else .write newRaw none fun _ => (value, none)

namespace ShardCache

variable (H : Hashes) {α : Type}

/-- The handle whose bytes `Get` returned a view of, if it did. -/
def viewed (s : ShardCache) (now : UInt32) (key : Bytes) : Option Handle :=
  match s.idx.get H.hashKey key now with
  | some (some (h, _)) => if isView s.mgr h then some h else none
  | _ => none

/-- The write through the returned slice reaches the arena when the slice is a view of it. -/
def scribble (s : ShardCache) (now : UInt32) (key : Bytes) (inPlace : Option (Nat × Bytes)) :
    ShardCache :=
  match inPlace, s.viewed H now key with
  | some (off, bytes), some h => { s with mgr := s.mgr.poke h off bytes }
  | _, _ => s

/-- The error of a result. -/
def errorOf {β : Type} : Except Error β → Option Error
  | .ok _ => none
  | .error e => some e

/-- The payload, empty where `raw, _ := s.Get(key)` drops the error. -/
def payloadOf (res : Except Error Bytes) : Bytes := res.toOption.getD []

/-- Read, then do what the plan says. -/
def update (s : ShardCache) (env : Env) (key : Bytes) (plan : Except Error Bytes → Plan α) :
    Option ((α × Option Error) × ShardCache) := do
  let (res, s) ← s.get H env.now key
  match plan res with
  | .answer value err => some ((value, err), s)
  | .write newRaw inPlace reply =>
    let (res, s) ← (s.scribble H env.now key inPlace).set H env key newRaw 0
    some (reply (errorOf res), s)
  | .remove value =>
    let (_, s) ← s.delete H key
    some ((value, none), s)
  | .crash => none

/-! ## Hashes -/

/-- The plan of `HSet`; a value of the same length is written in place. -/
def hSetPlan (field value : Bytes) (res : Except Error Bytes) : Plan Bool :=
  let r := Ds.hSet (payloadOf res) field value
  .write r.newRaw (r.inPlace.map fun off => (off, value)) fun err => (r.updated, err)

/-- `HSet` -/
def hSet (s : ShardCache) (env : Env) (key field value : Bytes) :=
  s.update H env key (hSetPlan field value)

/-- The plan of `HGet`. -/
def hGetPlan (field : Bytes) : Except Error Bytes → Plan (Option Bytes)
  | .error e => .answer none (some e)
  | .ok raw =>
    match Ds.hGet raw field with
    | none => .answer none (some .notFound)
    | some val => .answer (some val) none

/-- `HGet` -/
def hGet (s : ShardCache) (env : Env) (key field : Bytes) := s.update H env key (hGetPlan field)

/-- The plan of `HDel`. -/
def hDelPlan (field : Bytes) : Except Error Bytes → Plan Bool
  | .error e => .answer false (some e)
  | .ok raw =>
    match Ds.hDel raw field with
    | none => .answer false none
    | some newRaw =>
      if newRaw.length = 0 then .remove true else .write newRaw none fun err => (true, err)

/-- `HDel` -/
def hDel (s : ShardCache) (env : Env) (key field : Bytes) := s.update H env key (hDelPlan field)

/-- The plan of `HGetAll`. -/
def hGetAllPlan : Except Error Bytes → Plan (List (Bytes × Bytes))
  | .error e => .answer [] (some e)
  | .ok raw => .answer (Ds.hGetAll raw) none

/-- `HGetAll` -/
def hGetAll (s : ShardCache) (env : Env) (key : Bytes) := s.update H env key hGetAllPlan

/-! ## Lists -/

/-- The plan of `LPush`. -/
def lPushPlan (elem : Bytes) (res : Except Error Bytes) : Plan Nat :=
  let newRaw := Ds.lPush (payloadOf res) elem
  .write newRaw none fun err => (Ds.lLen newRaw, err)

/-- `LPush` -/
def lPush (s : ShardCache) (env : Env) (key elem : Bytes) := s.update H env key (lPushPlan elem)

/-- `ds.RPush` panics on a payload shorter than its count, and so on a key that is not there. -/
def rPushPlan (elem : Bytes) (res : Except Error Bytes) : Plan Nat :=
  match Ds.rPush (payloadOf res) elem with
  | none => .crash
  | some newRaw => .write newRaw none fun err => (Ds.lLen newRaw, err)

/-- `RPush` -/
def rPush (s : ShardCache) (env : Env) (key elem : Bytes) := s.update H env key (rPushPlan elem)

/-- What both pops do with the payload. -/
def popPlan (pop : Bytes → Option Ds.Popped) : Except Error Bytes → Plan (Option (Nat × Bytes))
  | .error e => .answer none (some e)
  | .ok raw =>
    match pop raw with
    | none => .answer none (some .notFound)
    | some p => .replace p.newRaw (some (p.off, p.elem))

/-- A slice of the payload that `Get` returned in `s`, as it reads in `s'`: the element of a pop
is returned after the shorter list is stored, and a view shows what the arena has by then. -/
def reread (s s' : ShardCache) (now : UInt32) (key : Bytes) (off : Nat) (bytes : Bytes) : Bytes :=
  match s.viewed H now key with
  | none => bytes
  | some h =>
    match s'.mgr.view h with
    | some (.ok raw) => slice raw off (off + bytes.length)
    | _ => bytes

/-- The shape of both pops. -/
def popWith (s : ShardCache) (env : Env) (key : Bytes) (pop : Bytes → Option Ds.Popped) :
    Option ((Option Bytes × Option Error) × ShardCache) := do
  let ((popped, err), s') ← s.update H env key (popPlan pop)
  some ((popped.map fun (off, bytes) => s.reread H s' env.now key off bytes, err), s')

variable {H} in
/-- A pop leaves the shard as its update does. -/
theorem popWith_update {s : ShardCache} {env : Env} {key : Bytes}
    {pop : Bytes → Option Ds.Popped} {out : (Option Bytes × Option Error) × ShardCache}
    (h : s.popWith H env key pop = some out) :
    ∃ out', s.update H env key (popPlan pop) = some out' ∧ out.2 = out'.2 := by
  obtain ⟨out', hup, h⟩ := Option.bind_eq_some_iff.mp h
  cases h
  exact ⟨out', hup, rfl⟩

/-- `LPop` -/
def lPop (s : ShardCache) (env : Env) (key : Bytes) := s.popWith H env key Ds.lPop

/-- `RPop` -/
def rPop (s : ShardCache) (env : Env) (key : Bytes) := s.popWith H env key Ds.rPop

/-- An error of `Get` counts as an empty list. -/
def lLenPlan : Except Error Bytes → Plan Nat
  | .error _ => .answer 0 none
  | .ok raw => .answer (Ds.lLen raw) none

/-- `LLen` -/
def lLen (s : ShardCache) (env : Env) (key : Bytes) := s.update H env key lLenPlan

/-! ## Sets -/

/-- The plan of `SAdd`. -/
def sAddPlan (member : Bytes) (res : Except Error Bytes) : Plan Bool :=
  let (newRaw, added) := Ds.sAdd (payloadOf res) member
  .write newRaw none fun err => (added, err)

/-- `SAdd` -/
def sAdd (s : ShardCache) (env : Env) (key member : Bytes) := s.update H env key (sAddPlan member)

/-- The plan of `SRem`. -/
def sRemPlan (member : Bytes) : Except Error Bytes → Plan Bool
  | .error e => .answer false (some e)
  | .ok raw =>
    match Ds.sRem raw member with
    | none => .answer false none
    | some newRaw => .replace newRaw true

/-- `SRem` -/
def sRem (s : ShardCache) (env : Env) (key member : Bytes) := s.update H env key (sRemPlan member)

/-- The plan of `SIsMember`. -/
def sIsMemberPlan (member : Bytes) : Except Error Bytes → Plan Bool
  | .error _ => .answer false none
  | .ok raw => .answer (Ds.sIsMember raw member) none

/-- `SIsMember` -/
def sIsMember (s : ShardCache) (env : Env) (key member : Bytes) :=
  s.update H env key (sIsMemberPlan member)

/-- The plan of `SMembers`. -/
def sMembersPlan : Except Error Bytes → Plan (List Bytes)
  | .error _ => .answer [] none
  | .ok raw => .answer (Ds.sMembers raw) none

/-- `SMembers` -/
def sMembers (s : ShardCache) (env : Env) (key : Bytes) := s.update H env key sMembersPlan

end ShardCache

end Horreum.Transport
