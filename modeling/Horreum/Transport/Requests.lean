/-
  Transport/Requests.lean --- requests as a client encodes them and as the handlers of
  `internal/transport/handler.go` take them apart again.

  Each `…Args` is the slicing at the head of a handler, with `none` where the handler answers
  with an error.
-/
import Horreum.Proto.Parser

set_option autoImplicit false

namespace Horreum.Transport

open Foundation
open Proto

/-! ## The slicing of the handlers -/

/-- `handleSetEx`: the time to live and the value. -/
def setExArgs (value : Bytes) : Option (UInt32 × Bytes) :=
  if value.length < 4 then none else some (UInt32.ofNat (wordAt value 0 4), value.drop 4)

/-- `handleCAS`: the expected and the new value. -/
def casArgs (value : Bytes) : Option (Bytes × Bytes) :=
  if value.length < 4 then none
  else
    let expLen := wordAt value 0 4
    if 4 + expLen > value.length then none
    else some (slice value 4 (4 + expLen), value.drop (4 + expLen))

/-- `handleIncr`: the signed step. -/
def incrArgs (value : Bytes) : Option Int64 :=
  if value.length ≠ 8 then none else some (UInt64.ofNat (wordAt value 0 8)).toInt64

/-- `handleScan`: the cursor and the page size. -/
def scanArgs (value : Bytes) : Option (UInt64 × Nat) :=
  if value.length < 12 then none else some (UInt64.ofNat (wordAt value 0 8), wordAt value 8 4)

/-- `handleHSet`: the field and the value. -/
def hSetArgs (value : Bytes) : Option (Bytes × Bytes) :=
  if value.length < 2 then none
  else
    let flen := wordAt value 0 2
    if 2 + flen > value.length then none
    else some (slice value 2 (2 + flen), value.drop (2 + flen))

/-! ## Requests -/

/-- A call of one of the encoders, with its arguments. -/
inductive Request where
  | request (op : OpCode) (key value : Bytes)
  | setEx (key value : Bytes) (ttlSeconds : UInt32)
  | cas (key expectedValue newValue : Bytes)
  | incr (key : Bytes) (delta : Int64)
  | scan (pre : Bytes) (cursor : UInt64) (count : UInt32)
  | delPrefix (pre : Bytes)

namespace Request

/-- The bytes that a client sends. -/
def encode (dst : Buffer) : Request → Buffer
  | .request op key value => encodeRequest dst op key value
  | .setEx key value ttlSeconds => encodeSetEx dst key value ttlSeconds
  | .cas key expectedValue newValue => encodeCAS dst key expectedValue newValue
  | .incr key delta => encodeIncr dst key delta
  | .scan pre cursor count => encodeScan dst pre cursor count
  | .delPrefix pre => encodeDelPrefix dst pre

/-- The parts of the value. -/
def parts : Request → List Bytes
  | .request _ _ value => [value]
  | .setEx _ value ttlSeconds => [leBytes 4 ttlSeconds.toNat, value]
  | .cas _ expectedValue newValue =>
    [leBytes 4 expectedValue.length, expectedValue, newValue]
  | .incr _ delta => [leBytes 8 delta.toUInt64.toNat]
  | .scan _ cursor count => [leBytes 8 cursor.toNat, leBytes 4 count.toNat]
  | .delPrefix _ => []

/-- The operation of a request. -/
def op : Request → OpCode
  | .request op _ _ => op
  | .setEx .. => .setEx
  | .cas .. => .cas
  | .incr .. => .incr
  | .scan .. => .scan
  | .delPrefix _ => .delPrefix

/-- The key of a request. -/
def key : Request → Bytes
  | .request _ key _ => key
  | .setEx key _ _ => key
  | .cas key _ _ => key
  | .incr key _ => key
  | .scan pre _ _ => pre
  | .delPrefix pre => pre

/-- The frame a server should see. -/
def frame (r : Request) : Frame := ⟨r.op, 0, r.key, r.parts.flatten⟩

/-- The handler gets the arguments that the encoder was given. -/
def Recovered : Request → Prop
  | .setEx key value ttlSeconds =>
    setExArgs (Request.setEx key value ttlSeconds).frame.value = some (ttlSeconds, value)
  | .cas key expectedValue newValue =>
    casArgs (Request.cas key expectedValue newValue).frame.value =
      some (expectedValue, newValue)
  | .incr key delta => incrArgs (Request.incr key delta).frame.value = some delta
  | .scan pre cursor count =>
    scanArgs (Request.scan pre cursor count).frame.value = some (cursor, count.toNat)
  | .request .. | .delPrefix _ => True

/-- Each encoder announces the length of the value it writes. -/
theorem encode_eq (dst : Buffer) (r : Request) :
    r.encode dst = encodeFrame dst r.op.code 0 r.key r.frame.value.length r.parts := by
  cases r <;>
    simp only [encode, encodeRequest, encodeSetEx, encodeCAS, encodeIncr, encodeScan,
      encodeDelPrefix, op, key, frame, parts, List.flatten_cons, List.flatten_nil,
      List.length_append, leBytes_length, List.length_nil, Nat.add_zero, Nat.add_assoc]

theorem contents_encode (dst : Buffer) (r : Request) :
    (r.encode dst).contents = dst.contents ++ r.frame.bytes := by
  have hparts : r.parts.flatten = r.frame.value := rfl
  rw [encode_eq]
  exact contents_encodeFrame dst r.frame hparts

theorem contents_encode_all (reqs : List Request) : ∀ dst : Buffer,
    (reqs.foldl Request.encode dst).contents =
      dst.contents ++ reqs.flatMap fun r => r.frame.bytes := by
  induction reqs with
  | nil =>
    intro dst
    simp
  | cons r reqs ih =>
    intro dst
    rw [List.foldl_cons, ih, contents_encode, List.flatMap_cons, List.append_assoc]

theorem recovered_setEx (key value : Bytes) (ttlSeconds : UInt32) :
    (Request.setEx key value ttlSeconds).Recovered := by
  have hvalue : (Request.setEx key value ttlSeconds).frame.value =
      leBytes 4 ttlSeconds.toNat ++ value := by simp [frame, parts]
  have hlt : ttlSeconds.toNat < 256 ^ 4 := ttlSeconds.toNat_lt
  rw [Recovered, hvalue, setExArgs, if_neg (by simp), wordAt_zero, Nat.mod_eq_of_lt hlt,
    UInt32.ofNat_toNat, List.drop_left' (leBytes_length 4 _)]

theorem recovered_cas {key expectedValue newValue : Bytes}
    (hfit : expectedValue.length < 256 ^ 4) :
    (Request.cas key expectedValue newValue).Recovered := by
  have hvalue : (Request.cas key expectedValue newValue).frame.value =
      leBytes 4 expectedValue.length ++ (expectedValue ++ newValue) := by simp [frame, parts]
  have hword : wordAt (leBytes 4 expectedValue.length ++ (expectedValue ++ newValue)) 0 4 =
      expectedValue.length := by rw [wordAt_zero, Nat.mod_eq_of_lt hfit]
  have hlen : (leBytes 4 expectedValue.length ++ (expectedValue ++ newValue)).length =
      4 + expectedValue.length + newValue.length := by
    rw [List.length_append, List.length_append, leBytes_length]
    omega
  have hdrop : (leBytes 4 expectedValue.length ++ (expectedValue ++ newValue)).drop
      (4 + expectedValue.length) = newValue := by
    rw [← List.append_assoc]
    exact List.drop_left' (by rw [List.length_append, leBytes_length])
  rw [Recovered, hvalue, casArgs, if_neg (by omega)]
  simp only [hword]
  rw [if_neg (by omega), slice_append (leBytes_length 4 _) rfl, hdrop]

theorem recovered_incr (key : Bytes) (delta : Int64) : (Request.incr key delta).Recovered := by
  have hvalue : (Request.incr key delta).frame.value =
      leBytes 8 delta.toUInt64.toNat ++ [] := by simp [frame, parts]
  have hlt : delta.toUInt64.toNat < 256 ^ 8 := delta.toUInt64.toNat_lt
  rw [Recovered, hvalue, incrArgs, if_neg (by simp), wordAt_zero, Nat.mod_eq_of_lt hlt,
    UInt64.ofNat_toNat]
  rfl

theorem recovered_scan (pre : Bytes) (cursor : UInt64) (count : UInt32) :
    (Request.scan pre cursor count).Recovered := by
  have hvalue : (Request.scan pre cursor count).frame.value =
      leBytes 8 cursor.toNat ++ (leBytes 4 count.toNat ++ []) := by simp [frame, parts]
  have hcursor : cursor.toNat < 256 ^ 8 := cursor.toNat_lt
  have hcount : count.toNat < 256 ^ 4 := count.toNat_lt
  rw [Recovered, hvalue, scanArgs, if_neg (by simp), wordAt_zero, Nat.mod_eq_of_lt hcursor,
    UInt64.ofNat_toNat, wordAt_append 4 _ (leBytes_length 8 _), Nat.mod_eq_of_lt hcount]

theorem recovered (r : Request) (hsize : r.frame.size ≤ maxFrameSize) : r.Recovered := by
  cases r with
  | request op key value => trivial
  | setEx key value ttlSeconds => exact recovered_setEx key value ttlSeconds
  | cas key expectedValue newValue =>
    refine recovered_cas ?_
    simp only [Frame.size, frame, parts, List.flatten_cons, List.length_append,
      maxFrameSize] at hsize
    omega
  | incr key delta => exact recovered_incr key delta
  | scan pre cursor count => exact recovered_scan pre cursor count
  | delPrefix pre => trivial

end Request

/-- Whatever is written one behind the other by the encoders, to any slice: what was in the
slice stays, one `Feed` of a new parser on what was appended returns exactly the frames, and the
handlers get the arguments. -/
theorem requests_read_back (g : Growth) (dst : Buffer) (reqs : List Request)
    (hfit : ∀ r ∈ reqs, r.key.length ≤ 65535 ∧ r.frame.size ≤ maxFrameSize) :
    let out := reqs.foldl Request.encode dst
    out.contents.take dst.len = dst.contents ∧
      (newParser.feed g (out.contents.drop dst.len)).1 = reqs.map Request.frame ∧
      (newParser.feed g (out.contents.drop dst.len)).2.1 = none ∧
      ∀ r ∈ reqs, r.Recovered := by
  have hout := Request.contents_encode_all reqs dst
  have hread := readAll_bytes (reqs.map Request.frame) fun f hf => by
    obtain ⟨r, hr, rfl⟩ := List.mem_map.mp hf
    exact ⟨Nat.lt_succ_of_le (hfit r hr).1, (hfit r hr).2⟩
  rw [List.flatMap_map] at hread
  obtain ⟨herr, _, hframes, _⟩ := newParser.reads g (reqs.flatMap fun r => r.frame.bytes)
  have hwhole : newParser.pending.contents ++ (reqs.flatMap fun r => r.frame.bytes) =
      reqs.flatMap fun r => r.frame.bytes := rfl
  rw [hwhole, hread] at herr hframes
  intro out
  rw [hout, List.drop_left' dst.length_contents, List.take_left' dst.length_contents]
  exact ⟨rfl, hframes.mpr fun hne => absurd rfl hne, herr,
    fun r hr => r.recovered (hfit r hr).2⟩

/-- A pipeline with empty keys and values and a negative step, behind one byte in a slice with
two spare ones. -/
theorem requests_read_back_pipeline :
    let dst : Buffer := ⟨[9, 0, 0], 1, by decide⟩
    let reqs : List Request := [.setEx [107] [118] 60, .cas [] [] [1], .incr [107] (-5),
      .scan [] 7 100, .delPrefix [112], .request .get [107] []]
    let out := reqs.foldl Request.encode dst
    (newParser.feed .doubling (out.contents.drop 1)).1 = reqs.map Request.frame ∧
      incrArgs (Request.incr [107] (-5)).frame.value = some (-5) := by
  intro dst reqs out
  obtain ⟨_, hframes, _, hargs⟩ := requests_read_back .doubling dst reqs (by decide)
  exact ⟨hframes, hargs (.incr [107] (-5)) (by simp [reqs])⟩

end Horreum.Transport
