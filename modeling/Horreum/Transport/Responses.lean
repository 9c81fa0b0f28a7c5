/-
  Transport/Responses.lean --- one response for every request.

  A frame is refused, or it is one call on one shard, a scan or a removal on all of them.  Every
  one of these returns in every state that the workers can bring about, except for `RPUSH` on a
  payload that is shorter than its count.  What comes back is one frame, and a client can read it
  unless it is larger than the parser allows.
-/
import Horreum.Proto.Parser
import Horreum.Transport.Removals

set_option autoImplicit false

namespace Horreum.Transport

open Foundation
open Proto
open ShardCache (AnyCall payloadOf)

namespace ShardSet

variable {H : Hashes} {ss ss' : ShardSet} {env : Env} {fr : Frame} {c c' : ShardCache} {key : Bytes}
  {n : Nat}

/-! ## Every frame returns, but for one -/

/-- The handler does not return: an `RPUSH` onto a payload that is too short for its count. -/
def panics (H : Hashes) (ss : ShardSet) (env : Env) (fr : Frame) : Bool :=
  (ss.cacheAt (ss.cacheIndexFor H fr.key)).any fun c => (shardCall env fr).any c.crashes

/-- All shards are safe, and there is one. -/
structure Serving (H : Hashes) (ss : ShardSet) : Prop where
  safe : ss.Safe H
  nonempty : 0 < ss.shards.length

theorem Serving.cache (h : ss.Serving H) (key : Bytes) :
    ∃ c, ss.cacheAt (ss.cacheIndexFor H key) = some c ∧ c.Safe H := by
  refine h.safe _ ?_
  rw [cacheIndexFor, if_neg (Nat.pos_iff_ne_zero.mp h.nonempty)]
  exact Nat.mod_lt _ h.nonempty

theorem Serving.setCache {i : Nat} (h : ss.Serving H) (hc : ss.cacheAt i = some c)
    (hp : ShardCache.Progress H c c') :
    (ss.setCache i c').Serving H :=
  ⟨h.safe.setCache hc hp, by rw [length_setCache]; exact h.nonempty⟩

/-- The loop of `DelPrefix` over shards that are there. -/
theorem Serving.delPrefixLoop (pre : Bytes) : ∀ (is : List Nat) (total : Nat) {ss : ShardSet},
    ss.Serving H → (∀ i ∈ is, i < ss.shards.length) →
    ∃ n ss', ss.delPrefixLoop H pre is total = some (n, ss') ∧ ss'.Serving H
  | [], total, ss, h, _ => ⟨total, ss, rfl, h⟩
  | i :: is, total, ss, h, hin => by
    obtain ⟨c, hc, hsafe⟩ := h.safe i (hin i List.mem_cons_self)
    obtain ⟨es, n, c', hdel, hprog, _⟩ := hsafe.delPrefix pre
    obtain ⟨k, ss', hloop, hserving⟩ := (h.setCache hc hprog).delPrefixLoop pre is (total + n)
      fun j hj => by
        rw [length_setCache]
        exact hin j (List.mem_cons_of_mem i hj)
    refine ⟨k, ss', ?_, hserving⟩
    simp only [ShardSet.delPrefixLoop, onShard, hc, hdel, Option.bind_eq_bind, Option.bind_some,
      hloop]

/-- A handler panics, or it returns and the set goes on serving. -/
theorem Serving.dispatch (h : ss.Serving H) (env : Env) (fr : Frame) :
    ss.panics H env fr = true ∧ ss.dispatch H env fr = none ∨
      ss.panics H env fr = false ∧
        ∃ reply ss', ss.dispatch H env fr = some (reply, ss') ∧ ss'.Serving H := by
  obtain ⟨c, hc, hsafe⟩ := h.cache fr.key
  have hpanics : ss.panics H env fr = (shardCall env fr).any c.crashes := by
    simp only [panics, hc, Option.any_some]
  by_cases hop : fr.op = .delPrefix
  · obtain ⟨n, ss', hloop, hserving⟩ := h.delPrefixLoop fr.key (List.range ss.shards.length) 0
      fun i hi => List.mem_range.mp hi
    refine .inr ⟨by simp [hpanics, shardCall, hop], ⟨0, leBytes 8 n⟩, ss', ?_, hserving⟩
    simp only [ShardSet.dispatch, hop, handleDelPrefix, delPrefix, hloop, Option.map_some]
  · rcases dispatch_cases H env fr hop with
      ⟨hcall, hread⟩ | ⟨any, hcall, α, call, reply, heq, hstep, _⟩
    · obtain ⟨reply, hreply⟩ := hread ss
      exact .inr ⟨by simp [hpanics, hcall], reply, ss, hreply, h⟩
    · rw [hpanics, hcall, Option.any_some, heq]
      simp only [answer, onKey, onShard, hc, Option.bind_eq_bind, Option.bind_some]
      rcases hsafe.step any with ⟨hcrash, hnone⟩ | ⟨hcrash, c', hsome, hprog⟩
      · rw [← hstep, Option.map_eq_none_iff] at hnone
        exact .inl ⟨hcrash, by rw [hnone]; rfl⟩
      · rw [← hstep] at hsome
        obtain ⟨⟨a, c₁⟩, hret, rfl⟩ := Option.map_eq_some_iff.mp hsome
        refine .inr ⟨hcrash, reply a, ss.setCache (ss.cacheIndexFor H fr.key) c₁, ?_,
          h.setCache hc hprog⟩
        simp only [hret, Option.bind_some, Option.map_some]

theorem Serving.serve {job : Job} (h : ss.Serving H) (hjob : ss.serve H job = some ss') :
    ss'.Serving H := by
  cases job with
  | frame env fr writeBuf w =>
    obtain ⟨⟨goOn, buf, t⟩, hframe, rfl⟩ := Option.map_eq_some_iff.mp hjob
    rcases handleFrame_cases hframe with ⟨_, rfl⟩ | ⟨_, r, hd⟩
    · exact h
    · rcases h.dispatch env fr with ⟨_, hnone⟩ | ⟨_, reply, t', hsome, hserving⟩
      · cases hnone.symm.trans hd
      · cases hsome.symm.trans hd
        exact hserving
  | sweep shard now limit =>
    obtain ⟨⟨_, t⟩, hon, rfl⟩ := Option.map_eq_some_iff.mp hjob
    obtain ⟨c, c', hc, hdel, rfl⟩ := onShard_cases hon
    obtain ⟨c₁, hdel, heq⟩ := Option.map_eq_some_iff.mp hdel
    cases heq
    obtain ⟨_, _, hdel', hprog, _⟩ := (h.safe.cache hc).deleteExpired now limit
    cases hdel.symm.trans hdel'
    exact h.setCache hc hprog

theorem Built.serving (h : ss.Built) : ss.Serving H := by
  refine ⟨h.safe, ?_⟩
  rcases h with ⟨numCPU, numShards, regionSize, evictCapacity, comp, cipher, hnew⟩ |
    ⟨mgr, numShards, evictCap, comp, cipher, _, hnew⟩
  · obtain ⟨c, _, hnew⟩ := Option.bind_eq_some_iff.mp hnew
    cases hnew
    simp only [List.length_map, List.length_range]
    split
    · simp only [defaultShardCount]
      split <;> split <;> omega
    · omega
  · obtain ⟨ev, _, hnew⟩ := Option.bind_eq_some_iff.mp hnew
    cases hnew
    simp only [List.length_replicate]
    split <;> omega

theorem serving_of_run {ss₀ : ShardSet} {jobs : List Job} (hbuilt : ss₀.Built)
    (hrun : run (serve H) ss₀ jobs = some ss) : ss.Serving H :=
  run_keeps (Serving H) (fun _ _ _ hs h => hs.serve h) jobs ss₀ ss hbuilt.serving hrun

/-! ## What is sent back -/

/-- What the shard of the key shows for it, and nothing where it has nothing to show. -/
def shown (H : Hashes) (ss : ShardSet) (env : Env) (key : Bytes) : Bytes :=
  ((ss.cacheAt (ss.cacheIndexFor H key)).bind fun c => c.seen env.now key).elim [] payloadOf

/-- The length of the value in the response, by the opcode and what there is before the call.
Where the call can still fail, and then answer without a value, it is at most eight. -/
def valueSize (H : Hashes) (ss : ShardSet) (env : Env) (fr : Frame) : Nat :=
  let raw := ss.shown H env fr.key
  match fr.op with
  | .get => raw.length
  | .cas => (casArgs fr.value).elim 0 fun args => if raw = args.1 then 0 else raw.length
  | .scan => (scanArgs fr.value).elim 0 fun args =>
    12 + ((ss.scan fr.key args.1 args.2 env.now).1.map fun k => 2 + k.length).sum
  | .hGet => ((Ds.hGet raw fr.value).getD []).length
  | .hGetAll => 4 + ((Ds.hGetAll raw).map fun pair => 6 + pair.1.length + pair.2.length).sum
  | .lPop => (Ds.lPop raw).elim 0 fun p => p.elem.length
  | .rPop => (Ds.rPop raw).elim 0 fun p => p.elem.length
  | .sMembers => 4 + ((Ds.sMembers raw).map fun m => 2 + m.length).sum
  | .incr | .delPrefix => 8
  | .lPush | .rPush | .lLen => 4
  | .set | .setEx | .del | .hSet | .hDel | .sAdd | .sRem | .sIsMember => 0

/-- The value has this length, or it is left out where the length is small. -/
def Sized (value : Bytes) (n : Nat) : Prop := value.length = n ∨ value = [] ∧ n ≤ 8

/-- A small value always fits behind its key. -/
theorem Sized.fits_iff {value key : Bytes} (h : Sized value n) (hkey : key.length < 2 ^ 16) :
    headerSize + key.length + value.length ≤ maxFrameSize ↔
      headerSize + key.length + n ≤ maxFrameSize := by
  rcases h with rfl | ⟨rfl, hn⟩
  · rfl
  · simp only [headerSize, maxFrameSize, List.length_nil]
    omega

theorem sized_nil (h : n ≤ 8) : Sized [] n := .inr ⟨rfl, h⟩

theorem sized_okOr {α : Type} {f : α → Reply} (hn : n ≤ 8)
    (hf : ∀ a, (f a).value.length = n ∨ (f a).value = []) (out : α × Option Error) :
    Sized (okOr f out).value n := by
  obtain ⟨a, _ | e⟩ := out
  · rcases hf a with hlen | hnil
    · exact .inl hlen
    · exact .inr ⟨hnil, hn⟩
  · exact sized_nil hn

section Answer

variable {α : Type} {call : ShardCache → Option (α × ShardCache)} {f : α → Reply} {r : Reply}

/-- The reply is to what the call returns on the shard of the key. -/
theorem Serving.sized_answer (h : ss.Serving H) (size : Bytes → Nat)
    (hd : ss.answer H key call f = some (r, ss'))
    (hall : ∀ c a c' read, c.Safe H → c.seen env.now key = some read → call c = some (a, c') →
      Sized (f a).value (size (payloadOf read))) :
    Sized r.value (size (ss.shown H env key)) := by
  obtain ⟨⟨a, t⟩, hon, heq⟩ := Option.map_eq_some_iff.mp hd
  cases heq
  obtain ⟨c, c', hc, hcall, _⟩ := onShard_cases hon
  have hsafe := h.safe.cache hc
  obtain ⟨read, hread⟩ := hsafe.seen_total env.now key
  have hshown : ss.shown H env key = payloadOf read := by
    simp only [shown, hc, Option.bind_some, hread, Option.elim_some]
  rw [hshown]
  exact hall c a c' read hsafe hread hcall

theorem sized_const (hd : ss.answer H key call f = some (r, ss'))
    (hall : ∀ a, Sized (f a).value n) : Sized r.value n := by
  obtain ⟨⟨a, t⟩, _, heq⟩ := Option.map_eq_some_iff.mp hd
  cases heq
  exact hall a

/-- A call that stores nothing answers by what the shard shows. -/
theorem Serving.sized_look {f : α → Reply} {plan : Except Error Bytes → Plan α}
    (h : ss.Serving H) (size : Bytes → Nat)
    (hd : ss.answer H key (fun c => c.update H env key plan) (okOr f) = some (r, ss'))
    (hplan : ∀ read, ∃ value err, plan read = .answer value err ∧
      Sized (okOr f (value, err)).value (size (payloadOf read))) :
    Sized r.value (size (ss.shown H env key)) := by
  refine h.sized_answer size hd fun c a c' read hsafe hread hup => ?_
  obtain ⟨value, err, hanswer, hsized⟩ := hplan read
  obtain ⟨read', hread', hspec⟩ := hsafe.update env key plan
  cases hread.symm.trans hread'
  simp only [hanswer] at hspec
  cases hspec.symm.trans hup
  exact hsized

end Answer

/-- A swap that fails answers with the value it has found. -/
theorem sized_cas {expectedValue newValue : Bytes} {read : Except Error Bytes}
    {res : Except Error ShardCache.CasResult} (h : c.Safe H) (hread : c.seen env.now key = some read)
    (hcall : c.cas H env key expectedValue newValue = some (res, c')) :
    Sized (match res with
      | .error _ => Reply.failed
      | .ok res => if res.swapped then .done else ⟨1, res.current.getD []⟩).value
      (if payloadOf read = expectedValue then 0 else (payloadOf read).length) := by
  obtain ⟨res, _, read', hcas, _, hread', hspec⟩ := h.cas env key expectedValue newValue
  cases hread.symm.trans hread'
  cases hcas.symm.trans hcall
  cases read with
  | error e =>
    have hzero : (if payloadOf (.error e) = expectedValue then 0
        else (payloadOf (.error e)).length) = 0 := by
      split <;> rfl
    rcases hspec.2 with ⟨_, rfl⟩ | ⟨_, rfl⟩ <;> exact .inl hzero.symm
  | ok value =>
    rcases hspec with ⟨hne, rfl, _⟩ | ⟨heq, ⟨e, rfl⟩, _⟩ | ⟨heq, rfl, _⟩
    · exact .inl (if_neg hne).symm
    · exact .inl (if_pos heq).symm
    · exact .inl (if_pos heq).symm

/-- The element is a slice of the payload. -/
def Slices (pop : Bytes → Option Ds.Popped) : Prop :=
  ∀ raw p, pop raw = some p → ∃ n, p.elem = slice raw p.off (p.off + n)

theorem slices_lPop : Slices Ds.lPop := by
  intro raw p h
  simp only [Ds.lPop] at h
  repeat' split at h
  all_goals cases h
  all_goals exact ⟨_, rfl⟩

theorem slices_rPop : Slices Ds.rPop := by
  intro raw p h
  simp only [Ds.rPop] at h
  repeat' split at h
  all_goals cases h
  all_goals exact ⟨_, rfl⟩

/-- Whatever has been written over the element by now, its length is the same. -/
theorem length_reread {key raw : Bytes} {now : UInt32} (h : c.Safe H)
    (hread : c.seen now key = some (.ok raw)) (hprog : ShardCache.Progress H c c') (off n : Nat) :
    (c.reread H c' now key off (slice raw off (off + n))).length =
      (slice raw off (off + n)).length := by
  unfold ShardCache.reread
  cases hv : c.viewed H now key with
  | none => rfl
  | some g =>
    obtain ⟨_, raw', _, _, _, hin, hraw, hseen⟩ := h.viewed_cases hv
    cases hread.symm.trans hseen
    obtain ⟨bytes, hbytes, hlen⟩ := hin.view_ok h.arena
    cases hraw.symm.trans hbytes
    obtain ⟨bytes', hbytes', hlen'⟩ := (hin.mono hprog.grows).view_ok hprog.safe.arena
    simp only [hbytes', slice, List.length_take, List.length_drop, hlen, hlen']
    omega

theorem sized_pop {pop : Bytes → Option Ds.Popped} {read : Except Error Bytes}
    {a : Option Bytes × Option Error} (hpop : Slices pop)
    (hnil : pop [] = none) (h : c.Safe H) (hread : c.seen env.now key = some read)
    (hcall : c.popWith H env key pop = some (a, c')) :
    Sized (okOr (fun elem => ⟨0, elem.getD []⟩) a).value
      ((pop (payloadOf read)).elim 0 fun p => p.elem.length) := by
  cases hp : pop (payloadOf read) with
  | none =>
    have hnone : ∀ raw, read = .ok raw → pop raw = none := fun raw hraw => by
      rw [hraw] at hp
      exact hp
    obtain ⟨e, hfail⟩ := h.popWith_none hread hnone
    cases hfail.symm.trans hcall
    exact sized_nil (Nat.zero_le 8)
  | some p =>
    cases read with
    | error e => cases hnil.symm.trans hp
    | ok raw =>
      obtain ⟨c₁, hsome, hprog, _⟩ := h.popWith_some hread hp
      cases hsome.symm.trans hcall
      obtain ⟨n, hn⟩ := hpop raw p hp
      refine .inl ?_
      simp only [okOr, Option.getD_some, Option.elim_some, hn]
      exact length_reread h hread hprog p.off n

/-- The handlers answer with a value of the length that the state before tells. -/
theorem Serving.sized {r : Reply} (h : ss.Serving H) (hd : ss.dispatch H env fr = some (r, ss')) :
    Sized r.value (ss.valueSize H env fr) := by
  unfold ShardSet.dispatch at hd
  unfold valueSize
  cases hop : fr.op with
  | get =>
    simp only [hop, handleGet] at hd ⊢
    refine h.sized_answer List.length hd fun c a c' read hsafe hread hcall => ?_
    obtain ⟨read', hget, hread'⟩ := hsafe.get env.now fr.key
    cases hread.symm.trans hread'
    cases hget.symm.trans hcall
    cases a <;> exact .inl rfl
  | cas =>
    simp only [hop, handleCAS] at hd ⊢
    cases hargs : casArgs fr.value with
    | none =>
      rw [hargs] at hd
      cases hd
      exact .inl rfl
    | some args =>
      rw [hargs] at hd
      exact h.sized_answer (fun raw => if raw = args.1 then 0 else raw.length) hd
        fun _ _ _ _ => sized_cas
  | incr =>
    simp only [hop, handleIncr] at hd ⊢
    split at hd
    · cases hd
      exact sized_nil (Nat.le_refl 8)
    · refine sized_const hd fun a => ?_
      cases a with
      | error e => exact sized_nil (Nat.le_refl 8)
      | ok n => exact .inl (leBytes_length 8 _)
  | scan =>
    simp only [hop, handleScan] at hd ⊢
    cases hargs : scanArgs fr.value with
    | none =>
      rw [hargs] at hd
      cases hd
      exact .inl rfl
    | some args =>
      rw [hargs] at hd
      cases hd
      refine .inl ?_
      simp only [List.length_append, leBytes_length, List.length_flatMap, Option.elim_some]
  | delPrefix =>
    simp only [hop, handleDelPrefix] at hd ⊢
    obtain ⟨out, _, heq⟩ := Option.map_eq_some_iff.mp hd
    cases heq
    exact .inl (leBytes_length 8 _)
  | hGet =>
    simp only [hop, handleHGet] at hd ⊢
    refine h.sized_look (fun raw => ((Ds.hGet raw fr.value).getD []).length) hd fun read => ?_
    cases read with
    | error e => exact ⟨_, _, rfl, .inl rfl⟩
    | ok raw =>
      have hraw : payloadOf (.ok raw) = raw := rfl
      rw [ShardCache.hGetPlan, hraw]
      cases Ds.hGet raw fr.value <;> exact ⟨_, _, rfl, .inl rfl⟩
  | hGetAll =>
    simp only [hop, handleHGetAll] at hd ⊢
    refine h.sized_look (fun raw => 4 + ((Ds.hGetAll raw).map fun pair =>
      6 + pair.1.length + pair.2.length).sum) hd fun read => ?_
    cases read with
    | error e => exact ⟨_, _, rfl, sized_nil (show 4 ≤ 8 by decide)⟩
    | ok raw =>
      refine ⟨_, _, rfl, .inl ?_⟩
      simp only [okOr, List.length_append, leBytes_length, List.length_flatMap]
      refine congrArg (4 + List.sum ·) (List.map_congr_left fun pair _ => ?_)
      omega
  | sMembers =>
    simp only [hop, handleSMembers] at hd ⊢
    refine h.sized_look (fun raw => 4 + ((Ds.sMembers raw).map fun m => 2 + m.length).sum) hd
      fun read => ?_
    cases read with
    | error e => exact ⟨_, _, rfl, .inl rfl⟩
    | ok raw =>
      refine ⟨_, _, rfl, .inl ?_⟩
      simp only [okOr, List.length_append, leBytes_length, List.length_flatMap]
      rfl
  | lPop =>
    simp only [hop, handleLPop] at hd ⊢
    exact h.sized_answer (fun raw => (Ds.lPop raw).elim 0 fun p => p.elem.length) hd
      fun _ _ _ _ => sized_pop slices_lPop rfl
  | rPop =>
    simp only [hop, handleRPop] at hd ⊢
    exact h.sized_answer (fun raw => (Ds.rPop raw).elim 0 fun p => p.elem.length) hd
      fun _ _ _ _ => sized_pop slices_rPop rfl
  | lPush | rPush | lLen =>
    simp only [hop, handleLPush, handleRPush, handleLLen] at hd ⊢
    exact sized_const hd (sized_okOr (by decide) fun _ => .inl (leBytes_length 4 _))
  | set | del =>
    simp only [hop, handleSet, handleDel] at hd ⊢
    exact sized_const hd fun a => by cases a <;> exact .inl rfl
  | setEx =>
    simp only [hop, handleSetEx] at hd ⊢
    split at hd
    · cases hd
      exact .inl rfl
    · exact sized_const hd fun a => by cases a <;> exact .inl rfl
  | hSet =>
    simp only [hop, handleHSet] at hd ⊢
    split at hd
    · cases hd
      exact .inl rfl
    · exact sized_const hd (sized_okOr (Nat.zero_le 8) fun _ => .inl rfl)
  | hDel | sAdd | sRem | sIsMember =>
    simp only [hop, handleHDel, handleSAdd, handleSRem, handleSIsMember] at hd ⊢
    exact sized_const hd (sized_okOr (Nat.zero_le 8) fun b => .inl (by cases b <;> rfl))

/-- The frame is refused, or it returns and its response keeps to the size the parser allows. -/
def Answerable (H : Hashes) (w : Nat) (ss : ShardSet) (env : Env) (fr : Frame) : Prop :=
  ss.Accepts H fr w → ss.panics H env fr = false ∧
    headerSize + fr.key.length + ss.valueSize H env fr ≤ maxFrameSize

instance (H : Hashes) (ss : ShardSet) (fr : Frame) (w : Nat) : Decidable (ss.Accepts H fr w) :=
  inferInstanceAs (Decidable (_ ∨ _ ∨ _))

instance (H : Hashes) (w : Nat) (ss : ShardSet) (env : Env) (fr : Frame) :
    Decidable (ss.Answerable H w env fr) :=
  inferInstanceAs (Decidable (_ → _ ∧ _))

theorem contents_encodeResponse (dst : Buffer) (f : Frame) :
    (encodeResponse dst f.op f.flags f.key f.value).contents = dst.contents ++ f.bytes :=
  contents_encodeFrame dst f (by simp)

/-- One response, for the op and key of the request; it is small enough exactly if the frame is
answerable. -/
theorem Serving.handleFrame {w : Nat} (h : ss.Serving H) (env : Env) {fr : Frame}
    (hkey : fr.key.length < 2 ^ 16) (writeBuf : Buffer) :
    ss.handleFrame H env fr writeBuf w = none ∧ ¬ss.Answerable H w env fr ∨
      ∃ (f : Frame) (buf : Buffer) (ss' : ShardSet),
        ss.handleFrame H env fr writeBuf w = some (true, buf, ss') ∧ ss'.Serving H ∧
          buf.contents = writeBuf.contents ++ f.bytes ∧ f.op = fr.op ∧ f.key = fr.key ∧
          (f.size ≤ maxFrameSize ↔ ss.Answerable H w env fr) := by
  unfold ShardSet.handleFrame
  split
  · rename_i hother
    have hnot : ¬ ss.Accepts H fr w := by
      unfold Accepts
      tauto
    refine .inr ⟨⟨fr.op, 1, fr.key, []⟩, _, ss, rfl, h,
      contents_encodeResponse writeBuf ⟨fr.op, 1, fr.key, []⟩, rfl, rfl, ?_⟩
    refine iff_of_true ?_ fun hacc => absurd hacc hnot
    simp only [Frame.size, headerSize, maxFrameSize, List.length_nil]
    omega
  · rename_i hroute
    have hacc : ss.Accepts H fr w := by
      unfold Accepts
      tauto
    have hiff : ss.Answerable H w env fr ↔ ss.panics H env fr = false ∧
        headerSize + fr.key.length + ss.valueSize H env fr ≤ maxFrameSize :=
      ⟨fun hans => hans hacc, fun hans _ => hans⟩
    rcases h.dispatch env fr with ⟨hpanic, hnone⟩ | ⟨hpanic, reply, ss', hsome, hserving⟩
    · refine .inl ⟨by rw [hnone]; rfl, ?_⟩
      rw [hiff, hpanic]
      exact fun hboth => Bool.noConfusion hboth.1
    · refine .inr ⟨⟨fr.op, reply.status, fr.key, reply.value⟩, _, ss',
        by rw [hsome]; rfl, hserving,
        contents_encodeResponse writeBuf ⟨fr.op, reply.status, fr.key, reply.value⟩, rfl, rfl, ?_⟩
      rw [hiff, ← (h.sized hsome).fits_iff hkey]
      exact ⟨fun hfits => ⟨hpanic, hfits⟩, And.right⟩

/-- One frame of a pipeline on one worker. -/
def reply (H : Hashes) (w : Nat) (s : ShardSet × Buffer) (req : Env × Frame) :
    Option (ShardSet × Buffer) :=
  (s.1.handleFrame H req.1 req.2 s.2 w).map fun out => (out.2.2, out.2.1)

/-- The responses to a pipeline of answerable frames. -/
theorem Serving.pipeline {w : Nat} : ∀ (reqs : List (Env × Frame)) {ss : ShardSet} {buf : Buffer},
    ss.Serving H → (∀ req ∈ reqs, req.2.key.length < 2 ^ 16) →
    Guarded (reply H w) (fun s req => s.1.Answerable H w req.1 req.2) (ss, buf) reqs →
    ∃ (ss' : ShardSet) (buf' : Buffer) (fs : List Frame),
      run (reply H w) (ss, buf) reqs = some (ss', buf') ∧
      buf'.contents = buf.contents ++ fs.flatMap Frame.bytes ∧
      (∀ f ∈ fs, f.key.length < 2 ^ 16 ∧ f.size ≤ maxFrameSize) ∧
      fs.map (fun f => (f.op, f.key)) = reqs.map fun req => (req.2.op, req.2.key)
  | [], ss, buf, _, _, _ => ⟨ss, buf, [], rfl, by simp, by simp, rfl⟩
  | (env, fr) :: reqs, ss, buf, h, hkeys, hguard => by
    have hkey := hkeys (env, fr) List.mem_cons_self
    rcases h.handleFrame env hkey buf with ⟨_, hnot⟩ | ⟨f, buf₁, ss₁, hframe, hserving, hcontents,
      hop, hfkey, hfits⟩
    · exact absurd hguard.1 hnot
    have hreply : reply H w (ss, buf) (env, fr) = some (ss₁, buf₁) := by
      simp only [reply, hframe, Option.map_some]
    obtain ⟨ss', buf', fs, hrun, hall, hfit, hsame⟩ := hserving.pipeline reqs
      (fun req hreq => hkeys req (List.mem_cons_of_mem _ hreq)) (hguard.2 _ hreply)
    refine ⟨ss', buf', f :: fs, by rw [run, hreply]; exact hrun, ?_, ?_, ?_⟩
    · rw [hall, hcontents, List.flatMap_cons, List.append_assoc]
    · intro f' hf'
      rcases List.mem_cons.mp hf' with rfl | hf'
      · exact ⟨hfkey ▸ hkey, hfits.mpr hguard.1⟩
      · exact hfit f' hf'
    · simp only [List.map_cons, hsame, hop, hfkey]

/-- In every state that frames and sweeps on the workers bring about: a frame gets one response
that a client's parser takes for one frame with its op and key, and nothing else, if and only if
it is answerable.  The responses to a pipeline of answerable frames are taken for as many frames,
in their order. -/
theorem one_response_iff (H : Hashes) (g : Growth) {ss₀ ss : ShardSet} {jobs : List Job}
    (hbuilt : ss₀.Built) (hrun : run (serve H) ss₀ jobs = some ss) (w : Nat) :
    (∀ (env : Env) (writeBuf : Buffer) {work : Bytes} {fr : Frame}, parseIn work = .ok fr →
      ((∃ buf ss' bytes f, ss.handleFrame H env fr writeBuf w = some (true, buf, ss') ∧
          buf.contents = writeBuf.contents ++ bytes ∧ Decodes g bytes [f] ∧
          f.op = fr.op ∧ f.key = fr.key) ↔
        ss.Answerable H w env fr)) ∧
    ∀ reqs : List (Env × Frame), (∀ req ∈ reqs, ∃ work, parseIn work = .ok req.2) →
      Guarded (reply H w) (fun s req => s.1.Answerable H w req.1 req.2) (ss, Buffer.nil) reqs →
      ∃ ss' buf fs, run (reply H w) (ss, Buffer.nil) reqs = some (ss', buf) ∧
        Decodes g buf.contents fs ∧
        fs.map (fun f => (f.op, f.key)) = reqs.map fun req => (req.2.op, req.2.key) := by
  have hserving := serving_of_run hbuilt hrun
  constructor
  · intro env writeBuf work fr hfr
    have hkey := (parseIn_limits hfr).1
    rcases hserving.handleFrame env hkey writeBuf with ⟨hnone, hnot⟩ |
      ⟨f, buf, ss', hframe, _, hcontents, hop, hfkey, hfits⟩
    · refine iff_of_false ?_ hnot
      rintro ⟨_, _, _, _, hsome, _⟩
      cases hnone.symm.trans hsome
    · rw [← hfits]
      constructor
      · rintro ⟨_, _, bytes, f', hsome, hbytes, hdec, _⟩
        cases hframe.symm.trans hsome
        rw [hcontents, List.append_cancel_left_eq] at hbytes
        exact size_le_of_decodes (hbytes ▸ hdec)
      · intro hsize
        refine ⟨buf, ss', f.bytes, f, hframe, hcontents, ?_, hop, hfkey⟩
        have hone : Decodes g ([f].flatMap Frame.bytes) [f] := decodes_bytes g fun f' hf' => by
          rw [List.mem_singleton.mp hf']
          exact ⟨hfkey ▸ hkey, hsize⟩
        simpa using hone
  · intro reqs hreqs hguard
    obtain ⟨ss', buf, fs, hpipe, hcontents, hfit, hsame⟩ := hserving.pipeline reqs
      (fun req hreq => (hreqs req hreq).elim fun _ hw => (parseIn_limits hw).1) hguard
    refine ⟨ss', buf, fs, hpipe, ?_, hsame⟩
    rw [hcontents]
    exact decodes_bytes g hfit

/-- A list is made, grows and shrinks. -/
def listPipeline : List (Env × Frame) :=
  [(⟨0, none, true⟩, ⟨.lPush, 0, [108], [1]⟩), (⟨0, none, true⟩, ⟨.rPush, 0, [108], [2]⟩),
    (⟨0, none, true⟩, ⟨.lLen, 0, [108], []⟩), (⟨0, none, true⟩, ⟨.lPop, 0, [108], []⟩)]

theorem one_response_iff_list :
    ∃ ss₀ ss buf fs, newShardSet 1 1 256 4 .noop .noop = some ss₀ ∧
      run (reply Hashes.source 0) (ss₀, Buffer.nil) listPipeline = some (ss, buf) ∧
      Decodes .doubling buf.contents fs ∧
      fs.map (fun f => (f.op, f.key)) =
        [(.lPush, [108]), (.rPush, [108]), (.lLen, [108]), (.lPop, [108])] ∧
      ∃ buf' ss' bytes f, ss₀.handleFrame Hashes.source ⟨0, none, true⟩ ⟨.get, 0, [107], []⟩ .nil 0 =
        some (true, buf', ss') ∧ buf'.contents = bytes ∧ Decodes .doubling bytes [f] ∧
        f.op = .get ∧ f.key = [107] := by
  obtain ⟨ss₀, hnew, hans, hguard⟩ : ∃ ss₀, newShardSet 1 1 256 4 .noop .noop = some ss₀ ∧
      ss₀.Answerable Hashes.source 0 ⟨0, none, true⟩ ⟨.get, 0, [107], []⟩ ∧
      Guarded (reply Hashes.source 0) (fun s req => s.1.Answerable Hashes.source 0 req.1 req.2)
        (ss₀, Buffer.nil) listPipeline := by
    decide +kernel
  have hparse : ∀ req ∈ listPipeline, ∃ work, parseIn work = .ok req.2 := fun req hreq =>
    ⟨req.2.bytes, by
      have hfit : ∀ req ∈ listPipeline, req.2.key.length < 2 ^ 16 ∧ req.2.size ≤ maxFrameSize := by
        decide
      simpa using parseIn_bytes (hfit req hreq).1 (hfit req hreq).2 []⟩
  have hnone : run (serve Hashes.source) ss₀ [] = some ss₀ := rfl
  obtain ⟨hone, hpipe⟩ := one_response_iff Hashes.source .doubling
    (.inl ⟨1, 1, 256, 4, .noop, .noop, hnew⟩) hnone 0
  obtain ⟨ss, buf, fs, hrun, hdec, hsame⟩ := hpipe listPipeline hparse hguard
  obtain ⟨buf', ss', bytes, f, hframe, hcontents, hdec', hop, hkey⟩ :=
    (hone ⟨0, none, true⟩ .nil (parseIn_bytes (f := ⟨.get, 0, [107], []⟩) (by decide) (by decide)
      [])).mpr hans
  exact ⟨ss₀, ss, buf, fs, hnew, hrun, hdec, hsame, buf', ss', bytes, f, hframe, hcontents, hdec',
    hop, hkey⟩

/-- An `RPUSH` to a key that is not there gets no response. -/
theorem rPush_gets_no_response :
    ∃ ss₀, newShardSet 1 1 256 4 .noop .noop = some ss₀ ∧
      parseIn (Frame.bytes ⟨.rPush, 0, [108], [1]⟩) = .ok ⟨.rPush, 0, [108], [1]⟩ ∧
      ss₀.cacheIndexFor Hashes.source [108] = 0 ∧
      ss₀.handleFrame Hashes.source ⟨0, none, true⟩ ⟨.rPush, 0, [108], [1]⟩ .nil 0 = none := by
  decide +kernel

end ShardSet

end Horreum.Transport
