/-
  Transport/ServerCalls.lean --- what a call on a shard does, whatever else goes on.

  A call reads its shard when it begins and publishes what it has made of it when it ends.  As long
  as nobody has changed the shard in between, that is the same as one step at the end of it, and no
  other shard takes part.
-/
import Horreum.Foundation.Slots
import Horreum.Transport.Confinement
import Horreum.Transport.Reachable
import Horreum.Transport.Server

set_option autoImplicit false

namespace Horreum.Transport

open Foundation
open Proto

namespace ShardSet

variable {H : Hashes} {ss ss' snap src : ShardSet} {env : Env} {fr : Frame} {w i : Nat}

/-! ## Sets that agree on a shard -/

/-- Shard `i` is the same in both. -/
structure Same (ss ss' : ShardSet) (i : Nat) : Prop where
  shard : ss'.shards[i]? = ss.shards[i]?
  cache : ss'.cacheAt i = ss.cacheAt i

/-- Nothing has changed but shard `i`. -/
def Changes (ss ss' : ShardSet) (i : Nat) : Prop :=
  ss' = ss ∨ ∃ c c', ss.cacheAt i = some c ∧ ss' = ss.setCache i c'

theorem arena_setCache (ss : ShardSet) (i : Nat) (c : ShardCache) :
    (ss.setCache i c).shards.map Shard.arena = ss.shards.map Shard.arena := by
  unfold setCache
  split
  · rfl
  · rename_i sh hsh
    exact map_set_same hsh rfl

theorem Changes.arenas (h : Changes ss ss' i) :
    ss'.shards.map Shard.arena = ss.shards.map Shard.arena := by
  rcases h with rfl | ⟨c, c', _, rfl⟩
  · rfl
  · exact arena_setCache ss i c'

theorem Changes.length (h : Changes ss ss' i) : ss'.shards.length = ss.shards.length := by
  simpa using congrArg List.length h.arenas

/-- With an arena of its own, every other shard stays. -/
theorem Changes.same {j : Nat} (h : Changes ss ss' i) (hnodup : (ss.shards.map Shard.arena).Nodup)
    (hj : j ≠ i) : Same ss ss' j := by
  rcases h with rfl | ⟨c, c', hc, rfl⟩
  · exact ⟨rfl, rfl⟩
  · obtain ⟨sh, hsh, _⟩ := cacheAt_eq_some hc
    refine ⟨by rw [shards_setCache hsh, if_neg hj], ?_⟩
    exact (others_setCache hc).mpr (fun hshares => absurd hshares (not_shares_of_nodup hnodup)) j hj

/-! ## One call -/

/-- A call on what was read, published, is the call on the shard as it is. -/
theorem onShard_publish {α : Type} {call : ShardCache → Option (α × ShardCache)} {a : α}
    (hsame : snap.cacheAt i = ss.cacheAt i) (h : snap.onShard i call = some (a, src)) :
    ss.onShard i call = some (a, ss.publish src i) ∧ Changes ss (ss.publish src i) i := by
  obtain ⟨c, c', hc, hcall, rfl⟩ := onShard_cases h
  have hpublish : ss.publish (snap.setCache i c') i = ss.setCache i c' := by
    rw [publish, cacheAt_setCache_self hc]
  rw [hsame] at hc
  rw [hpublish]
  exact ⟨onShard_of_call hc hcall, .inr ⟨c, c', hc, rfl⟩⟩

/-- A page depends on the number of shards and on one of them. -/
theorem scan_congr {pre : Bytes} {cursor : UInt64} {count : Int} {now : UInt32}
    (hlen : snap.shards.length = ss.shards.length)
    (hsame : snap.shards[(cursor >>> 48).toNat]? = ss.shards[(cursor >>> 48).toNat]?) :
    snap.scan pre cursor count now = ss.scan pre cursor count now := by
  simp only [scan, hsame, hlen]

theorem length_publish (ss src : ShardSet) (i : Nat) :
    (ss.publish src i).shards.length = ss.shards.length := by
  unfold publish
  split
  · exact length_setCache ss i _
  · rfl

theorem publish_self (hsame : snap.cacheAt i = ss.cacheAt i) : ss.publish snap i = ss := by
  rw [publish, hsame]
  cases hc : ss.cacheAt i with
  | none => rfl
  | some c => exact setCache_cacheAt hc

end ShardSet

namespace Server

open ShardSet (Same Changes)

variable {H : Hashes} {ss ss' snap src : ShardSet} {env : Env} {fr : Frame} {w i : Nat}

/-- The answer to a frame on what was read is the answer to it on the shards as they are, if the
shard that it reads is still the same. -/
theorem answerTo_publish {r : Reply} (hdel : fr.op ≠ .delPrefix)
    (hlen : snap.shards.length = ss.shards.length)
    (hsame : ∀ i ∈ reads H ss w fr, Same ss snap i)
    (h : snap.answerTo H w env fr = some (r, src)) :
    ss.answerTo H w env fr = some (r, publishFrame H ss src w fr) ∧
      (publishFrame H ss src w fr = ss ∨
        reads H ss w fr = some w ∧ Changes ss (publishFrame H ss src w fr) w) := by
  have hindex := ShardSet.cacheIndexFor_congr (H := H) hlen fr.key
  unfold ShardSet.answerTo at h ⊢
  rw [hindex] at h
  by_cases hscan : fr.op = .scan
  · rw [if_neg fun hother => hother.1 hscan] at h ⊢
    rw [publishFrame, if_pos (.inl hscan)]
    refine ⟨?_, .inl rfl⟩
    simp only [ShardSet.dispatch, hscan, ShardSet.handleScan] at h ⊢
    rw [reads, if_pos hscan] at hsame
    cases hargs : scanArgs fr.value with
    | none =>
      rw [hargs] at h
      cases h
      rfl
    | some args =>
      obtain ⟨cursor, count⟩ := args
      rw [hargs] at h hsame
      have hshard := (hsame (cursor >>> 48).toNat rfl).shard
      simp only [ShardSet.scan_congr hlen hshard] at h
      cases h
      rfl
  · by_cases hown : ss.cacheIndexFor H fr.key = w
    · have hreads : reads H ss w fr = some w := by rw [reads, if_neg hscan, if_pos hown]
      have hcache := (hsame w hreads).cache
      have hpublish : publishFrame H ss src w fr = ss.publish src w := by
        rw [publishFrame, if_neg (fun hor => hor.elim hscan fun hne => hne hown)]
      rw [if_neg fun hother => hother.2.2 hown] at h ⊢
      rw [hpublish]
      have hshape := ShardSet.dispatch_shardCall H env fr hscan hdel
      split at hshape
      · rw [hshape] at h ⊢
        cases h
        rw [ShardSet.publish_self hcache]
        exact ⟨rfl, .inl rfl⟩
      · obtain ⟨α, call, reply, hcall, _⟩ := hshape
        rw [hcall] at h ⊢
        obtain ⟨⟨a, t⟩, hon, h⟩ := Option.map_eq_some_iff.mp h
        cases h
        rw [ShardSet.onKey, hindex, hown] at hon
        obtain ⟨hon', hchanges⟩ := ShardSet.onShard_publish hcache hon
        rw [ShardSet.answer, ShardSet.onKey, hown, hon']
        exact ⟨rfl, .inr ⟨hreads, hchanges⟩⟩
    · rw [if_pos ⟨hscan, hdel, hown⟩] at h ⊢
      cases h
      rw [publishFrame, if_pos (.inr hown)]
      exact ⟨rfl, .inl rfl⟩

theorem sweep_publish {now : UInt32} {limit : Int} (hsame : Same ss snap i)
    (h : snap.serve H (.sweep i now limit) = some src) :
    ss.serve H (.sweep i now limit) = some (ss.publish src i) ∧ Changes ss (ss.publish src i) i := by
  obtain ⟨⟨a, t⟩, hon, h⟩ := Option.map_eq_some_iff.mp h
  cases h
  obtain ⟨hon', hchanges⟩ := ShardSet.onShard_publish hsame.cache hon
  exact ⟨by rw [ShardSet.serve, hon']; rfl, hchanges⟩

/-! ## The steps of a worker -/

variable {s s' : Server} {wk : Worker}

/-- What a step of the worker itself does: a job is taken, or the tasks stay as they are. -/
theorem workerStep_cases {ev : ShardWorker.Event} (h : s.workerStep w wk ev = some s') :
    (∃ core, wk.core.step ev = some core ∧ s' = s.setWorker w { wk with core := core }) ∨
    ∃ (core : ShardWorker) (j : Nat) (body : Body), wk.core.step ev = some core ∧
      wk.jobs[j]? = some body ∧
      s' = s.setWorker w ⟨core, wk.jobs, body.tasks, none⟩ := by
  unfold workerStep at h
  cases ev with
  | submit => cases h
  | workerTake =>
    obtain ⟨core, hcore, h⟩ := Option.bind_eq_some_iff.mp h
    obtain ⟨body, hbody, h⟩ := Option.bind_eq_some_iff.mp h
    cases h
    unfold Worker.current at hbody
    split at hbody
    · exact .inr ⟨core, _, body, hcore, hbody, rfl⟩
    · cases hbody
  | workerHandle =>
    obtain ⟨_, h⟩ := Option.ite_none_right_eq_some.mp h
    obtain ⟨core, hcore, rfl⟩ := Option.map_eq_some_iff.mp h
    exact .inl ⟨core, hcore, rfl⟩
  | loadDone | send | seeStop | closeJob | shutdown | compareAndSwap | closeStop | endWait
  | workerStop | workerDrain | workerClose | workerExit =>
    obtain ⟨core, hcore, rfl⟩ := Option.map_eq_some_iff.mp h
    exact .inl ⟨core, hcore, rfl⟩

/-- Where the next call of a worker comes from: its next task, or the loop of DELPREFIX. -/
inductive Entered (ss : ShardSet) (wk : Worker) (env : Env) : Busy → Prop where
  | frame (fr : Frame) (rest : List Task) (busy : wk.busy = none) (task : wk.rest = .frame fr :: rest)
      (op : fr.op ≠ .delPrefix) : Entered ss wk env (.call (.frame fr) env ss)
  | sweep (shard : Nat) (rest : List Task) (busy : wk.busy = none)
      (task : wk.rest = .sweep shard :: rest) : Entered ss wk env (.call (.sweep shard) env ss)
  | first (fr : Frame) (rest : List Task) (busy : wk.busy = none) (task : wk.rest = .frame fr :: rest)
      (op : fr.op = .delPrefix) : Entered ss wk env (.clear fr 0 0 ss)
  | next (fr : Frame) (shard total : Nat) (busy : wk.busy = some (.next fr shard total)) :
      Entered ss wk env (.clear fr shard total ss)

theorem enterCall_cases {env : Env} (h : s.enterCall w wk env = some s') :
    ∃ b, Entered s.set wk env b ∧ s' = s.setWorker w { wk with busy := some b } := by
  unfold enterCall at h
  split at h
  · rename_i fr rest _ hbusy hrest
    split at h
    · rename_i hop
      cases h
      exact ⟨_, .first fr rest hbusy hrest hop, rfl⟩
    · rename_i hop
      cases h
      exact ⟨_, .frame fr rest hbusy hrest hop, rfl⟩
  · rename_i shard rest _ hbusy hrest
    cases h
    exact ⟨_, .sweep shard rest hbusy hrest, rfl⟩
  · rename_i fr shard total _ hbusy
    cases h
    exact ⟨_, .next fr shard total hbusy, rfl⟩
  · cases h

theorem workers_respond (client : Option Nat) (fr : Frame) (r : Reply) :
    (s.respond client fr r).workers = s.workers := by
  cases client <;> rfl

theorem set_respond (client : Option Nat) (fr : Frame) (r : Reply) :
    (s.respond client fr r).set = s.set := by
  cases client <;> rfl

theorem log_respond (client : Option Nat) (fr : Frame) (r : Reply) :
    (s.respond client fr r).log = s.log := by
  cases client <;> rfl

/-- How a call of a worker ends: what it was, what the shards are after it, and what the worker goes
on with. -/
inductive Left (H : Hashes) (s : Server) (w : Nat) (wk : Worker) :
    Busy → Op → Outcome → ShardSet → Worker → Prop where
  | frame (fr : Frame) (env : Env) (snap : ShardSet) (r : Reply) (src : ShardSet)
      (answer : snap.answerTo H w env fr = some (r, src)) :
      Left H s w wk (.call (.frame fr) env snap) (.frame wk.client w env fr) (.replied r)
        (publishFrame H s.set src w fr) wk.advance
  | sweep (shard : Nat) (env : Env) (snap src : ShardSet)
      (answer : snap.serve H (.sweep shard env.now sweepLimit) = some src) :
      Left H s w wk (.call (.sweep shard) env snap) (.sweep shard env.now) .swept
        (s.set.publish src shard) wk.advance
  | clear (fr : Frame) (shard total : Nat) (snap : ShardSet) (n : Nat) (src : ShardSet)
      (answer : (snap.onShard shard fun c => c.delPrefix H fr.key) = some (n, src)) :
      Left H s w wk (.clear fr shard total snap) (.clear wk.client fr shard) (.cleared n)
        (s.set.publish src shard) (if shard + 1 < s.set.shards.length then
          { wk with busy := some (.next fr (shard + 1) (total + n)) } else wk.advance)

theorem leaveCall_cases (h : s.leaveCall H w wk = some s') : ∃ b op out wk', wk.busy = some b ∧
    Left H s w wk b op out s'.set wk' ∧ s'.log = s.log ++ [(op, out)] ∧
    s'.workers = s.workers.set w wk' := by
  unfold leaveCall at h
  cases hb : wk.busy with
  | none =>
    rw [hb] at h
    cases h
  | some b =>
    rw [hb] at h
    cases b with
    | next fr shard total => cases h
    | call task env snap =>
      cases task with
      | frame fr =>
        obtain ⟨⟨r, src⟩, hans, h⟩ := Option.bind_eq_some_iff.mp h
        cases h
        simp only [set_respond, log_respond, workers_respond]
        exact ⟨_, _, _, _, rfl, .frame fr env snap r src hans, rfl, rfl⟩
      | sweep shard =>
        obtain ⟨src, hsweep, h⟩ := Option.bind_eq_some_iff.mp h
        cases h
        exact ⟨_, _, _, _, rfl, .sweep shard env snap src hsweep, rfl, rfl⟩
    | clear fr shard total snap =>
      obtain ⟨⟨n, src⟩, hon, h⟩ := Option.bind_eq_some_iff.mp h
      have hlen := ShardSet.length_publish s.set src shard
      by_cases hmore : shard + 1 < (s.set.publish src shard).shards.length
      · cases (if_pos hmore).symm.trans h
        exact ⟨_, _, _, _, rfl, .clear fr shard total snap n src hon, rfl,
          by rw [if_pos (hlen ▸ hmore)]; rfl⟩
      · cases (if_neg hmore).symm.trans h
        simp only [set_respond, log_respond, workers_respond]
        exact ⟨_, _, _, _, rfl, .clear fr shard total snap n src hon, rfl,
          by rw [if_neg (hlen ▸ hmore)]; rfl⟩

/-- Where a job that is submitted comes from: what a connection has read, or the clean-up loop. -/
def Submitted (g : Growth) (s : Server) (ev : Event) (w : Nat) (tasks : List Task) : Prop :=
  (∃ c chunk conn, ev = .read c chunk ∧ s.conns[c]? = some conn ∧
    tasks = (feedCopied g conn.parser chunk).1.map .frame) ∨ ev = .tick w ∧ tasks = [.sweep w]

/-- What a step does to the workers. -/
inductive Steps (H : Hashes) (g : Growth) (s : Server) : Event → Server → Prop where
  | conn (ev : Event) (conns : List Conn) : Steps H g s ev { s with conns := conns }
  | submit (ev : Event) (conns : List Conn) (w : Nat) (wk : Worker) (body : Body)
      (worker : s.workers[w]? = some wk) (tasks : Submitted g s ev w body.tasks) :
      Steps H g s ev { s.setWorker w (wk.submit body) with conns := conns }
  | worker (w : Nat) (ev : ShardWorker.Event) (wk : Worker) (s' : Server)
      (worker : s.workers[w]? = some wk) (step : s.workerStep w wk ev = some s') :
      Steps H g s (.worker w ev) s'
  | enter (w : Nat) (env : Env) (wk : Worker) (s' : Server) (worker : s.workers[w]? = some wk)
      (step : s.enterCall w wk env = some s') : Steps H g s (.enter w env) s'
  | leave (w : Nat) (wk : Worker) (s' : Server) (worker : s.workers[w]? = some wk)
      (step : s.leaveCall H w wk = some s') : Steps H g s (.leave w) s'

theorem step_cases {g : Growth} {ev : Event} (h : s.step H g ev = some s') : Steps H g s ev s' := by
  cases ev with
  | accept workerIdx =>
    obtain ⟨_, h⟩ := Option.ite_none_right_eq_some.mp h
    cases h
    exact .conn _ _
  | read c chunk =>
    obtain ⟨conn, hconn, h⟩ := Option.bind_eq_some_iff.mp h
    obtain ⟨_, h⟩ := Option.ite_none_right_eq_some.mp h
    cases h
    unfold readChunk submitFrames
    dsimp only
    split
    · exact .conn _ _
    · split
      · split
        · exact .conn _ _
        · rename_i wk hwk
          exact .submit _ _ _ wk _ hwk (.inl ⟨c, chunk, conn, rfl, hconn, rfl⟩)
      · exact .conn _ _
  | tick shard =>
    obtain ⟨wk, hwk, h⟩ := Option.bind_eq_some_iff.mp h
    obtain ⟨_, h⟩ := Option.ite_none_right_eq_some.mp h
    cases h
    exact .submit _ s.conns shard wk _ hwk (.inr ⟨rfl, rfl⟩)
  | worker w ev =>
    obtain ⟨wk, hwk, h⟩ := Option.bind_eq_some_iff.mp h
    exact .worker w ev wk s' hwk h
  | enter w env =>
    obtain ⟨wk, hwk, h⟩ := Option.bind_eq_some_iff.mp h
    exact .enter w env wk s' hwk h
  | leave w =>
    obtain ⟨wk, hwk, h⟩ := Option.bind_eq_some_iff.mp h
    exact .leave w wk s' hwk h
  | hangUp | submitted | woken | write | writeFails =>
    obtain ⟨conn, _, h⟩ := Option.bind_eq_some_iff.mp h
    obtain ⟨conn', _, h⟩ := Option.bind_eq_some_iff.mp h
    cases h
    exact .conn _ _

end Server

end Horreum.Transport
