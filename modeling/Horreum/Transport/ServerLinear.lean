/-
  Transport/ServerLinear.lean --- every run of the server is a run of single calls.

  As long as no two calls are on the same shard at the same time, the shards are what the calls that
  have ended make of them in the order of their ends, and each has answered what it answers in that
  order.  Frames about one key keep to that by themselves; SCAN and DELPREFIX do not.
-/
import Horreum.Transport.ServerCalls

set_option autoImplicit false

namespace Horreum.Transport

open Foundation
open Proto

namespace Server

open ShardSet (Same Changes)

variable {H : Hashes} {g : Growth} {s s' : Server} {w : Nat} {ev : Event} {wk : Worker} {b : Busy}
  {ss ss' : ShardSet}

/-! ## What a step does to the calls -/

/-- What the call under way has read. -/
def Busy.snap : Busy → Option ShardSet
  | .call _ _ snap | .clear _ _ _ snap => some snap
  | .next _ _ _ => none

/-- A frame that is a DELPREFIX is handled in calls of its own. -/
def Busy.Proper : Busy → Prop
  | .call (.frame fr) _ _ => fr.op ≠ .delPrefix
  | _ => True

/-- DELPREFIX is not one call. -/
def Op.Proper : Op → Prop
  | .frame _ _ _ fr => fr.op ≠ .delPrefix
  | _ => True

/-- Unless its shard has changed meanwhile, a call is one step at the end of it. -/
def OneStep (H : Hashes) (s : Server) (w : Nat) (b : Busy) (op : Op) (out : Outcome)
    (set : ShardSet) : Prop :=
  ∀ snap ∈ b.snap, snap.shards.length = s.set.shards.length →
    (∀ i ∈ b.touches H s.set w, Same s.set snap i) →
    perform H s.set op = some (out, set) ∧
      (set = s.set ∨ ∃ i ∈ b.touches H s.set w, Changes s.set set i)

/-- A call in flight has ended: worker `w` is in no call any more. -/
structure Ends (H : Hashes) (s s' : Server) (w : Nat) (b : Busy) (op : Op) (out : Outcome) :
    Prop where
  before : s.busyAt w = some b
  read : ∃ snap, b.snap = some snap
  after : (s'.busyAt w).bind Busy.snap = none
  others : ∀ w', w' ≠ w → s'.busyAt w' = s.busyAt w'
  log : s'.log = s.log ++ [(op, out)]
  proper : op.Proper
  step : OneStep H s w b op out s'.set

/-- A call has begun on worker `w`. -/
structure Begins (s s' : Server) (w : Nat) (b : Busy) : Prop where
  set : s'.set = s.set
  log : s'.log = s.log
  snap : b.snap = some s.set
  proper : b.Proper
  after : s'.busyAt w = some b
  others : ∀ w', w' ≠ w → s'.busyAt w' = s.busyAt w'

/-- Everything that a step can do to the shards, the log and the calls. -/
inductive Effect (H : Hashes) (s : Server) (ev : Event) (s' : Server) : Prop where
  | quiet (set : s'.set = s.set) (log : s'.log = s.log)
      (busy : ∀ w, s'.busyAt w = s.busyAt w ∨ s'.busyAt w = none)
  | enters (w : Nat) (env : Env) (b : Busy) (event : ev = .enter w env) (begins : Begins s s' w b)
  | leaves (w : Nat) (b : Busy) (op : Op) (out : Outcome) (ends : Ends H s s' w b op out)

theorem busyAt_setWorker (hwk : s.workers[w]? = some wk) (wk' : Worker) (w' : Nat) :
    (s.setWorker w wk').busyAt w' = if w' = w then wk'.busy else s.busyAt w' := by
  rw [busyAt, setWorker, getElem?_set_of_some hwk]
  split <;> rfl

theorem busyAt_of_worker (hwk : s.workers[w]? = some wk) : s.busyAt w = wk.busy := by
  rw [busyAt, hwk, Option.bind_some]

/-- A worker that is not in a call afterwards, or in the same as before. -/
theorem effect_setWorker (wk' : Worker) (hwk : s.workers[w]? = some wk)
    (hbusy : wk'.busy = wk.busy ∨ wk'.busy = none) (conns : List Conn) :
    Effect H s ev { s.setWorker w wk' with conns := conns } := by
  refine .quiet rfl rfl fun w' => ?_
  show (s.setWorker w wk').busyAt w' = s.busyAt w' ∨ (s.setWorker w wk').busyAt w' = none
  rw [busyAt_setWorker hwk]
  split
  · rename_i heq
    rw [heq, busyAt_of_worker hwk]
    exact hbusy
  · exact .inl rfl

/-- The beginning of a call changes nothing else. -/
theorem enterCall_begins {env : Env} (hwk : s.workers[w]? = some wk)
    (h : s.enterCall w wk env = some s') : ∃ b, Begins s s' w b := by
  obtain ⟨b, hentered, rfl⟩ := enterCall_cases h
  have hbusy := busyAt_setWorker hwk { wk with busy := some b }
  have hb : b.snap = some s.set ∧ b.Proper := by
    cases hentered with
    | frame fr rest _ _ hop => exact ⟨rfl, hop⟩
    | sweep | first | next => exact ⟨rfl, trivial⟩
  exact ⟨b, rfl, rfl, hb.1, hb.2, by rw [hbusy, if_pos rfl], fun w' hne => by rw [hbusy, if_neg hne]⟩

/-- However a call ends, it was one step. -/
theorem Left.oneStep {wk wk' : Worker} {op : Op} {out : Outcome} {set : ShardSet}
    (h : Left H s w wk b op out set wk') (hproper : b.Proper) :
    (∃ snap, b.snap = some snap) ∧ wk'.busy.bind Busy.snap = none ∧ op.Proper ∧
      OneStep H s w b op out set := by
  cases h with
  | frame fr env snap r src hans =>
    refine ⟨⟨_, rfl⟩, rfl, hproper, fun t ht hlen hsame => ?_⟩
    obtain rfl := Option.some.inj ht
    obtain ⟨hans', hset⟩ := answerTo_publish hproper hlen hsame hans
    exact ⟨by rw [perform, hans']; rfl, hset.imp_right fun hown => ⟨w, hown⟩⟩
  | sweep shard env snap src hsweep =>
    refine ⟨⟨_, rfl⟩, rfl, trivial, fun t ht hlen hsame => ?_⟩
    obtain rfl := Option.some.inj ht
    obtain ⟨hsweep', hchanges⟩ := sweep_publish (hsame shard rfl) hsweep
    exact ⟨by rw [perform, hsweep']; rfl, .inr ⟨shard, rfl, hchanges⟩⟩
  | clear fr shard total snap n src hon =>
    refine ⟨⟨_, rfl⟩, by split <;> rfl, trivial, fun t ht hlen hsame => ?_⟩
    obtain rfl := Option.some.inj ht
    obtain ⟨hon', hchanges⟩ := ShardSet.onShard_publish (hsame shard rfl).cache hon
    exact ⟨by rw [perform, hon']; rfl, .inr ⟨shard, rfl, hchanges⟩⟩

theorem leaveCall_ends (hwk : s.workers[w]? = some wk) (hproper : ∀ b ∈ wk.busy, b.Proper)
    (h : s.leaveCall H w wk = some s') :
    ∃ b op out, Ends H s s' w b op out := by
  obtain ⟨b, op, out, wk', hb, hleft, hlog, hworkers⟩ := leaveCall_cases h
  obtain ⟨hread, hafter, hop, hstep⟩ := hleft.oneStep (hproper b hb)
  have hbusy : ∀ w', s'.busyAt w' = if w' = w then wk'.busy else s.busyAt w' := by
    intro w'
    rw [← busyAt_setWorker hwk, busyAt, hworkers]
    rfl
  refine ⟨b, op, out, (busyAt_of_worker hwk).trans hb, hread, ?_, fun w' hne => ?_, hlog, hop, hstep⟩
  · rw [hbusy, if_pos rfl]
    exact hafter
  · rw [hbusy, if_neg hne]

theorem step_effect (hproper : ∀ w, ∀ b ∈ s.busyAt w, b.Proper) (h : s.step H g ev = some s') :
    Effect H s ev s' := by
  cases step_cases h with
  | conn => exact .quiet rfl rfl fun _ => .inl rfl
  | submit _ conns w wk body hwk => exact effect_setWorker (wk.submit body) hwk (.inl rfl) conns
  | worker w ev wk _ hwk hstep =>
    rcases workerStep_cases hstep with ⟨core, _, rfl⟩ | ⟨core, j, body, _, _, rfl⟩
    · exact effect_setWorker { wk with core := core } hwk (.inl rfl) s.conns
    · exact effect_setWorker ⟨core, wk.jobs, body.tasks, none⟩ hwk (.inr rfl) s.conns
  | enter w env wk _ hwk hstep =>
    obtain ⟨b, hbegins⟩ := enterCall_begins hwk hstep
    exact .enters w env b rfl hbegins
  | leave w wk _ hwk hstep =>
    obtain ⟨b, op, out, hends⟩ := leaveCall_ends hwk
      (fun b hb => hproper w b ((busyAt_of_worker hwk).trans hb)) hstep
    exact .leaves w b op out hends

/-! ## The invariant -/

theorem reads_congr (hlen : ss'.shards.length = ss.shards.length) (fr : Frame) :
    reads H ss' w fr = reads H ss w fr := by
  rw [reads, reads, ShardSet.cacheIndexFor_congr hlen]

theorem touches_congr (hlen : ss'.shards.length = ss.shards.length) (b : Busy) :
    b.touches H ss' w = b.touches H ss w := by
  cases b with
  | call task env snap =>
    cases task with
    | frame fr => exact reads_congr hlen fr
    | sweep shard => rfl
  | next fr shard total => rfl
  | clear fr shard total snap => rfl

theorem touches_of_snap (h : b.snap = none) (ss : ShardSet) : b.touches H ss w = none := by
  cases b with
  | next fr shard total => rfl
  | call task env snap => cases h
  | clear fr shard total snap => cases h

/-- A call under way has read its shard as it is now. -/
structure Current (H : Hashes) (ss : ShardSet) (w : Nat) (b : Busy) : Prop where
  proper : b.Proper
  length : ∀ snap ∈ b.snap, snap.shards.length = ss.shards.length
  same : ∀ snap ∈ b.snap, ∀ i ∈ b.touches H ss w, Same ss snap i

theorem Current.of_begins (hproper : b.Proper) (hsnap : b.snap = some ss) : Current H ss w b := by
  refine ⟨hproper, fun snap h => ?_, fun snap h i _ => ?_⟩
  · rw [Option.some.inj (hsnap.symm.trans h)]
  · rw [Option.some.inj (hsnap.symm.trans h)]
    exact ⟨rfl, rfl⟩

theorem Current.of_none (hsnap : b.snap = none) : Current H ss w b := by
  cases b with
  | next fr shard total => exact ⟨trivial, fun _ h => (nomatch h), fun _ h => (nomatch h)⟩
  | call task env snap => cases hsnap
  | clear fr shard total snap => cases hsnap

/-- The end of another call, on another shard. -/
theorem Current.keep (h : Current H ss w b) (hlen : ss'.shards.length = ss.shards.length)
    (hsame : ∀ i ∈ b.touches H ss w, Same ss ss' i) : Current H ss' w b := by
  refine ⟨h.proper, fun snap hsnap => (h.length snap hsnap).trans hlen.symm, fun snap hsnap i hi => ?_⟩
  rw [touches_congr hlen] at hi
  have hnow := h.same snap hsnap i hi
  have hkeep := hsame i hi
  exact ⟨hnow.shard.trans hkeep.shard.symm, hnow.cache.trans hkeep.cache.symm⟩

/-- The calls that have ended make up the shards, and no two of those under way are on one
shard. -/
structure Linear (H : Hashes) (ss₀ : ShardSet) (s : Server) : Prop where
  serial : answers (perform H) ss₀ (s.log.map Prod.fst) = some (s.log.map Prod.snd, s.set)
  proper : ∀ e ∈ s.log, e.1.Proper
  arenas : (s.set.shards.map Shard.arena).Nodup
  calls : ∀ w, ∀ b ∈ s.busyAt w, Current H s.set w b
  apart : ∀ w w', w ≠ w' → ∀ i ∈ s.touches H w, i ∉ s.touches H w'

variable {ss₀ : ShardSet} {b : Busy} {op : Op} {out : Outcome}

theorem Linear.quiet (h : Linear H ss₀ s) (hset : s'.set = s.set) (hlog : s'.log = s.log)
    (hbusy : ∀ w, s'.busyAt w = s.busyAt w ∨ s'.busyAt w = none) : Linear H ss₀ s' := by
  have hof : ∀ {w b}, b ∈ s'.busyAt w → b ∈ s.busyAt w := by
    intro w b hb
    rcases hbusy w with heq | heq
    · exact heq ▸ hb
    · rw [heq] at hb
      cases hb
  have htouch : ∀ {w i}, i ∈ s'.touches H w → i ∈ s.touches H w := by
    intro w i hi
    obtain ⟨b, hb, hi⟩ := Option.bind_eq_some_iff.mp hi
    exact Option.bind_eq_some_iff.mpr ⟨b, hof hb, hset ▸ hi⟩
  exact ⟨by rw [hlog, hset]; exact h.serial, hlog ▸ h.proper, hset ▸ h.arenas,
    fun w b hb => hset ▸ h.calls w b (hof hb),
    fun w w' hne i hi hi' => h.apart w w' hne i (htouch hi) (htouch hi')⟩

/-- Whatever one worker does: of two others, what held before. -/
theorem apart_update (h : ∀ w w', w ≠ w' → ∀ i ∈ s.touches H w, i ∉ s.touches H w')
    (hothers : ∀ w', w' ≠ w → s'.touches H w' = s.touches H w')
    (hown : ∀ w', w' ≠ w → ∀ i ∈ s'.touches H w, i ∉ s.touches H w') :
    ∀ w₁ w₂, w₁ ≠ w₂ → ∀ i ∈ s'.touches H w₁, i ∉ s'.touches H w₂ := by
  intro w₁ w₂ hne i hi hi'
  by_cases hw₁ : w₁ = w
  · subst hw₁
    rw [hothers w₂ (Ne.symm hne)] at hi'
    exact hown w₂ (Ne.symm hne) i hi hi'
  · rw [hothers w₁ hw₁] at hi
    by_cases hw₂ : w₂ = w
    · subst hw₂
      exact hown w₁ hw₁ i hi' hi
    · rw [hothers w₂ hw₂] at hi'
      exact h w₁ w₂ hne i hi hi'

theorem Linear.begins (h : Linear H ss₀ s) (hb : Begins s s' w b)
    (hfree : ∀ w', w' ≠ w → ∀ i ∈ s'.touches H w, i ∉ s.touches H w') : Linear H ss₀ s' := by
  refine ⟨by rw [hb.log, hb.set]; exact h.serial, hb.log ▸ h.proper, hb.set ▸ h.arenas,
    fun w' b' hb' => ?_,
    apart_update h.apart (fun w' hne => ?_) hfree⟩
  · rw [hb.set]
    by_cases hw : w' = w
    · rw [hw, hb.after] at hb'
      cases hb'
      exact .of_begins hb.proper hb.snap
    · exact h.calls w' b' (hb.others w' hw ▸ hb')
  · rw [touches, touches, hb.others w' hne, hb.set]

theorem Linear.ends (h : Linear H ss₀ s) (hends : Ends H s s' w b op out) : Linear H ss₀ s' := by
  obtain ⟨snap, hsnap⟩ := hends.read
  have hcall := h.calls w b hends.before
  obtain ⟨hperform, hset⟩ := hends.step snap hsnap (hcall.length snap hsnap) (hcall.same snap hsnap)
  have harenas : s'.set.shards.map Shard.arena = s.set.shards.map Shard.arena := by
    rcases hset with heq | ⟨i, _, hchanges⟩
    · rw [heq]
    · exact hchanges.arenas
  have hlen : s'.set.shards.length = s.set.shards.length := by
    simpa using congrArg List.length harenas
  have hnone : ∀ b' ∈ s'.busyAt w, b'.snap = none := by
    intro b' hb'
    have hafter := hends.after
    rwa [hb', Option.bind_some] at hafter
  have hothers : ∀ w', w' ≠ w → s'.touches H w' = s.touches H w' := by
    intro w' hne
    rw [touches, touches, hends.others w' hne]
    exact Option.bind_congr fun b' _ => touches_congr hlen b'
  refine ⟨?_, fun e he => ?_, harenas.symm ▸ h.arenas, fun w' b' hb' => ?_,
    apart_update h.apart hothers fun w' _ i hi => ?_⟩
  · rw [hends.log, List.map_append, List.map_append]
    exact answers_concat h.serial hperform
  · rw [hends.log] at he
    rcases List.mem_append.mp he with hold | hnew
    · exact h.proper e hold
    · rw [List.mem_singleton.mp hnew]
      exact hends.proper
  · by_cases hw : w' = w
    · exact .of_none (hnone b' (hw ▸ hb'))
    · rw [hends.others w' hw] at hb'
      refine (h.calls w' b' hb').keep hlen fun i hi => ?_
      rcases hset with heq | ⟨j, hj, hchanges⟩
      · rw [heq]
        exact ⟨rfl, rfl⟩
      · refine hchanges.same h.arenas fun hij => ?_
        subst hij
        exact h.apart w' w hw i (Option.bind_eq_some_iff.mpr ⟨b', hb', hi⟩)
          (Option.bind_eq_some_iff.mpr ⟨b, hends.before, hj⟩)
  · obtain ⟨b', hb', hi⟩ := Option.bind_eq_some_iff.mp hi
    rw [touches_of_snap (hnone b' hb')] at hi
    cases hi

theorem Linear.step (h : Linear H ss₀ s) (hapart : s.Apart H g ev)
    (hstep : s.step H g ev = some s') : Linear H ss₀ s' := by
  cases step_effect (fun w b hb => (h.calls w b hb).proper) hstep with
  | quiet hset hlog hbusy => exact h.quiet hset hlog hbusy
  | leaves w b op out hends => exact h.ends hends
  | enters w env b hev hb =>
    subst hev
    refine h.begins hb fun w' hne i hi hi' => ?_
    have hlt : w' < s.workers.length := by
      obtain ⟨b', hb', _⟩ := Option.bind_eq_some_iff.mp hi'
      obtain ⟨wk, hwk, _⟩ := Option.bind_eq_some_iff.mp hb'
      exact (List.getElem?_eq_some_iff.mp hwk).1
    exact hapart s' hstep w' hlt hne i hi hi'

theorem busyAt_newServer (ss : ShardSet) (w : Nat) : (newServer ss).busyAt w = none := by
  rw [busyAt]
  cases hwk : (newServer ss).workers[w]? with
  | none => rfl
  | some wk =>
    rw [List.eq_of_mem_replicate (List.mem_of_getElem? hwk)]
    rfl

theorem linear_newServer (H : Hashes) (hnodup : (ss₀.shards.map Shard.arena).Nodup) :
    Linear H ss₀ (newServer ss₀) := by
  refine ⟨rfl, fun _ he => (nomatch he), hnodup, fun w b hb => ?_, fun w w' _ i hi => ?_⟩
  · rw [busyAt_newServer] at hb
    cases hb
  · rw [touches, busyAt_newServer] at hi
    cases hi

theorem linear_of_run {evs : List Event} (hnodup : (ss₀.shards.map Shard.arena).Nodup)
    (hrun : run (Server.step H g) (newServer ss₀) evs = some s)
    (hapart : Guarded (Server.step H g) (Apart H g) (newServer ss₀) evs) : Linear H ss₀ s :=
  run_invariant (Linear H ss₀) (fun _ _ _ hs hok h => hs.step hok h) evs _ s
    (linear_newServer H hnodup) hapart hrun

/-- **The server is as good as one that does one thing at a time.**  Whatever the connections and
the workers do at the same time: as long as no call begins on a shard that another worker is at,
the calls in the order of their ends, made one after the other on the shards of the start, give the
answers that were given and the shards that there are. -/
theorem calls_serial (H : Hashes) (g : Growth) {ss₀ : ShardSet} {evs : List Event} {s : Server}
    (hnodup : (ss₀.shards.map Shard.arena).Nodup)
    (hrun : run (Server.step H g) (newServer ss₀) evs = some s)
    (hapart : Guarded (Server.step H g) (Apart H g) (newServer ss₀) evs) :
    answers (perform H) ss₀ (s.log.map Prod.fst) = some (s.log.map Prod.snd, s.set) :=
  (linear_of_run hnodup hrun hapart).serial

/-! ## A run of two calls at the same time -/

/-- Connection `c` reads `fr`, and its worker takes the job. -/
def request (c w j : Nat) (fr : Frame) : List Event :=
  [.read c fr.bytes, .worker w (.loadDone j), .worker w (.send j), .submitted c,
    .worker w .workerTake]

/-- The job is over, and the connection writes the response. -/
def response (c w : Nat) : List Event := [.worker w .workerHandle, .woken c, .write c]

/-- Two connections store a value each, at the same time. -/
def overlapping : List Event :=
  [.accept 0, .accept 1] ++ request 0 0 0 ⟨.set, 0, [97], [1]⟩ ++ request 1 1 0 ⟨.set, 0, [98], [2]⟩ ++
    [.enter 0 ⟨0, none, true⟩, .enter 1 ⟨0, none, true⟩, .leave 1, .leave 0] ++
    response 0 0 ++ response 1 1

theorem calls_serial_overlapping : ∃ ss₀ s, newShardSet 1 2 256 4 .noop .noop = some ss₀ ∧
    run (Server.step Hashes.source .doubling) (newServer ss₀) overlapping = some s ∧
    s.log.length = 2 ∧
    answers (perform Hashes.source) ss₀ (s.log.map Prod.fst) =
      some (s.log.map Prod.snd, s.set) := by
  obtain ⟨ss₀, hnew, hnodup, hapart, s, hrun, hlog⟩ : ∃ ss₀,
      newShardSet 1 2 256 4 .noop .noop = some ss₀ ∧ (ss₀.shards.map Shard.arena).Nodup ∧
      Guarded (Server.step Hashes.source .doubling) (Apart Hashes.source .doubling) (newServer ss₀)
        overlapping ∧
      ∃ s, run (Server.step Hashes.source .doubling) (newServer ss₀) overlapping = some s ∧
        s.log.length = 2 := by
    decide +kernel
  exact ⟨ss₀, s, hnew, hrun, hlog, calls_serial Hashes.source .doubling hnodup hrun hapart⟩

/-! ## Frames about one key -/

/-- A task that concerns shard `w` only. -/
def OwnTask (w : Nat) : Task → Prop
  | .frame fr => fr.op ≠ .scan ∧ fr.op ≠ .delPrefix
  | .sweep shard => shard = w

/-- Worker `w` has to do with shard `w` only. -/
structure OwnShard (w : Nat) (wk : Worker) : Prop where
  jobs : ∀ body ∈ wk.jobs, ∀ t ∈ body.tasks, OwnTask w t
  rest : ∀ t ∈ wk.rest, OwnTask w t
  busy : ∀ b ∈ wk.busy, ∃ t env snap, b = .call t env snap ∧ OwnTask w t

/-- Every worker is on its own shard. -/
def Confined (s : Server) : Prop := ∀ w wk, s.workers[w]? = some wk → OwnShard w wk

theorem OwnShard.submit {body : Body} (h : OwnShard w wk) (hbody : ∀ t ∈ body.tasks, OwnTask w t) :
    OwnShard w (wk.submit body) := by
  refine ⟨fun body' hmem => ?_, h.rest, h.busy⟩
  rcases List.mem_append.mp hmem with hold | hnew
  · exact h.jobs body' hold
  · rw [List.mem_singleton.mp hnew]
    exact hbody

theorem OwnShard.advance (h : OwnShard w wk) : OwnShard w wk.advance :=
  ⟨h.jobs, fun t ht => h.rest t (List.mem_of_mem_tail ht), fun _ hb => (nomatch hb)⟩

theorem OwnShard.take {core : ShardWorker} {j : Nat} {body : Body} (h : OwnShard w wk)
    (hbody : wk.jobs[j]? = some body) : OwnShard w ⟨core, wk.jobs, body.tasks, none⟩ :=
  ⟨h.jobs, h.jobs body (List.mem_of_getElem? hbody), fun _ hb => (nomatch hb)⟩

theorem OwnShard.enter {env : Env} (h : OwnShard w wk) (hentered : Entered ss wk env b) :
    OwnShard w { wk with busy := some b } := by
  refine ⟨h.jobs, h.rest, fun b' hb' => ?_⟩
  obtain rfl := Option.some.inj hb'
  cases hentered with
  | frame fr rest _ htask _ => exact ⟨_, _, _, rfl, h.rest _ (htask ▸ List.mem_cons_self)⟩
  | sweep shard rest _ htask => exact ⟨_, _, _, rfl, h.rest _ (htask ▸ List.mem_cons_self)⟩
  | first fr rest _ htask hop =>
    have hown : OwnTask w (.frame fr) := h.rest _ (htask ▸ List.mem_cons_self)
    exact absurd hop hown.2
  | next fr shard total hbusy =>
    obtain ⟨t, env', snap, heq, _⟩ := h.busy _ hbusy
    cases heq

theorem OwnShard.leave (h : OwnShard w wk) (hstep : s.leaveCall H w wk = some s') :
    s'.workers = s.workers.set w wk.advance := by
  obtain ⟨b, op, out, wk', hb, hleft, _, hworkers⟩ := leaveCall_cases hstep
  generalize s'.set = set at hleft
  cases hleft with
  | frame | sweep => exact hworkers
  | clear =>
    obtain ⟨t, env', snap, heq, _⟩ := h.busy _ hb
    cases heq

theorem Confined.step (h : s.Confined) (hkeyed : s.Keyed g ev) (hstep : s.step H g ev = some s') :
    s'.Confined := by
  cases step_cases hstep with
  | conn => exact h
  | submit _ conns w wk body hwk htasks =>
    refine forall_set h ((h w wk hwk).submit fun t ht => ?_)
    rcases htasks with ⟨c, chunk, conn, rfl, hconn, heq⟩ | ⟨rfl, heq⟩
    · rw [heq] at ht
      obtain ⟨fr, hfr, rfl⟩ := List.mem_map.mp ht
      exact hkeyed conn hconn fr hfr
    · rw [heq] at ht
      rw [List.mem_singleton.mp ht]
      rfl
  | worker w ev wk _ hwk hstep =>
    have hown := h w wk hwk
    rcases workerStep_cases hstep with ⟨core, _, rfl⟩ | ⟨core, j, body, _, hbody, rfl⟩
    · exact forall_set h ⟨hown.jobs, hown.rest, hown.busy⟩
    · exact forall_set h (hown.take hbody)
  | enter w env wk _ hwk hstep =>
    obtain ⟨b, hentered, rfl⟩ := enterCall_cases hstep
    exact forall_set h ((h w wk hwk).enter hentered)
  | leave w wk _ hwk hstep =>
    have hown := h w wk hwk
    intro w' wk' hwk'
    rw [hown.leave hstep] at hwk'
    exact forall_set h hown.advance w' wk' hwk'

theorem Confined.touches (h : s.Confined) : ∀ i ∈ s.touches H w, i = w := by
  intro i hi
  obtain ⟨b, hb, hi⟩ := Option.bind_eq_some_iff.mp hi
  obtain ⟨wk, hwk, hb⟩ := Option.bind_eq_some_iff.mp hb
  obtain ⟨t, env, snap, rfl, hown⟩ := (h w wk hwk).busy b hb
  cases t with
  | sweep shard => exact (Option.some.inj hi).symm.trans hown
  | frame fr =>
    have hreads : reads H s.set w fr = some i := hi
    rw [reads, if_neg hown.1] at hreads
    exact (Option.some.inj (Option.ite_none_right_eq_some.mp hreads).2).symm

theorem confined_newServer (ss : ShardSet) : (newServer ss).Confined := by
  intro w wk hwk
  rw [List.eq_of_mem_replicate (List.mem_of_getElem? hwk)]
  exact ⟨fun _ hb => (nomatch hb), fun _ hb => (nomatch hb), fun _ hb => (nomatch hb)⟩

/-- **Frames about one key keep the workers apart.**  Without SCAN and DELPREFIX, worker `w` is
never at another shard than shard `w`, so no two calls are ever on the same shard. -/
theorem keyed_apart (H : Hashes) (g : Growth) (ss₀ : ShardSet) {evs : List Event}
    (hkeyed : Guarded (Server.step H g) (Keyed g) (newServer ss₀) evs) :
    Guarded (Server.step H g) (Apart H g) (newServer ss₀) evs ∧
      ∀ s, run (Server.step H g) (newServer ss₀) evs = some s → ∀ w, ∀ i ∈ s.touches H w, i = w := by
  have hkeep : ∀ (s : Server) (ev : Event) (s' : Server), s.Confined → s.Keyed g ev →
      s.step H g ev = some s' → s'.Confined := fun _ _ _ hs hok h => hs.step hok h
  refine ⟨guarded_imp Confined hkeep (fun s ev hs hok => ?_) evs _ (confined_newServer ss₀) hkeyed,
    fun s hrun w => (run_invariant Confined hkeep evs _ s (confined_newServer ss₀) hkeyed
      hrun).touches⟩
  cases ev with
  | enter w env =>
    intro s' hstep w' _ hne i hi hi'
    have hown := (hs.step hok hstep).touches i hi
    have hother := hs.touches i hi'
    exact hne (hother.symm.trans hown)
  | accept | read | hangUp | submitted | woken | write | writeFails | tick | worker | leave =>
    trivial

theorem keyed_apart_overlapping : ∃ ss₀, newShardSet 1 2 256 4 .noop .noop = some ss₀ ∧
    Guarded (Server.step Hashes.source .doubling) (Apart Hashes.source .doubling) (newServer ss₀)
      overlapping ∧
    ∃ s, run (Server.step Hashes.source .doubling) (newServer ss₀) (overlapping.take 14) = some s ∧
      s.touches Hashes.source 0 = some 0 ∧ s.touches Hashes.source 1 = some 1 := by
  obtain ⟨ss₀, hnew, hkeyed, s, hrun, htouch⟩ : ∃ ss₀,
      newShardSet 1 2 256 4 .noop .noop = some ss₀ ∧
      Guarded (Server.step Hashes.source .doubling) (Keyed .doubling) (newServer ss₀) overlapping ∧
      ∃ s, run (Server.step Hashes.source .doubling) (newServer ss₀) (overlapping.take 14) = some s ∧
        s.touches Hashes.source 0 = some 0 ∧ s.touches Hashes.source 1 = some 1 := by
    decide +kernel
  exact ⟨ss₀, hnew, (keyed_apart Hashes.source .doubling ss₀ hkeyed).1, s, hrun, htouch⟩

end Server

end Horreum.Transport
