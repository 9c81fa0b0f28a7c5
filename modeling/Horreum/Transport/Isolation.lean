/-
  Transport/Isolation.lean --- what a call does to the keys it does not name.

  As long as the eviction policy gives up no block that the allocator can hand out again, every
  call leaves the keys it does not write alone: they keep their entry, and the entry shows the
  same bytes.  `DeleteExpired` may take out a key, but only one whose deadline has passed.
-/
import Horreum.Ds.Records
import Horreum.Transport.Safety

set_option autoImplicit false

namespace Horreum.Transport

open Foundation
open Arena (Handle Manager)
open Arena.Manager (flagMask)

namespace ShardCache

variable {H : Hashes} {s s' s'' : ShardCache} {env : Env} {K : Bytes → Prop} {key : Bytes}
  {α : Type} {plan : Except Error Bytes → Plan α} {call : AnyCall}

/-- The keys in `K` have the entries they had, and these show what they showed. -/
structure Leaves (H : Hashes) (K : Bytes → Prop) (s s' : ShardCache) : Prop where
  coherent : Coherent H s'
  lookup : ∀ k, K k → s'.idx.lookup k = s.idx.lookup k
  frame : ∀ k, K k → ∀ e, s.idx.lookup k = some e →
    s'.mgr.view e.handle = s.mgr.view e.handle ∧
      s'.mgr.getMeta e.handle &&& flagMask = s.mgr.getMeta e.handle &&& flagMask
  comp : s'.comp = s.comp
  cipher : s'.cipher = s.cipher

theorem Leaves.trans (h : Leaves H K s s') (h' : Leaves H K s' s'') : Leaves H K s s'' := by
  refine ⟨h'.coherent, fun k hk => (h'.lookup k hk).trans (h.lookup k hk), fun k hk e he => ?_,
    h'.comp.trans h.comp, h'.cipher.trans h.cipher⟩
  obtain ⟨hview, hflags⟩ := h.frame k hk e he
  obtain ⟨hview', hflags'⟩ := h'.frame k hk e ((h.lookup k hk).trans he)
  exact ⟨hview'.trans hview, hflags'.trans hflags⟩

theorem Leaves.mono {L : Bytes → Prop} (h : Leaves H L s s') (hsub : ∀ k, K k → L k) :
    Leaves H K s s' :=
  ⟨h.coherent, fun k hk => h.lookup k (hsub k hk), fun k hk => h.frame k (hsub k hk), h.comp,
    h.cipher⟩

theorem Leaves.load (h : Leaves H K s s') (hk : K key) {e : Entry}
    (he : s.idx.lookup key = some e) : s'.load s'.mgr e.handle = s.load s.mgr e.handle := by
  obtain ⟨hview, hflags⟩ := h.frame key hk e he
  exact load_congr h.comp h.cipher hview hflags

theorem Kept.leaves (h : Kept H s s') (K : Bytes → Prop) : Leaves H K s s' := by
  refine ⟨h.coherent, fun k _ => by rw [h.idx], fun k _ e he => ?_, h.comp, h.cipher⟩
  exact h.frame e.handle ⟨k, e, he, rfl⟩

theorem Wrote.leaves {value : Bytes} (h : Wrote H s env key value s') :
    Leaves H (· ≠ key) s s' := by
  obtain ⟨⟨p, expiresAt, hd, _, hwr⟩, _⟩ := h
  have hlook : ∀ k, k ≠ key → s'.idx.lookup k = s.idx.lookup k := by
    intro k hk
    rw [hwr.lookup, Function.update_of_ne hk]
  refine ⟨hwr.coherent, hlook, fun k hk e he => ?_, hwr.comp, hwr.cipher⟩
  have he' : s'.idx.lookup k = some e := (hlook k hk).trans he
  have hself : s'.idx.lookup key = some ⟨key, hd, expiresAt⟩ := by
    rw [hwr.lookup, Function.update_self]
  exact hwr.frame e.handle
    ⟨⟨k, e, he', rfl⟩, fun heq => hk (hwr.coherent.inj k key e _ he' hself heq)⟩

theorem Dropped.leaves {es : List Entry} (h : Dropped H s es s') :
    Leaves H (· ∉ es.map Entry.key) s s' := by
  have hlook : ∀ k, k ∉ es.map Entry.key → s'.idx.lookup k = s.idx.lookup k := by
    intro k hk
    rw [h.removed.lookup, if_neg hk]
  refine ⟨h.coherent, hlook, fun k hk e he => ?_, h.comp, h.cipher⟩
  exact h.frame e.handle ⟨k, e, (hlook k hk).trans he, rfl⟩

theorem Coherent.delete_leaves {res : Except Error Unit} (hc : Coherent H s)
    (h : s.delete H key = some (res, s')) : Leaves H (· ≠ key) s s' := by
  refine (delete_dropped hc h).leaves.mono fun k hk hmem => hk ?_
  obtain ⟨e, he, rfl⟩ := List.mem_map.mp hmem
  exact hc.idx.key_of_lookup (Option.mem_toList.mp he)

/-! ## Collection calls -/

theorem load_of_isView {m : Manager} {h : Handle} {raw : Bytes} (hv : isView m h = true)
    (hview : m.view h = some (.ok raw)) : s.load m h = some (.ok raw) := by
  obtain ⟨henc, hcomp⟩ : m.getMeta h &&& Arena.encryptedFlag = 0 ∧
      m.getMeta h &&& Arena.compressedFlag = 0 := by simpa [isView] using hv
  simp only [load, hview, Option.bind_eq_bind, Option.bind_some, decode, decrypted, decompressed,
    henc, hcomp, ne_eq, not_true_eq_false, if_false]

/-- A write through the slice that `Get` returned stays inside it. -/
def InBounds {α : Type} (plan : Except Error Bytes → Plan α) : Prop :=
  ∀ raw newRaw off bytes reply, plan (.ok raw) = .write newRaw (some (off, bytes)) reply →
    off + bytes.length ≤ raw.length

/-- A write through the view of one key is not seen by the others. -/
theorem Coherent.scribble_leaves (hc : Coherent H s) {now : UInt32}
    {inPlace : Option (Nat × Bytes)}
    (hfit : ∀ off bytes raw, inPlace = some (off, bytes) → s.seen now key = some (.ok raw) →
      off + bytes.length ≤ raw.length) :
    Leaves H (· ≠ key) s (s.scribble H now key inPlace) := by
  unfold scribble viewed
  rw [index_get hc.idx]
  cases inPlace with
  | none => exact (Kept.refl hc).leaves _
  | some w =>
    obtain ⟨off, bytes⟩ := w
    cases hhit : s.hit now key with
    | none => exact (Kept.refl hc).leaves _
    | some e =>
      simp only [Option.map_some]
      by_cases hv : isView s.mgr e.handle = true
      · simp only [hv, if_true]
        have hself := (lookup_of_hit hhit).1
        have hin : e.handle ∈ s.idx.owned := ⟨key, e, hself, rfl⟩
        refine ⟨⟨hc.idx, Manager.owns_poke hc.owns _ _ _, hc.inj⟩, fun _ _ => rfl,
          fun k hk e' he' => ⟨?_, by rw [Manager.getMeta_poke]⟩, rfl, rfl⟩
        obtain ⟨raw, hview, hlen⟩ := hc.owns.view_ok hin
        have hseen : s.seen now key = some (.ok raw) := by
          rw [seen, hhit]
          exact load_of_isView hv hview
        have hle := hfit off bytes raw rfl hseen
        refine hc.owns.view_poke hin ⟨k, e', he', rfl⟩ ?_ (by omega)
        exact fun heq => hk (hc.inj k key e' e he' hself heq)
      · simp only [hv]
        exact (Kept.refl hc).leaves _

/-- A collection call on another key. -/
theorem Coherent.update_leaves
    {out : (α × Option Error) × ShardCache} (hc : Coherent H s) (hplan : InBounds plan)
    (hspare : ∀ v, s.updateVictim H env key plan = some v → 8192 < v.size.toNat)
    (hup : s.update H env key plan = some out) : Leaves H (· ≠ key) s out.2 := by
  obtain ⟨⟨read, s₁⟩, hget, hup⟩ := Option.bind_eq_some_iff.mp hup
  have hk := get_kept hc hget
  simp only [updateVictim, hget] at hspare
  have hread : s₁.seen env.now key = some read := by
    have hseen := hget
    rw [get_eq hc.idx] at hseen
    obtain ⟨read', hread', heq⟩ := Option.map_eq_some_iff.mp hseen
    cases heq
    rw [(undisturbed_asked s env.now key).seen, hread']
  cases hcase : plan read with
  | answer value err =>
    simp only [hcase] at hup
    cases hup
    exact hk.leaves _
  | write newRaw inPlace reply =>
    simp only [hcase] at hup hspare
    obtain ⟨⟨res, s₂⟩, hset, hup⟩ := Option.bind_eq_some_iff.mp hup
    cases hup
    have hscr : Leaves H (· ≠ key) s₁ (s₁.scribble H env.now key inPlace) := by
      refine hk.coherent.scribble_leaves fun off bytes raw hin hraw => ?_
      cases hread.symm.trans hraw
      rw [hin] at hcase
      exact hplan raw newRaw off bytes reply hcase
    refine (hk.leaves _).trans (hscr.trans ?_)
    rcases set_cases hscr.coherent hspare hset with ⟨_, _, hkept⟩ | ⟨_, _, hw⟩
    · exact hkept.leaves _
    · exact hw.leaves
  | remove value =>
    simp only [hcase] at hup
    obtain ⟨⟨res, s₂⟩, hdel, hup⟩ := Option.bind_eq_some_iff.mp hup
    cases hup
    exact (hk.leaves _).trans (hk.coherent.delete_leaves hdel)
  | crash =>
    simp only [hcase] at hup
    cases hup

theorem Coherent.update_kept
    {out : (α × Option Error) × ShardCache} (hc : Coherent H s)
    (hplan : ∀ read, ∃ value err, plan read = .answer value err)
    (hup : s.update H env key plan = some out) : Kept H s out.2 := by
  obtain ⟨⟨read, s₁⟩, hget, hup⟩ := Option.bind_eq_some_iff.mp hup
  obtain ⟨value, err, hcase⟩ := hplan read
  simp only [hcase] at hup
  cases hup
  exact get_kept hc hget

theorem inBounds_hSetPlan (field value : Bytes) : InBounds (hSetPlan field value) := by
  intro raw newRaw off bytes reply h
  simp only [hSetPlan, payloadOf, Except.toOption, Option.getD_some, Plan.write.injEq] at h
  obtain ⟨off', hoff, heq⟩ := Option.map_eq_some_iff.mp h.2.1
  cases heq
  exact (Ds.hSet_inPlace hoff).1

/-- The plan writes a payload of its own; only `HSet` writes through the slice. -/
def Copies (plan : Except Error Bytes → Plan α) : Prop :=
  ∀ read newRaw inPlace reply, plan read = .write newRaw inPlace reply → inPlace = none

/-- And it returns the error of `Set`. -/
def Reports (plan : Except Error Bytes → Plan α) : Prop :=
  ∀ read newRaw inPlace reply, plan read = .write newRaw inPlace reply →
    inPlace = none ∧ ∀ err, (reply err).2 = err

theorem Copies.inBounds (h : Copies plan) : InBounds plan := by
  intro raw newRaw off bytes reply hplan
  cases h _ _ _ _ hplan

theorem Reports.inBounds (h : Reports plan) : InBounds plan := by
  intro raw newRaw off bytes reply hplan
  cases (h _ _ _ _ hplan).1

theorem replace_copy {newRaw newRaw' : Bytes} {value : α} {inPlace : Option (Nat × Bytes)}
    {reply : Option Error → α × Option Error}
    (h : Plan.replace newRaw value = .write newRaw' inPlace reply) : inPlace = none := by
  unfold Plan.replace at h
  split at h <;> cases h
  rfl

theorem copies_popPlan (pop : Bytes → Option Ds.Popped) : Copies (popPlan pop) := by
  rintro (e | raw) newRaw inPlace reply h
  · cases h
  · simp only [popPlan] at h
    split at h
    · cases h
    · exact replace_copy h

theorem copies_sRemPlan (member : Bytes) : Copies (sRemPlan member) := by
  rintro (e | raw) newRaw inPlace reply h
  · cases h
  · simp only [sRemPlan] at h
    split at h
    · cases h
    · exact replace_copy h

theorem reports_hDelPlan (field : Bytes) : Reports (hDelPlan field) := by
  rintro (e | raw) newRaw inPlace reply h
  · cases h
  · simp only [hDelPlan] at h
    split at h
    · cases h
    · split at h <;> cases h
      exact ⟨rfl, fun _ => rfl⟩

theorem reports_rPushPlan (elem : Bytes) : Reports (rPushPlan elem) := by
  intro read newRaw inPlace reply h
  unfold rPushPlan at h
  split at h <;> cases h
  exact ⟨rfl, fun _ => rfl⟩

theorem reports_lPushPlan (elem : Bytes) : Reports (lPushPlan elem) := by
  rintro read _ _ _ ⟨⟩
  exact ⟨rfl, fun _ => rfl⟩

theorem reports_sAddPlan (member : Bytes) : Reports (sAddPlan member) := by
  rintro read _ _ _ ⟨⟩
  exact ⟨rfl, fun _ => rfl⟩

/-! ## Every call -/

/-- The call is one that writes or removes `key`. -/
def writesKey (key : Bytes) : Call ⊕ CollectionCall → Bool
  | .inl (.set k _ _) => k = key
  | .inl (.get _) => false
  | .inl (.cas k _ _) => k = key
  | .inl (.incr k _) => k = key
  | .inl (.delete k) => k = key
  | .inl (.delPrefix pre) => pre.isPrefixOf key
  | .inl (.deleteExpired _) => false
  | .inr (.hSet k _ _) => k = key
  | .inr (.hDel k _) => k = key
  | .inr (.lPush k _) => k = key
  | .inr (.lPop k) => k = key
  | .inr (.rPush k _) => k = key
  | .inr (.rPop k) => k = key
  | .inr (.sAdd k _) => k = key
  | .inr (.sRem k _) => k = key
  | .inr (.hGet _ _) => false
  | .inr (.hGetAll _) => false
  | .inr (.lLen _) => false
  | .inr (.sIsMember _ _) => false
  | .inr (.sMembers _) => false

/-- The call gives up no handle, or one whose block is too large to be handed out again. -/
def SparesBlocks (H : Hashes) (s : ShardCache) (call : AnyCall) : Prop :=
  ∀ v ∈ s.victim H call, 8192 < v.size.toNat

instance (H : Hashes) (s : ShardCache) (call : AnyCall) : Decidable (SparesBlocks H s call) :=
  inferInstanceAs (Decidable (∀ v ∈ s.victim H call, 8192 < v.size.toNat))

/-- The keys that a call does not write, and that are not swept away. -/
def Bystander (call : Call ⊕ CollectionCall) (swept : List Bytes) (k : Bytes) : Prop :=
  writesKey k call = false ∧ k ∉ swept

theorem Leaves.bystander {call : Call ⊕ CollectionCall} (h : Leaves H (· ≠ key) s s')
    (hcall : writesKey key call = true) : Leaves H (Bystander call []) s s' := by
  refine h.mono fun k hk heq => ?_
  rw [heq, Bystander, hcall] at hk
  cases hk.1

/-- The keys in `swept` were overdue and are gone. -/
def Swept (now : UInt32) (s s' : ShardCache) (swept : List Bytes) : Prop :=
  ∀ k ∈ swept, s'.idx.lookup k = none ∧ ∃ e, s.idx.lookup k = some e ∧ e.expired now = true

theorem swept_nil (now : UInt32) (s s' : ShardCache) : Swept now s s' [] := by
  intro k hk
  cases hk

theorem Coherent.afterCall_leaves {call : Call} (hc : Coherent H s)
    (hspare : SparesBlocks H s (env, .inl call)) (h : s.afterCall H env call = some s') :
    ∃ swept, Leaves H (Bystander (.inl call) swept) s s' ∧ Swept env.now s s' swept := by
  cases call with
  | deleteExpired limit =>
    obtain ⟨es, hd, hexp⟩ := deleteExpired_dropped hc h
    refine ⟨es.map Entry.key, hd.leaves.mono fun k hk => hk.2, fun k hk => ?_⟩
    obtain ⟨e, he, rfl⟩ := List.mem_map.mp hk
    exact ⟨by rw [hd.removed.lookup, if_pos hk], e, hd.removed.found e he, hexp e he⟩
  | set k value ttl =>
    obtain ⟨⟨res, t⟩, hset, rfl⟩ := Option.map_eq_some_iff.mp h
    refine ⟨[], ?_, swept_nil _ _ _⟩
    rcases set_cases hc hspare hset with ⟨_, _, hk⟩ | ⟨_, _, hw⟩
    · exact hk.leaves _
    · exact hw.leaves.bystander (by simp [writesKey])
  | get k =>
    obtain ⟨⟨res, t⟩, hget, rfl⟩ := Option.map_eq_some_iff.mp h
    exact ⟨[], (get_kept hc hget).leaves _, swept_nil _ _ _⟩
  | cas k expectedValue newValue =>
    obtain ⟨⟨res, t⟩, hcas, rfl⟩ := Option.map_eq_some_iff.mp h
    refine ⟨[], ?_, swept_nil _ _ _⟩
    rcases cas_cases hc hspare hcas with ⟨_, hk⟩ | ⟨s₁, _, hk, hw, _⟩
    · exact hk.leaves _
    · exact ((hk.leaves _).trans hw.leaves).bystander (by simp [writesKey])
  | incr k delta =>
    obtain ⟨⟨res, t⟩, hincr, rfl⟩ := Option.map_eq_some_iff.mp h
    refine ⟨[], ?_, swept_nil _ _ _⟩
    rcases incr_cases hc hspare hincr with ⟨_, _, hk⟩ | ⟨s₁, n, _, hk, hw, _⟩
    · exact hk.leaves _
    · exact ((hk.leaves _).trans hw.leaves).bystander (by simp [writesKey])
  | delete k =>
    obtain ⟨⟨res, t⟩, hdel, rfl⟩ := Option.map_eq_some_iff.mp h
    exact ⟨[], (hc.delete_leaves hdel).bystander (by simp [writesKey]), swept_nil _ _ _⟩
  | delPrefix pre =>
    obtain ⟨⟨n, t⟩, hdel, rfl⟩ := Option.map_eq_some_iff.mp h
    obtain ⟨es, hd, hpre, _⟩ := delPrefix_dropped hc hdel
    refine ⟨[], hd.leaves.mono fun k hk hmem => ?_, swept_nil _ _ _⟩
    obtain ⟨e, he, rfl⟩ := List.mem_map.mp hmem
    have hwrites : writesKey e.key (.inl (.delPrefix pre)) = true :=
      List.isPrefixOf_iff_prefix.mpr (hpre e he)
    rw [Bystander, hwrites] at hk
    cases hk.1

theorem Coherent.afterCollectionCall_leaves {call : CollectionCall} (hc : Coherent H s)
    (hspare : SparesBlocks H s (env, .inr call))
    (h : s.afterCollectionCall H env call = some s') :
    Leaves H (Bystander (.inr call) []) s s' := by
  have hupdate : ∀ {α : Type} {k : Bytes} {plan : Except Error Bytes → Plan α}, InBounds plan →
      writesKey k (.inr call) = true →
      (∀ v, s.updateVictim H env k plan = some v → 8192 < v.size.toNat) →
      ∀ {out}, s.update H env k plan = some out → Leaves H (Bystander (.inr call) []) s out.2 :=
    fun hplan hk hspare _ hup => (hc.update_leaves hplan hspare hup).bystander hk
  cases call with
  | hSet k field value =>
    obtain ⟨out, hup, rfl⟩ := Option.map_eq_some_iff.mp h
    exact hupdate (inBounds_hSetPlan field value) (decide_eq_true rfl) hspare hup
  | hDel k field =>
    obtain ⟨out, hup, rfl⟩ := Option.map_eq_some_iff.mp h
    exact hupdate (reports_hDelPlan field).inBounds (decide_eq_true rfl) hspare hup
  | lPush k elem =>
    obtain ⟨out, hup, rfl⟩ := Option.map_eq_some_iff.mp h
    exact hupdate (reports_lPushPlan elem).inBounds (decide_eq_true rfl) hspare hup
  | rPush k elem =>
    obtain ⟨out, hup, rfl⟩ := Option.map_eq_some_iff.mp h
    exact hupdate (reports_rPushPlan elem).inBounds (decide_eq_true rfl) hspare hup
  | lPop k | rPop k =>
    obtain ⟨out, hpop, rfl⟩ := Option.map_eq_some_iff.mp h
    obtain ⟨out', hup, hout⟩ := popWith_update hpop
    rw [hout]
    exact hupdate (copies_popPlan _).inBounds (decide_eq_true rfl) hspare hup
  | sAdd k member =>
    obtain ⟨out, hup, rfl⟩ := Option.map_eq_some_iff.mp h
    exact hupdate (reports_sAddPlan member).inBounds (decide_eq_true rfl) hspare hup
  | sRem k member =>
    obtain ⟨out, hup, rfl⟩ := Option.map_eq_some_iff.mp h
    exact hupdate (copies_sRemPlan member).inBounds (decide_eq_true rfl) hspare hup
  | hGet k field =>
    obtain ⟨out, hup, rfl⟩ := Option.map_eq_some_iff.mp h
    refine (hc.update_kept (fun read => ?_) hup).leaves _
    cases read with
    | error e => exact ⟨_, _, rfl⟩
    | ok raw =>
      simp only [hGetPlan]
      split <;> exact ⟨_, _, rfl⟩
  | hGetAll k | lLen k | sIsMember k member | sMembers k =>
    obtain ⟨out, hup, rfl⟩ := Option.map_eq_some_iff.mp h
    refine (hc.update_kept (fun read => ?_) hup).leaves _
    cases read <;> exact ⟨_, _, rfl⟩

/-- Any call leaves alone what it does not write, apart from overdue keys that it sweeps. -/
theorem Coherent.step_leaves (hc : Coherent H s) (hspare : SparesBlocks H s call)
    (h : s.step H call = some s') :
    ∃ swept, Leaves H (Bystander call.2 swept) s s' ∧ Swept call.1.now s s' swept := by
  obtain ⟨env, call | call⟩ := call
  · exact hc.afterCall_leaves hspare h
  · exact ⟨[], hc.afterCollectionCall_leaves hspare h, swept_nil _ _ _⟩

theorem Coherent.step (hc : Coherent H s) (hspare : SparesBlocks H s call)
    (h : s.step H call = some s') : Coherent H s' := by
  obtain ⟨_, hl, _⟩ := hc.step_leaves hspare h
  exact hl.coherent

/-- One key that the call does not write. -/
theorem Coherent.step_other (hc : Coherent H s) (hspare : SparesBlocks H s call)
    (hkey : writesKey key call.2 = false) (h : s.step H call = some s') :
    Leaves H (· = key) s s' ∨
      s'.idx.lookup key = none ∧
        ∃ e, s.idx.lookup key = some e ∧ e.expired call.1.now = true := by
  obtain ⟨swept, hl, hsw⟩ := hc.step_leaves hspare h
  by_cases hmem : key ∈ swept
  · exact .inr (hsw key hmem)
  · exact .inl (hl.mono fun k hk => hk ▸ ⟨hkey, hmem⟩)

end ShardCache

end Horreum.Transport
