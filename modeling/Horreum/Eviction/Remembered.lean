/-
  Eviction/Remembered.lean --- whose fingerprint the ghost table gets.

  The ghost table is for the keys that S gave up.  But `evictS` has only the key being added at hand,
  and enters that one; and a used handle that M has no room for is given up without an entry.  The
  handles of S are followed with the keys they were added under.
-/
import Horreum.Eviction.Fifo
import Horreum.Eviction.Ghosts

set_option autoImplicit false

namespace Horreum.S3Fifo

open Foundation (Bytes run Guarded always_iff_guarded)
open Arena (Handle Manager queueTagMask newManager)

/-! ## What an Add does to S and to the ghost -/

namespace Eviction

variable (fingerprintOf : Bytes → UInt32) {e : Eviction} {mgr : Manager} {key : Bytes} {h : Handle}

/-- Adding `key` makes S give up a handle that was not used twice. -/
def spills (e : Eviction) (mgr : Manager) (key : Bytes) : Bool :=
  !e.gh.look (fingerprintOf key) && e.sq.full && !decide (mgr.getFreq (head e.sq) ≥ 2)

/-- Adding `key` makes S give up a handle that was used twice: M is full and keeps its head. -/
def drops (e : Eviction) (mgr : Manager) (key : Bytes) : Bool :=
  !e.gh.look (fingerprintOf key) && e.sq.full && decide (mgr.getFreq (head e.sq) ≥ 2) &&
    e.mq.full && (e.victimM? mgr).isNone

theorem evictM_sq_gh (e : Eviction) (mgr : Manager) :
    (e.evictM mgr).2.1.sq = e.sq ∧ (e.evictM mgr).2.1.gh = e.gh := by
  unfold evictM
  split
  · exact ⟨rfl, rfl⟩
  · dsimp only
    split <;> exact ⟨rfl, rfl⟩

variable {sq : RingBuffer}

/-- S loses its head, and the ghost gets the new key if that head was not used twice. -/
theorem evictS_sq_gh (mgr : Manager) (key : Bytes) {v : Handle} (hpop : e.sq.pop = some (v, sq)) :
    (e.evictS fingerprintOf mgr key).2.1.sq = sq ∧
      (e.evictS fingerprintOf mgr key).2.1.gh =
        if mgr.getFreq v ≥ 2 then e.gh else e.gh.insert (fingerprintOf key) := by
  simp only [evictS, hpop]
  by_cases hfreq : mgr.getFreq v ≥ 2
  · simp only [hfreq, if_true]
    split
    · exact ⟨rfl, rfl⟩
    · have hM := evictM_sq_gh { e with sq := sq } (mgr.clearMetaBits v queueTagMask)
      split <;> exact hM
  · simp only [hfreq, if_false, and_self]

/-- A known key leaves S and the ghost alone. -/
theorem add_of_look (mgr : Manager) (h : Handle) (hlook : e.gh.look (fingerprintOf key) = true) :
    (e.add fingerprintOf mgr key h).2.1.sq = e.sq ∧
      (e.add fingerprintOf mgr key h).2.1.gh = e.gh ∧
      ∀ mq, e.mq.push h = some mq → (e.add fingerprintOf mgr key h).2.1.mq = mq := by
  simp only [add, hlook, if_true]
  cases hpush : e.mq.push h with
  | none => exact ⟨(evictM_sq_gh e mgr).1, (evictM_sq_gh e mgr).2, by simp⟩
  | some mq => exact ⟨rfl, rfl, fun _ heq => Option.some.inj heq⟩

theorem add_of_room (mgr : Manager)
    (hlook : e.gh.look (fingerprintOf key) = false) (hpush : e.sq.push h = some sq) :
    (e.add fingerprintOf mgr key h).2.1.sq = sq ∧
      (e.add fingerprintOf mgr key h).2.1.gh = e.gh := by
  simp [add, hlook, hpush]

theorem add_of_full (mgr : Manager) (h : Handle)
    (hlook : e.gh.look (fingerprintOf key) = false) (hfull : e.sq.full = true)
    (hpop : e.sq.pop = some (head e.sq, sq)) :
    (e.add fingerprintOf mgr key h).2.1.sq = sq ∧
      (e.add fingerprintOf mgr key h).2.1.gh =
        if e.spills fingerprintOf mgr key then e.gh.insert (fingerprintOf key) else e.gh := by
  have hpush : e.sq.push h = none := RingBuffer.push_eq_none.mpr hfull
  obtain ⟨hsq, hgh⟩ := evictS_sq_gh fingerprintOf mgr key hpop
  simp only [add, hlook, hpush, Bool.false_eq_true, if_false]
  refine ⟨hsq, hgh.trans ?_⟩
  by_cases hfreq : mgr.getFreq (head e.sq) ≥ 2 <;> simp [spills, hlook, hfull, hfreq]

/-- The handle of the key takes the way to M: S is left alone, and M takes it if it has room. -/
def GoesToM (e : Eviction) (mgr : Manager) (key : Bytes) (h : Handle) : Prop :=
  (e.add fingerprintOf mgr key h).2.1.sq = e.sq ∧
    ∀ mq, e.mq.push h = some mq → (e.add fingerprintOf mgr key h).2.1.mq = mq

theorem goesToM_iff : e.GoesToM fingerprintOf mgr key h ↔ e.gh.look (fingerprintOf key) = true := by
  constructor
  · rintro ⟨hsq, _⟩
    by_contra hlook
    rw [Bool.not_eq_true] at hlook
    -- S grows by the new handle, or shrinks by its head
    cases hpush : e.sq.push h with
    | some sq =>
      rw [(add_of_room fingerprintOf mgr hlook hpush).1] at hsq
      have hsize := (RingBuffer.push_spec hpush).2
      rw [hsq] at hsize
      omega
    | none =>
      have hfull := RingBuffer.push_eq_none.mp hpush
      obtain ⟨sq, hpop, hroom, _⟩ := RingBuffer.pop_of_full hfull
      rw [(add_of_full fingerprintOf mgr h hlook hfull hpop).1] at hsq
      rw [hsq, hfull] at hroom
      cases hroom
  · intro hlook
    obtain ⟨hsq, _, hmq⟩ := add_of_look fingerprintOf mgr h hlook
    exact ⟨hsq, hmq⟩

end Eviction

/-! ## Runs -/

/-- The calls of the policy, and a change of the arena by others. -/
inductive PolicyCall where
  | add (key : Bytes) (h : Handle)
  | touch (h : Handle)
  | arena (mgr : Manager)

/-- The policy with the keys of the handles in S, head first, the fingerprints put into the ghost,
the keys of the handles that S gave up, and the one the last `Add` gave up. -/
structure Remembered where
  e : Eviction
  mgr : Manager
  small : List (Bytes × Handle)
  ghosted : Finset UInt32
  evicted : List Bytes
  lost : Option Bytes

namespace Remembered

variable (fingerprintOf : Bytes → UInt32) (used : Bytes → Bool)

/-- The key whose handle S gives up when `key` is added. -/
def lostKey (s : Remembered) (key : Bytes) : Option Bytes :=
  if s.e.spills fingerprintOf s.mgr key || s.e.drops fingerprintOf s.mgr key then
    s.small.head?.map Prod.fst
  else none

/-- The fingerprints that have been ghosted after an `Add`. -/
def ghostedBy (s : Remembered) (key : Bytes) : Finset UInt32 :=
  if s.e.spills fingerprintOf s.mgr key then insert (fingerprintOf key) s.ghosted else s.ghosted

/-- What S holds after an `Add`, with the keys. -/
def smallBy (s : Remembered) (key : Bytes) (h : Handle) : List (Bytes × Handle) :=
  if s.e.gh.look (fingerprintOf key) then s.small
  else if s.e.sq.full then s.small.tail
  else s.small ++ [(key, h)]

/-- One call, with keys of the set `used`, as long as the ghost is not overfull.  The arena may
change in any way between the calls of the policy. -/
def step (s : Remembered) : PolicyCall → Option Remembered
  | .add key h =>
    if used key && decide ((s.ghostedBy fingerprintOf key).card ≤ s.e.gh.cap) then
      let out := s.e.add fingerprintOf s.mgr key h
      some {
        e := out.2.1
        mgr := out.2.2
        small := s.smallBy fingerprintOf key h
        ghosted := s.ghostedBy fingerprintOf key
        evicted := (s.lostKey fingerprintOf key).toList ++ s.evicted
        lost := s.lostKey fingerprintOf key }
    else none
  | .touch h => some { s with mgr := s.e.touch s.mgr h }
  | .arena mgr => some { s with mgr := mgr }

/-- The key that was given up goes to M while the ghost stays as it is, and no key is in the ghost
that S never gave up. -/
structure Remembers (s : Remembered) : Prop where
  back : ∀ k, s.lost = some k → ∀ (e : Eviction) (mgr : Manager) (h : Handle), e.gh = s.e.gh →
    e.GoesToM fingerprintOf mgr k h
  only : ∀ k, used k = true → k ∉ s.evicted → s.e.gh.look (fingerprintOf k) = false

/-- S gives up a handle only for its own key, and drops a used one only if its key was given up
before. -/
def OwnKey (s : Remembered) : PolicyCall → Prop
  | .add key _ =>
    (s.e.spills fingerprintOf s.mgr key = true → s.small.head?.map Prod.fst = some key) ∧
      (s.e.drops fingerprintOf s.mgr key = true → ∀ p ∈ s.small.head?, p.1 ∈ s.evicted)
  | .touch _ => True
  | .arena _ => True

instance (s : Remembered) (call : PolicyCall) : Decidable (s.OwnKey fingerprintOf call) :=
  match call with
  | .add _ _ => inferInstanceAs (Decidable (_ ∧ _))
  | .touch _ => isTrue trivial
  | .arena _ => isTrue trivial

/-- The history fits the state. -/
structure Tracks (s : Remembered) : Prop where
  lists : s.e.sq.Lists (s.small.map Prod.snd)
  keys : ∀ p ∈ s.small, used p.1 = true
  evictedKeys : ∀ k ∈ s.evicted, used k = true
  ghost : s.e.gh.Represents s.ghosted
  lost : ∀ k, s.lost = some k → k ∈ s.evicted

/-- The ghost has the fingerprints of the keys that S gave up. -/
def Exact (s : Remembered) : Prop :=
  ∀ fp, fp ∈ s.ghosted ↔ ∃ k ∈ s.evicted, fingerprintOf k = fp

variable {fingerprintOf used} {s s' : Remembered} {key : Bytes} {h : Handle} {call : PolicyCall}

theorem step_add (hstep : s.step fingerprintOf used (.add key h) = some s') :
    used key = true ∧ (s.ghostedBy fingerprintOf key).card ≤ s.e.gh.cap ∧
      s' = { e := (s.e.add fingerprintOf s.mgr key h).2.1
             mgr := (s.e.add fingerprintOf s.mgr key h).2.2
             small := s.smallBy fingerprintOf key h
             ghosted := s.ghostedBy fingerprintOf key
             evicted := (s.lostKey fingerprintOf key).toList ++ s.evicted
             lost := s.lostKey fingerprintOf key } := by
  simp only [step] at hstep
  split at hstep
  · rename_i hcond
    rw [Bool.and_eq_true, decide_eq_true_eq] at hcond
    exact ⟨hcond.1, hcond.2, (Option.some.inj hstep).symm⟩
  · cases hstep

theorem Tracks.exists_head (ht : s.Tracks used) (hfull : s.e.sq.full = true) :
    ∃ p rest, s.small = p :: rest := by
  cases hsmall : s.small with
  | nil => exact absurd (by rw [hsmall]; rfl) (ht.lists.ne_nil_of_full hfull)
  | cons p rest => exact ⟨p, rest, rfl⟩

theorem full_of_lost (hlost : s.e.spills fingerprintOf s.mgr key = true ∨
    s.e.drops fingerprintOf s.mgr key = true) :
    s.e.gh.look (fingerprintOf key) = false ∧ s.e.sq.full = true := by
  simp only [Eviction.spills, Eviction.drops, Bool.and_eq_true, Bool.not_eq_true'] at hlost
  rcases hlost with hlost | hlost
  · exact hlost.1
  · exact hlost.1.1.1

/-- What `Add` does to S and to the ghost is what the history says. -/
theorem Tracks.add (fingerprintOf : Bytes → UInt32) (ht : s.Tracks used) (key : Bytes) (h : Handle) :
    (s.e.add fingerprintOf s.mgr key h).2.1.sq.Lists
        ((s.smallBy fingerprintOf key h).map Prod.snd) ∧
      (s.e.add fingerprintOf s.mgr key h).2.1.gh =
        if s.e.spills fingerprintOf s.mgr key then s.e.gh.insert (fingerprintOf key)
        else s.e.gh := by
  cases hlook : s.e.gh.look (fingerprintOf key) with
  | true =>
    obtain ⟨hsq, hgh, _⟩ := Eviction.add_of_look fingerprintOf s.mgr h hlook
    rw [hsq, hgh]
    simpa [smallBy, Eviction.spills, hlook] using ht.lists
  | false =>
    cases hpush : s.e.sq.push h with
    | some sq =>
      obtain ⟨hsq, hgh⟩ := Eviction.add_of_room fingerprintOf s.mgr hlook hpush
      rw [hsq, hgh]
      simpa [smallBy, Eviction.spills, hlook, Eviction.not_full_of_push hpush]
        using ht.lists.push hpush
    | none =>
      have hfull := RingBuffer.push_eq_none.mp hpush
      obtain ⟨p, rest, hsmall⟩ := ht.exists_head hfull
      have hlists := ht.lists
      rw [hsmall, List.map_cons] at hlists
      obtain ⟨sq, hpop, hrest⟩ := hlists.pop
      have hhead : Eviction.head s.e.sq = p.2 := by rw [Eviction.head, hlists.head]
      rw [← hhead] at hpop
      obtain ⟨hsq, hgh⟩ :=
        Eviction.add_of_full fingerprintOf s.mgr h hlook hfull hpop
      rw [hsq, hgh]
      simpa [smallBy, hlook, hfull, hsmall] using hrest

theorem Tracks.keys_smallBy (ht : s.Tracks used) (hkey : used key = true) :
    ∀ p ∈ s.smallBy fingerprintOf key h, used p.1 = true := by
  intro p hp
  unfold smallBy at hp
  split at hp
  · exact ht.keys p hp
  · split at hp
    · exact ht.keys p (List.mem_of_mem_tail hp)
    · rcases List.mem_append.mp hp with hp | hp
      · exact ht.keys p hp
      · rw [List.mem_singleton.mp hp]
        exact hkey

theorem Tracks.used_lostKey (ht : s.Tracks used) {k : Bytes}
    (hk : s.lostKey fingerprintOf key = some k) : used k = true := by
  unfold lostKey at hk
  split at hk
  · obtain ⟨p, hp, rfl⟩ := Option.map_eq_some_iff.mp hk
    exact ht.keys p (List.mem_of_mem_head? hp)
  · cases hk

theorem tracks_step (ht : s.Tracks used) (hstep : s.step fingerprintOf used call = some s') :
    s'.Tracks used := by
  cases call with
  | touch h =>
    cases hstep
    exact ⟨ht.lists, ht.keys, ht.evictedKeys, ht.ghost, ht.lost⟩
  | arena mgr =>
    cases hstep
    exact ⟨ht.lists, ht.keys, ht.evictedKeys, ht.ghost, ht.lost⟩
  | add key h =>
    obtain ⟨hkey, hroom, rfl⟩ := step_add hstep
    obtain ⟨hlists, hgh⟩ := ht.add fingerprintOf key h
    refine ⟨hlists, ht.keys_smallBy hkey, fun k hk => ?_, ?_, fun k hk => ?_⟩
    · rcases List.mem_append.mp hk with hk | hk
      · exact ht.used_lostKey (Option.mem_toList.mp hk)
      · exact ht.evictedKeys k hk
    · dsimp only
      rw [hgh]
      unfold ghostedBy at hroom ⊢
      split
      · rw [if_pos ‹_›] at hroom
        exact ht.ghost.insert hroom
      · exact ht.ghost
    · exact List.mem_append_left _ (Option.mem_toList.mpr hk)

theorem remembers_of_exact (hinj : Set.InjOn fingerprintOf {k | used k = true})
    (ht : s.Tracks used) (hexact : s.Exact fingerprintOf) : s.Remembers fingerprintOf used := by
  refine ⟨fun k hk e mgr h hgh => ?_, fun k hk hnot => ?_⟩
  · rw [Eviction.goesToM_iff, hgh, ht.ghost.look, hexact]
    exact ⟨k, ht.lost k hk, rfl⟩
  · rw [Bool.eq_false_iff, Ne, ht.ghost.look, hexact]
    rintro ⟨k', hk', heq⟩
    exact hnot (hinj (ht.evictedKeys k' hk') hk heq ▸ hk')

/-- What `Add` gives up and what it enters into the ghost. -/
theorem Tracks.lost_cases (fingerprintOf : Bytes → UInt32) (ht : s.Tracks used) (key : Bytes) :
    (∃ k, s.e.spills fingerprintOf s.mgr key = true ∧ s.small.head?.map Prod.fst = some k ∧
        s.lostKey fingerprintOf key = some k ∧
        s.ghostedBy fingerprintOf key = insert (fingerprintOf key) s.ghosted) ∨
      (∃ p, s.e.spills fingerprintOf s.mgr key = false ∧
        s.e.drops fingerprintOf s.mgr key = true ∧ s.small.head? = some p ∧
        s.lostKey fingerprintOf key = some p.1 ∧ s.ghostedBy fingerprintOf key = s.ghosted) ∨
      (s.e.spills fingerprintOf s.mgr key = false ∧ s.e.drops fingerprintOf s.mgr key = false ∧
        s.lostKey fingerprintOf key = none ∧ s.ghostedBy fingerprintOf key = s.ghosted) := by
  cases hspill : s.e.spills fingerprintOf s.mgr key with
  | true =>
    obtain ⟨p, rest, hsmall⟩ := ht.exists_head (full_of_lost (.inl hspill)).2
    exact .inl ⟨p.1, rfl, by simp [hsmall], by simp [lostKey, hspill, hsmall],
      by simp [ghostedBy, hspill]⟩
  | false =>
    cases hdrop : s.e.drops fingerprintOf s.mgr key with
    | true =>
      obtain ⟨p, rest, hsmall⟩ := ht.exists_head (full_of_lost (.inr hdrop)).2
      exact .inr (.inl ⟨p, rfl, rfl, by simp [hsmall], by simp [lostKey, hdrop, hsmall],
        by simp [ghostedBy, hspill]⟩)
    | false =>
      exact .inr (.inr ⟨rfl, rfl, by simp [lostKey, hspill, hdrop],
        by simp [ghostedBy, hspill]⟩)

theorem exact_step (ht : s.Tracks used) (hexact : s.Exact fingerprintOf)
    (hown : s.OwnKey fingerprintOf call) (hstep : s.step fingerprintOf used call = some s') :
    s'.Exact fingerprintOf := by
  cases call with
  | touch h =>
    cases hstep
    exact hexact
  | arena mgr =>
    cases hstep
    exact hexact
  | add key h =>
    obtain ⟨_, _, rfl⟩ := step_add hstep
    intro fp
    dsimp only
    rcases ht.lost_cases fingerprintOf key with
      ⟨k, hspill, hhead, hlost, hghost⟩ | ⟨p, _, hdrop, hhead, hlost, hghost⟩ |
      ⟨_, _, hlost, hghost⟩
    · obtain rfl : k = key := Option.some.inj (hhead.symm.trans (hown.1 hspill))
      rw [hghost, hlost, Finset.mem_insert, hexact]
      simp [eq_comm]
    · have hmem : p.1 ∈ s.evicted := hown.2 hdrop p hhead
      rw [hghost, hlost, hexact]
      constructor
      · rintro ⟨k, hk, heq⟩
        exact ⟨k, by simp [hk], heq⟩
      · rintro ⟨k, hk, heq⟩
        rw [Option.toList_some, List.singleton_append, List.mem_cons] at hk
        exact ⟨k, hk.elim (fun hkp => hkp ▸ hmem) id, heq⟩
    · rw [hghost, hlost, hexact]
      simp

theorem not_remembers_of_other
    (hinj : Set.InjOn fingerprintOf {k | used k = true}) (ht : s.Tracks used)
    (hexact : s.Exact fingerprintOf) (hother : ¬ s.OwnKey fingerprintOf call)
    (hstep : s.step fingerprintOf used call = some s') : ¬ s'.Remembers fingerprintOf used := by
  have ht' := tracks_step ht hstep
  intro hrem
  cases call with
  | touch h => exact hother trivial
  | arena mgr => exact hother trivial
  | add key h =>
    obtain ⟨hkey, _, rfl⟩ := step_add hstep
    rcases ht.lost_cases fingerprintOf key with
      ⟨k, hspill, hhead, hlost, hghost⟩ | ⟨p, hspill, hdrop, hhead, hlost, hghost⟩ |
      ⟨hspill, hdrop, _, _⟩
    · -- the new key is in the ghost and was not given up
      refine hother ⟨fun _ => ?_, fun hdrop => ?_⟩
      · by_contra hne
        have hfresh : key ∉ s.evicted := by
          intro hmem
          have hlook := (ht.ghost.look _).mpr ((hexact _).mpr ⟨key, hmem, rfl⟩)
          rw [(full_of_lost (.inl hspill)).1] at hlook
          cases hlook
        have hnot := hrem.only key hkey (by
          dsimp only
          rw [hlost, Option.toList_some, List.singleton_append, List.mem_cons]
          rintro (rfl | hmem)
          · exact hne hhead
          · exact hfresh hmem)
        have hin := (ht'.ghost.look (fingerprintOf key)).mpr (by
          dsimp only
          rw [hghost]
          exact Finset.mem_insert_self _ _)
        exact absurd (hnot.symm.trans hin) (by decide)
      · simp only [Eviction.spills, Eviction.drops, Bool.and_eq_true, Bool.not_eq_true',
          decide_eq_true_eq, decide_eq_false_iff_not] at hspill hdrop
        exact absurd hdrop.1.1.2 hspill.2
    · -- the ghost is as it was, so the dropped key has to be there already
      refine hother ⟨fun hyes => absurd (hspill.symm.trans hyes) (by decide), fun _ q hq => ?_⟩
      obtain rfl : p = q := Option.some.inj (hhead.symm.trans hq)
      have hback := hrem.back p.1 hlost _ s.mgr h rfl
      rw [Eviction.goesToM_iff, ht'.ghost.look] at hback
      dsimp only at hback
      rw [hghost, hexact] at hback
      obtain ⟨k, hk, heq⟩ := hback
      exact hinj (ht.evictedKeys k hk) (ht.used_lostKey hlost) heq ▸ hk
    · exact hother ⟨fun hyes => absurd (hspill.symm.trans hyes) (by decide),
        fun hyes => absurd (hdrop.symm.trans hyes) (by decide)⟩

/-- A policy that has just been made. -/
def start (e : Eviction) (mgr : Manager) : Remembered := ⟨e, mgr, [], ∅, [], none⟩

theorem tracks_start {capacity : Nat} {e : Eviction} (hnew : new capacity = some e)
    (mgr : Manager) : (start e mgr).Tracks used := by
  obtain ⟨⟨_, hsq⟩, _, ⟨_, hgh⟩⟩ := Eviction.parts_of_new hnew
  exact ⟨RingBuffer.lists_newRingBuffer hsq, by simp [start], by simp [start],
    GhostIndex.represents_newGhostIndex hgh, by simp [start]⟩

end Remembered

/-- The ghost remembers the keys that S gave up, and no others, along a run exactly when S gives up
no handle for another key than its own and drops no used one whose key it never gave up before. -/
theorem ghost_remembers_iff (fingerprintOf : Bytes → UInt32) (used : Bytes → Bool)
    (hinj : Set.InjOn fingerprintOf {k | used k = true}) {capacity : Nat} {e : Eviction}
    (hnew : new capacity = some e) (mgr : Manager) (calls : List PolicyCall) {last : Remembered}
    (hrun : run (Remembered.step fingerprintOf used) (.start e mgr) calls = some last) :
    (∀ n s, run (Remembered.step fingerprintOf used) (.start e mgr) (calls.take n) = some s →
        s.Remembers fingerprintOf used) ↔
      Guarded (Remembered.step fingerprintOf used) (Remembered.OwnKey fingerprintOf)
        (.start e mgr) calls :=
  always_iff_guarded (fun s => s.Tracks used ∧ s.Exact fingerprintOf)
    (fun _ hs => Remembered.remembers_of_exact hinj hs.1 hs.2)
    (fun _ _ _ hs hown hstep =>
      ⟨Remembered.tracks_step hs.1 hstep, Remembered.exact_step hs.1 hs.2 hown hstep⟩)
    (fun _ _ _ hs hother hstep => Remembered.not_remembers_of_other hinj hs.1 hs.2 hother hstep)
    calls (.start e mgr) last
    ⟨Remembered.tracks_start hnew mgr, fun fp => by simp [Remembered.start]⟩ hrun

/-- One slot in S, and a key that is added twice: its first handle is given up for the second, and
the ghost has the key. -/
theorem ghost_remembers_iff_same_key :
    ∃ e s, new 1 = some e ∧
      run (Remembered.step fingerprintOf (· == [97])) (.start e (newManager 64))
        [.add [97] ⟨0, 1, 0, 0⟩, .add [97] ⟨8, 1, 0, 0⟩] = some s ∧
      s.lost = some [97] ∧ s.Remembers fingerprintOf (· == [97]) := by
  obtain ⟨e, hnew, hguard, s, hrun, hlost⟩ : ∃ e, new 1 = some e ∧
      Guarded (Remembered.step fingerprintOf (· == [97])) (Remembered.OwnKey fingerprintOf)
        (.start e (newManager 64)) [.add [97] ⟨0, 1, 0, 0⟩, .add [97] ⟨8, 1, 0, 0⟩] ∧
      ∃ s, run (Remembered.step fingerprintOf (· == [97])) (.start e (newManager 64))
        [.add [97] ⟨0, 1, 0, 0⟩, .add [97] ⟨8, 1, 0, 0⟩] = some s ∧ s.lost = some [97] := by
    decide +kernel
  have hinj : Set.InjOn fingerprintOf {k | (k == ([97] : Bytes)) = true} := by
    intro k hk k' hk' _
    exact (eq_of_beq hk).trans (eq_of_beq hk').symm
  exact ⟨e, s, hnew, hrun, hlost,
    (ghost_remembers_iff fingerprintOf _ hinj hnew _ _ hrun).mpr hguard 2 s hrun⟩

/-- One slot in S: adding `b` gives up the handle of `a`.  The ghost then has `b`, which S never
gave up, and `a` goes to S again. -/
theorem evicted_key_forgotten :
    ∃ e s, new 1 = some e ∧ fingerprintOf [97] ≠ fingerprintOf [98] ∧
      run (Remembered.step fingerprintOf fun k => k == [97] || k == [98]) (.start e (newManager 64))
        [.add [97] ⟨0, 1, 0, 0⟩, .add [98] ⟨8, 1, 0, 0⟩] = some s ∧
      s.lost = some [97] ∧ ¬ s.e.GoesToM fingerprintOf s.mgr [97] ⟨16, 1, 0, 0⟩ ∧
      [98] ∉ s.evicted ∧ s.e.gh.look (fingerprintOf [98]) = true := by
  obtain ⟨e, hnew, s, hrun, hne, hlost, hlook, hnot, hin⟩ : ∃ e, new 1 = some e ∧ ∃ s,
      run (Remembered.step fingerprintOf fun k => k == [97] || k == [98]) (.start e (newManager 64))
        [.add [97] ⟨0, 1, 0, 0⟩, .add [98] ⟨8, 1, 0, 0⟩] = some s ∧
      fingerprintOf [97] ≠ fingerprintOf [98] ∧ s.lost = some [97] ∧
      s.e.gh.look (fingerprintOf [97]) = false ∧ [98] ∉ s.evicted ∧
      s.e.gh.look (fingerprintOf [98]) = true := by
    decide +kernel
  refine ⟨e, s, hnew, hne, hrun, hlost, fun hgoes => ?_, hnot, hin⟩
  rw [Eviction.goesToM_iff, hlook] at hgoes
  cases hgoes

end Horreum.S3Fifo
