/-
  Eviction/HotKeys.lean --- when a used handle survives an overflow of S.

  `IncFreq` counts the hits of a handle modulo four.  So the head of a full S is promoted when it had
  two or three hits modulo four, and given up like an unused one otherwise.

  An added handle has a meta word of its own and no M tag in it, and between the calls the arena
  leaves the words of queued handles alone; `put_is_arena_step` and `fits_of_put` connect this to `Put`.
-/
import Horreum.Eviction.Remembered

set_option autoImplicit false

namespace Horreum.Arena

open Foundation (Cells)

namespace Manager

variable {m m' : Manager} {h g : Handle} {f : UInt16 → UInt16}

/-! ## The fields of a word -/

theorem word_and_or_self (w c : UInt16) : (w &&& c) ||| c = c := by
  apply UInt16.toBitVec_inj.mp
  simp only [UInt16.toBitVec_and, UInt16.toBitVec_or]
  ext i hi
  simp only [BitVec.getElem_or, BitVec.getElem_and]
  cases w.toBitVec[i] <;> simp

/-- The word of a handle that has just been queued in S. -/
def queuedWord (w : UInt16) : UInt16 := ((w &&& ~~~freqMask) ||| (0 &&& freqMask)) ||| queueTagS

theorem queued_freq (w : UInt16) : queuedWord w &&& freqMask = 0 := by
  rw [queuedWord, word_or_and, word_or_and, UInt16.and_assoc,
    show ~~~freqMask &&& freqMask = 0 by decide, show queueTagS &&& freqMask = 0 by decide]
  simp

theorem queued_tag {w : UInt16} (hw : w &&& queueTagM = 0) :
    queuedWord w &&& queueTagMask = queueTagS := by
  have hmask : queueTagMask = queueTagM ||| queueTagS := by decide
  have hlow : w &&& queueTagMask = w &&& queueTagS := by
    rw [hmask, UInt16.and_comm, word_or_and, UInt16.and_comm queueTagM, hw,
      UInt16.and_comm queueTagS, UInt16.zero_or]
  rw [queuedWord, word_or_and, word_or_and, UInt16.and_assoc,
    show ~~~freqMask &&& queueTagMask = queueTagMask by decide, hlow,
    show queueTagS &&& queueTagMask = queueTagS by decide,
    show (0 &&& freqMask) &&& queueTagMask = 0 by decide, UInt16.or_zero, word_and_or_self]

/-- The word after one hit. -/
def hitWord (w : UInt16) : UInt16 := (w &&& ~~~freqMask) ||| (((w &&& freqMask) + 1) &&& freqMask)

theorem hit_freq (w : UInt16) : hitWord w &&& freqMask = ((w &&& freqMask) + 1) &&& freqMask := by
  rw [hitWord, word_or_and, UInt16.and_assoc, show ~~~freqMask &&& freqMask = 0 by decide,
    UInt16.and_assoc _ freqMask freqMask, UInt16.and_self]
  simp

theorem hit_tag (w : UInt16) : hitWord w &&& queueTagMask = w &&& queueTagMask := by
  rw [hitWord, word_or_and, UInt16.and_assoc,
    show ~~~freqMask &&& queueTagMask = queueTagMask by decide, UInt16.and_assoc _ freqMask,
    show freqMask &&& queueTagMask = 0 by decide]
  simp

end Manager

end Horreum.Arena

namespace Horreum.S3Fifo

open Foundation (Bytes run run_keeps)
open Arena (Handle Manager queueTagMask queueTagS queueTagM freqMask newManager)
open Arena.Manager (wordOf SameBlocks)

/-! ## What the policy writes -/

namespace Eviction

variable (fingerprintOf : Bytes → UInt32) {e : Eviction} {mgr : Manager} {key : Bytes}
  {h g : Handle} {qs qm : List Handle}

/-- Of a queue in order M only pops its head, and may put it back at the tail. -/
theorem evictM_queue (hm : e.mq.Lists qm) (mgr : Manager) :
    (∃ qm', (e.evictM mgr).2.1.mq.Lists qm' ∧ qm'.Subperm qm) ∧
      ∀ g, (∀ v ∈ qm, wordOf g ≠ wordOf v) → (e.evictM mgr).2.2.getMeta g = mgr.getMeta g := by
  cases qm with
  | nil =>
    have heq : e.evictM mgr = ([], e, mgr) := by simp only [evictM, hm.pop_nil]
    rw [heq]
    exact ⟨⟨[], hm, List.Subperm.refl _⟩, fun _ _ => rfl⟩
  | cons v rest =>
    obtain ⟨mq, hpop, hrest⟩ := hm.pop
    simp only [evictM, hpop]
    split
    · refine ⟨?_, fun g hg => Manager.getMeta_modifyMeta_other _ _ (hg v List.mem_cons_self)⟩
      cases hpush : mq.push v with
      | none => exact ⟨rest, hrest, (List.sublist_cons_self v rest).subperm⟩
      | some mq' =>
        exact ⟨rest ++ [v], hrest.push hpush, (List.perm_append_singleton v rest).subperm⟩
    · exact ⟨⟨rest, hrest, (List.sublist_cons_self v rest).subperm⟩,
        fun g hg => Manager.getMeta_modifyMeta_other _ _ (hg v List.mem_cons_self)⟩

/-- The head of S leaves it, and goes to M if anywhere. -/
theorem evictS_queue (hs : e.sq.Lists (h :: qs)) (hm : e.mq.Lists qm) (mgr : Manager)
    (key : Bytes) :
    (∃ qm', (e.evictS fingerprintOf mgr key).2.1.mq.Lists qm' ∧ qm'.Subperm (h :: qm)) ∧
      (e.evictS fingerprintOf mgr key).2.1.sq.Lists qs ∧
      ∀ g, wordOf g ≠ wordOf h → (∀ v ∈ qm, wordOf g ≠ wordOf v) →
        (e.evictS fingerprintOf mgr key).2.2.getMeta g = mgr.getMeta g := by
  obtain ⟨sq, hpop, hrest⟩ := hs.pop
  have hsq := (evictS_sq_gh fingerprintOf mgr key hpop).1
  refine ⟨?_, by rw [hsq]; exact hrest, ?_⟩
  all_goals simp only [evictS, hpop]
  all_goals obtain ⟨⟨qm', hqm', hsub⟩, hwords⟩ :=
    evictM_queue (e := { e with sq := sq }) hm (mgr.clearMetaBits h queueTagMask)
  · have happend := (List.perm_append_singleton h qm).subperm
    split
    · split
      · rename_i mq hpush
        exact ⟨qm ++ [h], hm.push hpush, happend⟩
      · split
        · exact ⟨qm', hqm', hsub.trans (List.sublist_cons_self h qm).subperm⟩
        · rename_i mq hpush
          exact ⟨qm' ++ [h], hqm'.push hpush,
            (hsub.append (List.Subperm.refl [h])).trans happend⟩
    · exact ⟨qm, hm, (List.sublist_cons_self h qm).subperm⟩
  · intro g hg hmain
    have hclear : (mgr.clearMetaBits h queueTagMask).getMeta g = mgr.getMeta g :=
      Manager.getMeta_modifyMeta_other mgr _ hg
    have hM := (hwords g hmain).trans hclear
    split
    · split
      · exact (Manager.getMeta_modifyMeta_other _ _ hg).trans
          ((Manager.getMeta_modifyMeta_other _ _ hg).trans hclear)
      · split
        · exact (Manager.getMeta_modifyMeta_other _ _ hg).trans hM
        · exact (Manager.getMeta_modifyMeta_other _ _ hg).trans
            ((Manager.getMeta_modifyMeta_other _ _ hg).trans hM)
    · rfl

/-- The handles in the slots of both queues that are alive. -/
def queued (e : Eviction) : List Handle :=
  ((e.sq.data ++ e.mq.data).filter Slot.alive).map Slot.h

theorem mem_queued (hs : e.sq.Lists qs) (hm : e.mq.Lists qm) (hg : g ∈ qs ++ qm) :
    g ∈ e.queued := by
  have hslot : ∀ {rb : RingBuffer} {q : List Handle}, rb.Lists q → g ∈ q →
      (⟨g, true⟩ : Slot) ∈ rb.data := by
    intro rb q hl hmem
    obtain ⟨i, hi⟩ := List.mem_iff_getElem?.mp hmem
    have hget := rb.getElem?_slot (rb.head + i)
    rw [hl.slots i g hi] at hget
    exact List.mem_of_getElem? hget
  refine List.mem_map.mpr ⟨⟨g, true⟩, List.mem_filter.mpr ⟨List.mem_append.mpr ?_, rfl⟩, rfl⟩
  exact (List.mem_append.mp hg).imp (hslot hs) (hslot hm)

/-- The handle has a word of its own, without an M tag. -/
def Fits (e : Eviction) (mgr : Manager) (h : Handle) : Prop :=
  mgr.hasWord h = true ∧ mgr.getMeta h &&& queueTagM = 0 ∧ ∀ g ∈ e.queued, wordOf g ≠ wordOf h

instance (e : Eviction) (mgr : Manager) (h : Handle) : Decidable (e.Fits mgr h) := by
  unfold Fits
  infer_instance

end Eviction

/-! ## Runs -/

/-- The policy with the handles of S, head first, each with the hits since it was added. -/
structure Counted where
  e : Eviction
  mgr : Manager
  small : List (Handle × Nat)

namespace Counted

variable (fingerprintOf : Bytes → UInt32)

/-- One hit of `h`. -/
def hit (h : Handle) (p : Handle × Nat) : Handle × Nat := if p.1 = h then (p.1, p.2 + 1) else p

/-- What S holds after an `Add`. -/
def smallBy (s : Counted) (key : Bytes) (h : Handle) : List (Handle × Nat) :=
  if s.e.gh.look (fingerprintOf key) then s.small
  else if s.e.sq.full then s.small.tail
  else s.small ++ [(h, 0)]

/-- The words of the queued handles are there and as they were. -/
def KeepsWords (s : Counted) (mgr : Manager) : Prop :=
  ∀ g ∈ s.e.queued, mgr.hasWord g = true ∧ mgr.getMeta g = s.mgr.getMeta g

instance (s : Counted) (mgr : Manager) : Decidable (s.KeepsWords mgr) := by
  unfold KeepsWords
  infer_instance

/-- A call of the policy, where the new handle fits. -/
def step (s : Counted) : PolicyCall → Option Counted
  | .add key h =>
    if s.e.Fits s.mgr h then
      some ⟨(s.e.add fingerprintOf s.mgr key h).2.1, (s.e.add fingerprintOf s.mgr key h).2.2,
        s.smallBy fingerprintOf key h⟩
    else none
  | .touch h => some ⟨s.e, s.e.touch s.mgr h, s.small.map (hit h)⟩
  | .arena mgr => if s.KeepsWords mgr then some { s with mgr := mgr } else none

/-- The S tag is set, and the counter is the number of hits modulo four. -/
def Counts (mgr : Manager) (p : Handle × Nat) : Prop :=
  mgr.getMeta p.1 &&& queueTagMask = queueTagS ∧ mgr.getFreq p.1 = UInt16.ofNat (p.2 % 4)

/-- The queues are in order, each queued handle has a word of its own, and those of S count. -/
structure Inv (s : Counted) (qm : List Handle) : Prop where
  small : s.e.sq.Lists (s.small.map Prod.fst)
  main : s.e.mq.Lists qm
  words : ((s.small.map Prod.fst ++ qm).map wordOf).Nodup
  has : ∀ g ∈ s.small.map Prod.fst ++ qm, s.mgr.hasWord g = true
  counts : ∀ p ∈ s.small, Counts s.mgr p

variable {fingerprintOf} {s s' : Counted} {qm : List Handle} {key : Bytes} {h : Handle}
  {p : Handle × Nat}

theorem counts_of_eq {mgr mgr' : Manager} (hc : Counts mgr p)
    (heq : mgr'.getMeta p.1 = mgr.getMeta p.1) : Counts mgr' p := by
  unfold Counts Manager.getFreq at *
  rw [heq]
  exact hc

theorem ofNat_succ_mod (k : Nat) :
    (UInt16.ofNat (k % 4) + 1) &&& freqMask = UInt16.ofNat ((k + 1) % 4) := by
  have hall : ∀ r, r < 4 → (UInt16.ofNat r + 1) &&& freqMask = UInt16.ofNat ((r + 1) % 4) := by
    decide
  rw [hall (k % 4) (Nat.mod_lt k (by decide)), Nat.mod_add_mod]

/-- Two queued handles with one word are the same place of the queues. -/
theorem Inv.word_ne (hi : s.Inv qm) (hp : p ∈ s.small) {g : Handle}
    (hg : g ∈ s.small.map Prod.fst ++ qm) (hne : g ≠ p.1) : wordOf p.1 ≠ wordOf g := by
  intro heq
  have hmem : p.1 ∈ s.small.map Prod.fst ++ qm :=
    List.mem_append_left _ (List.mem_map_of_mem hp)
  exact hne (List.inj_on_of_nodup_map hi.words hg hmem heq.symm)

/-! ### Touch -/

/-- A hit changes at most the word of a queued handle, and always that of one in S. -/
theorem Inv.touch (hi : s.Inv qm) (h : Handle) :
    ∀ p ∈ s.small.map (hit h), Counts (s.e.touch s.mgr h) p := by
  intro q hq
  obtain ⟨p, hp, rfl⟩ := List.mem_map.mp hq
  obtain ⟨htag, hfreq⟩ := hi.counts p hp
  by_cases heq : p.1 = h
  · subst heq
    have hmem : p.1 ∈ s.small.map Prod.fst := List.mem_map_of_mem hp
    have hscan : s.e.sq.scanFromHead p.1 = true := hi.small.find_isSome_iff.mpr hmem
    have htouch : s.e.touch s.mgr p.1 = s.mgr.incFreq p.1 := by
      simp only [Eviction.touch, htag, hscan, if_true]
    have hword : (s.mgr.incFreq p.1).getMeta p.1 = Manager.hitWord (s.mgr.getMeta p.1) :=
      Manager.getMeta_modifyMeta_self (hi.has _ (List.mem_append_left _ hmem)) _
    rw [htouch, hit, if_pos rfl]
    refine ⟨by rw [hword, Manager.hit_tag]; exact htag, ?_⟩
    rw [Manager.getFreq, hword, Manager.hit_freq]
    rw [Manager.getFreq] at hfreq
    rw [hfreq, ofNat_succ_mod]
  · rw [hit, if_neg heq]
    have hother : ∀ g ∈ s.small.map Prod.fst ++ qm, g = h →
        (s.mgr.incFreq h).getMeta p.1 = s.mgr.getMeta p.1 := by
      rintro g hg rfl
      exact Manager.getMeta_modifyMeta_other _ _ (hi.word_ne hp hg fun hgp => heq hgp.symm)
    refine counts_of_eq ⟨htag, hfreq⟩ ?_
    simp only [Eviction.touch]
    split_ifs with hS hscan hM hscan
    · exact hother h (List.mem_append_left _ (hi.small.find_isSome_iff.mp hscan)) rfl
    · rfl
    · exact hother h (List.mem_append_right _ (hi.main.find_isSome_iff.mp hscan)) rfl
    · rfl
    · rfl

theorem map_fst_hit (h : Handle) (l : List (Handle × Nat)) :
    (l.map (hit h)).map Prod.fst = l.map Prod.fst := by
  rw [List.map_map]
  refine List.map_congr_left fun p _ => ?_
  simp only [Function.comp, hit]
  split <;> rfl

theorem inv_touch (hi : s.Inv qm) (h : Handle) :
    (⟨s.e, s.e.touch s.mgr h, s.small.map (hit h)⟩ : Counted).Inv qm := by
  have hfst := map_fst_hit h s.small
  have hsame := (Eviction.sameStore_touch s.e s.mgr h).toSameBlocks
  exact ⟨by rw [hfst]; exact hi.small, hi.main, by rw [hfst]; exact hi.words,
    by rw [hfst]; exact fun g hg => hsame.hasWord (hi.has g hg), hi.touch h⟩

/-! ### Add -/

theorem nodup_words_of_subperm {l l' : List Handle} (hsub : l'.Subperm l)
    (hnd : (l.map wordOf).Nodup) : (l'.map wordOf).Nodup := by
  obtain ⟨mid, hperm, hsl⟩ := hsub
  exact (hperm.map wordOf).nodup_iff.mp (hnd.sublist (hsl.map wordOf))

/-- What an `Add` makes of the queues and of the words of the handles that stay in S. -/
structure Follows (s : Counted) (qm : List Handle) (h : Handle) (small' : List (Handle × Nat))
    (e' : Eviction) (mgr' : Manager) (qm' : List Handle) : Prop where
  small : e'.sq.Lists (small'.map Prod.fst)
  main : e'.mq.Lists qm'
  queue : (small'.map Prod.fst ++ qm').Subperm (h :: (s.small.map Prod.fst ++ qm))
  counts : ∀ p ∈ small', Counts mgr' p

theorem Inv.word_ne_new (hi : s.Inv qm) (hfit : s.e.Fits s.mgr h) {g : Handle}
    (hg : g ∈ s.small.map Prod.fst ++ qm) : wordOf g ≠ wordOf h :=
  hfit.2.2 g (Eviction.mem_queued hi.small hi.main hg)

theorem Inv.word_ne_main (hi : s.Inv qm) (hp : p ∈ s.small) : ∀ v ∈ qm, wordOf p.1 ≠ wordOf v := by
  intro v hv heq
  have hdisj := List.disjoint_of_nodup_append (List.map_append ▸ hi.words)
  exact hdisj (List.mem_map_of_mem (List.mem_map_of_mem hp)) (heq ▸ List.mem_map_of_mem hv)

/-- Queueing `h` leaves the counts of the handles of S alone. -/
theorem Inv.counts_queued (hi : s.Inv qm) (hfit : s.e.Fits s.mgr h) (tag : UInt16) :
    ∀ p ∈ s.small, Counts ((s.mgr.setFreq h 0).orMetaBits h tag) p := by
  intro p hp
  have hne := hi.word_ne_new hfit (List.mem_append_left qm (List.mem_map_of_mem hp))
  exact counts_of_eq (hi.counts p hp) ((Manager.getMeta_modifyMeta_other _ _ hne).trans
    (Manager.getMeta_modifyMeta_other _ _ hne))

/-- A handle that has just been queued in S: the counter at zero, and the S tag. -/
theorem counts_new (hfit : s.e.Fits s.mgr h) :
    Counts ((s.mgr.setFreq h 0).orMetaBits h queueTagS) (h, 0) := by
  have hset : (s.mgr.setFreq h 0).hasWord h = true :=
    (Manager.sameStore_setFreq s.mgr h 0).toSameBlocks.hasWord hfit.1
  have hword : ((s.mgr.setFreq h 0).orMetaBits h queueTagS).getMeta h =
      Manager.queuedWord (s.mgr.getMeta h) := by
    rw [Manager.orMetaBits, Manager.getMeta_modifyMeta_self hset, Manager.setFreq,
      Manager.getMeta_modifyMeta_self hfit.1, Manager.queuedWord]
  refine ⟨by rw [hword]; exact Manager.queued_tag hfit.2.1, ?_⟩
  rw [Manager.getFreq, hword, Manager.queued_freq]
  rfl

theorem Inv.add_known (hi : s.Inv qm) (hfit : s.e.Fits s.mgr h)
    (hlook : s.e.gh.look (fingerprintOf key) = true) :
    ∃ qm', s.Follows qm h s.small (s.e.add fingerprintOf s.mgr key h).2.1
      (s.e.add fingerprintOf s.mgr key h).2.2 qm' := by
  have hsq := (Eviction.add_of_look fingerprintOf s.mgr h hlook).1
  have hsmall : (s.e.add fingerprintOf s.mgr key h).2.1.sq.Lists (s.small.map Prod.fst) := by
    rw [hsq]
    exact hi.small
  cases hpush : s.e.mq.push h with
  | none =>
    have hadd : s.e.add fingerprintOf s.mgr key h = s.e.evictM s.mgr := by
      simp only [Eviction.add, hlook, hpush, if_true]
    rw [hadd] at hsmall ⊢
    obtain ⟨⟨qm', hqm', hsub⟩, hwords⟩ := Eviction.evictM_queue hi.main s.mgr
    exact ⟨qm', hsmall, hqm', ((List.Subperm.refl _).append hsub).trans
        (List.sublist_cons_self h _).subperm,
      fun p hp => counts_of_eq (hi.counts p hp) (hwords p.1 (hi.word_ne_main hp))⟩
  | some mq =>
    have hadd : s.e.add fingerprintOf s.mgr key h =
        ([], { s.e with mq := mq }, (s.mgr.setFreq h 0).orMetaBits h queueTagM) := by
      simp only [Eviction.add, hlook, hpush, if_true]
    rw [hadd] at hsmall ⊢
    refine ⟨qm ++ [h], hsmall, hi.main.push hpush, ?_, hi.counts_queued hfit queueTagM⟩
    rw [← List.append_assoc]
    exact (List.perm_append_singleton h _).subperm

theorem Inv.add_room (hi : s.Inv qm) (hfit : s.e.Fits s.mgr h)
    (hlook : s.e.gh.look (fingerprintOf key) = false) {sq : RingBuffer}
    (hpush : s.e.sq.push h = some sq) :
    s.Follows qm h (s.small ++ [(h, 0)]) (s.e.add fingerprintOf s.mgr key h).2.1
      (s.e.add fingerprintOf s.mgr key h).2.2 qm := by
  have hadd : s.e.add fingerprintOf s.mgr key h =
      ([], { s.e with sq := sq }, (s.mgr.setFreq h 0).orMetaBits h queueTagS) := by
    simp only [Eviction.add, hlook, hpush, Bool.false_eq_true, if_false]
  rw [hadd]
  refine ⟨by simpa using hi.small.push hpush, hi.main, ?_, fun p hp => ?_⟩
  · rw [List.map_append, List.append_assoc]
    exact List.perm_middle.subperm
  · rcases List.mem_append.mp hp with hp | hp
    · exact hi.counts_queued hfit queueTagS p hp
    · rw [List.mem_singleton.mp hp]
      exact counts_new hfit

theorem Inv.add_full (hi : s.Inv qm) (hlook : s.e.gh.look (fingerprintOf key) = false)
    (hfull : s.e.sq.full = true) (h : Handle) :
    ∃ qm', s.Follows qm h s.small.tail (s.e.add fingerprintOf s.mgr key h).2.1
      (s.e.add fingerprintOf s.mgr key h).2.2 qm' := by
  have hpush : s.e.sq.push h = none := RingBuffer.push_eq_none.mpr hfull
  have hadd : s.e.add fingerprintOf s.mgr key h = s.e.evictS fingerprintOf s.mgr key := by
    simp only [Eviction.add, hlook, hpush, Bool.false_eq_true, if_false]
  rw [hadd]
  cases hsm : s.small with
  | nil => exact absurd (by rw [hsm]; rfl) (hi.small.ne_nil_of_full hfull)
  | cons p rest =>
    have hlists := hi.small
    have hnd := hi.words
    rw [hsm, List.map_cons] at hlists
    rw [hsm, List.map_cons, List.cons_append, List.map_cons, List.nodup_cons] at hnd
    obtain ⟨⟨qm', hqm', hsub⟩, hsq, hwords⟩ :=
      Eviction.evictS_queue fingerprintOf hlists hi.main s.mgr key
    refine ⟨qm', hsq, hqm', ?_, fun q hq => ?_⟩
    · rw [hsm, List.map_cons, List.cons_append]
      exact (((List.Subperm.refl (rest.map Prod.fst)).append hsub).trans
        List.perm_middle.subperm).trans (List.sublist_cons_self h _).subperm
    · -- the head is the only handle of S whose word is written
      have hmem : q ∈ s.small := hsm ▸ List.mem_cons_of_mem p hq
      refine counts_of_eq (hi.counts q hmem) (hwords q.1 (fun heq => hnd.1 ?_)
        (hi.word_ne_main hmem))
      rw [← heq]
      exact List.mem_map_of_mem (List.mem_append_left _ (List.mem_map_of_mem hq))

theorem Inv.add (fingerprintOf : Bytes → UInt32) (hi : s.Inv qm) (hfit : s.e.Fits s.mgr h)
    (key : Bytes) :
    ∃ qm', s.Follows qm h (s.smallBy fingerprintOf key h)
      (s.e.add fingerprintOf s.mgr key h).2.1 (s.e.add fingerprintOf s.mgr key h).2.2 qm' := by
  unfold smallBy
  cases hlook : s.e.gh.look (fingerprintOf key) with
  | true => exact hi.add_known hfit hlook
  | false =>
    cases hpush : s.e.sq.push h with
    | some sq =>
      rw [Eviction.not_full_of_push hpush]
      exact ⟨qm, hi.add_room hfit hlook hpush⟩
    | none =>
      have hfull := RingBuffer.push_eq_none.mp hpush
      rw [hfull]
      exact hi.add_full hlook hfull h

theorem inv_add (fingerprintOf : Bytes → UInt32) (hi : s.Inv qm) (hfit : s.e.Fits s.mgr h)
    (key : Bytes) :
    ∃ qm', (⟨(s.e.add fingerprintOf s.mgr key h).2.1, (s.e.add fingerprintOf s.mgr key h).2.2,
      s.smallBy fingerprintOf key h⟩ : Counted).Inv qm' := by
  obtain ⟨qm', hsq, hmq, hsub, hcounts⟩ := hi.add fingerprintOf hfit key
  have hsame := (Eviction.sameStore_add fingerprintOf s.e s.mgr key h).toSameBlocks
  refine ⟨qm', hsq, hmq, nodup_words_of_subperm hsub ?_, fun g hg => ?_, hcounts⟩
  · rw [List.map_cons, List.nodup_cons]
    refine ⟨fun hmem => ?_, hi.words⟩
    obtain ⟨g, hg, heq⟩ := List.mem_map.mp hmem
    exact hi.word_ne_new hfit hg heq
  · rcases List.mem_cons.mp (hsub.subset hg) with rfl | hold
    · exact hsame.hasWord hfit.1
    · exact hsame.hasWord (hi.has g hold)

theorem inv_step {call : PolicyCall} (hi : ∃ qm, s.Inv qm)
    (hstep : s.step fingerprintOf call = some s') : ∃ qm, s'.Inv qm := by
  obtain ⟨qm, hi⟩ := hi
  cases call with
  | touch h =>
    cases hstep
    exact ⟨qm, inv_touch hi h⟩
  | add key h =>
    simp only [step] at hstep
    split at hstep
    · cases hstep
      exact inv_add fingerprintOf hi ‹_› key
    · cases hstep
  | arena mgr =>
    simp only [step] at hstep
    split at hstep
    · rename_i hkeep
      cases hstep
      have hall := fun g hg => hkeep g (Eviction.mem_queued hi.small hi.main hg)
      exact ⟨qm, hi.small, hi.main, hi.words, fun g hg => (hall g hg).1, fun p hp =>
        counts_of_eq (hi.counts p hp)
          (hall p.1 (List.mem_append_left _ (List.mem_map_of_mem hp))).2⟩
    · cases hstep

/-- A `Put` of the manager that owns the queued handles leaves their words alone. -/
theorem put_is_arena_step {L : Set Handle} (hown : s.mgr.Owns L) (hsub : ∀ g ∈ s.e.queued, g ∈ L)
    {value : Bytes} {mmapOk : Bool} {res : Except Arena.Error Handle} {mgr : Manager}
    (hput : s.mgr.put value mmapOk = some (res, mgr)) :
    s.step fingerprintOf (.arena mgr) = some { s with mgr := mgr } := by
  have hown' : mgr.Owns L := by
    cases res with
    | ok h => exact (Manager.stored_of_put hown hput).owns.mono (Set.subset_insert h L)
    | error e => exact (Manager.kept_of_put hown hput).1
  exact if_pos fun g hg => ⟨hown'.hasWord (hsub g hg), hown.getMeta_put hput (hsub g hg)⟩

theorem fits_of_put {L : Set Handle} (hown : s.mgr.Owns L) (hsub : ∀ g ∈ s.e.queued, g ∈ L)
    {value : Bytes} {mmapOk : Bool} {mgr : Manager}
    (hput : s.mgr.put value mmapOk = some (.ok h, mgr)) : s.e.Fits mgr h := by
  have hst := Manager.stored_of_put hown hput
  refine ⟨hst.owns.hasWord (Set.mem_insert h L), by rw [hst.getMeta]; decide,
    fun g hg heq => hst.fresh ?_⟩
  have hgh := hst.owns.wordOf_inj (Set.mem_insert h L) (Set.mem_insert_of_mem h (hsub g hg)) heq
  exact hgh ▸ hsub g hg

end Counted

end Horreum.S3Fifo
