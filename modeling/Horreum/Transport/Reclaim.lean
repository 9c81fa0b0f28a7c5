/-
  Transport/Reclaim.lean --- the cleaner gets to everything that has expired.

  A lap of `DeleteExpired` may pass over an expired entry that is drawn into the slot it has just
  cleared.  But each removal draws in one entry only, so a lap leaves no more than it removes.
  With at least half of the expired entries gone after each lap, a few laps take all of them.
-/
import Horreum.Transport.Reachable
import Horreum.Transport.Sweeps

set_option autoImplicit false

namespace Horreum.Transport

open Foundation (Bytes run)
open Foundation.Probing
open Arena (Handle)

namespace ShardIndex

variable {hash : Bytes → UInt64} {s t u : ShardIndex} {es : List Entry} {now : UInt32}

/-- The entries that are expired. -/
def expiredAt (s : ShardIndex) (now : UInt32) : List Entry :=
  (entries s.slots).filter fun e => e.expired now

theorem expiredAt_of_empty (h : s.Searchable hash) (hzero : s.count = 0) : s.expiredAt now = [] := by
  have hcount := h.count_eq
  rw [hzero, occupied_eq_length_entries, eq_comm, List.length_eq_zero_iff] at hcount
  rw [expiredAt, hcount]
  rfl

theorem Searchable.nodup_entries (h : s.Searchable hash) : (entries s.slots).Nodup :=
  List.Nodup.of_map Entry.key h.probing.nodup_keys

/-- What was taken out and what is left make up what was there. -/
theorem Taken.perm (ht : Taken hash s es t) (h : s.Searchable hash) :
    (entries t.slots ++ es).Perm (entries s.slots) := by
  have hes : es.Nodup := List.Nodup.of_map Entry.key ht.nodup
  have hsub : ∀ e ∈ es, e ∈ entries s.slots := fun e he => h.mem_entries_iff.mpr (ht.found e he)
  have hnodup : (entries t.slots ++ es).Nodup := by
    refine List.nodup_append'.mpr ⟨ht.searchable.nodup_entries, hes, fun e he he' => ?_⟩
    exact ((ht.mem_entries h).mp he).2 he'
  refine (List.perm_ext_iff_of_nodup hnodup h.nodup_entries).mpr fun e => ?_
  rw [List.mem_append, ht.mem_entries h]
  constructor
  · rintro (⟨hin, _⟩ | he)
    · exact hin
    · exact hsub e he
  · intro hin
    by_cases he : e ∈ es
    · exact .inr he
    · exact .inl ⟨hin, he⟩

theorem Taken.expired_length (ht : Taken hash s es t) (h : s.Searchable hash)
    (hexp : ∀ e ∈ es, e.expired now = true) :
    (t.expiredAt now).length + es.length = (s.expiredAt now).length := by
  have hperm := (ht.perm h).filter fun e => e.expired now
  rw [List.filter_append, List.filter_eq_self.mpr hexp] at hperm
  rw [expiredAt, expiredAt, ← hperm.length_eq, List.length_append]

/-! ## One lap -/

/-- A lap that began with `s` has come to `t`, with `m` slots to go: of the expired entries that
are still there, those behind the cursor are no more than were removed. -/
structure Lap (hash : Bytes → UInt64) (now : UInt32) (s : ShardIndex) (m : Nat) (t : ShardIndex) :
    Prop where
  cursor : t.scanCursor < t.slots.length
  passed : ∃ es passed : List Entry, Taken hash s es t ∧ (∀ e ∈ es, e.expired now = true) ∧
    passed.length ≤ es.length ∧ ∀ i e, cell t.slots i = some e → e.expired now = true →
      dist t.slots.length t.scanCursor i < m ∨ e ∈ passed

theorem Lap.start (h : s.Searchable hash) (hcursor : s.scanCursor < s.slots.length) :
    Lap hash now s s.slots.length s :=
  ⟨hcursor, [], [], Taken.refl h, by simp, by simp,
    fun _ _ hi _ => .inl (dist_lt hcursor (lt_of_cell_eq_some hi))⟩

/-- The cursor passes a slot with nothing to remove. -/
theorem Lap.pass {m : Nat} (h : Lap hash now s (m + 1) t)
    (hkeep : ∀ e, cell t.slots t.scanCursor = some e → ¬ e.expired now = true) :
    Lap hash now s m { t with scanCursor := (t.scanCursor + 1) &&& t.mask } := by
  obtain ⟨es, passed, ht, hexp, hlen, hahead⟩ := h.passed
  have hm := ht.searchable.probing.masked
  refine ⟨hm.and_lt _, es, passed, ht.scanCursor _, hexp, hlen, fun i e hi hdead => ?_⟩
  rcases hahead i e hi hdead with hnear | hin
  · have hne : i ≠ t.scanCursor := by
      rintro rfl
      exact hkeep e hi hdead
    have hstep : dist t.slots.length ((t.scanCursor + 1) &&& t.mask) i + 1 =
        dist t.slots.length t.scanCursor i :=
      hm.dist_next_left h.cursor (lt_of_cell_eq_some hi) hne
    left
    show dist t.slots.length ((t.scanCursor + 1) &&& t.mask) i < m
    omega
  · exact .inr hin

/-- An expired entry is removed, and one more may have been drawn in behind the cursor. -/
theorem Lap.remove {m : Nat} {e : Entry} (h : Lap hash now s (m + 1) t)
    (hcell : cell t.slots t.scanCursor = some e) (hdead : e.expired now = true)
    (hdel : ({ t with scanCursor := (t.scanCursor + 1) &&& t.mask } : ShardIndex).deleteAt hash
      t.scanCursor = some u) : Lap hash now s m u := by
  obtain ⟨es, passed, ht, hexp, hlen, hahead⟩ := h.passed
  have hm := ht.searchable.probing.masked
  obtain ⟨u', hdel', hu, hback⟩ := (ht.scanCursor ((t.scanCursor + 1) &&& t.mask)).deleteAt hcell
  obtain rfl : u = u' := Option.some.inj (hdel.symm.trans hdel')
  have hlength : u.slots.length = t.slots.length := hu.length.trans ht.length.symm
  have hcursor : u.scanCursor = (t.scanCursor + 1) &&& t.mask := by
    obtain ⟨slots, _, rfl⟩ := Option.map_eq_some_iff.mp hdel
    rfl
  refine ⟨?_, es ++ [e], (cell u.slots t.scanCursor).toList ++ passed, hu, ?_, ?_, ?_⟩
  · rw [hcursor, hlength]
    exact hm.and_lt _
  · intro e' he'
    rcases List.mem_append.mp he' with hin | hin
    · exact hexp e' hin
    · rw [List.mem_singleton.mp hin]
      exact hdead
  · have hone : (cell u.slots t.scanCursor).toList.length ≤ 1 := by
      cases cell u.slots t.scanCursor <;> simp
    rw [List.length_append, List.length_append, List.length_singleton]
    omega
  · intro i e' hi hdead'
    obtain ⟨i', hi', hle⟩ := hback i e' hi
    rcases hahead i' e' hi' hdead' with hnear | hin
    · by_cases hhere : i = t.scanCursor
      · rw [hhere] at hi
        exact .inr (List.mem_append_left _ (by rw [hi]; exact List.mem_singleton.mpr rfl))
      · have hlt : i < t.slots.length := hlength ▸ lt_of_cell_eq_some hi
        have hstep : dist t.slots.length ((t.scanCursor + 1) &&& t.mask) i + 1 =
            dist t.slots.length t.scanCursor i := hm.dist_next_left h.cursor hlt hhere
        have hback' : dist t.slots.length t.scanCursor i ≤ dist t.slots.length t.scanCursor i' := hle
        left
        rw [hcursor, hlength]
        omega
    · exact .inr (List.mem_append_right _ hin)

theorem Lap.loop : ∀ (r m : Nat) {t t' : ShardIndex} {freed freed' : List Handle},
    Lap hash now s (m + r) t → deleteExpiredLoop hash now r t freed = some (freed', t') →
    Lap hash now s m t'
  | 0, _, _, _, _, _, h, hloop => by
    cases hloop
    exact h
  | r + 1, m, t, t', freed, freed', h, hloop => by
    unfold deleteExpiredLoop at hloop
    simp only at hloop
    cases hcell : cell t.slots t.scanCursor with
    | none =>
      rw [hcell] at hloop
      refine Lap.loop r m (h.pass fun e he => ?_) hloop
      rw [hcell] at he
      cases he
    | some e =>
      rw [hcell] at hloop
      by_cases hdead : e.expired now = true
      · simp only [if_pos hdead] at hloop
        obtain ⟨u, hdel, hloop⟩ := Option.bind_eq_some_iff.mp hloop
        exact Lap.loop r m (h.remove hcell hdead hdel) hloop
      · simp only [if_neg hdead] at hloop
        refine Lap.loop r m (h.pass fun e' he' => ?_) hloop
        obtain rfl := Option.some.inj (hcell.symm.trans he')
        exact hdead

/-- A lap leaves no more than it removes. -/
theorem Lap.halves (h : Lap hash now s 0 t) (hs : s.Searchable hash) :
    2 * (t.expiredAt now).length ≤ (s.expiredAt now).length := by
  obtain ⟨es, passed, ht, hexp, hlen, hahead⟩ := h.passed
  have hsub : t.expiredAt now ⊆ passed := by
    intro e he
    obtain ⟨hin, hdead⟩ := List.mem_filter.mp he
    obtain ⟨i, hi⟩ := mem_entries.mp hin
    exact (hahead i e hi hdead).resolve_left (Nat.not_lt_zero _)
  have hnodup : (t.expiredAt now).Nodup := ht.searchable.nodup_entries.filter _
  have hle := (List.subperm_of_subset hnodup hsub).length_le
  have htotal := ht.expired_length hs hexp
  omega

/-! ## Laps and sweeps -/

/-- What was freed before has no part in it. -/
theorem deleteExpiredLoop_freed (hash : Bytes → UInt64) (now : UInt32) :
    ∀ (r : Nat) (t : ShardIndex) (freed : List Handle),
      (deleteExpiredLoop hash now r t freed).map Prod.snd =
        (deleteExpiredLoop hash now r t []).map Prod.snd
  | 0, _, _ => rfl
  | r + 1, t, freed => by
    have hrest := deleteExpiredLoop_freed hash now r
    unfold deleteExpiredLoop
    simp only
    cases hcell : cell t.slots t.scanCursor with
    | none => exact hrest _ freed
    | some e =>
      dsimp only
      split
      · cases ShardIndex.deleteAt hash { t with scanCursor := (t.scanCursor + 1) &&& t.mask }
          t.scanCursor with
        | none => rfl
        | some u => exact (hrest u _).trans (hrest u _).symm
      · exact hrest _ freed

/-- The table after `r` rounds. -/
def rounds (hash : Bytes → UInt64) (now : UInt32) (r : Nat) (s : ShardIndex) : Option ShardIndex :=
  (deleteExpiredLoop hash now r s []).map Prod.snd

theorem rounds_add (hash : Bytes → UInt64) (now : UInt32) (a b : Nat) (s : ShardIndex) :
    rounds hash now (a + b) s = (rounds hash now a s).bind (rounds hash now b) := by
  rw [rounds, deleteExpiredLoop_add, rounds]
  cases deleteExpiredLoop hash now a s [] with
  | none => rfl
  | some out => exact deleteExpiredLoop_freed hash now b out.2 out.1

theorem rounds_spec (h : s.Searchable hash) (now : UInt32) (r : Nat) :
    ∃ es t, rounds hash now r s = some t ∧ Taken hash s es t ∧ ∀ e ∈ es, e.expired now = true := by
  obtain ⟨es, t, hloop, ht, hexp⟩ := deleteExpiredLoop_spec now r (Taken.refl h) (by simp)
  refine ⟨es, t, ?_, ht, hexp⟩
  have hstart : deleteExpiredLoop hash now r s [] = some (es.map Entry.handle, t) := hloop
  rw [rounds, hstart, Option.map_some]

theorem expired_rounds_le (h : s.Searchable hash) {r : Nat} (hr : rounds hash now r s = some t) :
    (t.expiredAt now).length ≤ (s.expiredAt now).length := by
  obtain ⟨es, t', ht', ht, hexp⟩ := rounds_spec h now r
  obtain rfl := Option.some.inj (hr.symm.trans ht')
  have htotal := ht.expired_length h hexp
  omega

/-- Each of `k` laps leaves at most half of what it finds. -/
theorem laps_halve : ∀ (k : Nat) {s t : ShardIndex}, s.Searchable hash →
    s.scanCursor < s.slots.length → rounds hash now (k * s.slots.length) s = some t →
    2 ^ k * (t.expiredAt now).length ≤ (s.expiredAt now).length
  | 0, s, t, _, _, hr => by
    rw [Nat.zero_mul] at hr
    cases hr
    rw [Nat.pow_zero, Nat.one_mul]
  | k + 1, s, t, h, hcursor, hr => by
    rw [Nat.add_mul, Nat.one_mul, Nat.add_comm, rounds_add] at hr
    obtain ⟨u, hu, hr⟩ := Option.bind_eq_some_iff.mp hr
    obtain ⟨es, u', hu', hut, _⟩ := rounds_spec h now s.slots.length
    obtain rfl := Option.some.inj (hu.symm.trans hu')
    obtain ⟨⟨freed, u₁⟩, hloop, rfl⟩ := Option.map_eq_some_iff.mp hu
    have hlap : Lap hash now s 0 u₁ := by
      refine Lap.loop s.slots.length 0 ?_ hloop
      rw [Nat.zero_add]
      exact Lap.start h hcursor
    rw [← hut.length] at hr
    have hrest := laps_halve k hut.searchable hlap.cursor hr
    have hhalf := hlap.halves h
    calc 2 ^ (k + 1) * (t.expiredAt now).length
        = 2 * (2 ^ k * (t.expiredAt now).length) := by rw [Nat.pow_succ]; ring
      _ ≤ 2 * (u₁.expiredAt now).length := Nat.mul_le_mul_left 2 hrest
      _ ≤ (s.expiredAt now).length := hhalf

theorem cursor_round (hu : rounds hash now 1 s = some u) :
    u.scanCursor = (s.scanCursor + 1) &&& s.mask := by
  obtain ⟨⟨freed, u'⟩, hloop, rfl⟩ := Option.map_eq_some_iff.mp hu
  simp only [deleteExpiredLoop] at hloop
  split at hloop
  · cases hloop
    rfl
  · split at hloop
    · obtain ⟨v, hdel, hloop⟩ := Option.bind_eq_some_iff.mp hloop
      cases hloop
      obtain ⟨slots, _, rfl⟩ := Option.map_eq_some_iff.mp hdel
      rfl
    · cases hloop
      rfl

/-- One round more puts the cursor into the table, wherever it was. -/
theorem rounds_halve {k r : Nat} (h : s.Searchable hash) (hr : k * s.slots.length < r)
    (ht : rounds hash now r s = some t) :
    2 ^ k * (t.expiredAt now).length ≤ (s.expiredAt now).length := by
  have hsplit : r = 1 + (k * s.slots.length + (r - (k * s.slots.length + 1))) := by omega
  rw [hsplit, rounds_add] at ht
  obtain ⟨u, hu, ht⟩ := Option.bind_eq_some_iff.mp ht
  rw [rounds_add] at ht
  obtain ⟨v, hv, ht⟩ := Option.bind_eq_some_iff.mp ht
  obtain ⟨es, u', hu', hut, _⟩ := rounds_spec h now 1
  obtain rfl := Option.some.inj (hu.symm.trans hu')
  have hcursor : u.scanCursor < u.slots.length := by
    rw [cursor_round hu, hut.length]
    exact h.probing.masked.and_lt _
  rw [← hut.length] at hv
  obtain ⟨_, v', hv', hvt, _⟩ := rounds_spec hut.searchable now (k * u.slots.length)
  obtain rfl := Option.some.inj (hv.symm.trans hv')
  calc 2 ^ k * (t.expiredAt now).length
      ≤ 2 ^ k * (v.expiredAt now).length :=
        Nat.mul_le_mul_left _ (expired_rounds_le hvt.searchable ht)
    _ ≤ (u.expiredAt now).length := laps_halve k hut.searchable hcursor hv
    _ ≤ (s.expiredAt now).length := expired_rounds_le h hu

end ShardIndex

namespace ShardCache

variable {H : Hashes} {s s' : ShardCache} {now : UInt32} {limit : Int}

/-- Sweeps of `r` slots together: what has not expired stays, and the table has gone through `r`
rounds unless it is empty. -/
structure Cleaned (H : Hashes) (now : UInt32) (r : Nat) (s s' : ShardCache) : Prop where
  safe : Safe H s'
  count : s'.idx.count ≤ s.idx.count
  live : ∀ key e, ¬ e.expired now = true →
    (s'.idx.lookup key = some e ↔ s.idx.lookup key = some e)
  rounds : s'.idx.count = 0 ∨ ShardIndex.rounds H.hashKey now r s.idx = some s'.idx

theorem Safe.sweep (h : Safe H s) (now : UInt32) (hlimit : 0 < limit) :
    ∃ s', s.deleteExpired H now limit = some s' ∧ Cleaned H now limit.toNat s s' := by
  obtain ⟨es, s', hdel, hprog, her, hexp⟩ := h.deleteExpired now limit
  have hcount := her.removed.count
  refine ⟨s', hdel, hprog.safe, by omega, fun key e hlive => ?_, ?_⟩
  · rw [her.removed.lookup]
    by_cases hkey : key ∈ es.map Entry.key
    · obtain ⟨e', he', rfl⟩ := List.mem_map.mp hkey
      have hfound := her.removed.found e' he'
      refine iff_of_false (by rw [if_pos hkey]; exact nofun) fun hold => ?_
      obtain rfl := Option.some.inj (hfound.symm.trans hold)
      exact hlive (hexp _ he')
    · rw [if_neg hkey]
  · by_cases hzero : s.idx.count = 0
    · exact .inl (by omega)
    · right
      obtain ⟨⟨freed, idx⟩, hidx, hrest⟩ := Option.bind_eq_some_iff.mp hdel
      cases hrest
      rw [ShardIndex.deleteExpired, if_neg (by omega)] at hidx
      rw [ShardIndex.rounds, hidx, Option.map_some]

theorem Cleaned.trans {a b : Nat} {t : ShardCache} (h : Cleaned H now a s t) (h' : Cleaned H now b t s') :
    Cleaned H now (a + b) s s' := by
  have hcount := h.count
  have hcount' := h'.count
  refine ⟨h'.safe, by omega, fun key e hlive => (h'.live key e hlive).trans (h.live key e hlive), ?_⟩
  rcases h.rounds with hzero | hrounds
  · exact .inl (by omega)
  · rw [ShardIndex.rounds_add, hrounds]
    exact h'.rounds

theorem Safe.sweeps (now : UInt32) (hlimit : 0 < limit) : ∀ (n : Nat) {s : ShardCache}, Safe H s →
    ∃ s', run (fun s now => s.deleteExpired H now limit) s (List.replicate n now) = some s' ∧
      Cleaned H now (n * limit.toNat) s s'
  | 0, s, h => ⟨s, rfl, h, Nat.le_refl _, fun _ _ _ => Iff.rfl,
      .inr (by rw [Nat.zero_mul]; rfl)⟩
  | n + 1, s, h => by
    obtain ⟨t, hfirst, ht⟩ := h.sweep now hlimit
    obtain ⟨s', hrun, hs'⟩ := Safe.sweeps now hlimit n ht.safe
    refine ⟨s', ?_, ?_⟩
    · rw [List.replicate_succ, run, hfirst]
      exact hrun
    · rw [Nat.add_mul, Nat.one_mul, Nat.add_comm]
      exact ht.trans hs'

/-- **The clean-up gets to everything that has expired.**  In every state that a shard can get into:
`n` sweeps of `limit` slots each, together more than `k` laps of the table, leave at most one in
`2 ^ k` of the expired entries, so all are gone after a few laps; and everything that has not
expired stays as it was. -/
theorem expired_reclaimed (H : Hashes) {s : ShardCache} (hs : Reachable H s) (now : UInt32)
    {limit : Int} (hlimit : 0 < limit) {n k : Nat}
    (hlaps : k * s.idx.slots.length < n * limit.toNat) :
    ∃ s', run (fun s now => s.deleteExpired H now limit) s (List.replicate n now) = some s' ∧
      2 ^ k * (s'.idx.expiredAt now).length ≤ (s.idx.expiredAt now).length ∧
      ∀ key e, ¬ e.expired now = true →
        (s'.idx.lookup key = some e ↔ s.idx.lookup key = some e) := by
  obtain ⟨s', hrun, hcleaned⟩ := Safe.sweeps now hlimit n hs.safe
  refine ⟨s', hrun, ?_, hcleaned.live⟩
  rcases hcleaned.rounds with hzero | hrounds
  · rw [ShardIndex.expiredAt_of_empty hcleaned.safe.idx.searchable hzero]
    exact Nat.zero_le _
  · exact ShardIndex.rounds_halve hs.safe.idx.searchable hlaps hrounds

/-- Two keys of one bucket with an expiry, and one without. -/
def collidingSets : List AnyCall :=
  [(⟨0, none, true⟩, .inl (.set [97] [1] 1)), (⟨0, none, true⟩, .inl (.set [33] [2] 1)),
    (⟨0, none, true⟩, .inl (.set [98] [3] 0))]

/-- Of the two that have expired one is drawn into the slot that the cursor has left; two sweeps of
a hundred slots are three laps of the table, and both are gone. -/
theorem expired_reclaimed_colliding :
    ∃ s s' : ShardCache, stateAfter 1024 40 collidingSets = some s ∧
      (s.idx.expiredAt 5).length = 2 ∧
      run (fun s now => s.deleteExpired Hashes.source now 100) s [5, 5] = some s' ∧
      s'.idx.expiredAt 5 = [] ∧ s'.idx.lookup [98] = s.idx.lookup [98] := by
  obtain ⟨s, hs, hexp, hlen, e, he, hlive⟩ : ∃ s : ShardCache,
      stateAfter 1024 40 collidingSets = some s ∧ (s.idx.expiredAt 5).length = 2 ∧
      s.idx.slots.length = 64 ∧ ∃ e, s.idx.lookup [98] = some e ∧ ¬ e.expired 5 := by
    decide +kernel
  obtain ⟨s', hrun, hfew, hkeep⟩ := expired_reclaimed Hashes.source (reachable_stateAfter hs) 5
    (show (0 : Int) < 100 by decide) (n := 2) (k := 3) (by rw [hlen]; decide)
  refine ⟨s, s', hs, hexp, hrun, List.length_eq_zero_iff.mp (by omega), ?_⟩
  rw [he]
  exact (hkeep [98] e hlive).mpr he

end ShardCache

end Horreum.Transport
