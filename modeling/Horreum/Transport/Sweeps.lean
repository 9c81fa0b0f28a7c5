/-
  Transport/Sweeps.lean --- the two passes over the key index that delete as they look,
  `deletePrefix` and `DeleteExpired`.

  A deletion draws the next entry that may stand there into the slot it clears.  `deletePrefix` looks at
  the slot again; `DeleteExpired` has moved on, and a lap can leave an expired entry.  `sweepsClean` says
  of a table, without running the lap, whether that happens.
-/
import Horreum.Foundation.ProbingOrder
import Horreum.Foundation.Runs
import Horreum.Transport.ShardIndex

set_option autoImplicit false

namespace Horreum.Transport

open Foundation
open Foundation.Probing
open Arena (Handle)

namespace ShardIndex

variable {hash : Bytes → UInt64} {s t : ShardIndex} {es : List Entry} {e : Entry}

theorem Searchable.mem_entries_iff (h : s.Searchable hash) :
    e ∈ entries s.slots ↔ s.lookup e.key = some e := by
  rw [mem_entries]
  constructor
  · rintro ⟨i, hi⟩
    exact h.lookup_of_cell hi
  · intro hl
    exact (h.probing.lookup_eq_some.mp hl).1

theorem Taken.mem_keys_iff (ht : Taken hash s es t) (h : s.Searchable hash)
    (he : e ∈ entries s.slots) : e.key ∈ es.map Entry.key ↔ e ∈ es := by
  constructor
  · intro hmem
    obtain ⟨e', he', hkey⟩ := List.mem_map.mp hmem
    have hfound := ht.found e' he'
    rw [hkey, h.mem_entries_iff.mp he, Option.some_inj] at hfound
    exact hfound ▸ he'
  · exact List.mem_map_of_mem

theorem Taken.mem_entries (ht : Taken hash s es t) (h : s.Searchable hash) :
    e ∈ entries t.slots ↔ e ∈ entries s.slots ∧ e ∉ es := by
  rw [ht.searchable.mem_entries_iff, ht.lookup]
  by_cases he : e ∈ entries s.slots
  · have hkeys := ht.mem_keys_iff h he
    have hl := h.mem_entries_iff.mp he
    by_cases hes : e ∈ es
    · simp [hkeys.mpr hes, hes]
    · rw [if_neg (fun hk => hes (hkeys.mp hk)), hl]
      simp [he, hes]
  · have hl : s.lookup e.key ≠ some e := fun hl => he (h.mem_entries_iff.mpr hl)
    simp [he, hl]

/-- The entries taken out are those of a kind when they are of it and none of it is left. -/
theorem Taken.mem_iff (ht : Taken hash s es t) (h : s.Searchable hash) {pick : Entry → Prop}
    (hpick : ∀ e ∈ es, pick e) (hleft : ∀ e ∈ entries t.slots, ¬ pick e) (e : Entry) :
    e ∈ es ↔ e ∈ entries s.slots ∧ pick e := by
  constructor
  · intro he
    exact ⟨h.mem_entries_iff.mpr (ht.found e he), hpick e he⟩
  · rintro ⟨hin, hp⟩
    by_contra hes
    exact hleft e ((ht.mem_entries h).mpr ⟨hin, hes⟩) hp

theorem Taken.get (ht : Taken hash s es t) (h : s.Searchable hash) {k : Bytes}
    (hk : k ∉ es.map Entry.key) (now : UInt32) : t.get hash k now = s.get hash k now := by
  rw [ht.searchable.get, h.get, ht.lookup, if_neg hk]

/-- A new index after these `put` calls. -/
def holding (hash : Bytes → UInt64) (es : List Entry) : Option ShardIndex :=
  run (fun s e => (s.put hash e.key e.handle e.expiresAt).map Prod.snd) newShardIndex es

theorem wf_holding (h : holding hash es = some s) : s.Wf hash := by
  refine run_keeps (Wf hash) (fun s e t hs hput => ?_) es newShardIndex s wf_new h
  obtain ⟨t', hput', hwf, _⟩ := hs.put e.key e.handle e.expiresAt
  rw [hput'] at hput
  cases hput
  exact hwf

/-! ## Deleting a prefix -/

/-- `deletePrefix` ends, removes the entries whose keys have the prefix and no others, returns
their handles and keys, each pair once, and leaves every other search as it was. -/
theorem deletePrefix_exact (h : s.Searchable hash) (pre : Bytes) :
    ∃ (es : List Entry) (t : ShardIndex),
      s.deletePrefix hash pre = some (es.map Entry.handle, es.map Entry.key, t) ∧
      (es.map Entry.key).Nodup ∧ (∀ e, e ∈ es ↔ e ∈ entries s.slots ∧ pre <+: e.key) ∧
      (∀ e, e ∈ entries t.slots ↔ e ∈ entries s.slots ∧ ¬ pre <+: e.key) ∧
      (∀ k now, ¬ pre <+: k → t.get hash k now = s.get hash k now) ∧ t.Searchable hash := by
  obtain ⟨es, t, hdel, ht, hpre, hnone⟩ := h.deletePrefix pre
  have hleft : ∀ e ∈ entries t.slots, ¬ pre <+: e.key := by
    intro e he hp
    rw [ht.searchable.mem_entries_iff, hnone e.key hp] at he
    cases he
  have hmem := ht.mem_iff h hpre hleft
  refine ⟨es, t, hdel, ht.nodup, hmem, fun e => ?_, fun k now hk => ?_, ht.searchable⟩
  · rw [ht.mem_entries h, hmem]
    exact and_congr_right fun hin => not_congr (and_iff_right hin)
  · refine ht.get h (fun hin => hk ?_) now
    obtain ⟨e, he, rfl⟩ := List.mem_map.mp hin
    exact hpre e he

/-- Two keys start with `97`; the one that does not is drawn into the slot of the first. -/
theorem deletePrefix_exact_pair :
    ∃ (s : ShardIndex) (es : List Entry) (t : ShardIndex), holding hashKey
        [⟨[97], ⟨0, 1, 0, 0⟩, 0⟩, ⟨[33], ⟨8, 1, 0, 0⟩, 0⟩,
        ⟨[97, 1], ⟨16, 1, 0, 0⟩, 0⟩] = some s ∧
      s.deletePrefix hashKey [97] = some (es.map Entry.handle, es.map Entry.key, t) ∧
      (⟨[97], ⟨0, 1, 0, 0⟩, 0⟩ : Entry) ∈ es ∧ (⟨[97, 1], ⟨16, 1, 0, 0⟩, 0⟩ : Entry) ∈ es ∧
      t.get hashKey [33] 5 = some (some (⟨8, 1, 0, 0⟩, 0)) := by
  obtain ⟨s, hs, hfirst, hlast, hget⟩ : ∃ s : ShardIndex, holding hashKey
        [⟨[97], ⟨0, 1, 0, 0⟩, 0⟩, ⟨[33], ⟨8, 1, 0, 0⟩, 0⟩,
        ⟨[97, 1], ⟨16, 1, 0, 0⟩, 0⟩] = some s ∧
      (⟨[97], ⟨0, 1, 0, 0⟩, 0⟩ : Entry) ∈ entries s.slots ∧
      (⟨[97, 1], ⟨16, 1, 0, 0⟩, 0⟩ : Entry) ∈ entries s.slots ∧
      s.get hashKey [33] 5 = some (some (⟨8, 1, 0, 0⟩, 0)) := by
    decide +kernel
  obtain ⟨es, t, hdel, _, hmem, _, hother, _⟩ :=
    deletePrefix_exact (wf_holding hs).searchable [97]
  exact ⟨s, es, t, hs, hdel, (hmem _).mpr ⟨hfirst, by decide⟩, (hmem _).mpr ⟨hlast, by decide⟩,
    (hother [33] 5 (by decide)).trans hget⟩

/-! ## A lap of the cleaner -/

/-- The slots from `start` on, around the table. -/
def slotsFrom (s : ShardIndex) (start len : Nat) : List Nat :=
  (List.range len).map fun d => (start + d) &&& s.mask

/-- The expired entries in the order of their slots from `start` on. -/
def expiredFrom (s : ShardIndex) (now : UInt32) (start : Nat) : List Entry :=
  (s.slotsFrom start s.slots.length).filterMap fun i =>
    (cell s.slots i).filter fun e => e.expired now

/-- Delete the entries in turn, each if it then stands in one of the slots and none was deleted
from that slot yet.  Returns those that are left. -/
def weed (hash : Bytes → UInt64) : List Entry → (within : List Nat) → ShardIndex →
    Option (List Entry × ShardIndex)
  | [], _, s => some ([], s)
  | e :: es, within, s => do
    let i ← s.find hash e.key
    if within.contains i then
      let (_, s) ← s.delete hash e.key
      weed hash es (within.filter (· != i)) s
    else
      let (left, s) ← weed hash es within s
      some (e :: left, s)

/-- `z` is a free slot.  Behind it come the slots in front of the cursor and then those from the
cursor on.  Of the expired entries in this order, those from the cursor on are deleted first, one
from each slot, and of what is left then those in front of it: nothing is left. -/
def sweepsClean (hash : Bytes → UInt64) (s : ShardIndex) (now : UInt32) (z : Nat) : Bool :=
  let start := next s.mask z
  let front := dist s.slots.length start s.scanCursor
  let behind := s.slotsFrom s.scanCursor (s.slots.length - front)
  match weed hash (s.expiredFrom now start) behind s with
  | none => false
  | some (left, t) =>
    (weed hash left (s.slotsFrom start front) t).any fun out => out.1.isEmpty

/-- Complete and sound: the expired entries are removed and their handles returned, and all
others are found as before. -/
def SweepsAll (hash : Bytes → UInt64) (s : ShardIndex) (now : UInt32) (limit : Int) : Prop :=
  ∃ (es : List Entry) (t : ShardIndex),
    s.deleteExpired hash now limit = some (es.map Entry.handle, t) ∧
    (es.map Entry.key).Nodup ∧ (∀ e, e ∈ es ↔ e ∈ entries s.slots ∧ e.expired now = true) ∧
    (∀ e, e ∈ entries t.slots ↔ e ∈ entries s.slots ∧ ¬ e.expired now = true) ∧
    ∀ e ∈ entries s.slots, ¬ e.expired now = true →
      t.get hash e.key now = some (some (e.handle, e.expiresAt))

section Line

variable {rank : Entry → Nat} {z i start : Nat} {e : Entry} {now : UInt32}

/-- `t` has as many slots as `s`, `z` is free in it, and its entries stand in the order of their
ranks. -/
structure InLine (hash : Bytes → UInt64) (rank : Entry → Nat) (s : ShardIndex) (z : Nat)
    (t : ShardIndex) : Prop where
  searchable : t.Searchable hash
  ordered : Ordered Entry.key (fun k => (hash k).toNat) s.mask rank t.slots
  ranked : ∀ e ∈ entries t.slots, ∀ e' ∈ entries t.slots, rank e = rank e' → e = e'
  length : t.slots.length = s.slots.length
  mask : t.mask = s.mask
  last_lt : z < s.slots.length
  free : cell t.slots z = none

/-- The slot where the search for a key starts. -/
def home (hash : Bytes → UInt64) (s : ShardIndex) (e : Entry) : Nat := (hash e.key).toNat &&& s.mask

namespace InLine

theorem masked (h : InLine hash rank s z t) : Masked s.slots.length s.mask := by
  rw [← h.length, ← h.mask]
  exact h.searchable.probing.masked

theorem start_lt (h : InLine hash rank s z t) : next s.mask z < s.slots.length :=
  h.masked.next_lt h.last_lt

theorem scanCursor (h : InLine hash rank s z t) (cursor : Nat) :
    InLine hash rank s z { t with scanCursor := cursor } :=
  ⟨⟨h.searchable.probing, h.searchable.count_eq, h.searchable.spare⟩, h.ordered, h.ranked,
    h.length, h.mask, h.last_lt, h.free⟩

theorem lined (h : InLine hash rank s z t) :
    Lined (home hash s) rank s.slots.length (next s.mask z) t.slots := by
  have hz := h.last_lt
  have hstart := h.start_lt
  have hlast := h.masked.dist_next_self hz
  have hprobing := h.searchable.probing
  rw [h.mask] at hprobing
  rw [← h.length] at hz hstart hlast ⊢
  exact hprobing.lined h.ordered hstart hz hlast h.free

theorem deleteAt (h : InLine hash rank s z t) (hi : cell t.slots i = some e) :
    ∃ t', t.deleteAt hash i = some t' ∧ InLine hash rank s z t' ∧ t'.scanCursor = t.scanCursor ∧
      ∀ e', e' ∈ entries t'.slots ↔ e' ∈ entries t.slots ∧ e' ≠ e := by
  have hordered := h.ordered
  rw [← h.mask] at hordered
  obtain ⟨out, hout, _, hzfree, hord⟩ := h.searchable.probing.closed_of_spare
    (fun e : Entry => (hash e.key).toNat &&& t.mask) hi (fun _ _ _ => rfl)
    (by rw [h.length]; exact h.last_lt) h.free
  obtain ⟨t', hdel, hsearch, hlen, hlook, _⟩ := h.searchable.deleteAt hi
  have ht' : t' = { t with slots := out, count := t.count - 1 } := by
    simpa [ShardIndex.deleteAt, hout] using hdel.symm
  have hmem : ∀ e', e' ∈ entries t'.slots ↔ e' ∈ entries t.slots ∧ e' ≠ e := by
    intro e'
    rw [hsearch.mem_entries_iff, h.searchable.mem_entries_iff, hlook, Function.update_apply]
    by_cases hkey : e'.key = e.key
    · rw [if_pos hkey, hkey, h.searchable.lookup_of_cell hi]
      simp [eq_comm]
    · have hne : e' ≠ e := fun heq => hkey (congrArg Entry.key heq)
      simp [hkey, hne]
  refine ⟨t', hdel, ⟨hsearch, ?_, fun a ha b hb => ?_, hlen.trans h.length, ?_, h.last_lt, ?_⟩,
    by rw [ht'], hmem⟩
  · rw [ht', ← h.mask]
    exact hord rank hordered
  · exact h.ranked a ((hmem a).mp ha).1 b ((hmem b).mp hb).1
  · rw [ht']
    exact h.mask
  · rw [ht']
    exact hzfree

theorem find (h : InLine hash rank s z t) (he : e ∈ entries t.slots) :
    ∃ i, t.find hash e.key = some i ∧ cell t.slots i = some e := by
  obtain ⟨i, hi, hcell, _⟩ := h.searchable.find e.key
  exact ⟨i, hi, hcell.trans (h.searchable.mem_entries_iff.mp he)⟩

theorem delete (h : InLine hash rank s z t) (hfind : t.find hash e.key = some i)
    (hi : cell t.slots i = some e) :
    ∃ t', t.delete hash e.key = some (some e.handle, t') ∧ InLine hash rank s z t' ∧
      ∀ e', e' ∈ entries t'.slots ↔ e' ∈ entries t.slots ∧ e' ≠ e := by
  obtain ⟨t', hdel, hline, _, hmem⟩ := h.deleteAt hi
  have hcount : t.count ≠ 0 := by
    intro hzero
    have hnone := h.searchable.lookup_of_count_zero hzero e.key
    rw [h.searchable.lookup_of_cell hi] at hnone
    cases hnone
  refine ⟨t', ?_, hline, hmem⟩
  unfold ShardIndex.delete
  simp [if_neg hcount, hfind, hi, hdel]

/-- The entries are weeded out one after another, and those left are listed. -/
theorem weed : ∀ (es : List Entry) (within : List Nat) {t : ShardIndex},
    InLine hash rank s z t → (∀ e ∈ es, e ∈ entries t.slots) →
      es.Pairwise (fun a b => rank a < rank b) →
      ∃ left t', ShardIndex.weed hash es within t = some (left, t') ∧ InLine hash rank s z t' ∧
        Weeded (home hash s) rank s.slots.length (next s.mask z) (· ∈ es) (· ∈ within)
          t.slots t'.slots ∧
        left.Sublist es ∧ ∀ e, e ∈ left ↔ e ∈ es ∧ e ∈ entries t'.slots := by
  intro es
  induction es with
  | nil =>
    intro within t h _ _
    exact ⟨[], t, rfl, h, Weeded.nil h.lined h.ranked, List.Sublist.refl _, by simp⟩
  | cons w es ih =>
    intro within t h hes hsorted
    obtain ⟨hrank, hsorted⟩ := List.pairwise_cons.mp hsorted
    obtain ⟨i, hfind, hi⟩ := h.find (hes w List.mem_cons_self)
    by_cases hin : i ∈ within
    · obtain ⟨t₁, hdel, hline, hmem⟩ := h.delete hfind hi
      have hes' : ∀ e ∈ es, e ∈ entries t₁.slots := by
        intro e he
        refine (hmem e).mpr ⟨hes e (List.mem_cons_of_mem _ he), ?_⟩
        rintro rfl
        exact Nat.lt_irrefl _ (hrank e he)
      obtain ⟨left, t', hweed, hline', hw, hsubl, hleft⟩ :=
        ih (within.filter (· != i)) hline hes' hsorted
      have hw' : Weeded (home hash s) rank s.slots.length (next s.mask z) (· ∈ es)
          (fun j => j ∈ within ∧ j ≠ i) t₁.slots t'.slots := by
        simpa using hw
      have hwhole := Weeded.remove h.lined h.ranked hi hrank hin hmem hw'
      refine ⟨left, t', by simp [ShardIndex.weed, hfind, hin, hdel, hweed], hline', hwhole,
        hsubl.cons w, fun e => ?_⟩
      rw [hleft, List.mem_cons]
      have hgone : w ∉ entries t'.slots := fun hw₁ => ((hmem w).mp (hw.sub w hw₁)).2 rfl
      constructor
      · exact fun he => ⟨.inr he.1, he.2⟩
      · rintro ⟨rfl | he, hin'⟩
        · exact absurd hin' hgone
        · exact ⟨he, hin'⟩
    · obtain ⟨left, t', hweed, hline', hw, hsubl, hleft⟩ := ih within h
        (fun e he => hes e (List.mem_cons_of_mem _ he)) hsorted
      have hstay : w ∈ entries t'.slots := by
        by_contra hgone
        exact Nat.lt_irrefl _ (hrank w (hw.picked w (hes w List.mem_cons_self) hgone))
      refine ⟨w :: left, t', by simp [ShardIndex.weed, hfind, hin, hweed], hline',
        Weeded.keep hi hrank hin hw, hsubl.cons_cons w, fun e => ?_⟩
      rw [List.mem_cons, List.mem_cons, hleft]
      constructor
      · rintro (rfl | he)
        · exact ⟨.inl rfl, hstay⟩
        · exact ⟨.inr he.1, he.2⟩
      · rintro ⟨rfl | he, hin'⟩
        · exact .inl rfl
        · exact .inr ⟨he, hin'⟩

/-- A stretch of the cleaner's lap, over the positions from `r` on: it removes what weeding out
removes, since an entry drawn into the slot under the cursor stays in both. -/
theorem sweep {es : List Entry} {within : List Nat} {slots slots' : List (Option Entry)}
    (hw : Weeded (home hash s) rank s.slots.length (next s.mask z) (· ∈ es) (· ∈ within)
      slots slots')
    (hexp : ∀ e ∈ entries slots, e.expired now = true ↔ e ∈ es) :
    ∀ (m r : Nat) {t : ShardIndex} (freed : List Handle), InLine hash rank s z t →
      Swept (home hash s) rank s.slots.length (next s.mask z) slots slots' r t.slots →
      t.scanCursor = (next s.mask z + r) &&& s.mask → r + m ≤ s.slots.length →
      (∀ i, i < s.slots.length → r ≤ dist s.slots.length (next s.mask z) i →
        dist s.slots.length (next s.mask z) i < r + m → i ∈ within) →
      ∃ freed' t', deleteExpiredLoop hash now m t freed = some (freed', t') ∧
        InLine hash rank s z t' ∧
        Swept (home hash s) rank s.slots.length (next s.mask z) slots slots' (r + m) t'.slots ∧
        t'.scanCursor = (next s.mask z + (r + m)) &&& s.mask := by
  intro m
  induction m with
  | zero =>
    intro r t freed h hs hcursor _ _
    exact ⟨freed, t, rfl, h, hs, hcursor⟩
  | succ m ih =>
    intro r t freed h hs hcursor hle hrange
    have hmod := fun x => h.masked.and_eq_mod x
    have hpos : dist s.slots.length (next s.mask z) t.scanCursor = r := by
      rw [hcursor, hmod]
      exact dist_add_mod h.start_lt (by omega)
    have hlt : t.scanCursor < s.slots.length := by
      rw [hcursor]
      exact h.masked.and_lt _
    have hnext : (t.scanCursor + 1) &&& t.mask = (next s.mask z + (r + 1)) &&& s.mask := by
      rw [h.mask, hcursor, hmod, hmod, hmod, Nat.mod_add_mod, Nat.add_assoc]
    have hrange' : ∀ i, i < s.slots.length → r + 1 ≤ dist s.slots.length (next s.mask z) i →
        dist s.slots.length (next s.mask z) i < r + 1 + m → i ∈ within :=
      fun i hi hge hlt' => hrange i hi (by omega) (by omega)
    have hc := h.scanCursor ((t.scanCursor + 1) &&& t.mask)
    rw [show r + (m + 1) = r + 1 + m by omega]
    unfold deleteExpiredLoop
    simp only
    cases hcell : cell t.slots t.scanCursor with
    | none =>
      have hkeep := hs.keep hlt hpos fun e he => by rw [hcell] at he; cases he
      exact ih (r + 1) freed hc hkeep hnext (by omega) hrange'
    | some e =>
      have hin := ((hs.stored e).mp (Probing.mem_entries.mpr ⟨_, hcell⟩)).1
      simp only
      split
      · rename_i hdead
        obtain ⟨t', hdel, hline, hcur, hmem⟩ := hc.deleteAt hcell
        have hrem := Swept.remove hw hs hcell hpos ((hexp e hin).mp hdead)
          (hrange _ hlt (by omega) (by omega)) hline.lined hmem
        rw [hdel]
        exact ih (r + 1) _ hline hrem (hcur.trans hnext) (by omega) hrange'
      · rename_i hlive
        have hstay : e ∈ entries slots' := by
          by_contra hgone
          exact hlive ((hexp e hin).mpr (hw.picked e hin hgone))
        have hkeep := hs.keep hlt hpos fun e' he' => by
          cases hcell.symm.trans he'
          exact hstay
        exact ih (r + 1) freed hc hkeep hnext (by omega) hrange'

end InLine

/-- One table to be weeded out and one to be swept, with the same entries, and the expired ones
among them in the order of their ranks. -/
structure Abreast (hash : Bytes → UInt64) (rank : Entry → Nat) (s : ShardIndex) (z : Nat)
    (now : UInt32) (es : List Entry) (u t : ShardIndex) : Prop where
  weeded : InLine hash rank s z u
  swept : InLine hash rank s z t
  same : ∀ e, e ∈ entries t.slots ↔ e ∈ entries u.slots
  sorted : es.Pairwise fun a b => rank a < rank b
  listed : ∀ e, e ∈ es ↔ e ∈ entries u.slots ∧ e.expired now = true

/-- They stay so over a stretch of slots. -/
theorem Abreast.stretch {u : ShardIndex} (h : Abreast hash rank s z now es u t) {r m : Nat}
    {within : List Nat} (hle : r + m ≤ s.slots.length)
    (hwithin : ∀ i, i ∈ within ↔ i < s.slots.length ∧
      r ≤ dist s.slots.length (next s.mask z) i ∧ dist s.slots.length (next s.mask z) i < r + m)
    (hcursor : t.scanCursor = (next s.mask z + r) &&& s.mask) (freed : List Handle) :
    ∃ left u' freed' t', weed hash es within u = some (left, u') ∧
      deleteExpiredLoop hash now m t freed = some (freed', t') ∧
      Abreast hash rank s z now left u' t' ∧
      t'.scanCursor = (next s.mask z + (r + m)) &&& s.mask := by
  obtain ⟨left, u', hweed, hu', hw, hsub, hleft⟩ := h.weeded.weed es within
    (fun e he => ((h.listed e).mp he).1) h.sorted
  have hexp : ∀ e ∈ entries u.slots, e.expired now = true ↔ e ∈ es := fun e he => by
    rw [h.listed]
    exact (and_iff_right he).symm
  have hstart := Swept.start hw h.swept.lined h.same fun i hi => ((hwithin i).mp hi).2.1
  obtain ⟨freed', t', hloop, ht', hswept, hcursor'⟩ := InLine.sweep hw hexp m r freed h.swept
    hstart hcursor hle fun i hi hge hlt => (hwithin i).mpr ⟨hi, hge, hlt⟩
  have hsame := Swept.entries_iff hw hswept fun i hi => ((hwithin i).mp hi).2.2
  refine ⟨left, u', freed', t', hweed, hloop, ⟨hu', ht', hsame,
    h.sorted.sublist hsub, fun e => ?_⟩, hcursor'⟩
  rw [hleft, and_comm]
  exact and_congr_right fun he => (hexp e (hw.sub e he)).symm

theorem rank_inj (hstart : start < s.slots.length)
    (hrank : ∀ i e, cell s.slots i = some e → rank e = dist s.slots.length start i) :
    ∀ e ∈ entries s.slots, ∀ e' ∈ entries s.slots, rank e = rank e' → e = e' := by
  intro e he e' he' heq
  obtain ⟨i, hi⟩ := Probing.mem_entries.mp he
  obtain ⟨j, hj⟩ := Probing.mem_entries.mp he'
  rw [hrank i e hi, hrank j e' hj] at heq
  obtain rfl := dist_inj hstart (lt_of_cell_eq_some hi) (lt_of_cell_eq_some hj) heq
  exact Option.some_inj.mp (hi.symm.trans hj)

/-- A table with a free slot is in line behind it, ranked by the positions. -/
theorem Searchable.inLine (h : s.Searchable hash) (hz : z < s.slots.length)
    (hfree : cell s.slots z = none) :
    ∃ rank, InLine hash rank s z s ∧
      ∀ i e, cell s.slots i = some e → rank e = dist s.slots.length (next s.mask z) i := by
  have hstart := h.probing.masked.next_lt hz
  have hlast := h.probing.masked.dist_next_self hz
  obtain ⟨rank, hord, hrank⟩ := h.probing.exists_rank hstart hz hlast hfree
  exact ⟨rank, ⟨h, hord, rank_inj hstart hrank, rfl, rfl, hz, hfree⟩, hrank⟩

/-! ### The slots of a stretch -/

theorem mem_slotsFrom (hm : Masked s.slots.length s.mask) {start len : Nat}
    (hstart : start < s.slots.length) (hlen : len ≤ s.slots.length) :
    i ∈ s.slotsFrom start len ↔ i < s.slots.length ∧ dist s.slots.length start i < len := by
  simp only [slotsFrom, List.mem_map, List.mem_range, hm.and_eq_mod]
  constructor
  · rintro ⟨d, hd, rfl⟩
    exact ⟨Nat.mod_lt _ (by omega), by rw [dist_add_mod hstart (by omega)]; exact hd⟩
  · rintro ⟨hi, hd⟩
    exact ⟨_, hd, add_dist_mod hstart hi⟩

/-- The slots from the cursor up to the end of the line. -/
theorem mem_slotsFrom_cursor (hm : Masked s.slots.length s.mask) (hstart : start < s.slots.length)
    (hcursor : s.scanCursor < s.slots.length) :
    i ∈ s.slotsFrom s.scanCursor (s.slots.length - dist s.slots.length start s.scanCursor) ↔
      i < s.slots.length ∧
        dist s.slots.length start s.scanCursor ≤ dist s.slots.length start i ∧
        dist s.slots.length start i < dist s.slots.length start s.scanCursor +
          (s.slots.length - dist s.slots.length start s.scanCursor) := by
  have hfront := dist_lt hstart hcursor
  rw [mem_slotsFrom hm hcursor (Nat.sub_le _ _)]
  refine and_congr_right fun hi => ⟨fun hlt => ?_, fun hbetween => ?_⟩
  · have := dist_trans hstart hcursor (c := i) (by omega)
    omega
  · have := dist_add hstart hcursor hi hbetween.1
    omega

theorem mem_expiredFrom (hm : Masked s.slots.length s.mask) (now : UInt32)
    (hstart : start < s.slots.length) :
    e ∈ s.expiredFrom now start ↔ e ∈ entries s.slots ∧ e.expired now = true := by
  simp only [expiredFrom, List.mem_filterMap, Option.filter_eq_some_iff, mem_entries]
  constructor
  · rintro ⟨i, _, hi, hexp⟩
    exact ⟨⟨i, hi⟩, hexp⟩
  · rintro ⟨⟨i, hi⟩, hexp⟩
    have hlt := lt_of_cell_eq_some hi
    exact ⟨i, (mem_slotsFrom hm hstart (Nat.le_refl _)).mpr ⟨hlt, dist_lt hstart hlt⟩, hi, hexp⟩

theorem expiredFrom_sorted (hm : Masked s.slots.length s.mask) (now : UInt32)
    (hstart : start < s.slots.length)
    (hrank : ∀ i e, cell s.slots i = some e → rank e = dist s.slots.length start i) :
    (s.expiredFrom now start).Pairwise fun a b => rank a < rank b := by
  rw [expiredFrom, List.pairwise_filterMap, slotsFrom, List.pairwise_map]
  refine List.pairwise_lt_range.imp_of_mem fun {c d} hc hd hlt a ha b hb => ?_
  rw [List.mem_range] at hc hd
  rw [hrank _ a (Option.filter_eq_some_iff.mp ha).1, hrank _ b (Option.filter_eq_some_iff.mp hb).1,
    hm.and_eq_mod, hm.and_eq_mod, dist_add_mod hstart hc, dist_add_mod hstart hd]
  exact hlt

/-! ### The whole lap -/

theorem deleteExpiredLoop_add (hash : Bytes → UInt64) (now : UInt32) :
    ∀ (a b : Nat) (t : ShardIndex) (freed : List Handle),
      deleteExpiredLoop hash now (a + b) t freed =
        (deleteExpiredLoop hash now a t freed).bind fun out =>
          deleteExpiredLoop hash now b out.2 out.1
  | 0, b, t, freed => by
    rw [Nat.zero_add]
    rfl
  | a + 1, b, t, freed => by
    rw [Nat.add_right_comm, deleteExpiredLoop, deleteExpiredLoop]
    simp only
    split
    · exact deleteExpiredLoop_add hash now a b _ freed
    · split
      · rename_i e _ _
        cases ShardIndex.deleteAt hash { t with scanCursor := (t.scanCursor + 1) &&& t.mask }
          t.scanCursor with
        | none => rfl
        | some t' => exact deleteExpiredLoop_add hash now a b t' (freed ++ [e.handle])
      · exact deleteExpiredLoop_add hash now a b _ freed

/-- Where nothing is expired only the cursor moves. -/
theorem deleteExpiredLoop_of_none (hash : Bytes → UInt64) :
    ∀ (limit : Nat) {t : ShardIndex} (freed : List Handle),
      (∀ e ∈ entries t.slots, ¬ e.expired now = true) →
      ∃ cursor, deleteExpiredLoop hash now limit t freed =
        some (freed, { t with scanCursor := cursor })
  | 0, t, freed, _ => ⟨t.scanCursor, rfl⟩
  | limit + 1, t, freed, hnone => by
    obtain ⟨cursor, hrest⟩ := deleteExpiredLoop_of_none hash limit
      (t := { t with scanCursor := (t.scanCursor + 1) &&& t.mask }) freed hnone
    refine ⟨cursor, ?_⟩
    unfold deleteExpiredLoop
    simp only
    cases hcell : cell t.slots t.scanCursor with
    | none => exact hrest
    | some e =>
      simp only [if_neg (hnone e (Probing.mem_entries.mpr ⟨_, hcell⟩))]
      exact hrest

/-- What a lap leaves is what the two rounds of weeding out leave: from the cursor to the free
slot, and from there to the cursor. -/
theorem Searchable.lap (h : s.Searchable hash) (hcursor : s.scanCursor < s.slots.length)
    (now : UInt32) (hz : z < s.slots.length) (hfree : cell s.slots z = none) :
    ∃ freed t, deleteExpiredLoop hash now s.slots.length s [] = some (freed, t) ∧
      (s.sweepsClean hash now z = true ↔ ∀ e ∈ entries t.slots, ¬ e.expired now = true) := by
  obtain ⟨rank, hline, hrank⟩ := h.inLine hz hfree
  have hm := h.probing.masked
  have hstart := hline.start_lt
  have hfront := dist_lt hstart hcursor
  have habreast : Abreast hash rank s z now (s.expiredFrom now (next s.mask z)) s s :=
    ⟨hline, hline, fun _ => Iff.rfl, expiredFrom_sorted hm now hstart hrank,
      fun e => mem_expiredFrom hm now hstart⟩
  obtain ⟨left, u, freed, t, hweed, hloop, habreast, hcur⟩ := habreast.stretch
    (r := dist s.slots.length (next s.mask z) s.scanCursor)
    (m := s.slots.length - dist s.slots.length (next s.mask z) s.scanCursor) (by omega)
    (fun i => mem_slotsFrom_cursor hm hstart hcursor)
    (by rw [hm.and_eq_mod, add_dist_mod hstart hcursor]) []
  rw [Nat.add_sub_cancel' (Nat.le_of_lt hfront), hm.and_eq_mod, Nat.add_mod_right,
    ← hm.and_eq_mod] at hcur
  have hbefore : ∀ i, i ∈ s.slotsFrom (next s.mask z)
      (dist s.slots.length (next s.mask z) s.scanCursor) ↔ i < s.slots.length ∧
        0 ≤ dist s.slots.length (next s.mask z) i ∧ dist s.slots.length (next s.mask z) i <
          0 + dist s.slots.length (next s.mask z) s.scanCursor := by
    simp [mem_slotsFrom hm hstart (Nat.le_of_lt hfront)]
  obtain ⟨left', u', freed', t', hweed', hloop', habreast', _⟩ :=
    habreast.stretch (by omega) hbefore hcur freed
  refine ⟨freed', t', ?_, ?_⟩
  · have hadd := deleteExpiredLoop_add hash now
      (s.slots.length - dist s.slots.length (next s.mask z) s.scanCursor)
      (dist s.slots.length (next s.mask z) s.scanCursor) s []
    rw [Nat.sub_add_cancel (Nat.le_of_lt hfront), hloop, Option.bind_some, hloop'] at hadd
    exact hadd
  · have hclean : s.sweepsClean hash now z = left'.isEmpty := by
      simp [sweepsClean, hweed, hweed']
    rw [hclean, List.isEmpty_iff, List.eq_nil_iff_forall_not_mem]
    refine forall_congr' fun e => ?_
    rw [habreast'.listed, habreast'.same, not_and]

/-- What a pass that removed expired entries only makes of the table, once none is left. -/
theorem Taken.sweepsAll {limit : Int} (ht : Taken hash s es t) (h : s.Searchable hash)
    (hdel : s.deleteExpired hash now limit = some (es.map Entry.handle, t))
    (hexp : ∀ e ∈ es, e.expired now = true)
    (hnone : ∀ e ∈ entries t.slots, ¬ e.expired now = true) : s.SweepsAll hash now limit := by
  have hmem := ht.mem_iff h hexp hnone
  refine ⟨es, t, hdel, ht.nodup, hmem, fun e => ?_, fun e he hlive => ?_⟩
  · rw [ht.mem_entries h, hmem]
    exact and_congr_right fun hin => not_congr (and_iff_right hin)
  · have hkey : e.key ∉ es.map Entry.key := by
      rw [ht.mem_keys_iff h he]
      exact fun hes => hlive (hexp e hes)
    rw [ht.get h hkey, h.get, h.mem_entries_iff.mp he]
    simp [hlive]

end Line

/-- Every limit of a lap or more gives a complete sweep exactly when no expired entry is left by
weeding out one from each slot, whatever free slot `z` the line begins behind. -/
theorem full_sweep_iff (h : s.Searchable hash) (hcursor : s.scanCursor < s.slots.length)
    (now : UInt32) {z : Nat} (hz : z < s.slots.length) (hfree : cell s.slots z = none) :
    (∀ limit : Int, (s.slots.length : Int) ≤ limit → s.SweepsAll hash now limit) ↔
      s.sweepsClean hash now z = true := by
  obtain ⟨freed, t, hloop, hclean⟩ := h.lap hcursor now hz hfree
  obtain ⟨es, t', hloop', ht, hexp⟩ :=
    deleteExpiredLoop_spec now s.slots.length (Taken.refl h) (by simp)
  have heq : (freed, t) = (es.map Entry.handle, t') :=
    Option.some_inj.mp (hloop.symm.trans hloop')
  cases heq
  rw [hclean]
  by_cases hzero : s.count = 0
  · -- an empty table
    have hempty : ∀ e, e ∉ entries s.slots := by
      intro e he
      rw [h.mem_entries_iff, h.lookup_of_count_zero hzero] at he
      cases he
    refine ⟨fun _ e he => absurd ((ht.mem_entries h).mp he).1 (hempty e), fun _ limit _ => ?_⟩
    exact (Taken.refl h).sweepsAll h (by simp [deleteExpired, hzero]) (by simp)
      fun e he => absurd he (hempty e)
  · have hrun : ∀ limit : Int, (s.slots.length : Int) ≤ limit →
        s.deleteExpired hash now limit = deleteExpiredLoop hash now limit.toNat s [] := by
      intro limit hle
      rw [deleteExpired, if_neg (by omega)]
    constructor
    · intro hall e he
      obtain ⟨es', t', hdel, _, _, hleft, _⟩ := hall s.slots.length (Int.le_refl _)
      rw [hrun _ (Int.le_refl _), Int.toNat_natCast, hloop, Option.some_inj, Prod.mk.injEq] at hdel
      rw [hdel.2, hleft] at he
      exact he.2
    · intro hnone limit hle
      obtain ⟨cursor, hrest⟩ := deleteExpiredLoop_of_none hash
        (limit.toNat - s.slots.length) (es.map Entry.handle) hnone
      refine (ht.scanCursor cursor).sweepsAll h ?_ hexp hnone
      have hadd := deleteExpiredLoop_add hash now s.slots.length
        (limit.toNat - s.slots.length) s []
      rw [Nat.add_sub_cancel' (by omega), hloop, Option.bind_some, hrest] at hadd
      rw [hrun limit hle, hadd]

/-- Two expired entries with the same home around one that never expires: the second one is drawn
to the slot after the one that is cleared, where the cursor comes next. -/
theorem full_sweep_iff_apart :
    ∃ s, holding hashKey [⟨[97], ⟨0, 1, 0, 0⟩, 1⟩, ⟨[33], ⟨8, 1, 0, 0⟩, 0⟩,
        ⟨[161], ⟨16, 1, 0, 0⟩, 1⟩] = some s ∧
      ∀ limit : Int, 64 ≤ limit → s.SweepsAll hashKey 5 limit := by
  obtain ⟨s, hs, hlen, hcursor, hfree, hclean⟩ : ∃ s, holding hashKey
        [⟨[97], ⟨0, 1, 0, 0⟩, 1⟩, ⟨[33], ⟨8, 1, 0, 0⟩, 0⟩, ⟨[161], ⟨16, 1, 0, 0⟩, 1⟩] = some s ∧
      s.slots.length = 64 ∧ s.scanCursor = 0 ∧ cell s.slots 63 = none ∧
      s.sweepsClean hashKey 5 63 = true := by
    decide +kernel
  have hiff := full_sweep_iff (wf_holding hs).searchable (by omega) 5 (by omega) hfree
  refine ⟨s, hs, fun limit hle => hiff.mpr hclean limit ?_⟩
  rw [hlen]
  exact hle

/-- The same without the one in between: the second is drawn into the slot the cursor has left. -/
theorem expired_entry_passed_over :
    ∃ s t, holding hashKey [⟨[97], ⟨0, 1, 0, 0⟩, 1⟩, ⟨[33], ⟨8, 1, 0, 0⟩, 1⟩] = some s ∧
      s.slots.length = 64 ∧ s.deleteExpired hashKey 5 64 = some ([⟨0, 1, 0, 0⟩], t) ∧
      ⟨[33], ⟨8, 1, 0, 0⟩, 1⟩ ∈ entries t.slots ∧ ¬ s.SweepsAll hashKey 5 64 := by
  obtain ⟨s, hs, hlen, t, hdel, hleft⟩ : ∃ s, holding hashKey
        [⟨[97], ⟨0, 1, 0, 0⟩, 1⟩, ⟨[33], ⟨8, 1, 0, 0⟩, 1⟩] = some s ∧ s.slots.length = 64 ∧
      ∃ t, s.deleteExpired hashKey 5 64 = some ([⟨0, 1, 0, 0⟩], t) ∧
        (⟨[33], ⟨8, 1, 0, 0⟩, 1⟩ : Entry) ∈ entries t.slots := by
    decide +kernel
  refine ⟨s, t, hs, hlen, hdel, hleft, ?_⟩
  rintro ⟨es, t', hdel', _, _, hmem, _⟩
  rw [hdel, Option.some_inj, Prod.mk.injEq] at hdel'
  rw [hdel'.2] at hleft
  exact ((hmem _).mp hleft).2 (by decide)

end ShardIndex

end Horreum.Transport
