/-
  Foundation/Probing.lean --- power-of-two tables with linear probing.

  An entry with key `k` has its home slot at `hash k &&& mask`; a search walks from there to the next
  slot, cyclically, until it meets the key or a free slot.  `Wf` makes such a table a finite map:

    reach   every slot between an entry's home and the entry is occupied;
    unique  no key is stored twice.

  `Wf.search` is the meaning of one search, `Wf.store` stores where a search has stopped, and `refill`
  is the rule for moving the entries of one table into another.
-/
import Mathlib.Algebra.Group.Nat.Defs
import Mathlib.Data.List.Basic
import Mathlib.Data.List.Nodup
import Mathlib.Data.Nat.Size
import Mathlib.Tactic.Common
import Mathlib.Logic.Function.Basic

set_option autoImplicit false

namespace Horreum.Foundation.Probing

/-! ## Cyclic distance -/

/-- Number of steps from slot `a` forward to slot `b` in a table of `n` slots. -/
def dist (n a b : Nat) : Nat := if a ≤ b then b - a else b + n - a

theorem dist_self (n a : Nat) : dist n a a = 0 := by simp [dist]

variable {n a b c : Nat}

theorem dist_lt (ha : a < n) (hb : b < n) : dist n a b < n := by
  unfold dist
  split <;> omega

theorem dist_inj (ha : a < n) (hb : b < n) (hc : c < n) (h : dist n a b = dist n a c) : b = c := by
  unfold dist at h
  split at h <;> split at h <;> omega

theorem dist_pos (ha : a < n) (hne : b ≠ a) : 0 < dist n a b := by
  unfold dist
  split <;> omega

/-- The part of a walk before `b` and the part behind it. -/
theorem dist_add (ha : a < n) (hb : b < n) (hc : c < n) (h : dist n a b ≤ dist n a c) :
    dist n a b + dist n b c = dist n a c := by
  unfold dist at *
  split_ifs at * <;> omega

theorem dist_trans (ha : a < n) (hb : b < n) (h : dist n a b + dist n b c < n) :
    dist n a c = dist n a b + dist n b c := by
  unfold dist at *
  split_ifs at * <;> omega

theorem dist_add_dist (ha : a < n) (hb : b < n) (hne : a ≠ b) : dist n a b + dist n b a = n := by
  unfold dist
  split_ifs <;> omega

theorem dist_add_mod {n a r : Nat} (ha : a < n) (hr : r < n) : dist n a ((a + r) % n) = r := by
  by_cases hin : a + r < n
  · rw [Nat.mod_eq_of_lt hin]
    unfold dist
    split <;> omega
  · rw [Nat.mod_eq_sub_mod (by omega), Nat.mod_eq_of_lt (by omega)]
    unfold dist
    split <;> omega

theorem add_dist_mod (ha : a < n) (hb : b < n) : (a + dist n a b) % n = b := by
  have hlt := dist_lt ha hb
  exact dist_inj ha (Nat.mod_lt _ (by omega)) hb (dist_add_mod ha hlt)

/-- The slot after `i`. -/
def next (mask i : Nat) : Nat := (i + 1) &&& mask

section Table

variable {σ : Type}

/-- The content of slot `i`. -/
def cell (slots : List (Option σ)) (i : Nat) : Option σ := slots.getD i none

/-- A table of `n` free slots. -/
def blank (n : Nat) : List (Option σ) := List.replicate n none

theorem cell_set (slots : List (Option σ)) (i j : Nat) (x : Option σ) (hi : i < slots.length) :
    cell (slots.set i x) j = if j = i then x else cell slots j := by
  unfold cell
  by_cases hji : j = i
  · subst hji
    simp [hi]
  · simp [hji, Ne.symm hji]

theorem lt_of_cell_eq_some {slots : List (Option σ)} {i : Nat} {e : σ}
    (h : cell slots i = some e) : i < slots.length := by
  by_contra hge
  have hnone : slots[i]? = none := List.getElem?_eq_none (by omega)
  simp [cell, hnone] at h

theorem cell_blank (n i : Nat) : cell (blank n : List (Option σ)) i = none := by
  simp only [cell, blank, List.getD_eq_getElem?_getD, List.getElem?_replicate]
  split <;> rfl

theorem mem_iff_cell {slots : List (Option σ)} {e : σ} :
    some e ∈ slots ↔ ∃ i, cell slots i = some e := by
  constructor
  · intro h
    obtain ⟨i, hi, heq⟩ := List.getElem_of_mem h
    exact ⟨i, by simp [cell, List.getElem?_eq_getElem hi, heq]⟩
  · rintro ⟨i, hi⟩
    have hlt := lt_of_cell_eq_some hi
    have heq : slots[i] = some e := by
      simpa [cell, List.getElem?_eq_getElem hlt] using hi
    exact heq ▸ List.getElem_mem hlt

/-! ## The search loop -/

/-- Walk from slot `i` until a free slot or an entry that `hit` accepts, and
return where the walk stopped.  `none` means that the walk went once around the
table without stopping: the loop never ends. -/
def probe (slots : List (Option σ)) (mask : Nat) (hit : σ → Bool) : Nat → Nat → Option Nat
  | 0, _ => none
  | fuel + 1, i =>
    match cell slots i with
    | none => some i
    | some e => if hit e then some i else probe slots mask hit fuel (next mask i)

/-- The slots at distance below `d` from `start` are all occupied by entries the
search does not want. -/
def Passed (slots : List (Option σ)) (hit : σ → Bool) (start d : Nat) : Prop :=
  ∀ j, j < slots.length → dist slots.length start j < d →
    ∃ e, cell slots j = some e ∧ hit e = false

/-- A search stopped properly at `r`. -/
def Stopped (slots : List (Option σ)) (hit : σ → Bool) (start r : Nat) : Prop :=
  r < slots.length ∧ Passed slots hit start (dist slots.length start r) ∧
    (cell slots r = none ∨ ∃ e, cell slots r = some e ∧ hit e = true)

end Table

/-- The length of the table is a power of two and `mask` selects its indices. -/
def Masked (n mask : Nat) : Prop := ∃ k, n = 2 ^ k ∧ mask = 2 ^ k - 1

namespace Masked

variable {n mask i : Nat}

theorem double (h : Masked n mask) : Masked (n * 2) (n * 2 - 1) := by
  obtain ⟨k, rfl, _⟩ := h
  exact ⟨k + 1, rfl, rfl⟩

theorem pos (h : Masked n mask) : 0 < n := by
  obtain ⟨k, rfl, _⟩ := h
  exact Nat.two_pow_pos k

theorem mask_eq (h : Masked n mask) : mask = n - 1 := by
  obtain ⟨k, rfl, rfl⟩ := h
  rfl

theorem and_eq_mod (h : Masked n mask) (x : Nat) : x &&& mask = x % n := by
  obtain ⟨k, rfl, rfl⟩ := h
  exact Nat.and_two_pow_sub_one_eq_mod x k

theorem and_lt (h : Masked n mask) (x : Nat) : x &&& mask < n := by
  rw [h.and_eq_mod]
  exact Nat.mod_lt _ h.pos

theorem next_eq (h : Masked n mask) (hi : i < n) :
    next mask i = if i + 1 = n then 0 else i + 1 := by
  unfold next
  rw [h.and_eq_mod]
  split
  · rename_i heq
    rw [heq, Nat.mod_self]
  · exact Nat.mod_eq_of_lt (by omega)

theorem next_lt (h : Masked n mask) (hi : i < n) : next mask i < n := by
  rw [h.next_eq hi]
  split <;> omega

/-- One step of the walk adds one to the distance, short of a full turn. -/
theorem dist_next (h : Masked n mask) {a i : Nat} (ha : a < n) (hi : i < n)
    (hshort : dist n a i + 1 < n) : dist n a (next mask i) = dist n a i + 1 := by
  rw [h.next_eq hi]
  unfold dist at *
  split_ifs at * <;> omega

theorem next_ne (h : Masked n mask) {i z : Nat} (hi : i < n) (hz : z < n) (hne : z ≠ i) :
    next mask i ≠ i := by
  rw [h.next_eq hi]
  split <;> omega

theorem dist_next_of_ne (h : Masked n mask) {a i : Nat} (ha : a < n) (hi : i < n)
    (hne : next mask i ≠ a) : dist n a (next mask i) = dist n a i + 1 := by
  rw [h.next_eq hi] at hne ⊢
  unfold dist
  split_ifs at * <;> omega

theorem dist_next_left (h : Masked n mask) {i z : Nat} (hi : i < n) (hz : z < n) (hne : z ≠ i) :
    dist n (next mask i) z + 1 = dist n i z := by
  rw [h.next_eq hi]
  unfold dist
  split_ifs <;> omega

/-- From the slot after `i` it is a whole turn but one step to `i`. -/
theorem dist_next_self (h : Masked n mask) (hi : i < n) : dist n (next mask i) i + 1 = n := by
  rw [h.next_eq hi]
  unfold dist
  split_ifs <;> omega

end Masked

/-- `for c < capacity { c <<= 1 }` on a 64-bit word: the doubling loop that sizes such
tables.  A capacity above `2 ^ 63` shifts the bit out and never ends, so no fuel is enough
for it. -/
def doubling (capacity : Nat) : (fuel : Nat) → (c : Nat) → Option Nat
  | 0, _ => none
  | fuel + 1, c => if c < capacity then doubling capacity fuel (c * 2 % 2 ^ 64) else some c

/-- The power of two that the loop reaches from one. -/
def powerOfTwoFrom (capacity : Nat) : Option Nat := doubling capacity 65 1

theorem doubling_spec {capacity : Nat} :
    ∀ (fuel k c : Nat), k ≤ 63 → fuel = 65 - k → doubling capacity fuel (2 ^ k) = some c →
      ∃ j, j ≤ 63 ∧ c = 2 ^ j ∧ capacity ≤ c := by
  intro fuel
  induction fuel with
  | zero =>
    intro k c hk hfuel _
    omega
  | succ fuel ih =>
    intro k c hk hfuel h
    unfold doubling at h
    split at h
    · by_cases hlast : k = 63
      · -- the bit is shifted out: the word is zero and stays zero
        subst hlast
        obtain rfl : fuel = 1 := by omega
        simp [doubling] at h
        omega
      · have hpow : 2 ^ k * 2 % 2 ^ 64 = 2 ^ (k + 1) := by
          rw [← Nat.pow_succ]
          exact Nat.mod_eq_of_lt (Nat.pow_lt_pow_right (by decide) (by omega))
        rw [hpow] at h
        exact ih (k + 1) c (by omega) (by omega) h
    · rename_i hge
      cases h
      exact ⟨k, hk, rfl, Nat.le_of_not_lt hge⟩

theorem masked_powerOfTwoFrom {capacity c : Nat} (h : powerOfTwoFrom capacity = some c) :
    Masked c (c - 1) := by
  obtain ⟨k, _, rfl, _⟩ := doubling_spec 65 0 c (by decide) rfl h
  exact ⟨k, rfl, rfl⟩

/-! ## Rounding up by smearing bits -/

/-- Bit `i` of `m` says whether `n` has one of the `s` bits from `i` on. -/
def Smeared (n m s : Nat) : Prop :=
  ∀ i, m.testBit i = true ↔ ∃ j, j < s ∧ n.testBit (i + j) = true

theorem Smeared.double {n m s : Nat} (h : Smeared n m s) : Smeared n (m ||| m >>> s) (s + s) := by
  intro i
  rw [Nat.testBit_or, Nat.testBit_shiftRight, Bool.or_eq_true, h i, h (s + i)]
  constructor
  · rintro (⟨j, hj, hbit⟩ | ⟨j, hj, hbit⟩)
    · exact ⟨j, by omega, hbit⟩
    · exact ⟨s + j, by omega, by rw [← hbit]; congr 1; omega⟩
  · rintro ⟨j, hj, hbit⟩
    by_cases hlow : j < s
    · exact .inl ⟨j, hlow, hbit⟩
    · exact .inr ⟨j - s, by omega, by rw [← hbit]; congr 1; omega⟩

/-- A number smeared over its whole width is one below a power of two. -/
theorem Smeared.eq_pow {n m : Nat} (h : Smeared n m 64) (hn : n < 2 ^ 64) :
    m = 2 ^ n.size - 1 := by
  apply Nat.eq_of_testBit_eq
  intro i
  rw [Nat.testBit_two_pow_sub_one, Bool.eq_iff_iff, h i, decide_eq_true_eq]
  constructor
  · rintro ⟨j, _, hbit⟩
    by_contra hge
    have hlt : n < 2 ^ (i + j) :=
      Nat.lt_of_lt_of_le (Nat.size_le.mp (Nat.le_of_not_lt hge))
        (Nat.pow_le_pow_right (by decide) (Nat.le_add_right i j))
    rw [Nat.testBit_lt_two_pow hlt] at hbit
    cases hbit
  · intro hi
    have hsize : n.size ≤ 64 := Nat.size_le.mpr hn
    have htop : n.testBit (n.size - 1) = true := by
      have hge : 2 ^ (n.size - 1) ≤ n := by
        by_contra hlt
        have := Nat.size_le.mpr (Nat.lt_of_not_le hlt)
        omega
      have hlt : n < 2 ^ (n.size - 1 + 1) := by
        rw [Nat.sub_add_cancel (by omega)]
        exact Nat.lt_size_self n
      exact Nat.testBit_of_two_pow_le_and_two_pow_add_one_gt hge hlt
    exact ⟨n.size - 1 - i, by omega, by rw [← htop]; congr 1; omega⟩

section Search

variable {σ : Type} {slots : List (Option σ)} {mask start : Nat} (hit : σ → Bool)

/-- Either the walk stops, or it has seen the whole table occupied and unwanted.
Induction on the fuel, which is exactly the number of slots not yet seen. -/
theorem probe_cases (hm : Masked slots.length mask) (hstart : start < slots.length) :
    ∀ (fuel i : Nat),
      (fuel ≠ 0 → i < slots.length ∧ dist slots.length start i + fuel = slots.length) →
      Passed slots hit start (slots.length - fuel) →
      (probe slots mask hit fuel i = none ∧ Passed slots hit start slots.length) ∨
        ∃ r, probe slots mask hit fuel i = some r ∧ Stopped slots hit start r := by
  intro fuel
  induction fuel with
  | zero =>
    intro i _ hpassed
    exact Or.inl ⟨rfl, by simpa using hpassed⟩
  | succ fuel ih =>
    intro i hi hpassed
    obtain ⟨hlt, hdist⟩ := hi (by omega)
    have hhere : slots.length - (fuel + 1) = dist slots.length start i := by omega
    rw [hhere] at hpassed
    cases hcell : cell slots i with
    | none =>
      exact Or.inr ⟨i, by simp [probe, hcell], hlt, hpassed, Or.inl hcell⟩
    | some e =>
      cases hhit : hit e with
      | true =>
        exact Or.inr ⟨i, by simp [probe, hcell, hhit], hlt, hpassed,
          Or.inr ⟨e, hcell, hhit⟩⟩
      | false =>
        have hstep : probe slots mask hit (fuel + 1) i =
            probe slots mask hit fuel (next mask i) := by
          simp [probe, hcell, hhit]
        rw [hstep]
        refine ih (next mask i) ?_ ?_
        · intro hfuel
          have hshort : dist slots.length start i + 1 < slots.length := by omega
          refine ⟨hm.next_lt hlt, ?_⟩
          rw [hm.dist_next hstart hlt hshort]
          omega
        · intro j hj hjd
          by_cases hji : dist slots.length start j = dist slots.length start i
          · exact ⟨e, by rw [dist_inj hstart hj hlt hji]; exact hcell, hhit⟩
          · exact hpassed j hj (by omega)

/-- A search from `start` stops properly or has seen the whole table. -/
theorem probe_stopped (hm : Masked slots.length mask) (hstart : start < slots.length) :
    (probe slots mask hit slots.length start = none ∧ Passed slots hit start slots.length) ∨
      ∃ r, probe slots mask hit slots.length start = some r ∧ Stopped slots hit start r := by
  have hinit : Passed slots hit start (slots.length - slots.length) := by
    intro j _ hjd
    omega
  exact probe_cases hit hm hstart slots.length start
    (fun _ => ⟨hstart, by rw [dist_self]; omega⟩) hinit

/-- With a free slot in the table a search from `start` stops. -/
theorem probe_stops (hm : Masked slots.length mask) (hstart : start < slots.length)
    (hspare : ∃ i, i < slots.length ∧ cell slots i = none) :
    ∃ r, probe slots mask hit slots.length start = some r ∧ Stopped slots hit start r := by
  rcases probe_stopped hit hm hstart with ⟨_, hfull⟩ | hstop
  · obtain ⟨i, hi, hfree⟩ := hspare
    obtain ⟨e, he, _⟩ := hfull i hi (dist_lt hstart hi)
    rw [hfree] at he
    simp at he
  · exact hstop

end Search

/-! ## The table as a finite map -/

section Map

variable {κ σ : Type} {slots : List (Option σ)} {r : Nat} {e : σ}

/-- The stored entries in slot order. -/
def entries (slots : List (Option σ)) : List σ := slots.filterMap id

/-- Number of occupied slots. -/
def occupied (slots : List (Option σ)) : Nat := slots.countP Option.isSome

/-- The entry stored for `k`, as an abstract map. -/
def lookup [DecidableEq κ] (key : σ → κ) (slots : List (Option σ)) (k : κ) : Option σ :=
  (entries slots).find? fun e => decide (key e = k)

/-- The probing invariant: see the head of this file. -/
structure Wf (key : σ → κ) (hash : κ → Nat) (mask : Nat) (slots : List (Option σ)) : Prop where
  masked : Masked slots.length mask
  reach : ∀ i e, cell slots i = some e → ∀ j, j < slots.length →
    dist slots.length (hash (key e) &&& mask) j <
      dist slots.length (hash (key e) &&& mask) i → (cell slots j).isSome = true
  unique : ∀ i j e e', cell slots i = some e → cell slots j = some e' →
    key e = key e' → i = j

theorem mem_entries : e ∈ entries slots ↔ ∃ i, cell slots i = some e := by
  rw [← mem_iff_cell]
  simp [entries]

theorem occupied_eq_length_entries (slots : List (Option σ)) :
    occupied slots = (entries slots).length := by
  induction slots with
  | nil => rfl
  | cons s rest ih =>
    cases s with
    | none => simpa [occupied, entries] using ih
    | some e => simpa [occupied, entries] using ih

theorem set_none_of_free (hr : r < slots.length) (hfree : cell slots r = none) :
    slots.set r none = slots := by
  have hget : slots[r] = none := by simpa [cell, List.getElem?_eq_getElem hr] using hfree
  rw [← hget, List.set_getElem_self]

theorem occupied_set_of_free (hr : r < slots.length) (hfree : cell slots r = none) (e : σ) :
    occupied (slots.set r (some e)) = occupied slots + 1 := by
  have hget : slots[r] = none := by
    simpa [cell, List.getElem?_eq_getElem hr] using hfree
  rw [occupied, List.countP_set hr, hget]
  simp [occupied]

theorem occupied_set (htaken : cell slots r = some e) (x : Option σ) :
    occupied (slots.set r x) + 1 = occupied slots + if x.isSome then 1 else 0 := by
  have hr := lt_of_cell_eq_some htaken
  have hget : slots[r] = some e := by
    simpa [cell, List.getElem?_eq_getElem hr] using htaken
  have hpos : 0 < slots.countP Option.isSome :=
    List.countP_pos_iff.mpr ⟨some e, hget ▸ List.getElem_mem hr, rfl⟩
  rw [occupied, List.countP_set hr, hget, occupied, Option.isSome_some, if_pos rfl]
  omega

theorem occupied_set_of_taken
    (htaken : cell slots r = some e) (e' : σ) :
    occupied (slots.set r (some e')) = occupied slots :=
  Nat.add_right_cancel (occupied_set htaken (some e'))

theorem occupied_set_none
    (htaken : cell slots r = some e) :
    occupied (slots.set r none) + 1 = occupied slots :=
  occupied_set htaken none

theorem exists_free_of_occupied_lt
    (h : occupied slots < slots.length) : ∃ i, i < slots.length ∧ cell slots i = none := by
  by_contra hnone
  have hall : ∀ s ∈ slots, Option.isSome s = true := by
    intro s hs
    obtain ⟨i, hi, rfl⟩ := List.getElem_of_mem hs
    cases hs : slots[i] with
    | none => exact absurd ⟨i, hi, by simp [cell, List.getElem?_eq_getElem hi, hs]⟩ hnone
    | some e => rfl
  have hfull : occupied slots = slots.length := List.countP_eq_length.mpr hall
  omega

variable {key : σ → κ} {hash : κ → Nat} {mask : Nat} {slots : List (Option σ)}

theorem Wf.nodup_keys (h : Wf key hash mask slots) : ((entries slots).map key).Nodup := by
  have hpair : slots.Pairwise fun a b => ∀ e, a = some e → ∀ e', b = some e' → key e ≠ key e' := by
    rw [List.pairwise_iff_getElem]
    intro i j hi hj hij e he e' he' hkey
    have hci : cell slots i = some e := by simp [cell, List.getElem?_eq_getElem hi, he]
    have hcj : cell slots j = some e' := by simp [cell, List.getElem?_eq_getElem hj, he']
    exact absurd (h.unique i j e e' hci hcj hkey) (by omega)
  rw [List.Nodup, List.pairwise_map, entries, List.pairwise_filterMap]
  exact hpair

theorem wf_blank {n : Nat} (hm : Masked n mask) :
    Wf key hash mask (blank n : List (Option σ)) := by
  have hlen : (blank n : List (Option σ)).length = n := by simp [blank]
  refine ⟨by rw [hlen]; exact hm, ?_, ?_⟩
  · intro i e hi
    simp [cell_blank] at hi
  · intro i j e e' hi
    simp [cell_blank] at hi

variable [DecidableEq κ] {k : κ}

theorem Wf.lookup_eq_some (h : Wf key hash mask slots) :
    lookup key slots k = some e ↔ (∃ i, cell slots i = some e) ∧ key e = k := by
  constructor
  · intro hfind
    have hkey := List.find?_some hfind
    exact ⟨mem_entries.mp (List.mem_of_find?_eq_some hfind), by simpa using hkey⟩
  · rintro ⟨⟨i, hi⟩, hkey⟩
    cases hfind : lookup key slots k with
    | none =>
      have hall := List.find?_eq_none.mp hfind e (mem_entries.mpr ⟨i, hi⟩)
      exact absurd hkey (by simpa using hall)
    | some e' =>
      obtain ⟨j, hj⟩ := mem_entries.mp (List.mem_of_find?_eq_some hfind)
      have hkey' : key e' = k := by simpa using List.find?_some hfind
      have hij : i = j := h.unique i j e e' hi hj (hkey.trans hkey'.symm)
      rw [hij, hj] at hi
      exact hi

theorem Wf.lookup_eq_none (h : Wf key hash mask slots) :
    lookup key slots k = none ↔ ∀ i e, cell slots i = some e → key e ≠ k := by
  constructor
  · intro hnone i e hi hkey
    rw [h.lookup_eq_some.mpr ⟨⟨i, hi⟩, hkey⟩] at hnone
    simp at hnone
  · intro hall
    cases hfind : lookup key slots k with
    | none => rfl
    | some e =>
      obtain ⟨⟨i, hi⟩, hkey⟩ := h.lookup_eq_some.mp hfind
      exact absurd hkey (hall i e hi)

/-- Where a search for `k` stops is what the table has for `k`. -/
theorem Wf.cell_of_stopped (h : Wf key hash mask slots) {hit : σ → Bool}
    (hhit : ∀ i e, cell slots i = some e → (hit e = true ↔ key e = k))
    (hstop : Stopped slots hit (hash k &&& mask) r) : cell slots r = lookup key slots k := by
  have hstart := h.masked.and_lt (hash k)
  obtain ⟨hr, hpassed, hfree | ⟨e, he, hite⟩⟩ := hstop
  · -- a free slot: an entry for `k` would sit before it, where the walk saw none
    rw [hfree, eq_comm, h.lookup_eq_none]
    intro i e hi hkey
    have hin := lt_of_cell_eq_some hi
    have hnot : ¬ dist slots.length (hash k &&& mask) r <
        dist slots.length (hash k &&& mask) i := by
      intro hlt
      have hsome := h.reach i e hi r hr (by rw [hkey]; exact hlt)
      simp [hfree] at hsome
    have hne : dist slots.length (hash k &&& mask) i ≠
        dist slots.length (hash k &&& mask) r := by
      intro heq
      rw [dist_inj hstart hin hr heq, hfree] at hi
      simp at hi
    obtain ⟨e', he', hmiss⟩ := hpassed i hin (by omega)
    rw [hi] at he'
    cases he'
    rw [(hhit i e hi).mpr hkey] at hmiss
    simp at hmiss
  · rw [he, eq_comm]
    exact h.lookup_eq_some.mpr ⟨⟨r, he⟩, (hhit r e he).mp hite⟩

/-- The meaning of one search for `k`. -/
theorem Wf.search (h : Wf key hash mask slots) (hit : σ → Bool)
    (hhit : ∀ i e, cell slots i = some e → (hit e = true ↔ key e = k))
    (hspare : ∃ i, i < slots.length ∧ cell slots i = none) :
    ∃ r, probe slots mask hit slots.length (hash k &&& mask) = some r ∧
      Stopped slots hit (hash k &&& mask) r ∧
      cell slots r = lookup key slots k := by
  obtain ⟨r, hprobe, hstop⟩ := probe_stops hit h.masked (h.masked.and_lt (hash k)) hspare
  exact ⟨r, hprobe, hstop, h.cell_of_stopped hhit hstop⟩

/-- The same in a table that may be full: a search that does not stop has met every entry. -/
theorem Wf.search_full (h : Wf key hash mask slots) (hit : σ → Bool)
    (hhit : ∀ i e, cell slots i = some e → (hit e = true ↔ key e = k)) :
    (probe slots mask hit slots.length (hash k &&& mask) = none ∧ lookup key slots k = none ∧
        ∀ i, i < slots.length → cell slots i ≠ none) ∨
      ∃ r, probe slots mask hit slots.length (hash k &&& mask) = some r ∧
        Stopped slots hit (hash k &&& mask) r ∧ cell slots r = lookup key slots k := by
  have hstart := h.masked.and_lt (hash k)
  rcases probe_stopped hit h.masked hstart with ⟨hnone, hpassed⟩ | ⟨r, hprobe, hstop⟩
  · refine .inl ⟨hnone, h.lookup_eq_none.mpr fun i e hi hkey => ?_, fun i hi hfree => ?_⟩
    · have hin := lt_of_cell_eq_some hi
      obtain ⟨e', he', hmiss⟩ := hpassed i hin (dist_lt hstart hin)
      cases hi.symm.trans he'
      rw [(hhit i e hi).mpr hkey] at hmiss
      cases hmiss
    · obtain ⟨e', he', _⟩ := hpassed i hi (dist_lt hstart hi)
      rw [hfree] at he'
      cases he'
  · exact .inr ⟨r, hprobe, hstop, h.cell_of_stopped hhit hstop⟩

/-- Storing an entry in the slot the search for its key stopped at, whether that
slot was free or held the key's old entry. -/
theorem Wf.store (h : Wf key hash mask slots) {hit : σ → Bool}
    (hstop : Stopped slots hit (hash (key e) &&& mask) r)
    (hhere : cell slots r = lookup key slots (key e)) :
    Wf key hash mask (slots.set r (some e)) ∧
      lookup key (slots.set r (some e)) = Function.update (lookup key slots) (key e) (some e) := by
  obtain ⟨hr, hpassed, _⟩ := hstop
  have hcell := fun j => cell_set slots r j (some e) hr
  have hlen : (slots.set r (some e)).length = slots.length := List.length_set
  have honly : ∀ i e', cell slots i = some e' → key e' = key e → i = r := by
    intro i e' hi hkey
    rw [h.lookup_eq_some.mpr ⟨⟨i, hi⟩, hkey⟩] at hhere
    exact h.unique i r e' e' hi hhere rfl
  have hothers : ∀ i e', i ≠ r → cell slots i = some e' → key e' ≠ key e :=
    fun i e' hir hi hkey => hir (honly i e' hi hkey)
  have hwf : Wf key hash mask (slots.set r (some e)) := by
    refine ⟨by rw [hlen]; exact h.masked, ?_, ?_⟩
    · intro i e' hi j hj hlt
      rw [hlen] at hj hlt
      rw [hcell]
      split
      · rfl
      · rw [hcell] at hi
        split at hi
        · cases hi
          rename_i hir
          rw [hir] at hlt
          obtain ⟨e'', he'', _⟩ := hpassed j hj hlt
          simp [he'']
        · exact h.reach i e' hi j hj hlt
    · intro i j e₁ e₂ hi hj hkey
      rw [hcell] at hi hj
      split at hi <;> split at hj
      · omega
      · cases hi
        rename_i _ hjr
        exact absurd hkey.symm (hothers j e₂ hjr hj)
      · cases hj
        rename_i hir _
        exact absurd hkey (hothers i e₁ hir hi)
      · exact h.unique i j e₁ e₂ hi hj hkey
  refine ⟨hwf, funext fun k => ?_⟩
  by_cases hk : k = key e
  · subst hk
    rw [Function.update_self, hwf.lookup_eq_some]
    exact ⟨⟨r, by rw [hcell, if_pos rfl]⟩, rfl⟩
  · rw [Function.update_of_ne hk]
    cases hold : lookup key slots k with
    | none =>
      rw [hwf.lookup_eq_none]
      intro i e' hi
      rw [hcell] at hi
      split at hi
      · cases hi
        exact Ne.symm hk
      · exact h.lookup_eq_none.mp hold i e' hi
    | some e' =>
      rw [hwf.lookup_eq_some]
      obtain ⟨⟨i, hi⟩, hkey⟩ := h.lookup_eq_some.mp hold
      refine ⟨⟨i, ?_⟩, hkey⟩
      have hir : i ≠ r := by
        intro hir
        rw [hir, hhere, h.lookup_eq_some] at hi
        exact hk (hkey.symm.trans hi.2)
      rw [hcell, if_neg hir]
      exact hi

end Map

/-! ## Refilling -/

section Refill

variable {τ ε κ : Type} [DecidableEq κ] (key : ε → κ) (lookup : τ → κ → Option ε)
  (count size : τ → Nat) (inv : τ → Prop) (slack : Nat) {enter : τ → ε → Option τ}

/-- Entering a list of new keys one by one, into a table that takes each of them as long as it
has more than `slack` free slots. -/
theorem refill (henter : ∀ t e, inv t → count t + slack < size t → lookup t (key e) = none →
      ∃ t', enter t e = some t' ∧ inv t' ∧ size t' = size t ∧ count t' = count t + 1 ∧
        lookup t' = Function.update (lookup t) (key e) (some e)) :
    ∀ (es : List ε) {t : τ}, inv t → (es.map key).Nodup → (∀ e ∈ es, lookup t (key e) = none) →
    count t + es.length + slack ≤ size t →
    ∃ t', es.foldlM enter t = some t' ∧ inv t' ∧ size t' = size t ∧
      count t' = count t + es.length ∧
      ∀ k, lookup t' k = ((es.find? fun e => decide (key e = k)).or (lookup t k))
  | [], t, hinv, _, _, _ => ⟨t, rfl, hinv, rfl, rfl, fun _ => rfl⟩
  | e :: es, t, hinv, hnd, hnew, hroom => by
    rw [List.length_cons] at hroom ⊢
    obtain ⟨t₁, henter₁, hinv₁, hsize₁, hcount₁, hlook₁⟩ :=
      henter t e hinv (by omega) (hnew e List.mem_cons_self)
    simp only [List.map_cons, List.nodup_cons] at hnd
    have hother : ∀ e' ∈ es, key e' ≠ key e := fun e' he' heq =>
      hnd.1 (heq ▸ List.mem_map_of_mem he')
    have hnew₁ : ∀ e' ∈ es, lookup t₁ (key e') = none := by
      intro e' he'
      rw [hlook₁, Function.update_of_ne (hother e' he')]
      exact hnew e' (List.mem_cons_of_mem _ he')
    obtain ⟨t', hfold, hinv', hsize', hcount', hlook'⟩ :=
      refill henter es hinv₁ hnd.2 hnew₁ (by omega)
    refine ⟨t', ?_, hinv', hsize'.trans hsize₁, by omega, fun k => ?_⟩
    · rw [List.foldlM_cons, henter₁]
      exact hfold
    · rw [hlook', hlook₁]
      by_cases hk : key e = k
      · subst hk
        have hnone : es.find? (fun e' => decide (key e' = key e)) = none := by
          rw [List.find?_eq_none]
          intro e' he'
          simpa using hother e' he'
        simp [hnone]
      · simp [hk, Function.update_of_ne (Ne.symm hk)]

end Refill

end Horreum.Foundation.Probing
