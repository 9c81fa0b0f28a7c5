/-
  Foundation/ProbingErase.lean --- removal from a linear-probing table.

  Removal keeps one free slot, the gap, and scans forward; an entry whose walk from home crosses the
  gap is moved into it and leaves the new gap behind.  The scan stops at the first free slot.

  `Gapped` is the loop invariant: `reach` holds once the gap itself is excused, and no entry between
  the gap and the scan needs the gap.  A move brings an entry nearer to its home, so the scan ends even
  where no other slot is free (`deleteAt_total`).  A ranking in which every walk meets lower ranks only
  is kept (`Ordered`).
-/
import Horreum.Foundation.Probing
import Mathlib.Algebra.BigOperators.Group.Finset.Basic
import Mathlib.Algebra.Group.Action.Defs
import Mathlib.Algebra.Order.BigOperators.Group.Finset

set_option autoImplicit false

namespace Horreum.Foundation.Probing

section Loop

variable {σ : Type}

/-- An entry found at `curr` whose home is `desired` may fill the gap: `gap` lies
on the walk from `desired` to `curr`. -/
def movable (gap curr desired : Nat) : Bool :=
  (curr > gap && (desired ≤ gap || desired > curr)) ||
    (curr < gap && (desired ≤ gap && desired > curr))

/-- The scan of a removal.  `none` means that it would still be running. -/
def shift (desired : σ → Nat) (mask : Nat) :
    Nat → List (Option σ) → Nat → Nat → Option (List (Option σ))
  | 0, _, _, _ => none
  | fuel + 1, slots, gap, curr =>
    match cell slots curr with
    | none => some slots
    | some e =>
      if movable gap curr (desired e) then
        shift desired mask fuel ((slots.set gap (some e)).set curr none) curr (next mask curr)
      else shift desired mask fuel slots gap (next mask curr)

/-- Free slot `i` and close the gap.  Every move brings an entry nearer to its
home, so `n * n` rounds are enough even for a table with no other free slot. -/
def deleteAt (desired : σ → Nat) (mask : Nat) (slots : List (Option σ)) (i : Nat) :
    Option (List (Option σ)) :=
  shift desired mask (slots.length * slots.length + 1) (slots.set i none) i (next mask i)

end Loop

/-! ## Distances around a gap -/

theorem dist_cases (n a b : Nat) :
    (a ≤ b ∧ dist n a b = b - a) ∨ (b < a ∧ dist n a b = b + n - a) := by
  unfold dist
  split <;> omega

/-- The code's comparison of plain indices says that the home of the entry is
not strictly between the gap and the scan. -/
theorem movable_iff {n gap curr desired : Nat} (hg : gap < n) (hc : curr < n)
    (hd : desired < n) (hne : curr ≠ gap) :
    movable gap curr desired = true ↔
      ¬ (0 < dist n gap desired ∧ dist n gap desired ≤ dist n gap curr) := by
  have h₁ := dist_cases n gap desired
  have h₂ := dist_cases n gap curr
  simp only [movable, Bool.or_eq_true, Bool.and_eq_true, decide_eq_true_eq]
  omega

/-- On the walk to an entry that may be moved the gap comes before the entry. -/
theorem walk_before_gap {n gap curr home j : Nat} (hg : gap < n) (hh : home < n)
    (hcross : ¬ (0 < dist n gap home ∧ dist n gap home ≤ dist n gap curr))
    (hj : dist n home j < dist n home gap) : dist n home gap ≤ dist n home curr := by
  have hne : gap ≠ home := by
    rintro rfl
    rw [dist_self] at hj
    omega
  have hturn := dist_add_dist hg hh hne
  have hpos := dist_pos hg hne.symm
  have hfar := dist_trans hh hg (c := curr) (by omega)
  omega

/-- An entry that may be moved comes nearer to its home by the way to the gap. -/
theorem dist_of_movable {n gap curr home : Nat} (hg : gap < n) (hh : home < n)
    (hmv : movable gap curr home = true) : dist n home gap + dist n gap curr = dist n home curr := by
  simp only [movable, Bool.or_eq_true, Bool.and_eq_true, decide_eq_true_eq] at hmv
  unfold dist
  split_ifs <;> omega

section Erase

variable {κ σ : Type} {key : σ → κ} {hash : κ → Nat} {mask gap curr : Nat} {slots : List (Option σ)}
  {desired : σ → Nat} {e : σ}

theorem cell_move (hgap : gap < slots.length) (hcurr : curr < slots.length) (e : σ) (j : Nat) :
    cell ((slots.set gap (some e)).set curr none) j =
      if j = curr then none else if j = gap then some e else cell slots j := by
  rw [cell_set _ _ _ _ (by simpa using hcurr), cell_set _ _ _ _ hgap]

/-- The entries on the walk to an entry are ranked before it. -/
def Ordered (key : σ → κ) (hash : κ → Nat) (mask : Nat) (rank : σ → Nat)
    (slots : List (Option σ)) : Prop :=
  ∀ i j e e', cell slots i = some e → cell slots j = some e' →
    dist slots.length (hash (key e) &&& mask) j < dist slots.length (hash (key e) &&& mask) i →
    rank e' < rank e

theorem Ordered.set_none {rank : σ → Nat} {i : Nat} (h : Ordered key hash mask rank slots)
    (hi : i < slots.length) :
    Ordered key hash mask rank (slots.set i none) := by
  intro a b e e' ha hb hlt
  rw [cell_set _ _ _ _ hi] at ha hb
  rw [List.length_set] at hlt
  split_ifs at ha hb
  exact h a b e e' ha hb hlt

/-- The loop invariant of `shift`. -/
structure Gapped (key : σ → κ) (hash : κ → Nat) (mask : Nat) (slots : List (Option σ))
    (gap curr : Nat) : Prop where
  masked : Masked slots.length mask
  unique : ∀ i j e e', cell slots i = some e → cell slots j = some e' →
    key e = key e' → i = j
  gap_lt : gap < slots.length
  curr_lt : curr < slots.length
  curr_ne : curr ≠ gap
  gap_free : cell slots gap = none
  between : ∀ i, i < slots.length → 0 < dist slots.length gap i →
    dist slots.length gap i < dist slots.length gap curr →
    ∃ e, cell slots i = some e ∧ 0 < dist slots.length gap (hash (key e) &&& mask) ∧
      dist slots.length gap (hash (key e) &&& mask) ≤ dist slots.length gap i
  reach : ∀ i e, cell slots i = some e → ∀ j, j < slots.length → j ≠ gap →
    dist slots.length (hash (key e) &&& mask) j <
      dist slots.length (hash (key e) &&& mask) i → (cell slots j).isSome = true

namespace Gapped

variable {slots : List (Option σ)} {gap curr : Nat}

/-- An entry with the gap on its walk is not scanned yet, and has the slot under the scan there too:
of those scanned already the home lies after the gap. -/
theorem crosses_scan (h : Gapped key hash mask slots gap curr) {i : Nat} {e : σ}
    (hi : cell slots i = some e) (hig : i ≠ gap) (hic : i ≠ curr)
    (hlt : dist slots.length (hash (key e) &&& mask) gap <
      dist slots.length (hash (key e) &&& mask) i) :
    dist slots.length (hash (key e) &&& mask) curr <
      dist slots.length (hash (key e) &&& mask) i := by
  have hgap := h.gap_lt
  have hin := lt_of_cell_eq_some hi
  have hhome := h.masked.and_lt (hash (key e))
  have hwalk := dist_add hhome hgap hin (Nat.le_of_lt hlt)
  by_cases hp : dist slots.length gap i < dist slots.length gap curr
  · obtain ⟨e', he', hpos, hle⟩ := h.between i hin (dist_pos hgap hig) hp
    rw [hi] at he'
    cases he'
    have hhomeWalk := dist_add hgap hhome hin hle
    omega
  · have hne : dist slots.length gap curr ≠ dist slots.length gap i := fun heq =>
      hic (dist_inj hgap h.curr_lt hin heq).symm
    have hturn := dist_lt hhome hin
    have hfar := dist_trans hhome hgap (c := curr) (by omega)
    omega

/-- A free slot under the scan: no walk needs the gap any more. -/
theorem settled (h : Gapped key hash mask slots gap curr) (hfree : cell slots curr = none) :
    Wf key hash mask slots := by
  refine ⟨h.masked, ?_, h.unique⟩
  intro i e hi j hj hlt
  by_cases hjg : j = gap
  · subst hjg
    have hig : i ≠ j := by
      rintro rfl
      cases h.gap_free.symm.trans hi
    have hic : i ≠ curr := by
      rintro rfl
      cases hfree.symm.trans hi
    have hsome := h.reach i e hi curr h.curr_lt h.curr_ne (h.crosses_scan hi hig hic hlt)
    simp [hfree] at hsome
  · exact h.reach i e hi j hj hjg hlt

/-- The entry under the scan stays. -/
theorem keep (h : Gapped key hash mask slots gap curr) (he : cell slots curr = some e)
    (hstay : movable gap curr (hash (key e) &&& mask) = false)
    (hnext : next mask curr ≠ gap) : Gapped key hash mask slots gap (next mask curr) := by
  have hhome := h.masked.and_lt (hash (key e))
  have hgap := h.gap_lt
  have hcurr := h.curr_lt
  refine ⟨h.masked, h.unique, hgap, h.masked.next_lt hcurr, hnext, h.gap_free, ?_, h.reach⟩
  intro i hi hpos hlt
  by_cases hic : i = curr
  · subst hic
    refine ⟨e, he, ?_⟩
    by_contra hnot
    rw [(movable_iff hgap hcurr hhome h.curr_ne).mpr hnot] at hstay
    simp at hstay
  · have hstep := h.masked.dist_next_of_ne hgap hcurr hnext
    have hne : dist slots.length gap i ≠ dist slots.length gap curr := fun heq =>
      hic (dist_inj hgap hi hcurr heq)
    exact h.between i hi hpos (by omega)

/-- The entry under the scan fills the gap and leaves the next one. -/
theorem move (h : Gapped key hash mask slots gap curr) (he : cell slots curr = some e)
    (hmove : movable gap curr (hash (key e) &&& mask) = true)
    (hnext : next mask curr ≠ curr) :
    Gapped key hash mask ((slots.set gap (some e)).set curr none) curr (next mask curr) := by
  have hhome := h.masked.and_lt (hash (key e))
  have hgap := h.gap_lt
  have hcurr := h.curr_lt
  have hne := h.curr_ne
  have hlen : ((slots.set gap (some e)).set curr none).length = slots.length := by simp
  have hcell := cell_move hgap hcurr e
  have hcross := (movable_iff hgap hcurr hhome hne).mp hmove
  refine ⟨by rw [hlen]; exact h.masked, ?_, by rw [hlen]; exact hcurr,
    by rw [hlen]; exact h.masked.next_lt hcurr, hnext, by rw [hcell, if_pos rfl], ?_, ?_⟩
  · intro i j e₁ e₂ hi hj hkey
    rw [hcell] at hi hj
    split_ifs at hi hj with hic hig hjc hjg
    · omega
    · cases hi
      exact absurd (h.unique curr j e e₂ he hj hkey) (by omega)
    · cases hj
      exact absurd (h.unique i curr e₁ e hi he hkey) (by omega)
    · exact h.unique i j e₁ e₂ hi hj hkey
  · intro i hi hpos hlt
    rw [hlen] at hi hpos hlt
    have hstep := h.masked.dist_next_of_ne hcurr hcurr hnext
    rw [dist_self] at hstep
    omega
  · intro i e' hi j hj hjc hlt
    rw [hlen] at hj hlt
    rw [hcell, if_neg hjc]
    split
    · rfl
    · rename_i hjg
      rw [hcell] at hi
      split_ifs at hi with hic hig
      · -- the moved entry: its new walk is the part of the old one before the gap
        cases hi
        subst hig
        exact h.reach curr e he j hj hjg (Nat.lt_of_lt_of_le hlt (walk_before_gap hgap hhome hcross hlt))
      · exact h.reach i e' hi j hj hjg hlt

/-- Whoever had the gap on its walk and is not scanned yet had the moved entry there too. -/
theorem move_ordered {rank : σ → Nat} (h : Gapped key hash mask slots gap curr)
    (he : cell slots curr = some e) (hmove : movable gap curr (hash (key e) &&& mask) = true)
    (ho : Ordered key hash mask rank slots) :
    Ordered key hash mask rank ((slots.set gap (some e)).set curr none) := by
  have hgap := h.gap_lt
  have hcurr := h.curr_lt
  have hcross := (movable_iff hgap hcurr (h.masked.and_lt _) h.curr_ne).mp hmove
  intro i j e₁ e₂ hi hj hlt
  simp only [List.length_set] at hlt
  rw [cell_move hgap hcurr] at hi hj
  split_ifs at hi hj with hic hig hjc hjg hjc hjg
  · rw [hig, hjg] at hlt
    exact absurd hlt (Nat.lt_irrefl _)
  · cases hi
    subst hig
    exact ho curr j e e₂ he hj
      (Nat.lt_of_lt_of_le hlt (walk_before_gap hgap (h.masked.and_lt _) hcross hlt))
  · cases hj
    subst hjg
    exact ho i curr e₁ e hi he (h.crosses_scan hi hig hic hlt)
  · exact ho i j e₁ e₂ hi hj hlt

end Gapped

/-- Two tables store the same entries, wherever they sit. -/
def SameEntries (slots slots' : List (Option σ)) : Prop :=
  ∀ e, (∃ i, cell slots i = some e) ↔ ∃ i, cell slots' i = some e

theorem sameEntries_move
    (hgap : cell slots gap = none) (hlt : gap < slots.length) (he : cell slots curr = some e) :
    SameEntries ((slots.set gap (some e)).set curr none) slots := by
  have hcurr := lt_of_cell_eq_some he
  have hne : gap ≠ curr := by
    intro heq
    rw [heq, he] at hgap
    simp at hgap
  have hcell := cell_move hlt hcurr e
  intro e'
  constructor
  · rintro ⟨i, hi⟩
    rw [hcell] at hi
    split_ifs at hi with hic hig
    · cases hi
      exact ⟨curr, he⟩
    · exact ⟨i, hi⟩
  · rintro ⟨i, hi⟩
    by_cases hic : i = curr
    · rw [hic, he] at hi
      cases hi
      exact ⟨gap, by rw [hcell, if_neg hne, if_pos rfl]⟩
    · have hig : i ≠ gap := by
        intro heq
        rw [heq, hgap] at hi
        simp at hi
      exact ⟨i, by rw [hcell, if_neg hic, if_neg hig]; exact hi⟩

theorem occupied_move
    (hgap : cell slots gap = none) (hlt : gap < slots.length) (he : cell slots curr = some e) :
    occupied ((slots.set gap (some e)).set curr none) = occupied slots := by
  have hne : curr ≠ gap := by
    intro heq
    rw [heq, hgap] at he
    simp at he
  have hstill : cell (slots.set gap (some e)) curr = some e := by
    rw [cell_set _ _ _ _ hlt, if_neg hne]
    exact he
  have hadd := occupied_set_of_free hlt hgap e
  have hsub := occupied_set_none hstill
  omega

/-- The scan ends, repairs the table and keeps its entries and their ranks.  Induction on
the fuel; `z` is a free slot ahead of the scan, so the walk to it bounds the rounds. -/
theorem shift_spec :
    ∀ (fuel : Nat) (slots : List (Option σ)) (gap curr z : Nat),
      Gapped key hash mask slots gap curr →
      (∀ i e, cell slots i = some e → desired e = hash (key e) &&& mask) →
      z < slots.length → z ≠ gap → cell slots z = none →
      dist slots.length gap curr ≤ dist slots.length gap z →
      dist slots.length curr z < fuel →
      ∃ out, shift desired mask fuel slots gap curr = some out ∧ Wf key hash mask out ∧
        out.length = slots.length ∧ occupied out = occupied slots ∧ SameEntries out slots ∧
        cell out z = none ∧
        ∀ rank, Ordered key hash mask rank slots → Ordered key hash mask rank out := by
  intro fuel
  induction fuel with
  | zero => intro slots gap curr z _ _ _ _ _ _ hfuel; omega
  | succ fuel ih =>
    intro slots gap curr z h hdes hz hzg hfree hahead hfuel
    cases hcell : cell slots curr with
    | none =>
      exact ⟨slots, by simp [shift, hcell], h.settled hcell, rfl, rfl, fun _ => Iff.rfl,
        hfree, fun _ ho => ho⟩
    | some e =>
      have hgap := h.gap_lt
      have hcurr := h.curr_lt
      have hne := h.curr_ne
      have hzc : z ≠ curr := by
        intro heq
        rw [heq, hcell] at hfree
        simp at hfree
      have hnext := h.masked.next_ne hcurr hz hzc
      have hnearer := h.masked.dist_next_left hcurr hz hzc
      cases hmv : movable gap curr (desired e) with
      | true =>
        have hmv' := hmv
        rw [hdes curr e hcell] at hmv'
        have hlen : ((slots.set gap (some e)).set curr none).length = slots.length := by
          simp
        have hsame := sameEntries_move h.gap_free hgap hcell
        obtain ⟨out, hout, hwf, hlen', hocc, hent, hzfree, hord⟩ :=
          ih ((slots.set gap (some e)).set curr none) curr (next mask curr) z
            (h.move hcell hmv' hnext)
            (fun i e' hi => by
              obtain ⟨j, hj⟩ := (hsame e').mp ⟨i, hi⟩
              exact hdes j e' hj)
            (by rw [hlen]; exact hz) hzc
            (by rw [cell_move hgap hcurr, if_neg hzc, if_neg hzg]; exact hfree)
            (by
              have hstep := h.masked.dist_next_of_ne hcurr hcurr hnext
              rw [dist_self] at hstep
              rw [hlen, hstep]
              exact dist_pos hcurr hzc)
            (by rw [hlen]; omega)
        refine ⟨out, by simpa [shift, hcell, hmv] using hout, hwf, hlen'.trans hlen, ?_, ?_,
          hzfree, fun rank ho => hord rank (h.move_ordered hcell hmv' ho)⟩
        · rw [hocc]
          exact occupied_move h.gap_free hgap hcell
        · exact fun e' => (hent e').trans (hsame e')
      | false =>
        have hmv' := hmv
        rw [hdes curr e hcell] at hmv'
        have hbefore : dist slots.length gap curr ≠ dist slots.length gap z := fun heq =>
          hzc (dist_inj hgap hcurr hz heq).symm
        have hturn := dist_lt hgap hz
        have hstep := h.masked.dist_next hgap hcurr (by omega)
        have hround : next mask curr ≠ gap := by
          intro heq
          rw [heq, dist_self] at hstep
          omega
        obtain ⟨out, hout, hrest⟩ := ih slots gap (next mask curr) z (h.keep hcell hmv' hround)
          hdes hz hzg hfree (by omega) (by omega)
        exact ⟨out, by simpa [shift, hcell, hmv] using hout, hrest⟩

/-- What the removal of slot `i` leaves: the other entries, where a search finds them. -/
def Closed (key : σ → κ) (hash : κ → Nat) (mask : Nat) (slots : List (Option σ)) (i : Nat)
    (out : List (Option σ)) : Prop :=
  Wf key hash mask out ∧ out.length = slots.length ∧
    occupied out = occupied (slots.set i none) ∧ SameEntries out (slots.set i none)

section Removal

variable {slots : List (Option σ)} {i : Nat} {e : σ}

/-- Removal from a table with a free slot `z`, which stays free. -/
theorem Wf.closed_of_spare (h : Wf key hash mask slots) (desired : σ → Nat)
    (hi : cell slots i = some e)
    (hdes : ∀ j e', cell slots j = some e' → desired e' = hash (key e') &&& mask) {z : Nat}
    (hz : z < slots.length) (hfree : cell slots z = none) :
    ∃ out, deleteAt desired mask slots i = some out ∧ Closed key hash mask slots i out ∧
      cell out z = none ∧
      ∀ rank, Ordered key hash mask rank slots → Ordered key hash mask rank out := by
  have hlt := lt_of_cell_eq_some hi
  have hzi : z ≠ i := by
    intro heq
    rw [heq, hi] at hfree
    simp at hfree
  have hlen : (slots.set i none).length = slots.length := List.length_set
  have hcell := fun j => cell_set slots i j none hlt
  have hnext := h.masked.next_ne hlt hz hzi
  have hstep := h.masked.dist_next_of_ne hlt hlt hnext
  rw [dist_self] at hstep
  have hgapped : Gapped key hash mask (slots.set i none) i (next mask i) := by
    refine ⟨by rw [hlen]; exact h.masked, ?_, by rw [hlen]; exact hlt,
      by rw [hlen]; exact h.masked.next_lt hlt, hnext, by rw [hcell, if_pos rfl], ?_, ?_⟩
    · intro a b e₁ e₂ ha hb
      rw [hcell] at ha hb
      split_ifs at ha hb
      exact h.unique a b e₁ e₂ ha hb
    · intro a ha hpos hnear
      rw [hlen] at ha hpos hnear
      omega
    · intro a e' ha j hj hjg hnear
      rw [hlen] at hj hnear
      rw [hcell] at ha
      rw [hcell, if_neg hjg]
      split_ifs at ha
      exact h.reach a e' ha j hj hnear
  have hdes' : ∀ j e', cell (slots.set i none) j = some e' →
      desired e' = hash (key e') &&& mask := by
    intro j e' hj
    rw [hcell] at hj
    split_ifs at hj
    exact hdes j e' hj
  have hroom : dist slots.length (next mask i) z < slots.length * slots.length + 1 := by
    have hd := dist_lt (h.masked.next_lt hlt) hz
    have hsq : slots.length ≤ slots.length * slots.length := Nat.le_mul_self _
    omega
  have hahead : dist slots.length i (next mask i) ≤ dist slots.length i z := by
    rw [hstep]
    exact dist_pos hlt hzi
  obtain ⟨out, hout, hwf, hlen', hocc, hent, hzfree, hord⟩ :=
    shift_spec (slots.length * slots.length + 1) (slots.set i none) i (next mask i) z hgapped
      hdes' (by rw [hlen]; exact hz) hzi (by rw [hcell, if_neg hzi]; exact hfree)
      (by rw [hlen]; exact hahead) (by rw [hlen]; exact hroom)
  exact ⟨out, hout, ⟨hwf, hlen'.trans hlen, hocc, hent⟩, hzfree,
    fun rank ho => hord rank (ho.set_none hlt)⟩

theorem wf_single {p : Nat} (hm : Masked slots.length mask)
    (honly : ∀ j e', cell slots j = some e' → j = p ∧ hash (key e') &&& mask = p) :
    Wf key hash mask slots := by
  refine ⟨hm, ?_, ?_⟩
  · intro j e' hj k _ hlt
    obtain ⟨rfl, hhome⟩ := honly j e' hj
    rw [hhome, dist_self] at hlt
    exact absurd hlt (Nat.not_lt_zero _)
  · intro j k e₁ e₂ hj hk _
    rw [(honly j e₁ hj).1, (honly k e₂ hk).1]

/-- In a full table of two slots the other entry ends up at home. -/
theorem Wf.closed_pair {a b : σ} (h : Wf key hash mask [some a, some b]) (desired : σ → Nat)
    (hdes : ∀ j e', cell [some a, some b] j = some e' → desired e' = hash (key e') &&& mask)
    (hi : i < 2) :
    ∃ out, deleteAt desired mask [some a, some b] i = some out ∧
      Closed key hash mask [some a, some b] i out := by
  obtain rfl : mask = 1 := h.masked.mask_eq
  have hda : desired a = 0 ∨ desired a = 1 := by
    have hlt := h.masked.and_lt (hash (key a))
    rw [← hdes 0 a rfl] at hlt
    simp only [List.length_cons, List.length_nil] at hlt
    omega
  have hdb : desired b = 0 ∨ desired b = 1 := by
    have hlt := h.masked.and_lt (hash (key b))
    rw [← hdes 1 b rfl] at hlt
    simp only [List.length_cons, List.length_nil] at hlt
    omega
  have hhome : ∀ (c : σ) (p : Nat), desired c = p → desired c = hash (key c) &&& 1 →
      Wf key hash 1 (if p = 0 then [some c, none] else [none, some c]) ∨ 1 < p := by
    intro c p hp hc
    rcases p with _ | _ | p
    · refine .inl (wf_single h.masked (p := 0) ?_)
      intro j e' hj
      rcases j with _ | _ | j <;> simp [cell] at hj
      subst hj
      exact ⟨rfl, by rw [← hc, hp]⟩
    · refine .inl (wf_single h.masked (p := 1) ?_)
      intro j e' hj
      rcases j with _ | _ | j <;> simp [cell] at hj
      subst hj
      exact ⟨rfl, by rw [← hc, hp]⟩
    · exact .inr (by omega)
  have hswap : ∀ c : σ, SameEntries [some c, none] [none, some c] := by
    intro c e'
    rw [← mem_iff_cell, ← mem_iff_cell]
    simp
  have hma := hhome a _ rfl (hdes 0 a rfl)
  have hmb := hhome b _ rfl (hdes 1 b rfl)
  rcases i with _ | _ | i
  · rcases hdb with hd | hd <;> rw [hd] at hmb
    · refine ⟨[some b, none], by simp [deleteAt, shift, cell, next, movable, hd], ?_⟩
      exact ⟨by simpa using hmb, rfl, by simp [occupied], hswap b⟩
    · refine ⟨[none, some b], by simp [deleteAt, shift, cell, next, movable, hd], ?_⟩
      exact ⟨by simpa using hmb, rfl, by simp [occupied], fun _ => Iff.rfl⟩
  · rcases hda with hd | hd <;> rw [hd] at hma
    · refine ⟨[some a, none], by simp [deleteAt, shift, cell, next, movable, hd], ?_⟩
      exact ⟨by simpa using hma, rfl, by simp [occupied], fun _ => Iff.rfl⟩
    · refine ⟨[none, some a], by simp [deleteAt, shift, cell, next, movable, hd], ?_⟩
      exact ⟨by simpa using hma, rfl, by simp [occupied], fun e' => (hswap a e').symm⟩
  · omega

theorem Wf.closed_of_small (h : Wf key hash mask slots) (desired : σ → Nat)
    (hi : cell slots i = some e)
    (hdes : ∀ j e', cell slots j = some e' → desired e' = hash (key e') &&& mask)
    (hsmall : slots.length ≤ 2) (hfull : ∀ z, z < slots.length → cell slots z ≠ none) :
    ∃ out, deleteAt desired mask slots i = some out ∧ Closed key hash mask slots i out := by
  have hlt := lt_of_cell_eq_some hi
  match slots, h, hi, hdes, hsmall, hfull, hlt with
  | [x], h, hi, _, _, _, hlt =>
    obtain rfl : i = 0 := by simpa using hlt
    obtain rfl : mask = 0 := h.masked.mask_eq
    refine ⟨[none], by simp [deleteAt, shift, cell, next], wf_single h.masked (p := 0) ?_, rfl,
      by simp, fun _ => by simp⟩
    intro j e' hj
    rcases j with _ | j <;> simp [cell] at hj
  | [some a, some b], h, _, hdes, _, _, hlt => exact h.closed_pair desired hdes hlt
  | [none, _], _, _, _, _, hfull, _ => exact absurd rfl (hfull 0 (by simp))
  | [some _, none], _, _, _, _, hfull, _ => exact absurd rfl (hfull 1 (by simp))

/-- Removing the entry in slot `i` of a table with a free slot, or of a table so small that
the scan comes around to its own gap. -/
theorem Wf.deleteAt [DecidableEq κ] (h : Wf key hash mask slots) (desired : σ → Nat)
    (hi : cell slots i = some e)
    (hdes : ∀ j e', cell slots j = some e' → desired e' = hash (key e') &&& mask)
    (hspare : (∃ z, z < slots.length ∧ cell slots z = none) ∨ slots.length ≤ 2) :
    ∃ out, deleteAt desired mask slots i = some out ∧ Wf key hash mask out ∧
      out.length = slots.length ∧ occupied out + 1 = occupied slots ∧
      lookup key out = Function.update (lookup key slots) (key e) none ∧
      (∀ e', (∃ j, cell out j = some e') ↔ (∃ j, cell slots j = some e') ∧ key e' ≠ key e) := by
  have hlt := lt_of_cell_eq_some hi
  have hcell := fun j => cell_set slots i j none hlt
  have hclosed : ∃ out, Probing.deleteAt desired mask slots i = some out ∧
      Closed key hash mask slots i out := by
    by_cases hz : ∃ z, z < slots.length ∧ cell slots z = none
    · obtain ⟨z, hz, hfree⟩ := hz
      obtain ⟨out, hout, hclosed, _⟩ := h.closed_of_spare desired hi hdes hz hfree
      exact ⟨out, hout, hclosed⟩
    · refine h.closed_of_small desired hi hdes (hspare.resolve_left hz) ?_
      exact fun z hlt hfree => hz ⟨z, hlt, hfree⟩
  obtain ⟨out, hout, hwf, hlen', hocc, hent⟩ := hclosed
  have hstored : ∀ e', (∃ j, cell (slots.set i none) j = some e') ↔
      (∃ j, cell slots j = some e') ∧ key e' ≠ key e := by
    intro e'
    constructor
    · rintro ⟨j, hj⟩
      rw [hcell] at hj
      split_ifs at hj with hji
      exact ⟨⟨j, hj⟩, fun hkey => hji (h.unique j i e' e hj hi hkey)⟩
    · rintro ⟨⟨j, hj⟩, hkey⟩
      have hji : j ≠ i := by
        intro heq
        rw [heq, hi] at hj
        cases hj
        exact hkey rfl
      exact ⟨j, by rw [hcell, if_neg hji]; exact hj⟩
  have hall : ∀ e', (∃ j, cell out j = some e') ↔
      (∃ j, cell slots j = some e') ∧ key e' ≠ key e :=
    fun e' => (hent e').trans (hstored e')
  refine ⟨out, hout, hwf, hlen', ?_, funext fun k => ?_, hall⟩
  · rw [hocc]
    exact occupied_set_none hi
  · by_cases hk : k = key e
    · subst hk
      rw [Function.update_self, hwf.lookup_eq_none]
      intro j e' hj
      exact ((hall e').mp ⟨j, hj⟩).2
    · rw [Function.update_of_ne hk]
      cases hold : lookup key slots k with
      | none =>
        rw [hwf.lookup_eq_none]
        intro j e' hj
        obtain ⟨j', hj'⟩ := ((hall e').mp ⟨j, hj⟩).1
        exact h.lookup_eq_none.mp hold j' e' hj'
      | some e' =>
        obtain ⟨hst, hkey⟩ := h.lookup_eq_some.mp hold
        rw [hwf.lookup_eq_some]
        exact ⟨(hall e').mpr ⟨hst, by rw [hkey]; exact hk⟩, hkey⟩

end Removal

/-- How far the entry in slot `i` is from its home. -/
def strayed (desired : σ → Nat) (slots : List (Option σ)) (i : Nat) : Nat :=
  (cell slots i).elim 0 fun e => dist slots.length (desired e) i

/-- The sum over the table. -/
def displacement (desired : σ → Nat) (slots : List (Option σ)) : Nat :=
  ∑ i ∈ Finset.range slots.length, strayed desired slots i

theorem displacement_move
    (hgap : gap < slots.length) (hcurr : curr < slots.length) (hhole : cell slots gap = none)
    (he : cell slots curr = some e) (hhome : desired e < slots.length)
    (hmv : movable gap curr (desired e) = true) :
    displacement desired ((slots.set gap (some e)).set curr none) + dist slots.length gap curr =
      displacement desired slots := by
  have hne : curr ≠ gap := by
    rintro rfl
    rw [hhole] at he
    cases he
  have hnear := dist_of_movable hgap hhome hmv
  have hlen : ((slots.set gap (some e)).set curr none).length = slots.length := by simp
  have hmem : curr ∈ (Finset.range slots.length).erase gap :=
    Finset.mem_erase.mpr ⟨hne, Finset.mem_range.mpr hcurr⟩
  -- the two slots apart, the sums have the same terms
  have hsplit : ∀ f : Nat → Nat, ∑ i ∈ Finset.range slots.length, f i =
      f gap + (f curr + ∑ i ∈ ((Finset.range slots.length).erase gap).erase curr, f i) := by
    intro f
    rw [Finset.add_sum_erase _ f hmem, Finset.add_sum_erase _ f (Finset.mem_range.mpr hgap)]
  have hrest : ∑ i ∈ ((Finset.range slots.length).erase gap).erase curr,
        strayed desired ((slots.set gap (some e)).set curr none) i =
      ∑ i ∈ ((Finset.range slots.length).erase gap).erase curr, strayed desired slots i := by
    refine Finset.sum_congr rfl fun i hi => ?_
    obtain ⟨hic, hi⟩ := Finset.mem_erase.mp hi
    rw [strayed, cell_move hgap hcurr, if_neg hic, if_neg (Finset.mem_erase.mp hi).1, hlen, strayed]
  have hnewGap : strayed desired ((slots.set gap (some e)).set curr none) gap =
      dist slots.length (desired e) gap := by
    rw [strayed, cell_move hgap hcurr, if_neg hne.symm, if_pos rfl, hlen, Option.elim_some]
  have hnewCurr : strayed desired ((slots.set gap (some e)).set curr none) curr = 0 := by
    rw [strayed, cell_move hgap hcurr, if_pos rfl, Option.elim_none]
  have holdGap : strayed desired slots gap = 0 := by rw [strayed, hhole, Option.elim_none]
  have holdCurr : strayed desired slots curr = dist slots.length (desired e) curr := by
    rw [strayed, he, Option.elim_some]
  rw [displacement, hlen, hsplit, hrest, hnewGap, hnewCurr, displacement, hsplit (strayed desired slots),
    holdGap, holdCurr]
  omega

/-- Each entry is less than a turn away, and the gap is free. -/
theorem displacement_le (desired : σ → Nat) (slots : List (Option σ)) {gap : Nat}
    (hgap : gap < slots.length) (hhole : cell slots gap = none)
    (hhome : ∀ e, desired e < slots.length) :
    displacement desired slots ≤ (slots.length - 1) * (slots.length - 1) := by
  have hone : ∀ i ∈ (Finset.range slots.length).erase gap,
      strayed desired slots i ≤ slots.length - 1 := by
    intro i hi
    have hlt := Finset.mem_range.mp (Finset.mem_erase.mp hi).2
    unfold strayed
    cases cell slots i with
    | none => exact Nat.zero_le _
    | some e => exact Nat.le_sub_one_of_lt (dist_lt (hhome e) hlt)
  have hsum := Finset.sum_le_card_nsmul _ _ _ hone
  rw [Finset.card_erase_of_mem (Finset.mem_range.mpr hgap), Finset.card_range, smul_eq_mul] at hsum
  have hfree : strayed desired slots gap = 0 := by rw [strayed, hhole, Option.elim_none]
  rw [displacement, ← Finset.add_sum_erase _ _ (Finset.mem_range.mpr hgap), hfree, Nat.zero_add]
  exact hsum

/-- The scan ends in every table.  Induction on the fuel: a move brings an entry nearer by what
the scan has to walk again, any other step uses up one slot of the turn. -/
theorem shift_total {n : Nat} (hm : Masked n mask) (hhome : ∀ e, desired e < n) :
    ∀ (fuel : Nat) (slots : List (Option σ)) (gap curr : Nat),
      slots.length = n → gap < n → curr < n → cell slots gap = none →
      (curr ≠ gap → displacement desired slots + (n - dist n gap curr) < fuel) → 0 < fuel →
      ∃ out, shift desired mask fuel slots gap curr = some out ∧ out.length = n ∧
        occupied out = occupied slots := by
  intro fuel
  induction fuel with
  | zero =>
    intro slots gap curr _ _ _ _ _ hfuel
    omega
  | succ fuel ih =>
    intro slots gap curr hlen hgap hcurr hhole hfuel _
    unfold shift
    cases hcell : cell slots curr with
    | none => exact ⟨slots, rfl, hlen, rfl⟩
    | some e =>
      have hne : curr ≠ gap := by
        rintro rfl
        rw [hhole] at hcell
        cases hcell
      have hnextLt := hm.next_lt hcurr
      have hturn := dist_lt hgap hcurr
      have hfuel := hfuel hne
      subst hlen
      dsimp only
      split
      · rename_i hmv
        have hnearer := displacement_move hgap hcurr hhole hcell (hhome e) hmv
        have hstep := hm.dist_next_of_ne hcurr hcurr (hm.next_ne hcurr hgap hne.symm)
        rw [dist_self] at hstep
        obtain ⟨out, hout, hlen', hocc⟩ := ih ((slots.set gap (some e)).set curr none) curr
          (next mask curr) (by simp) hcurr hnextLt
          (by rw [cell_move hgap hcurr, if_pos rfl]) (fun _ => by omega) (by omega)
        exact ⟨out, hout, hlen', hocc.trans (occupied_move hhole hgap hcell)⟩
      · refine ih slots gap (next mask curr) rfl hgap hnextLt hhole (fun hround => ?_) (by omega)
        have hstep := hm.dist_next_of_ne hgap hcurr hround
        omega

theorem deleteAt_total (desired : σ → Nat) {i : Nat} (hm : Masked slots.length mask)
    (hi : i < slots.length) (hhome : ∀ e, desired e < slots.length) :
    ∃ out, deleteAt desired mask slots i = some out ∧ out.length = slots.length ∧
      occupied out = occupied (slots.set i none) := by
  have hlen : (slots.set i none).length = slots.length := List.length_set
  have hhole : cell (slots.set i none) i = none := by rw [cell_set _ _ _ _ hi, if_pos rfl]
  have hsum := displacement_le desired (slots.set i none) (hlen.symm ▸ hi) hhole
    (by rw [hlen]; exact hhome)
  rw [hlen] at hsum
  refine shift_total hm hhome _ _ i _ hlen hi (hm.next_lt hi) hhole (fun hround => ?_)
    (Nat.succ_pos _)
  have hstep := hm.dist_next_of_ne hi hi hround
  rw [dist_self] at hstep
  have hsq : (slots.length - 1) * (slots.length - 1) + (slots.length - 1) ≤
      slots.length * slots.length := by
    rw [← Nat.mul_succ]
    exact Nat.mul_le_mul (Nat.sub_le _ _) (by omega)
  omega

/-- Seen from the slot that was freed, the scan moves entries back only.  `z` is a free
slot that the scan does not pass. -/
theorem shift_backward {n i z : Nat} (hm : Masked n mask) (hi : i < n) (hz : z < n) :
    ∀ (fuel : Nat) (slots out : List (Option σ)) (gap curr : Nat),
      shift desired mask fuel slots gap curr = some out →
      slots.length = n → gap < n → curr < n → cell slots z = none →
      dist n i gap < dist n i curr → dist n i curr ≤ dist n i z →
      ∀ p e, cell out p = some e → ∃ p', cell slots p' = some e ∧ dist n i p ≤ dist n i p' := by
  intro fuel
  induction fuel with
  | zero =>
    intro slots out gap curr h
    cases h
  | succ fuel ih =>
    intro slots out gap curr h hlen hgap hcurr hfree hbehind hahead p e hp
    unfold shift at h
    cases hcell : cell slots curr with
    | none =>
      simp only [hcell] at h
      cases h
      exact ⟨p, hp, Nat.le_refl _⟩
    | some c =>
      have hne : dist n i curr ≠ dist n i z := by
        intro heq
        rw [dist_inj hi hcurr hz heq, hfree] at hcell
        simp at hcell
      have hzn := dist_lt hi hz
      have hnext : dist n i (next mask curr) = dist n i curr + 1 :=
        hm.dist_next hi hcurr (by omega)
      have hnextLt := hm.next_lt hcurr
      simp only [hcell] at h
      split at h
      · have hz' : cell ((slots.set gap (some c)).set curr none) z = none := by
          rw [cell_set _ _ _ _ (by simpa [hlen] using hcurr), cell_set _ _ _ _ (by omega),
            if_neg (by rintro rfl; omega), if_neg (by rintro rfl; omega)]
          exact hfree
        obtain ⟨q, hq, hpq⟩ := ih _ out curr (next mask curr) h (by simpa using hlen) hcurr
          hnextLt hz' (by omega) (by omega) p e hp
        rw [cell_set _ _ _ _ (by simpa [hlen] using hcurr), cell_set _ _ _ _ (by omega)] at hq
        split_ifs at hq with hqc hqg
        · -- the entry that filled the gap came from further on
          cases hq
          exact ⟨curr, hcell, by rw [hqg] at hpq; omega⟩
        · exact ⟨q, hq, hpq⟩
      · exact ih slots out gap (next mask curr) h hlen hgap hnextLt hfree (by omega) (by omega)
          p e hp

theorem deleteAt_backward {slots out : List (Option σ)} {i z : Nat} (hm : Masked slots.length mask)
    (hi : i < slots.length) (hz : z < slots.length)
    (hzi : z ≠ i) (hfree : cell slots z = none) (h : deleteAt desired mask slots i = some out)
    {p : Nat} (hp : cell out p = some e) :
    ∃ p', cell slots p' = some e ∧ dist slots.length i p ≤ dist slots.length i p' := by
  have hcell := fun j => cell_set slots i j none hi
  have hpos := dist_pos hi hzi
  have hzn := dist_lt hi hz
  have hnext : dist slots.length i (next mask i) = dist slots.length i i + 1 :=
    hm.dist_next hi hi (by rw [dist_self]; omega)
  rw [dist_self] at hnext
  obtain ⟨p', hp', hle⟩ := shift_backward hm hi hz _ _ out i (next mask i) h List.length_set hi
    (hm.next_lt hi) (by rw [hcell, if_neg hzi]; exact hfree) (by rw [dist_self]; omega)
    (by omega) p e hp
  rw [hcell] at hp'
  split_ifs at hp' with hpi
  exact ⟨p', hp', hle⟩

end Erase

end Horreum.Foundation.Probing
