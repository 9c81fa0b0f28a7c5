/-
  Foundation/ProbingOrder.lean --- passes over a linear-probing table that remove as they go.

  Seen from behind a free slot such a table is a queue: an entry stands in the first slot from its home
  that the entries ranked before it leave (`Lined`).

  `Weeded` goes from entry to entry in the order of their ranks.  `Swept` goes from slot to slot, so
  that an entry drawn into the slot just cleared is passed over.  They remove the same entries
  (`Swept.entries_iff`).
-/
import Horreum.Foundation.ProbingErase

set_option autoImplicit false

namespace Horreum.Foundation.Probing

section Line

variable {σ : Type} {home rank : σ → Nat} {n base : Nat} {slots slots' : List (Option σ)} {x : σ}

/-- Every entry has entries of lower rank between its home and itself. -/
structure Lined (home rank : σ → Nat) (n base : Nat) (slots : List (Option σ)) : Prop where
  base_lt : base < n
  length : slots.length = n
  home_le : ∀ i e, cell slots i = some e → dist n base (home e) ≤ dist n base i
  ahead : ∀ i e, cell slots i = some e → ∀ j, j < n → dist n base (home e) ≤ dist n base j →
    dist n base j < dist n base i → ∃ e', cell slots j = some e' ∧ rank e' < rank e

namespace Lined

theorem slot_lt (h : Lined home rank n base slots) {i : Nat} {e : σ} (hi : cell slots i = some e) :
    i < n := h.length ▸ lt_of_cell_eq_some hi

/-- With fewer entries ranked before it an entry stands at the same place or further in front.
Induction on the rank: the entry that would keep it out of the slot stands there in the other
table as well, or behind it. -/
theorem place_le (h : Lined home rank n base slots) (h' : Lined home rank n base slots')
    {i i' : Nat} (hsub : ∀ y j, cell slots' j = some y → rank y < rank x →
      dist n base j < dist n base i' → y ∈ entries slots)
    (hx : cell slots i = some x) (hx' : cell slots' i' = some x) :
    dist n base i' ≤ dist n base i := by
  have hall : ∀ (r : Nat) (y : σ) (j j' : Nat), rank y = r → rank y ≤ rank x →
      cell slots j = some y → cell slots' j' = some y → dist n base j' ≤ dist n base i' →
      dist n base j' ≤ dist n base j := by
    intro r
    induction r using Nat.strongRecOn with
    | ind r ih =>
      intro y j j' hr hle hj hj' hpos
      by_contra hlt
      obtain ⟨w, hw, hrank⟩ :=
        h'.ahead j' y hj' j (h.slot_lt hj) (h.home_le j y hj) (Nat.lt_of_not_le hlt)
      obtain ⟨k, hk⟩ := mem_entries.mp (hsub w j hw (by omega) (by omega))
      have hback := ih (rank w) (by omega) w k j rfl (by omega) hk hw (by omega)
      have hne : dist n base j ≠ dist n base k := by
        intro heq
        obtain rfl := dist_inj h.base_lt (h.slot_lt hj) (h.slot_lt hk) heq
        cases hj.symm.trans hk
        omega
      obtain ⟨v, hv, hvw⟩ := h.ahead k w hk j (h.slot_lt hj) (h'.home_le j w hw) (by omega)
      cases hj.symm.trans hv
      omega
  exact hall (rank x) x i i' rfl (Nat.le_refl _) hx hx' (Nat.le_refl _)

/-- An entry stands in the same slot of two tables when, as far as that slot, they have the same
entries ranked before it. -/
theorem place_eq (h : Lined home rank n base slots) (h' : Lined home rank n base slots')
    {i i' : Nat} (hfrom : ∀ y ∈ entries slots', rank y < rank x → y ∈ entries slots)
    (hto : ∀ y j, cell slots j = some y → rank y < rank x → dist n base j < dist n base i →
      y ∈ entries slots')
    (hx : cell slots i = some x) (hx' : cell slots' i' = some x) : i = i' :=
  dist_inj h.base_lt (h.slot_lt hx) (h'.slot_lt hx') (Nat.le_antisymm (h'.place_le h hto hx' hx)
    (h.place_le h' (fun y j hj hlt _ => hfrom y (mem_entries.mpr ⟨j, hj⟩) hlt) hx hx'))

theorem unique (h : Lined home rank n base slots) {i j : Nat} {e : σ} (hi : cell slots i = some e)
    (hj : cell slots j = some e) : i = j :=
  h.place_eq h (fun _ hy _ => hy) (fun _ k hk _ _ => mem_entries.mpr ⟨k, hk⟩) hi hj

end Lined

/-! ## Entry by entry -/

/-- Slot `i` is where `x` stands once the entries ranked before it that are missing in `slots'`
have been removed from `slots`. -/
def TurnAt (home rank : σ → Nat) (n base : Nat) (slots slots' : List (Option σ)) (x : σ)
    (i : Nat) : Prop :=
  ∃ out, Lined home rank n base out ∧ cell out i = some x ∧
    ∀ e, e ∈ entries out ↔ e ∈ entries slots ∧ (e ∈ entries slots' ∨ rank x ≤ rank e)

theorem TurnAt.unique {i j : Nat} (h : TurnAt home rank n base slots slots' x i)
    (h' : TurnAt home rank n base slots slots' x j) : i = j := by
  obtain ⟨out, hl, hi, hout⟩ := h
  obtain ⟨out', hl', hj, hout'⟩ := h'
  exact hl.place_eq hl' (fun y hy _ => (hout y).mpr ((hout' y).mp hy))
    (fun y k hk _ _ => (hout' y).mpr ((hout y).mp (mem_entries.mpr ⟨k, hk⟩))) hi hj

theorem TurnAt.slot_lt {i : Nat} (h : TurnAt home rank n base slots slots' x i) : i < n := by
  obtain ⟨out, hl, hi, _⟩ := h
  exact hl.slot_lt hi

theorem TurnAt.home_le {i : Nat} (h : TurnAt home rank n base slots slots' x i) :
    dist n base (home x) ≤ dist n base i := by
  obtain ⟨out, hl, hi, _⟩ := h
  exact hl.home_le i x hi

/-- The first to be removed has its turn where it stands. -/
theorem Lined.turnAt_first (hl : Lined home rank n base slots) {w : σ} {i : Nat}
    (hw : cell slots i = some w)
    (hlater : ∀ e ∈ entries slots, e ∉ entries slots' → rank w ≤ rank e) :
    TurnAt home rank n base slots slots' w i := by
  refine ⟨slots, hl, hw, fun e => ⟨fun he => ⟨he, ?_⟩, And.left⟩⟩
  by_cases hstay : e ∈ entries slots'
  · exact .inl hstay
  · exact .inr (hlater e he hstay)

/-- A table that has the entries of `slots` that are to stay, and in front of slot `i` only those:
what stands there stood there at the turn of `e`. -/
theorem Lined.place_in_turn {cur t : List (Option σ)} {x e : σ} {i j : Nat}
    (hl : Lined home rank n base cur)
    (hsub : ∀ k y, cell cur k = some y → y ∈ entries slots)
    (hstay : ∀ y, y ∈ entries slots → y ∈ entries slots' → y ∈ entries cur)
    (hfront : ∀ k y, cell cur k = some y → dist n base k < dist n base i → y ∈ entries slots')
    (ht : Lined home rank n base t)
    (hmem : ∀ y, y ∈ entries t ↔ y ∈ entries slots ∧ (y ∈ entries slots' ∨ rank e ≤ rank y))
    (hle : rank x ≤ rank e) (hx : cell cur i = some x) (hxt : cell t j = some x) : i = j := by
  refine hl.place_eq ht (fun y hy hlt => ?_) (fun y k hk _ hlt => ?_) hx hxt
  · obtain ⟨hin, hy' | hle'⟩ := (hmem y).mp hy
    · exact hstay y hin hy'
    · omega
  · exact (hmem y).mpr ⟨hsub k y hk, .inl (hfront k y hk hlt)⟩

/-- For the later ones it makes no difference that an earlier one is gone already. -/
theorem turnAt_removed_iff {mid : List (Option σ)} {w x : σ}
    (hmid : ∀ e, e ∈ entries mid ↔ e ∈ entries slots ∧ e ≠ w) (hgone : w ∉ entries slots')
    (hlt : rank w < rank x) (i : Nat) :
    TurnAt home rank n base mid slots' x i ↔ TurnAt home rank n base slots slots' x i := by
  have hsame : ∀ e, (e ∈ entries mid ∧ (e ∈ entries slots' ∨ rank x ≤ rank e)) ↔
      e ∈ entries slots ∧ (e ∈ entries slots' ∨ rank x ≤ rank e) := by
    intro e
    rw [hmid, and_assoc]
    refine and_congr_right fun _ => ⟨And.right, fun hor => ⟨?_, hor⟩⟩
    rintro rfl
    rcases hor with hstay | hle
    · exact hgone hstay
    · omega
  simp only [TurnAt, hsame]

/-- Of the entries that `pick` names, in the order of their ranks, those were removed that stood in
a slot `inside` at their turn from which none had been removed. -/
structure Weeded (home rank : σ → Nat) (n base : Nat) (pick : σ → Prop) (inside : Nat → Prop)
    (slots slots' : List (Option σ)) : Prop where
  lined : Lined home rank n base slots
  rank_inj : ∀ e ∈ entries slots, ∀ e' ∈ entries slots, rank e = rank e' → e = e'
  sub : ∀ e ∈ entries slots', e ∈ entries slots
  picked : ∀ e ∈ entries slots, e ∉ entries slots' → pick e
  turn : ∀ e ∈ entries slots, pick e → ∃ i, TurnAt home rank n base slots slots' e i ∧
    (e ∉ entries slots' ↔ inside i ∧ ∀ d ∈ entries slots, d ∉ entries slots' →
      rank d < rank e → ¬ TurnAt home rank n base slots slots' d i)

namespace Weeded

variable {pick : σ → Prop} {inside : Nat → Prop} {mid : List (Option σ)} {es : List σ} {w : σ}
  {i : Nat}

theorem nil (hl : Lined home rank n base slots)
    (hinj : ∀ e ∈ entries slots, ∀ e' ∈ entries slots, rank e = rank e' → e = e') :
    Weeded home rank n base (· ∈ ([] : List σ)) inside slots slots :=
  ⟨hl, hinj, fun _ he => he, fun _ he hnot => absurd he hnot, fun _ _ hin => nomatch hin⟩

/-- The first in line stays. -/
theorem keep (hw : cell slots i = some w) (hrank : ∀ e ∈ es, rank w < rank e) (hout : ¬ inside i)
    (h : Weeded home rank n base (· ∈ es) inside slots slots') :
    Weeded home rank n base (· ∈ w :: es) inside slots slots' := by
  have hstay : w ∈ entries slots' := by
    by_contra hgone
    exact Nat.lt_irrefl _ (hrank w (h.picked w (mem_entries.mpr ⟨i, hw⟩) hgone))
  have hfirst : TurnAt home rank n base slots slots' w i :=
    h.lined.turnAt_first hw fun e he hgone => Nat.le_of_lt (hrank e (h.picked e he hgone))
  refine ⟨h.lined, h.rank_inj, h.sub, fun e he hgone => List.mem_cons_of_mem _ (h.picked e he hgone),
    fun e he hin => ?_⟩
  rcases List.mem_cons.mp hin with rfl | hin
  · exact ⟨i, hfirst, fun hgone => absurd hstay hgone, fun hr => absurd hr.1 hout⟩
  · exact h.turn e he hin

/-- The first in line is removed, and no other one from its slot. -/
theorem remove (hl : Lined home rank n base slots)
    (hinj : ∀ e ∈ entries slots, ∀ e' ∈ entries slots, rank e = rank e' → e = e')
    (hw : cell slots i = some w) (hrank : ∀ e ∈ es, rank w < rank e) (hin : inside i)
    (hmid : ∀ e, e ∈ entries mid ↔ e ∈ entries slots ∧ e ≠ w)
    (h : Weeded home rank n base (· ∈ es) (fun j => inside j ∧ j ≠ i) mid slots') :
    Weeded home rank n base (· ∈ w :: es) inside slots slots' := by
  have hwin : w ∈ entries slots := mem_entries.mpr ⟨i, hw⟩
  have hgone : w ∉ entries slots' := fun hw' => ((hmid w).mp (h.sub w hw')).2 rfl
  have hpicked : ∀ e ∈ entries slots, e ∉ entries slots' → e ∈ w :: es := by
    intro e he hout
    by_cases hew : e = w
    · exact hew ▸ List.mem_cons_self
    · exact List.mem_cons_of_mem _ (h.picked e ((hmid e).mpr ⟨he, hew⟩) hout)
  have hlater : ∀ e ∈ entries slots, e ∉ entries slots' → rank w ≤ rank e := by
    intro e he hout
    rcases List.mem_cons.mp (hpicked e he hout) with rfl | hes
    · exact Nat.le_refl _
    · exact Nat.le_of_lt (hrank e hes)
  have hfirst := hl.turnAt_first hw hlater
  refine ⟨hl, hinj, fun e he => ((hmid e).mp (h.sub e he)).1, hpicked, fun e he hpick => ?_⟩
  rcases List.mem_cons.mp hpick with rfl | hes
  · exact ⟨i, hfirst, fun _ => ⟨hin, fun d hd hout hlt => absurd (hlater d hd hout) (by omega)⟩,
      fun _ => hgone⟩
  · have hlt := hrank e hes
    have hne : e ≠ w := by
      rintro rfl
      exact Nat.lt_irrefl _ hlt
    obtain ⟨j, hj, hiff⟩ := h.turn e ((hmid e).mpr ⟨he, hne⟩) hes
    refine ⟨j, (turnAt_removed_iff hmid hgone hlt j).mp hj, fun hout => ?_,
      fun hr => hiff.mpr ⟨⟨hr.1, ?_⟩, ?_⟩⟩
    · obtain ⟨⟨hjin, hji⟩, hothers⟩ := hiff.mp hout
      refine ⟨hjin, fun d hd hdout hdlt hdj => ?_⟩
      by_cases hdw : d = w
      · exact hji ((hdw ▸ hdj).unique hfirst)
      · have hdmid := (hmid d).mpr ⟨hd, hdw⟩
        exact hothers d hdmid hdout hdlt
          ((turnAt_removed_iff hmid hgone (hrank d (h.picked d hdmid hdout)) j).mpr hdj)
    · rintro rfl
      exact hr.2 w hwin hgone hlt hfirst
    · intro d hd hdout hdlt hdj
      exact hr.2 d ((hmid d).mp hd).1 hdout hdlt
        ((turnAt_removed_iff hmid hgone (hrank d (h.picked d hd hdout)) j).mp hdj)

/-- Where a removed entry stood at its turn. -/
theorem turn_of_gone (h : Weeded home rank n base pick inside slots slots') {e : σ}
    (he : e ∈ entries slots) (hgone : e ∉ entries slots') :
    ∃ i, TurnAt home rank n base slots slots' e i ∧ inside i := by
  obtain ⟨i, hi, hiff⟩ := h.turn e he (h.picked e he hgone)
  exact ⟨i, hi, (hiff.mp hgone).1⟩

theorem eq_of_turnAt (h : Weeded home rank n base pick inside slots slots') {d e : σ}
    (hd : d ∈ entries slots) (hdgone : d ∉ entries slots') (he : e ∈ entries slots)
    (hegone : e ∉ entries slots') (hdi : TurnAt home rank n base slots slots' d i)
    (hei : TurnAt home rank n base slots slots' e i) : d = e := by
  have hnot : ∀ a b, a ∈ entries slots → a ∉ entries slots' → b ∈ entries slots →
      b ∉ entries slots' → TurnAt home rank n base slots slots' a i →
      TurnAt home rank n base slots slots' b i → ¬ rank a < rank b := by
    intro a b ha hagone hb hbgone hai hbi hlt
    obtain ⟨j, hj, hiff⟩ := h.turn b hb (h.picked b hb hbgone)
    obtain rfl := hj.unique hbi
    exact (hiff.mp hbgone).2 a ha hagone hlt hai
  have h₁ := hnot d e hd hdgone he hegone hdi hei
  have h₂ := hnot e d he hegone hd hdgone hei hdi
  exact h.rank_inj d hd e he (by omega)

end Weeded

/-! ## Slot by slot -/

/-- The pass over the slots before position `r`, counted from `base`: the entries were removed
whose turn was at one of these, and what stands there now is to stay. -/
structure Swept (home rank : σ → Nat) (n base : Nat) (slots slots' : List (Option σ)) (r : Nat)
    (cur : List (Option σ)) : Prop where
  lined : Lined home rank n base cur
  stored : ∀ e, e ∈ entries cur ↔ e ∈ entries slots ∧ (e ∈ entries slots' ∨
    ∀ i, TurnAt home rank n base slots slots' e i → r ≤ dist n base i)
  passed : ∀ i e, cell cur i = some e → dist n base i < r → e ∈ entries slots'

namespace Swept

variable {pick : σ → Prop} {inside : Nat → Prop} {cur out : List (Option σ)} {r i : Nat} {x : σ}

theorem start (hw : Weeded home rank n base pick inside slots slots')
    (hcur : Lined home rank n base cur) (hsame : ∀ e, e ∈ entries cur ↔ e ∈ entries slots)
    (hin : ∀ i, inside i → r ≤ dist n base i) : Swept home rank n base slots slots' r cur := by
  refine ⟨hcur, fun e => ⟨fun he => ⟨(hsame e).mp he, ?_⟩, fun he => (hsame e).mpr he.1⟩,
    fun i e hi hlt => ?_⟩
  · by_cases hstay : e ∈ entries slots'
    · exact .inl hstay
    · obtain ⟨j, hj, hinj⟩ := hw.turn_of_gone ((hsame e).mp he) hstay
      exact .inr fun i hi => (hj.unique hi) ▸ hin j hinj
  · by_contra hgone
    obtain ⟨j, ⟨out, hout, hj, hmem⟩, hinj⟩ :=
      hw.turn_of_gone ((hsame e).mp (mem_entries.mpr ⟨i, hi⟩)) hgone
    have hle := hcur.place_le hout
      (fun y k hk _ _ => (hsame y).mpr ((hmem y).mp (mem_entries.mpr ⟨k, hk⟩)).1) hi hj
    have := hin j hinj
    omega

theorem mem_of_stay (hs : Swept home rank n base slots slots' r cur) {y : σ}
    (hin : y ∈ entries slots) (hstay : y ∈ entries slots') : y ∈ entries cur :=
  (hs.stored y).mpr ⟨hin, .inl hstay⟩

theorem mem_of_cell (hs : Swept home rank n base slots slots' r cur) (hi : cell cur i = some x) :
    x ∈ entries slots := ((hs.stored x).mp (mem_entries.mpr ⟨i, hi⟩)).1

/-- The entry the pass has come to stands where it stood at its turn. -/
theorem turn_eq (hs : Swept home rank n base slots slots' r cur) (hx : cell cur i = some x)
    (hpos : dist n base i ≤ r) {j : Nat} (hj : TurnAt home rank n base slots slots' x j) :
    i = j := by
  obtain ⟨t, ht, hjx, hmem⟩ := hj
  exact hs.lined.place_in_turn (fun k y hk => hs.mem_of_cell hk) (fun y => hs.mem_of_stay)
    (fun k y hk hlt => hs.passed k y hk (by omega)) ht hmem (Nat.le_refl _) hx hjx

/-- The slot is free, or its entry is to stay: no entry of the table had its turn there. -/
theorem no_turn (hs : Swept home rank n base slots slots' r cur) (hi : i < n)
    (hpos : dist n base i = r) (hstay : ∀ e, cell cur i = some e → e ∈ entries slots')
    (hx : x ∈ entries cur) (hgone : x ∉ entries slots') :
    ¬ TurnAt home rank n base slots slots' x i := by
  intro hxi
  obtain ⟨k, hk⟩ := mem_entries.mp hx
  by_cases hle : dist n base k ≤ r
  · obtain rfl := hs.turn_eq hk hle hxi
    exact hgone (hstay x hk)
  · -- it waits behind an entry that is to stay, and that one stood there at its turn
    obtain ⟨v, hv, hvx⟩ := hs.lined.ahead k x hk i hi hxi.home_le (by omega)
    obtain ⟨t, ht, hti, hmem⟩ := hxi
    obtain ⟨m, hm⟩ := mem_entries.mp ((hmem v).mpr ⟨hs.mem_of_cell hv, .inl (hstay v hv)⟩)
    obtain rfl := hs.lined.place_in_turn (fun k y hk => hs.mem_of_cell hk)
      (fun y => hs.mem_of_stay) (fun k y hk hlt => hs.passed k y hk (by omega)) ht hmem
      (Nat.le_of_lt hvx) hv hm
    cases hti.symm.trans hm
    omega

theorem keep (hs : Swept home rank n base slots slots' r cur) (hi : i < n)
    (hpos : dist n base i = r) (hstay : ∀ e, cell cur i = some e → e ∈ entries slots') :
    Swept home rank n base slots slots' (r + 1) cur := by
  refine ⟨hs.lined, fun e => ⟨fun he => ?_, fun he => (hs.stored e).mpr ⟨he.1, ?_⟩⟩, ?_⟩
  · obtain ⟨hin, hor⟩ := (hs.stored e).mp he
    refine ⟨hin, ?_⟩
    by_cases hgone : e ∈ entries slots'
    · exact .inl hgone
    · refine .inr fun j hj => ?_
      have hle := (hor.resolve_left hgone) j hj
      have hne : dist n base j ≠ r := by
        intro heq
        obtain rfl := dist_inj hs.lined.base_lt hi hj.slot_lt (hpos.trans heq.symm)
        exact hs.no_turn hi hpos hstay he hgone hj
      omega
  · exact he.2.imp id fun hall j hj => Nat.le_of_succ_le (hall j hj)
  · intro j e hj hlt
    by_cases heq : dist n base j = r
    · obtain rfl := dist_inj hs.lined.base_lt hi (hs.lined.slot_lt hj) (hpos.trans heq.symm)
      exact hstay e hj
    · exact hs.passed j e hj (by omega)

/-- The pass finds an entry of its kind: none was removed from this slot before. -/
theorem gone (hw : Weeded home rank n base pick inside slots slots')
    (hs : Swept home rank n base slots slots' r cur) (hx : cell cur i = some x)
    (hpos : dist n base i = r) (hpick : pick x) (hin : inside i) :
    x ∉ entries slots' ∧ TurnAt home rank n base slots slots' x i := by
  obtain ⟨j, hj, hiff⟩ := hw.turn x (hs.mem_of_cell hx) hpick
  obtain rfl := hs.turn_eq hx (Nat.le_of_eq hpos) hj
  refine ⟨hiff.mpr ⟨hin, fun d hd hdgone hlt hdi => ?_⟩, hj⟩
  have hdcur : d ∈ entries cur :=
    (hs.stored d).mpr ⟨hd, .inr fun k hk => by rw [hk.unique hdi]; omega⟩
  obtain ⟨k, hk⟩ := mem_entries.mp hdcur
  have hge : ¬ dist n base k < r := fun hlt' => hdgone (hs.passed k d hk hlt')
  have hne : dist n base k ≠ dist n base i := by
    intro heq
    obtain rfl := dist_inj hs.lined.base_lt (hs.lined.slot_lt hk) (hs.lined.slot_lt hx) heq
    cases hx.symm.trans hk
    omega
  obtain ⟨v, hv, hvd⟩ := hs.lined.ahead k d hk i (hs.lined.slot_lt hx) hdi.home_le (by omega)
  cases hx.symm.trans hv
  omega

/-- In front of a slot that is cleared everything stands as before. -/
theorem passed_of_removed (hs : Swept home rank n base slots slots' r cur)
    (hx : cell cur i = some x) (hpos : dist n base i = r) (hout : Lined home rank n base out)
    (hmem : ∀ e, e ∈ entries out ↔ e ∈ entries cur ∧ e ≠ x) {k : Nat} {e : σ}
    (hk : cell out k = some e) (hlt : dist n base k < r) : e ∈ entries slots' := by
  by_contra hgone
  obtain ⟨m, hm⟩ := mem_entries.mp ((hmem e).mp (mem_entries.mpr ⟨k, hk⟩)).1
  have hge : ¬ dist n base m < r := fun hlt' => hgone (hs.passed m e hm hlt')
  obtain ⟨v, hv, hve⟩ :=
    hs.lined.ahead m e hm k (hout.slot_lt hk) (hout.home_le k e hk) (by omega)
  have hother : ∀ y k', cell cur k' = some y → dist n base k' < r → y ∈ entries out := by
    intro y k' hk' hlt'
    refine (hmem y).mpr ⟨mem_entries.mpr ⟨k', hk'⟩, ?_⟩
    rintro rfl
    rw [hs.lined.unique hk' hx] at hlt'
    omega
  obtain ⟨q, hq⟩ := mem_entries.mp (hother v k hv hlt)
  obtain rfl := hs.lined.place_eq hout (fun y hy _ => ((hmem y).mp hy).1)
    (fun y k' hk' _ hlt' => hother y k' hk' (by omega)) hv hq
  cases hk.symm.trans hq
  omega

/-- Removing the entry: what is drawn into its slot is to stay. -/
theorem remove (hw : Weeded home rank n base pick inside slots slots')
    (hs : Swept home rank n base slots slots' r cur) (hx : cell cur i = some x)
    (hpos : dist n base i = r) (hpick : pick x) (hin : inside i)
    (hout : Lined home rank n base out)
    (hmem : ∀ e, e ∈ entries out ↔ e ∈ entries cur ∧ e ≠ x) :
    Swept home rank n base slots slots' (r + 1) out := by
  obtain ⟨hgone, hturn⟩ := gone hw hs hx hpos hpick hin
  have hxin := hs.mem_of_cell hx
  have hi := hs.lined.slot_lt hx
  have hsub : ∀ e ∈ entries out, e ∈ entries slots :=
    fun e he => ((hs.stored e).mp ((hmem e).mp he).1).1
  -- another entry that was removed had its turn elsewhere
  have helse : ∀ e ∈ entries out, e ∉ entries slots' →
      ¬ TurnAt home rank n base slots slots' e i := by
    intro e he hegone hei
    exact ((hmem e).mp he).2 (hw.eq_of_turnAt (hsub e he) hegone hxin hgone hei hturn)
  refine ⟨hout, fun e => ⟨fun he => ⟨hsub e he, ?_⟩, fun he => (hmem e).mpr ⟨?_, ?_⟩⟩, ?_⟩
  · by_cases hstay : e ∈ entries slots'
    · exact .inl hstay
    · refine .inr fun j hj => ?_
      have hle := (((hs.stored e).mp ((hmem e).mp he).1).2.resolve_left hstay) j hj
      have hne : dist n base j ≠ r := by
        intro heq
        obtain rfl := dist_inj hs.lined.base_lt hi hj.slot_lt (hpos.trans heq.symm)
        exact helse e he hstay hj
      omega
  · exact (hs.stored e).mpr ⟨he.1, he.2.imp id fun hall j hj => Nat.le_of_succ_le (hall j hj)⟩
  · rintro rfl
    rcases he.2 with hstay | hall
    · exact hgone hstay
    · have := hall i hturn
      omega
  · intro k e hk hlt
    by_cases hkr : dist n base k < r
    · exact hs.passed_of_removed hx hpos hout hmem hk hkr
    · by_contra hegone
      obtain rfl := dist_inj hs.lined.base_lt (hout.slot_lt hk) hi (by omega)
      have he := mem_entries.mpr ⟨k, hk⟩
      obtain ⟨j, hj, _⟩ := hw.turn_of_gone (hsub e he) hegone
      have hkj : k = j := by
        obtain ⟨t, ht, htj, htmem⟩ := hj
        refine hout.place_in_turn (fun k' y hk' => hsub y (mem_entries.mpr ⟨k', hk'⟩))
          (fun y hy hstay => (hmem y).mpr ⟨hs.mem_of_stay hy hstay, ?_⟩)
          (fun k' y hk' hlt' => hs.passed_of_removed hx hpos hout hmem hk' (by omega)) ht htmem
          (Nat.le_refl _) hk htj
        rintro rfl
        exact hgone hstay
      subst hkj
      exact helse e he hegone hj

/-- A pass over all the slots has removed the same entries. -/
theorem entries_iff (hw : Weeded home rank n base pick inside slots slots')
    (hs : Swept home rank n base slots slots' r cur)
    (hin : ∀ i, inside i → dist n base i < r) (e : σ) :
    e ∈ entries cur ↔ e ∈ entries slots' := by
  refine ⟨fun he => ?_, fun he => (hs.stored e).mpr ⟨hw.sub e he, .inl he⟩⟩
  obtain ⟨hin', hor⟩ := (hs.stored e).mp he
  by_contra hgone
  obtain ⟨j, hj, hjin⟩ := hw.turn_of_gone hin' hgone
  have hle := (hor.resolve_left hgone) j hj
  have hlt := hin j hjin
  omega

end Swept

end Line

/-! ## The line behind a free slot -/

/-- No walk crosses the free slot `z`, so that walks are intervals of positions. -/
theorem walk_behind_free {n base z home i j : Nat} (hb : base < n) (hz : z < n) (hh : home < n)
    (hj : j < n) (hlast : dist n base z + 1 = n)
    (hwalk : dist n home i < dist n home z) :
    dist n base home ≤ dist n base i ∧
      (dist n home j < dist n home i ↔
        dist n base home ≤ dist n base j ∧ dist n base j < dist n base i) := by
  have hend := dist_lt hb hh
  have hz' := dist_add hb hh hz (by omega)
  have hi' := dist_trans hb hh (c := i) (by omega)
  refine ⟨by omega, fun hlt => ?_, fun hbetween => ?_⟩
  · have hj' := dist_trans hb hh (c := j) (by omega)
    omega
  · have hj' := dist_add hb hh hj hbetween.1
    omega

section Table

variable {κ σ : Type} {key : σ → κ} {hash : κ → Nat} {mask base z : Nat} {slots : List (Option σ)}

theorem Wf.walk_lt_free (h : Wf key hash mask slots) (hz : z < slots.length)
    (hfree : cell slots z = none) {i : Nat} {e : σ} (hi : cell slots i = some e) :
    dist slots.length (hash (key e) &&& mask) i < dist slots.length (hash (key e) &&& mask) z := by
  by_contra hge
  have hne : dist slots.length (hash (key e) &&& mask) z ≠
      dist slots.length (hash (key e) &&& mask) i := by
    intro heq
    rw [dist_inj (h.masked.and_lt _) hz (lt_of_cell_eq_some hi) heq, hi] at hfree
    cases hfree
  have hsome := h.reach i e hi z hz (by omega)
  rw [hfree] at hsome
  cases hsome

theorem Wf.lined (h : Wf key hash mask slots) {rank : σ → Nat}
    (ho : Ordered key hash mask rank slots) (hb : base < slots.length) (hz : z < slots.length)
    (hlast : dist slots.length base z + 1 = slots.length) (hfree : cell slots z = none) :
    Lined (fun e => hash (key e) &&& mask) rank slots.length base slots := by
  have hwalk := fun i j e (hi : cell slots i = some e) (hj : j < slots.length) =>
    walk_behind_free hb hz (h.masked.and_lt (hash (key e))) hj hlast (h.walk_lt_free hz hfree hi)
  refine ⟨hb, rfl, fun i e hi => (hwalk i z e hi hz).1, fun i e hi j hj hhome hlt => ?_⟩
  have hon := (hwalk i j e hi hj).2.mpr ⟨hhome, hlt⟩
  obtain ⟨e', he'⟩ := Option.isSome_iff_exists.mp (h.reach i e hi j hj hon)
  exact ⟨e', he', ho i j e e' hi he' hon⟩

/-- The positions of the entries are ranks. -/
theorem Wf.exists_rank (h : Wf key hash mask slots) (hb : base < slots.length)
    (hz : z < slots.length) (hlast : dist slots.length base z + 1 = slots.length)
    (hfree : cell slots z = none) :
    ∃ rank : σ → Nat, Ordered key hash mask rank slots ∧
      ∀ i e, cell slots i = some e → rank e = dist slots.length base i := by
  classical
  have hrank : ∀ i e, cell slots i = some e →
      (if he : ∃ i, cell slots i = some e then dist slots.length base he.choose else 0) =
        dist slots.length base i := by
    intro i e hi
    have he : ∃ i, cell slots i = some e := ⟨i, hi⟩
    rw [dif_pos he, h.unique he.choose i e e he.choose_spec hi rfl]
  refine ⟨fun e => if he : ∃ i, cell slots i = some e then dist slots.length base he.choose else 0,
    fun i j e e' hi hj hlt => ?_, hrank⟩
  have hwalk := walk_behind_free hb hz (h.masked.and_lt (hash (key e))) (lt_of_cell_eq_some hj)
    hlast (h.walk_lt_free hz hfree hi)
  simp only [hrank i e hi, hrank j e' hj]
  exact (hwalk.2.mp hlt).2

end Table

end Horreum.Foundation.Probing
