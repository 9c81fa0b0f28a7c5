/-
  Arena/Exhaustion.lean --- what a `Put` that fails says about the arena, and leaves behind.

  `Put` asks the current region and then maps a new one, and never an older one.  So a value that is
  larger than a region costs a region each time it is refused, `ErrArenaFull` speaks of all regions
  only while there are fewer than 256, and the capacity of a region is its size modulo 2^32.
-/
import Horreum.Arena.Contents

set_option autoImplicit false

namespace Horreum.Arena

open Foundation

namespace Allocator

variable {a : Allocator} {n : Nat}

/-- There is a free block of the class of `n`, or room for one behind the bump pointer. -/
def CanServe (a : Allocator) (n : Nat) : Prop :=
  (sizeClass n < numSizeClasses - 1 ∧ a.fl (sizeClass n) ≠ []) ∨
    alignUp a.offset + blockLen n ≤ a.size

instance (a : Allocator) (n : Nat) : Decidable (a.CanServe n) := by
  unfold CanServe
  infer_instance

theorem alloc_eq_none_iff : a.alloc n = none ↔ ¬ a.CanServe n := by
  rw [alloc_eq, CanServe]
  by_cases hc : sizeClass n < numSizeClasses - 1
  · cases hfl : a.fl (sizeClass n) <;> simp [hc]
  · simp [hc]

theorem exists_alloc (h : a.CanServe n) : ∃ off a', a.alloc n = some (off, a') := by
  cases halloc : a.alloc n with
  | none => exact absurd h (alloc_eq_none_iff.mp halloc)
  | some res => exact ⟨res.1, res.2, rfl⟩

/-- A block that a region can serve is not larger than the region. -/
theorem Bounded.blockLen_le (hb : a.Bounded) (h : a.CanServe n) : blockLen n ≤ a.size := by
  rcases h with ⟨hc, hne⟩ | hroom
  · obtain ⟨off, next, hfl⟩ := List.exists_cons_of_ne_nil hne
    have hin := hb.inside _ (free_head hc hfl)
    simp only [Extent.stop] at hin
    omega
  · omega

theorem canServe_init (size n : Nat) : (init size).CanServe n ↔ blockLen n ≤ size := by
  simp [CanServe, init, alignUp, alignBytes]

end Allocator

namespace Manager

variable {m m' : Manager} {value : Bytes} {mmapOk : Bool}

theorem canServe_newRegion (size n : Nat) :
    (newRegion size).alloc.CanServe n ↔ blockLen n ≤ size % 2 ^ 32 :=
  Allocator.canServe_init (size % 2 ^ 32) n

/-- The current region cannot serve a value of `n` bytes. -/
def CurrentFull (m : Manager) (n : Nat) : Prop :=
  ∀ reg, m.regions[m.currentIdx]? = some reg → ¬ reg.alloc.CanServe n

theorem install_ne_error {i off n : Nat} {reg : Region} {e : Error} :
    m.install i reg off n value ≠ some (.error e, m') := by
  intro h
  obtain ⟨reg', _, h⟩ := Option.bind_eq_some_iff.mp h
  cases h

theorem put_error_cases {e : Error} (hput : m.put value mmapOk = some (.error e, m')) :
    (e = .sizeTooLarge ∧ maxObjectSize < value.length % 2 ^ 32 ∧ m' = m) ∨
      (value.length % 2 ^ 32 ≤ maxObjectSize ∧ m.CurrentFull (value.length % 2 ^ 32) ∧
        ((e = .arenaFull ∧ 256 ≤ m.regions.length ∧ m' = m) ∨
          (e = .mmap ∧ m.regions.length < 256 ∧ mmapOk = false ∧ m' = m) ∨
          (e = .arenaFull ∧ m.regions.length < 256 ∧ mmapOk = true ∧
            m.size % 2 ^ 32 < blockLen (value.length % 2 ^ 32) ∧ m' = m.addRegion))) := by
  simp only [put] at hput
  split at hput
  · rename_i hbig
    cases hput
    exact .inl ⟨rfl, hbig, rfl⟩
  · rename_i hsmall
    obtain ⟨reg, hreg, hput⟩ := Option.bind_eq_some_iff.mp hput
    cases halloc : reg.alloc.alloc (value.length % 2 ^ 32) with
    | some res =>
      rw [halloc] at hput
      exact absurd hput install_ne_error
    | none =>
      simp only [putSlow, hreg, halloc, Option.bind_eq_bind, Option.bind_some] at hput
      have hfull : m.CurrentFull (value.length % 2 ^ 32) := by
        intro reg' hreg'
        obtain rfl : reg = reg' := Option.some.inj (hreg.symm.trans hreg')
        exact Allocator.alloc_eq_none_iff.mp halloc
      refine .inr ⟨Nat.le_of_not_lt hsmall, hfull, ?_⟩
      split at hput
      · rename_i hmany
        cases hput
        exact .inl ⟨rfl, hmany, rfl⟩
      · rename_i hfew
        have hfew : m.regions.length < 256 := Nat.lt_of_not_le hfew
        split at hput
        · rename_i hno
          cases hput
          exact .inr (.inl ⟨rfl, hfew, by simpa using hno, rfl⟩)
        · rename_i hyes
          cases hnew : (newRegion m.addRegion.size).alloc.alloc (value.length % 2 ^ 32) with
          | some res =>
            rw [hnew] at hput
            exact absurd hput install_ne_error
          | none =>
            rw [hnew] at hput
            cases hput
            have hbig := (canServe_newRegion _ _).not.mp (Allocator.alloc_eq_none_iff.mp hnew)
            exact .inr (.inr ⟨rfl, hfew, by simpa using hyes, Nat.lt_of_not_le hbig, rfl⟩)

/-- A current region that can serve the value does, and no region is added. -/
theorem Bounded.put_current (hm : m.Bounded) (mmapOk : Bool)
    (hsmall : value.length % 2 ^ 32 ≤ maxObjectSize)
    (hserve : ¬ m.CurrentFull (value.length % 2 ^ 32)) :
    ∃ h m', m.put value mmapOk = some (.ok h, m') ∧ m'.regions.length = m.regions.length := by
  simp only [CurrentFull, not_forall, not_not] at hserve
  obtain ⟨reg, hreg, hserve⟩ := hserve
  obtain ⟨off, alloc, halloc⟩ := Allocator.exists_alloc hserve
  obtain ⟨h, _, _, _, _, hins⟩ :=
    install_placed value hm hreg halloc (Nat.mod_lt _ (by decide))
  refine ⟨h, m.placed h reg alloc (value.take (value.length % 2 ^ 32)), ?_, by simp [placed]⟩
  simp only [Manager.put, if_neg (Nat.not_lt.mpr hsmall), hreg, Option.bind_eq_bind, Option.bind_some,
    halloc]
  exact hins

/-- A `Put` that added a region had found the current one full. -/
theorem Bounded.currentFull_of_grown (hm : m.Bounded) {res : Except Error Handle}
    (hput : m.put value mmapOk = some (res, m'))
    (hgrown : m.regions.length < m'.regions.length) :
    m.CurrentFull (value.length % 2 ^ 32) := by
  by_contra hserve
  by_cases hsmall : value.length % 2 ^ 32 ≤ maxObjectSize
  · obtain ⟨h, m₁, hput₁, hlen⟩ := hm.put_current mmapOk hsmall hserve
    rw [hput, Option.some_inj, Prod.mk.injEq] at hput₁
    rw [hput₁.2] at hgrown
    omega
  · have hbig : m.put value mmapOk = some (.error .sizeTooLarge, m) := by
      simp only [Manager.put, if_pos (Nat.lt_of_not_le hsmall)]
    rw [hput, Option.some_inj, Prod.mk.injEq] at hbig
    rw [hbig.2] at hgrown
    omega

/-! ## Failed calls -/

/-- A value that no region is large enough for, while a further region can be mapped for it. -/
def InVain (m : Manager) (n : Nat) (mmapOk : Bool) : Prop :=
  n ≤ maxObjectSize ∧ m.size % 2 ^ 32 < blockLen n ∧ m.CurrentFull n ∧ m.regions.length < 256 ∧
    mmapOk = true

/-- Such a `Put` fails and leaves a region behind. -/
theorem put_inVain {reg : Region}
    (hv : m.InVain (value.length % 2 ^ 32) mmapOk) (hreg : m.regions[m.currentIdx]? = some reg) :
    m.put value mmapOk = some (.error .arenaFull, m.addRegion) := by
  obtain ⟨hsmall, hlarge, hfull, hfew, rfl⟩ := hv
  have hcur := Allocator.alloc_eq_none_iff.mpr (hfull reg hreg)
  have hnew : (newRegion m.addRegion.size).alloc.alloc (value.length % 2 ^ 32) = none := by
    rw [Allocator.alloc_eq_none_iff, canServe_newRegion]
    exact Nat.not_le.mpr hlarge
  simp only [put, putSlow, if_neg (Nat.not_lt.mpr hsmall), hreg, Option.bind_eq_bind,
    Option.bind_some, hcur, if_neg (Nat.not_le.mpr hfew), Bool.not_true, Bool.false_eq_true,
    if_false, hnew]

theorem put_error_mgr {e : Error} (hput : m.put value mmapOk = some (.error e, m')) :
    m' = m ∧ ¬ m.InVain (value.length % 2 ^ 32) mmapOk ∨
      m' = m.addRegion ∧ m.InVain (value.length % 2 ^ 32) mmapOk := by
  rcases put_error_cases hput with ⟨_, hbig, rfl⟩ |
    ⟨hsmall, hfull, ⟨_, hmany, rfl⟩ | ⟨_, _, hno, rfl⟩ | ⟨_, hfew, hok, hlarge, rfl⟩⟩
  · exact .inl ⟨rfl, fun hv => Nat.not_le.mpr hbig hv.1⟩
  · exact .inl ⟨rfl, fun hv => Nat.not_le.mpr hv.2.2.2.1 hmany⟩
  · exact .inl ⟨rfl, fun hv => (by cases hno.symm.trans hv.2.2.2.2)⟩
  · exact .inr ⟨rfl, hsmall, hlarge, hfull, hfew, hok⟩

/-- The region that was added cannot serve the value either. -/
theorem InVain.addRegion {n : Nat} (hv : m.InVain n mmapOk) (hroom : m.regions.length + 1 < 256) :
    m.addRegion.InVain n mmapOk := by
  obtain ⟨hsmall, hlarge, _, _, hok⟩ := hv
  refine ⟨hsmall, hlarge, fun reg hreg => ?_, by simpa [Manager.addRegion] using hroom, hok⟩
  have hcur : m.addRegion.currentIdx = m.regions.length := rfl
  rw [hcur, addRegion_getElem?, if_pos rfl] at hreg
  cases hreg
  rw [canServe_newRegion]
  exact Nat.not_le.mpr hlarge

/-- A `Put` that fails; `none` where it does not. -/
def failStep (m : Manager) (p : Bytes × Bool) : Option Manager :=
  match m.put p.1 p.2 with
  | some (.error _, m') => some m'
  | _ => none

theorem failStep_cases {p : Bytes × Bool} (h : m.failStep p = some m') :
    (m' = m ∧ ¬ m.InVain (p.1.length % 2 ^ 32) p.2) ∨
      (m' = m.addRegion ∧ m.InVain (p.1.length % 2 ^ 32) p.2) := by
  unfold failStep at h
  split at h
  · rename_i e m₁ hput
    cases h
    exact put_error_mgr hput
  · cases h

theorem length_failStep {p : Bytes × Bool} (h : m.failStep p = some m') :
    m.regions.length ≤ m'.regions.length := by
  rcases failStep_cases h with ⟨rfl, _⟩ | ⟨rfl, _⟩
  · exact Nat.le_refl _
  · exact (grows_addRegion m).regions

/-- Any number of `Put`s that all fail leave the whole manager as it was exactly when none of them
was of a value that a further region was mapped for in vain. -/
theorem failed_puts_change_nothing_iff (puts : List (Bytes × Bool)) (m m' : Manager)
    (hrun : run failStep m puts = some m') :
    m' = m ↔ ∀ p ∈ puts, ¬ m.InVain (p.1.length % 2 ^ 32) p.2 := by
  induction puts with
  | nil =>
    cases hrun
    simp
  | cons p puts ih =>
    obtain ⟨mid, hmid, hrest⟩ := Option.bind_eq_some_iff.mp hrun
    rw [List.forall_mem_cons]
    rcases failStep_cases hmid with ⟨rfl, hok⟩ | ⟨rfl, hvain⟩
    · rw [ih hrest, and_iff_right hok]
    · -- the number of regions never goes back
      have hgrow := run_keeps (fun s => m.addRegion.regions.length ≤ s.regions.length)
        (fun _ _ _ hle hstep => hle.trans (length_failStep hstep)) puts _ m' (Nat.le_refl _) hrest
      have hlen : m.addRegion.regions.length = m.regions.length + 1 := by simp [addRegion]
      refine ⟨fun heq => ?_, fun hall => absurd hvain hall.1⟩
      rw [heq, hlen] at hgrow
      omega

/-- A region of 8 bytes, two values of 9 bytes, and no further mapping: nothing changes. -/
theorem failed_puts_change_nothing_iff_no_mapping :
    ∃ m', run failStep (newManager 8) [([1, 2, 3, 4, 5, 6, 7, 8, 9], false),
      ([9, 8, 7, 6, 5, 4, 3, 2, 1], false)] = some m' ∧ m' = newManager 8 := by
  refine ⟨_, rfl, (failed_puts_change_nothing_iff [([1, 2, 3, 4, 5, 6, 7, 8, 9], false),
    ([9, 8, 7, 6, 5, 4, 3, 2, 1], false)] _ _ rfl).mpr fun p hp hvain => ?_⟩
  have hno : p.2 = false := by
    simp only [List.mem_cons, List.not_mem_nil, or_false] at hp
    rcases hp with rfl | rfl <;> rfl
  exact Bool.false_ne_true (hno.symm.trans hvain.2.2.2.2)

/-- A region of 8 bytes and a value of 9: `Put` fails, and there are two regions, of which the
first, still empty, is not the current one any more. -/
theorem failed_put_takes_region :
    ∃ m', run failStep (newManager 8) [([1, 2, 3, 4, 5, 6, 7, 8, 9], true)] = some m' ∧
      m'.regions.length = 2 ∧ m'.currentIdx = 1 :=
  ⟨_, rfl, rfl, rfl⟩

end Manager

/-! ## A full arena -/

namespace Tenancy

/-- Only live handles are freed. -/
def FreesLive (t : Tenancy) : Request → Prop
  | .put _ _ => True
  | .free h => h ∈ t.live.map Prod.fst

instance (t : Tenancy) : ∀ r, Decidable (t.FreesLive r)
  | .put _ _ => inferInstanceAs (Decidable True)
  | .free h => inferInstanceAs (Decidable (h ∈ t.live.map Prod.fst))

/-- The tenant owns the handles it holds. -/
def Owning (t : Tenancy) : Prop := t.mgr.Owns { h | ∃ v, (h, v) ∈ t.live }

theorem owning_step {t t' : Tenancy} {r : Request} (h : t.Owning) (hok : t.FreesLive r)
    (hstep : t.step r = some t') : t'.Owning := by
  cases r with
  | put value mmapOk =>
    obtain ⟨res, m, hput, hspec⟩ := Manager.put_spec h value mmapOk
    cases res with
    | error e =>
      rw [step_put_error hput] at hstep
      cases hstep
      exact hspec.1
    | ok hd =>
      rw [step_put_ok hput] at hstep
      cases hstep
      exact hspec.owns.mono (handles_cons t.live hd value)
  | free hd =>
    cases hstep
    exact owns_free h hok

/-- Nothing can be served from the region any more. -/
def Spent (reg : Region) : Prop := ∀ n, ¬ reg.alloc.CanServe n

/-- Space is left behind in no region: what is freed is of the current region, or too large to be
used again, and a region is only left when it is spent. -/
def LeavesNothing (t : Tenancy) : Request → Prop
  | .put value _ => t.mgr.CurrentFull (value.length % 2 ^ 32) →
      ∀ reg, t.mgr.regions[t.mgr.currentIdx]? = some reg → Spent reg
  | .free h => h.region.toNat = t.mgr.currentIdx ∨ 8192 < h.size.toNat

/-- The regions before the current one are spent. -/
def OthersSpent (m : Manager) : Prop :=
  ∀ i reg, i ≠ m.currentIdx → m.regions[i]? = some reg → Spent reg

variable {m : Manager}

theorem othersSpent_addRegion (h : OthersSpent m)
    (hcur : ∀ reg, m.regions[m.currentIdx]? = some reg → Spent reg) : OthersSpent m.addRegion := by
  intro i reg hi hreg
  rw [Manager.addRegion_getElem?] at hreg
  have hne : i ≠ m.regions.length := hi
  rw [if_neg hne] at hreg
  by_cases hci : i = m.currentIdx
  · exact hcur reg (hci ▸ hreg)
  · exact h i reg hci hreg

variable {value : Bytes} {m m' : Manager} {mmapOk : Bool}

theorem othersSpent_placed (h : OthersSpent m) {hd : Handle} {reg : Region} {alloc : Allocator}
    (hcur : hd.region.toNat = m.currentIdx) :
    OthersSpent (m.placed hd reg alloc value) := by
  intro i r hi hr
  have hi : i ≠ m.currentIdx := hi
  rw [Manager.regions_placed_other m reg alloc value (hcur ▸ hi)] at hr
  exact h i r hi hr

theorem othersSpent_put (hm : m.Bounded) (h : OthersSpent m) {res : Except Error Handle}
    (hput : m.put value mmapOk = some (res, m'))
    (hleave : m.CurrentFull (value.length % 2 ^ 32) →
      ∀ reg, m.regions[m.currentIdx]? = some reg → Spent reg) : OthersSpent m' := by
  have hfull := fun hlt => hm.currentFull_of_grown hput hlt
  have hadded : m.addRegion.regions.length = m.regions.length + 1 := by simp [Manager.addRegion]
  rcases hm.puts hput with _ | ⟨_, _⟩ | ⟨hd, reg, alloc, m₀, hm₀, _, _, _⟩
  · exact h
  · exact othersSpent_addRegion h (hleave (hfull (by omega)))
  · rcases hm₀ with ⟨rfl, hcur⟩ | ⟨_, rfl, hlast⟩
    · exact othersSpent_placed h hcur
    · have hlen := (Manager.Allots.grows m.addRegion hd reg alloc
        (value.take (value.length % 2 ^ 32))).regions
      exact othersSpent_placed (othersSpent_addRegion h (hleave (hfull (by omega)))) hlast

theorem othersSpent_free (h : OthersSpent m) {hd : Handle}
    (hok : hd.region.toNat = m.currentIdx ∨ 8192 < hd.size.toNat) :
    OthersSpent (m.free hd).2 := by
  rcases hok with hcur | hbig
  · unfold Manager.free
    split
    · exact h
    · split
      · exact h
      · intro i reg hi hreg
        have hi : i ≠ m.currentIdx := hi
        dsimp only at hreg
        rw [List.getElem?_set_ne (by rw [hcur]; exact Ne.symm hi)] at hreg
        exact h i reg hi hreg
  · intro i reg hi hreg
    rw [Manager.regions_free_large m hbig] at hreg
    refine h i reg ?_ hreg
    unfold Manager.free at hi
    split at hi
    · exact hi
    · split at hi <;> exact hi

theorem othersSpent_step {t t' : Tenancy} {r : Request} (hown : t.Owning)
    (h : OthersSpent t.mgr) (hok : t.LeavesNothing r) (hstep : t.step r = some t') :
    OthersSpent t'.mgr := by
  cases r with
  | put value mmapOk =>
    obtain ⟨res, hput, rfl⟩ := Option.map_eq_some_iff.mp hstep
    obtain ⟨res, m⟩ := res
    have hspent := othersSpent_put hown.wf.bounded h hput hok
    cases res <;> exact hspent
  | free hd =>
    cases hstep
    exact othersSpent_free h hok

/-- With fewer than 256 regions a refused value is larger than any region. -/
theorem no_region_of_few (hown : m.Bounded)
    (hput : m.put value mmapOk = some (.error .arenaFull, m')) (hfew : m.regions.length < 256) :
    ∀ reg ∈ m'.regions, ¬ reg.alloc.CanServe (value.length % 2 ^ 32) := by
  rcases Manager.put_error_cases hput with ⟨he, _⟩ | ⟨_, _, hcase⟩
  · cases he
  · rcases hcase with ⟨_, hmany, _⟩ | ⟨he, _⟩ | ⟨_, _, _, hlarge, rfl⟩
    · omega
    · cases he
    · intro reg hreg hserve
      obtain ⟨i, hi⟩ := List.mem_iff_getElem?.mp hreg
      have hb := (hown.addRegion hfew).region i reg hi
      have hle := hb.alloc.blockLen_le hserve
      have hsize : m.addRegion.size = m.size := rfl
      rw [hb.allocSize, hsize] at hle
      omega

/-- With 256 regions a refused value is one that the current region cannot serve. -/
theorem no_region_of_many
    (hput : m.put value mmapOk = some (.error .arenaFull, m')) (hmany : 256 ≤ m.regions.length) :
    (∀ reg ∈ m'.regions, ¬ reg.alloc.CanServe (value.length % 2 ^ 32)) ↔
      ∀ i reg, i ≠ m.currentIdx → m.regions[i]? = some reg →
        ¬ reg.alloc.CanServe (value.length % 2 ^ 32) := by
  rcases Manager.put_error_cases hput with ⟨he, _⟩ | ⟨_, hfull, hcase⟩
  · cases he
  · rcases hcase with ⟨_, _, rfl⟩ | ⟨_, hfew, _⟩ | ⟨_, hfew, _⟩
    · constructor
      · intro hall i reg _ hreg
        exact hall reg (List.mem_of_getElem? hreg)
      · intro hothers reg hreg
        obtain ⟨i, hi⟩ := List.mem_iff_getElem?.mp hreg
        by_cases hcur : i = m'.currentIdx
        · exact hfull reg (hcur ▸ hi)
        · exact hothers i reg hcur hi
    · omega
    · omega

/-- In a run of `Put` and of `Free` of live handles, `ErrArenaFull` says that no region can serve
the value exactly when there are fewer than 256 regions, or none but the current one could.  That
is so for every value in every state of a run that leaves no space behind. -/
theorem arena_full_iff (size : Nat) (requests : List Request)
    (hguard : Guarded step FreesLive ⟨newManager size, []⟩ requests) {t : Tenancy}
    (hrun : run step ⟨newManager size, []⟩ requests = some t) {value : Bytes} {mmapOk : Bool}
    {m' : Manager} (hput : t.mgr.put value mmapOk = some (.error .arenaFull, m')) :
    ((∀ reg ∈ m'.regions, ¬ reg.alloc.CanServe (value.length % 2 ^ 32)) ↔
      (t.mgr.regions.length < 256 ∨ ∀ i reg, i ≠ t.mgr.currentIdx → t.mgr.regions[i]? = some reg →
        ¬ reg.alloc.CanServe (value.length % 2 ^ 32))) ∧
    (Guarded step LeavesNothing ⟨newManager size, []⟩ requests →
      ∀ reg ∈ m'.regions, ¬ reg.alloc.CanServe (value.length % 2 ^ 32)) := by
  have hstart : Owning ⟨newManager size, []⟩ := (Manager.owns_newManager size).mono (by simp)
  have hown : t.Owning := run_invariant Owning (fun _ _ _ => owning_step) requests _ t hstart
    hguard hrun
  have hiff : (∀ reg ∈ m'.regions, ¬ reg.alloc.CanServe (value.length % 2 ^ 32)) ↔
      (t.mgr.regions.length < 256 ∨ ∀ i reg, i ≠ t.mgr.currentIdx → t.mgr.regions[i]? = some reg →
        ¬ reg.alloc.CanServe (value.length % 2 ^ 32)) := by
    by_cases hfew : t.mgr.regions.length < 256
    · exact iff_of_true (no_region_of_few hown.wf.bounded hput hfew) (.inl hfew)
    · rw [no_region_of_many hput (Nat.le_of_not_lt hfew), or_iff_right hfew]
  refine ⟨hiff, fun hleave => hiff.mpr (.inr fun i reg hi hreg => ?_)⟩
  have hboth : Guarded step (fun t r => t.FreesLive r ∧ t.LeavesNothing r)
      ⟨newManager size, []⟩ requests := Guarded.and hguard hleave
  have hspent := run_invariant (fun t => t.Owning ∧ OthersSpent t.mgr)
    (fun _ _ _ h hok hstep =>
      ⟨owning_step h.1 hok.1 hstep, othersSpent_step h.1 h.2 hok.2 hstep⟩) requests _ t
    ⟨hstart, fun i reg hi hreg => absurd (List.getElem?_eq_some_iff.mp hreg).1 (by
      have hi : i ≠ 0 := hi
      simp only [newManager, List.length_singleton]
      omega)⟩ hboth hrun
  exact hspent.2 i reg hi hreg _

/-- A fresh region of 8 bytes and a value of 9: it is refused, and no region can serve it. -/
theorem arena_full_iff_too_large :
    ∃ m', (newManager 8).put [1, 2, 3, 4, 5, 6, 7, 8, 9] true = some (.error .arenaFull, m') ∧
      ∀ reg ∈ m'.regions, ¬ reg.alloc.CanServe 9 :=
  have hput : (newManager 8).put [1, 2, 3, 4, 5, 6, 7, 8, 9] true =
      some (.error .arenaFull, (newManager 8).addRegion) := rfl
  ⟨_, hput, (arena_full_iff 8 [] trivial rfl hput).1.mpr (.inl (by decide))⟩

theorem run_inVain (value : Bytes) :
    ∀ (k : Nat) (t : Tenancy) {reg : Region}, t.mgr.InVain (value.length % 2 ^ 32) true →
      t.mgr.regions[t.mgr.currentIdx]? = some reg → t.mgr.regions.length + k ≤ 256 →
      run step t (List.replicate k (.put value true)) =
        some ⟨Manager.addRegion^[k] t.mgr, t.live⟩
  | 0, _, _, _, _, _ => rfl
  | k + 1, t, reg, hv, hreg, hroom => by
    have hlen : t.mgr.addRegion.regions.length = t.mgr.regions.length + 1 := by
      simp [Manager.addRegion]
    have hlast : t.mgr.addRegion.regions[t.mgr.addRegion.currentIdx]? =
        some (newRegion t.mgr.size) := by
      rw [Manager.addRegion_getElem?]
      exact if_pos rfl
    rw [List.replicate_succ, run, step_put_error (Manager.put_inVain hv hreg), Option.bind_some,
      Function.iterate_succ_apply]
    cases k with
    | zero => rfl
    | succ k =>
      exact run_inVain value (k + 1) ⟨t.mgr.addRegion, t.live⟩ (hv.addRegion (by omega)) hlast
        (by rw [hlen]; omega)

/-- A value in the first region of 8 bytes, 255 values of 9 bytes that are refused, one more value
in the last region; then the first is freed.  `Put` of a value of one byte is refused, and the first
region has a free block for it. -/
theorem arena_full_with_free_block :
    ∃ requests t m', Guarded step FreesLive ⟨newManager 8, []⟩ requests ∧
      run step ⟨newManager 8, []⟩ requests = some t ∧
      t.mgr.put [1] true = some (.error .arenaFull, m') ∧
      ∃ reg ∈ m'.regions, reg.alloc.CanServe 1 := by
  obtain ⟨t₀, hfirst, hone, hguard, t, hlast, m', hput, reg, hreg, hserve⟩ : ∃ t₀,
      run step ⟨newManager 8, []⟩ [.put [1] true] = some t₀ ∧ t₀.mgr.regions.length = 1 ∧
      Guarded step FreesLive ⟨Manager.addRegion^[255] t₀.mgr, t₀.live⟩
        [.put [1] true, .free ⟨0, 1, 0, 0⟩] ∧
      ∃ t, run step ⟨Manager.addRegion^[255] t₀.mgr, t₀.live⟩
          [.put [1] true, .free ⟨0, 1, 0, 0⟩] = some t ∧
        ∃ m', t.mgr.put [1] true = some (.error .arenaFull, m') ∧
          ∃ reg ∈ m'.regions, reg.alloc.CanServe 1 := by
    decide +kernel
  have hmany : run step t₀ (List.replicate 255 (.put [1, 2, 3, 4, 5, 6, 7, 8, 9] true)) =
      some ⟨Manager.addRegion^[255] t₀.mgr, t₀.live⟩ := by
    cases hfirst
    refine run_inVain _ 255 _ ⟨by decide, by decide, fun reg hreg => ?_, by decide, rfl⟩ rfl
      (by rw [hone])
    cases hreg
    decide
  refine ⟨[.put [1] true] ++ (List.replicate 255 (.put [1, 2, 3, 4, 5, 6, 7, 8, 9] true) ++
    [.put [1] true, .free ⟨0, 1, 0, 0⟩]), t, m', ?_, ?_, hput, reg, hreg, hserve⟩
  · refine Guarded.append ⟨trivial, fun _ _ => trivial⟩ fun s hs => ?_
    cases hfirst.symm.trans hs
    refine Guarded.append (guarded_of_forall fun _ r hr => ?_) fun s' hs' => ?_
    · rw [List.eq_of_mem_replicate hr]
      trivial
    · rw [hmany, Option.some_inj] at hs'
      rw [← hs']
      exact hguard
  · rw [run_append, hfirst, Option.bind_some, run_append, hmany, Option.bind_some]
    exact hlast

end Tenancy

/-! ## The size of a region -/

namespace Manager

/-- `Put` into a fresh arena finds room exactly when the block fits the 32-bit capacity. -/
theorem fresh_put_ok_iff (regionSize : Nat) {value : Bytes} (hmax : value.length ≤ maxObjectSize) :
    (∃ h m', (newManager regionSize).put value true = some (.ok h, m')) ↔
      blockLen value.length ≤ regionSize % 2 ^ 32 := by
  have hmod : value.length % 2 ^ 32 = value.length := by
    simp only [maxObjectSize] at hmax
    exact Nat.mod_eq_of_lt (by omega)
  have hsome : ((newRegion regionSize).alloc.alloc value.length).isSome = true ↔
      blockLen value.length ≤ regionSize % 2 ^ 32 := by
    rw [← canServe_newRegion, ← not_iff_not, Option.not_isSome_iff_eq_none,
      Allocator.alloc_eq_none_iff]
  rw [(bounded_newManager regionSize).put_ok_iff, hmod, ← hsome]
  simp [takes, newManager, hmax]

/-- For every value whose block is not larger than the region: `Put` into the fresh arena succeeds
and the allocator's capacity is the length of the mapping exactly when the region is below
4 GiB. -/
theorem region_size_honoured_iff (regionSize : Nat) {value : Bytes}
    (hmax : value.length ≤ maxObjectSize) (hfit : blockLen value.length ≤ regionSize) :
    ((∃ h m', (newManager regionSize).put value true = some (.ok h, m')) ∧
      ∀ reg ∈ (newManager regionSize).regions, reg.alloc.size = reg.data.size) ↔
      regionSize < 2 ^ 32 := by
  have hcap : (∀ reg ∈ (newManager regionSize).regions, reg.alloc.size = reg.data.size) ↔
      regionSize % 2 ^ 32 = regionSize := by
    simp [newManager, newRegion, Allocator.init]
  rw [fresh_put_ok_iff regionSize hmax, hcap]
  constructor
  · rintro ⟨_, heq⟩
    rw [← heq]
    exact Nat.mod_lt _ (by decide)
  · intro hlt
    rw [Nat.mod_eq_of_lt hlt]
    exact ⟨hfit, rfl⟩

/-- A region of 4096 bytes. -/
theorem region_size_honoured_iff_page :
    (∃ h m', (newManager 4096).put [1, 2, 3] true = some (.ok h, m')) ∧
      ∀ reg ∈ (newManager 4096).regions, reg.alloc.size = reg.data.size :=
  (region_size_honoured_iff 4096 (by decide) (by decide)).mpr (by decide)

/-- A region of 4 GiB has the capacity zero, and takes no value. -/
theorem four_gib_takes_nothing :
    (¬ ∃ h m', (newManager (2 ^ 32)).put [1] true = some (.ok h, m')) ∧
      ∃ reg ∈ (newManager (2 ^ 32)).regions, reg.alloc.size = 0 ∧ reg.data.size = 2 ^ 32 := by
  refine ⟨fun hok => ?_, newRegion (2 ^ 32), List.mem_singleton_self _, rfl, rfl⟩
  rw [fresh_put_ok_iff (2 ^ 32) (by decide)] at hok
  exact absurd hok (by decide)

end Manager

end Horreum.Arena
