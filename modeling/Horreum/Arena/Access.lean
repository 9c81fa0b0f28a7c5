/-
  Arena/Access.lean --- handles that no `Put` has returned.

  After a restart handles come out of log records and checkpoint entries, so anything can stand in
  their fields.  Here the accesses behind the comparisons of every operation are checked as well.
  `View` takes the address of the first byte, and an empty range at the very end of a region has none.
-/
import Horreum.Arena.Bounds

set_option autoImplicit false

namespace Horreum.Arena

open Foundation

/-- `&data[offset]` is checked; the slice made of the address is not, and could reach behind the
region. -/
def unsafeView (data : Cells UInt8) (offset size : Nat) : Option Bytes :=
  if offset < data.size ∧ offset + size ≤ data.size then some (data.read offset size) else none

namespace Region

/-- `reg.meta[idx].Load()` -/
def loadMeta (r : Region) (idx : Nat) : Option UInt16 :=
  if idx < r.metas.size then some (r.metas.get idx) else none

/-- `reg.meta[idx].Store(word)` -/
def storeMeta (r : Region) (idx : Nat) (word : UInt16) : Option Region :=
  if idx < r.metas.size then some { r with metas := r.metas.set idx word } else none

end Region

namespace Access

section Frame

variable {α : Type}

/-- How every operation starts: `early` is its answer to a handle that names no region. -/
def onRegion (m : Manager) (h : Handle) (early : α) (f : Region → Option α) : Option α :=
  if h.region.toNat ≥ m.regions.length then some early
  else do
    let reg ← m.regions[h.region.toNat]?
    f reg

/-- How every meta operation starts.  A nil slice is as good as an empty one. -/
def onMeta (m : Manager) (h : Handle) (early : α) (f : Region → Nat → Option α) : Option α :=
  onRegion m h early fun reg =>
    let idx := h.offset.toNat / alignBytes
    if idx ≥ reg.metas.size % 2 ^ 32 then some early else f reg idx

end Frame

/-- Put a region back. -/
def setRegion (m : Manager) (h : Handle) (reg : Region) : Manager :=
  { m with regions := m.regions.set h.region.toNat reg }

/-- `Manager.View`, with its slice expression checked. -/
def view (m : Manager) (h : Handle) : Option (Except Error Bytes) :=
  onRegion m h (.error .offsetInvalid) fun reg =>
    if h.offset.toNat + h.size.toNat > reg.data.size then some (.error .offsetInvalid)
    else (unsafeView reg.data h.offset.toNat h.size.toNat).map .ok

/-- `Manager.Free`, checked. -/
def free (m : Manager) (h : Handle) : Option (Except Error Unit × Manager) :=
  onRegion m h (.error .offsetInvalid, m) fun reg =>
    if h.offset.toNat + h.size.toNat > reg.data.size then some (.error .offsetInvalid, m)
    else
      let reg := { reg with alloc := reg.alloc.free h.offset.toNat h.size.toNat }
      some (.ok (), { setRegion m h reg with liveObjs := m.liveObjs - 1 })

/-- `Manager.GetMeta`, checked. -/
def getMeta (m : Manager) (h : Handle) : Option UInt16 :=
  onMeta m h 0 fun reg idx => reg.loadMeta idx

/-- `Manager.SetMeta`, checked. -/
def setMeta (m : Manager) (h : Handle) (word : UInt16) : Option Manager :=
  onMeta m h m fun reg idx => (reg.storeMeta idx word).map (setRegion m h)

/-- The loop of a load and a compare-and-swap, which goes to the same word however often it is
repeated. -/
def modifyMeta (m : Manager) (h : Handle) (f : UInt16 → UInt16) : Option Manager :=
  onMeta m h m fun reg idx => do
    let cur ← reg.loadMeta idx
    let reg ← reg.storeMeta idx (f cur)
    some (setRegion m h reg)

/-- `Manager.IncFreq`, checked. -/
def incFreq (m : Manager) (h : Handle) : Option Manager :=
  modifyMeta m h fun cur => (cur &&& ~~~freqMask) ||| (((cur &&& freqMask) + 1) &&& freqMask)

/-- `Manager.SetFreq`, checked. -/
def setFreq (m : Manager) (h : Handle) (freq : UInt16) : Option Manager :=
  modifyMeta m h fun cur => (cur &&& ~~~freqMask) ||| (freq &&& freqMask)

/-- `Manager.OrMetaBits`, checked. -/
def orMetaBits (m : Manager) (h : Handle) (bits : UInt16) : Option Manager :=
  modifyMeta m h fun current => current ||| bits

/-- `Manager.ClearMetaBits`, checked. -/
def clearMetaBits (m : Manager) (h : Handle) (mask : UInt16) : Option Manager :=
  modifyMeta m h fun current => current &&& ~~~mask

variable {α : Type} {m : Manager} {h : Handle} {early : α}

/-! ## The comparisons and the accesses -/

theorem onRegion_eq (m : Manager) (h : Handle) (early : α) (f : Region → Option α) :
    onRegion m h early f =
      match m.regions[h.region.toNat]? with
      | none => some early
      | some reg => f reg := by
  unfold onRegion
  cases hreg : m.regions[h.region.toNat]? with
  | none => rw [if_pos (List.getElem?_eq_none_iff.mp hreg)]
  | some reg =>
    have hlt : h.region.toNat < m.regions.length := (List.getElem?_eq_some_iff.mp hreg).1
    rw [if_neg (Nat.not_le_of_lt hlt)]
    rfl

/-- A meta operation gets to a word of the slice or returns early. -/
theorem onMeta_returns {f : Region → Nat → Option α}
    (hf : ∀ reg idx, idx < reg.metas.size → ∃ a, f reg idx = some a) :
    ∃ a, onMeta m h early f = some a := by
  rw [onMeta, onRegion_eq]
  cases m.regions[h.region.toNat]? with
  | none => exact ⟨early, rfl⟩
  | some reg =>
    dsimp only
    split
    · exact ⟨early, rfl⟩
    · rename_i hidx
      exact hf reg _ (Nat.lt_of_lt_of_le (Nat.lt_of_not_le hidx) (Nat.mod_le _ _))

theorem modifyMeta_returns (m : Manager) (h : Handle) (f : UInt16 → UInt16) :
    ∃ m', modifyMeta m h f = some m' := by
  refine onMeta_returns fun reg idx hidx => ?_
  rw [Region.loadMeta, if_pos hidx, Option.bind_eq_bind, Option.bind_some, Region.storeMeta,
    if_pos hidx]
  exact ⟨_, rfl⟩

/-! ## The model without checks -/

/-- The check of the address is the one that `Manager.view` has. -/
theorem view_eq (m : Manager) (h : Handle) : view m h = m.view h := by
  rw [view, onRegion_eq, Manager.view]
  cases m.regions[h.region.toNat]? with
  | none => rfl
  | some reg =>
    dsimp only
    split
    · rfl
    · rename_i hfits
      have hfits := Nat.le_of_not_lt hfits
      unfold unsafeView
      split
      · rename_i hin
        rw [if_neg (Nat.not_le_of_lt hin.1)]
        rfl
      · rename_i hout
        rw [if_pos (Nat.le_of_not_lt fun hlt => hout ⟨hlt, hfits⟩)]
        rfl

theorem free_eq (m : Manager) (h : Handle) : free m h = some (m.free h) := by
  rw [free, onRegion_eq, Manager.free]
  cases m.regions[h.region.toNat]? with
  | none => rfl
  | some reg =>
    dsimp only
    split <;> rfl

/-- The slice of a region is short enough for its length to be compared in 32 bits. -/
theorem metas_size_lt {size : Nat} {r : Region} (h : r.Bounded size) :
    r.metas.size % 2 ^ 32 = r.metas.size := by
  have hlt := Nat.mod_lt size (y := 2 ^ 32) (by decide)
  have hle := Nat.div_le_self (size % 2 ^ 32) alignBytes
  rw [h.metaSize]
  exact Nat.mod_eq_of_lt (Nat.lt_of_le_of_lt hle hlt)

theorem getMeta_eq (hm : m.Bounded) (h : Handle) : getMeta m h = some (m.getMeta h) := by
  rw [getMeta, onMeta, onRegion_eq, Manager.getMeta]
  cases hreg : m.regions[h.region.toNat]? with
  | none => rfl
  | some reg =>
    dsimp only
    rw [metas_size_lt (hm.region _ reg hreg)]
    split
    · rfl
    · rename_i hidx
      rw [Region.loadMeta, if_pos (Nat.lt_of_not_le hidx)]

theorem modifyMeta_eq (hm : m.Bounded) (h : Handle) (f : UInt16 → UInt16) :
    modifyMeta m h f = some (m.modifyMeta h f) := by
  rw [modifyMeta, onMeta, onRegion_eq, Manager.modifyMeta]
  cases hreg : m.regions[h.region.toNat]? with
  | none => rfl
  | some reg =>
    dsimp only
    rw [metas_size_lt (hm.region _ reg hreg)]
    split
    · rfl
    · rename_i hidx
      have hlt := Nat.lt_of_not_le hidx
      rw [Region.loadMeta, if_pos hlt, Option.bind_eq_bind, Option.bind_some, Region.storeMeta,
        if_pos hlt]
      rfl

/-! ## Any handle -/

/-- No operation on the handle leaves the memory of its region. -/
structure InRange (m : Manager) (h : Handle) : Prop where
  /-- An error, or as many bytes as the handle says, all of them in the region. -/
  view : view m h = some (.error .offsetInvalid) ∨
    ∃ reg bytes, m.regions[h.region.toNat]? = some reg ∧ view m h = some (.ok bytes) ∧
      h.offset.toNat + h.size.toNat ≤ reg.data.size ∧
      bytes = reg.data.read h.offset.toNat h.size.toNat ∧ bytes.length = h.size.toNat
  /-- It has nothing to do with the meta slices. -/
  free : ∃ res m', free m h = some (res, m') ∧
    m'.regions.map Region.metas = m.regions.map Region.metas
  getMeta : ∃ word, getMeta m h = some word
  setMeta : ∀ word, ∃ m', setMeta m h word = some m'
  orMetaBits : ∀ bits, ∃ m', orMetaBits m h bits = some m'
  clearMetaBits : ∀ mask, ∃ m', clearMetaBits m h mask = some m'
  incFreq : ∃ m', incFreq m h = some m'
  setFreq : ∀ freq, ∃ m', setFreq m h freq = some m'

/-- The handle of an empty range at the very end of its region. -/
def AtEnd (m : Manager) (h : Handle) : Prop :=
  ∃ reg, m.regions[h.region.toNat]? = some reg ∧ h.offset.toNat = reg.data.size ∧
    h.size.toNat = 0

theorem free_metas (m : Manager) (h : Handle) :
    ∃ res m', free m h = some (res, m') ∧
      m'.regions.map Region.metas = m.regions.map Region.metas := by
  rw [free, onRegion_eq]
  cases hreg : m.regions[h.region.toNat]? with
  | none => exact ⟨_, _, rfl, rfl⟩
  | some reg =>
    dsimp only
    split
    · exact ⟨_, _, rfl, rfl⟩
    · exact ⟨_, _, rfl, map_set_same hreg rfl⟩

/-- What `View` does to a handle that is in bounds by its end. -/
theorem view_inside {reg : Region} (hreg : m.regions[h.region.toNat]? = some reg)
    (hend : h.offset.toNat + h.size.toNat ≤ reg.data.size) :
    view m h = if h.offset.toNat < reg.data.size then
      some (.ok (reg.data.read h.offset.toNat h.size.toNat)) else none := by
  rw [view, onRegion_eq, hreg]
  dsimp only
  rw [if_neg (Nat.not_lt_of_le hend), unsafeView]
  by_cases hlt : h.offset.toNat < reg.data.size
  · rw [if_pos ⟨hlt, hend⟩, if_pos hlt]
    rfl
  · rw [if_neg fun hin => hlt hin.1, if_neg hlt]
    rfl

theorem view_outside {reg : Region} (hreg : m.regions[h.region.toNat]? = some reg)
    (hend : reg.data.size < h.offset.toNat + h.size.toNat) :
    view m h = some (.error .offsetInvalid) := by
  rw [view, onRegion_eq, hreg]
  exact if_pos hend

/-- In every state of a manager and for every handle whatsoever the accesses stay in range, but
for the view of an empty range at the very end of a region. -/
theorem any_handle_in_range_iff (m : Manager) (h : Handle) : InRange m h ↔ ¬ AtEnd m h := by
  constructor
  · rintro hsafe ⟨reg, hreg, hoff, hsize⟩
    have hpanic : view m h = none := by
      rw [view_inside hreg (by omega), if_neg (by omega)]
    rcases hsafe.view with herr | ⟨_, _, _, hok, _⟩
    · cases hpanic.symm.trans herr
    · cases hpanic.symm.trans hok
  · intro hend
    refine ⟨?_, free_metas m h, ?_, fun word => ?_, fun bits => modifyMeta_returns m h _,
      fun mask => modifyMeta_returns m h _, modifyMeta_returns m h _,
      fun freq => modifyMeta_returns m h _⟩
    · cases hreg : m.regions[h.region.toNat]? with
      | none =>
        left
        rw [view, onRegion_eq, hreg]
      | some reg =>
        by_cases hin : h.offset.toNat + h.size.toNat ≤ reg.data.size
        · have hlt : h.offset.toNat < reg.data.size := by
            by_contra hge
            exact hend ⟨reg, hreg, by omega, by omega⟩
          right
          refine ⟨reg, _, rfl, ?_, hin, rfl, Cells.length_read _ _ _⟩
          rw [view_inside hreg hin, if_pos hlt]
        · exact .inl (view_outside hreg (Nat.lt_of_not_le hin))
    · exact onMeta_returns fun reg idx hidx => ⟨_, if_pos hidx⟩
    · refine onMeta_returns fun reg idx hidx => ?_
      rw [Region.storeMeta, if_pos hidx]
      exact ⟨_, rfl⟩

/-- The end of a region of eight bytes. -/
theorem empty_view_at_end :
    view (newManager 8) ⟨8, 0, 0, 0⟩ = none ∧ ¬ InRange (newManager 8) ⟨8, 0, 0, 0⟩ := by
  have hpanic : view (newManager 8) ⟨8, 0, 0, 0⟩ = none := rfl
  refine ⟨hpanic, fun hsafe => ?_⟩
  rcases hsafe.view with herr | ⟨_, _, _, hok, _⟩
  · cases hpanic.symm.trans herr
  · cases hpanic.symm.trans hok

end Access

end Horreum.Arena
