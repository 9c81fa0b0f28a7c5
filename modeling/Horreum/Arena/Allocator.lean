/-
  Arena/Allocator.lean --- the per-region allocator of `internal/arena/allocator.go`.

  Blocks come from a bump pointer and are recycled through eleven freelists; those above 8192 bytes
  never are.  An extent is held (`Holds`) when it lies below the bump pointer and meets no free
  block; `alloc_spec` and `free_spec` say what a call does to the held extents.
-/
import Horreum.Foundation.Memory
import Mathlib.Logic.Function.Basic
import Mathlib.Tactic.Common
import Mathlib.Data.List.Nodup
import Mathlib.Tactic.IntervalCases

set_option autoImplicit false

namespace Horreum.Arena

open Foundation

/-- Blocks start at multiples of this. -/
def alignBytes : Nat := 8

/-- The number of size classes. -/
def numSizeClasses : Nat := 12

/-- The twelve size classes; the last one stands for "bump only". -/
def sizeClasses : List Nat := [8, 16, 32, 64, 128, 256, 512, 1024, 2048, 4096, 8192, 0]

/-- The index into `sizeClasses` for a value of `n` bytes. -/
def sizeClass (n : Nat) : Nat :=
  if n ≤ 8 then 0
  else if n ≤ 16 then 1
  else if n ≤ 32 then 2
  else if n ≤ 64 then 3
  else if n ≤ 128 then 4
  else if n ≤ 256 then 5
  else if n ≤ 512 then 6
  else if n ≤ 1024 then 7
  else if n ≤ 2048 then 8
  else if n ≤ 4096 then 9
  else if n ≤ 8192 then 10
  else 11

/-- The block length of a class, zero for the last. -/
def classSize (cls : Nat) : Nat :=
  if cls < numSizeClasses - 1 then sizeClasses.getD cls 0 else 0

/-- Round up to the alignment: `(n + alignBytes - 1) &^ (alignBytes - 1)`. -/
def alignUp (n : Nat) : Nat := (n + alignBytes - 1) / alignBytes * alignBytes

/-- Bump pointer, region size and freelists; a freelist is the chain of its
`freeNode`s, head first. -/
structure Allocator where
  offset : Nat
  size : Nat
  fl : Nat → List Nat

namespace Allocator

/-- All of the region is free. -/
def init (size : Nat) : Allocator := ⟨0, size, fun _ => []⟩

/-- Leave the first `n` bytes out. -/
def skip (a : Allocator) (n : Nat) : Allocator := { a with offset := n }

/-- The offset of a block of at least `n` bytes, or `none` for `ErrArenaFull`. -/
def alloc (a : Allocator) (n : Nat) : Option (Nat × Allocator) :=
  let n := if n = 0 then 1 else n
  let cls := sizeClass n
  match (if cls < numSizeClasses - 1 then a.fl cls else []) with
  | off :: next => some (off, { a with fl := Function.update a.fl cls next })
  | [] =>
    let allocSize := if cls < numSizeClasses - 1 then classSize cls else alignUp n
    let aligned := alignUp a.offset
    let newOff := aligned + allocSize
    if newOff > a.size then none else some (aligned, { a with offset := newOff })

/-- Return a block to its freelist.  Large blocks stay as dead bump space. -/
def free (a : Allocator) (offset size : Nat) : Allocator :=
  let cls := sizeClass size
  if cls ≥ numSizeClasses - 1 then a
  else { a with fl := Function.update a.fl cls (offset :: a.fl cls) }

end Allocator

/-! ## Blocks -/

/-- The number of bytes set aside for a value of `n` bytes. -/
def blockLen (n : Nat) : Nat :=
  if sizeClass n < numSizeClasses - 1 then classSize (sizeClass n) else alignUp n

theorem le_alignUp (n : Nat) : n ≤ alignUp n := by
  simp only [alignUp, alignBytes]
  omega

theorem dvd_alignUp (n : Nat) : 8 ∣ alignUp n := by
  simp only [alignUp, alignBytes]
  omega

/-- A class block has whole alignment units and room for the value. -/
theorem classSize_spec {c : Nat} (hc : c < numSizeClasses - 1) :
    8 ∣ classSize c ∧ 8 ≤ classSize c ∧ classSize c ≤ 8192 := by
  have hlt : c < 11 := hc
  interval_cases c <;> decide

theorem classSize_inj : ∀ c < numSizeClasses - 1, ∀ c' < numSizeClasses - 1,
    classSize c = classSize c' → c = c' := by
  decide

/-- `c` is the class of values of `n` bytes: a block of it has room for one. -/
def ClassOf (n c : Nat) : Prop :=
  (n ≤ 8192 → c < numSizeClasses - 1 ∧ n ≤ classSize c) ∧ (8192 < n → numSizeClasses - 1 ≤ c)

/-- One comparison of the chain in `sizeClass`. -/
theorem classOf_ite {n bound c rest : Nat} (hc : c < numSizeClasses - 1)
    (hbound : bound ≤ classSize c) (hrest : bound < n → ClassOf n rest) :
    ClassOf n (if n ≤ bound then c else rest) := by
  split
  · rename_i hle
    have hlarge := (classSize_spec hc).2.2
    exact ⟨fun _ => ⟨hc, hle.trans hbound⟩, fun hbig => by omega⟩
  · rename_i hgt
    exact hrest (Nat.lt_of_not_le hgt)

theorem classOf_sizeClass (n : Nat) : ClassOf n (sizeClass n) := by
  unfold sizeClass
  iterate 11 refine classOf_ite (by decide) (by decide) fun _ => ?_
  exact ⟨fun _ => by omega, fun _ => Nat.le_refl _⟩

theorem sizeClass_large {n : Nat} : numSizeClasses - 1 ≤ sizeClass n ↔ 8192 < n := by
  obtain ⟨hsmall, hlarge⟩ := classOf_sizeClass n
  refine ⟨fun hle => ?_, hlarge⟩
  by_contra hn
  have := (hsmall (Nat.le_of_not_lt hn)).1
  omega

theorem le_classSize {n : Nat} (h : n ≤ 8192) : n ≤ classSize (sizeClass n) :=
  ((classOf_sizeClass n).1 h).2

theorem blockLen_pos (n : Nat) : 8 ≤ blockLen n := by
  unfold blockLen
  split
  · rename_i h
    exact (classSize_spec h).2.1
  · rename_i h
    have hbig : 8192 < n := sizeClass_large.mp (by omega)
    have := le_alignUp n
    omega

theorem le_blockLen (n : Nat) : n ≤ blockLen n := by
  unfold blockLen
  split
  · rename_i h
    refine le_classSize ?_
    by_contra hbig
    have := sizeClass_large.mpr (Nat.lt_of_not_le hbig)
    omega
  · exact le_alignUp n

namespace Allocator

variable {a a' : Allocator} {n off : Nat}

/-- `e` is one of the free blocks of `a`. -/
def Free (a : Allocator) (e : Extent) : Prop :=
  ∃ c, c < numSizeClasses - 1 ∧ e.len = classSize c ∧ e.off ∈ a.fl c

/-- The freelists hold whole blocks below the bump pointer, each once, and no two
of them overlap. -/
structure Wf (a : Allocator) : Prop where
  last : a.fl (numSizeClasses - 1) = []
  nodup : ∀ c, c < numSizeClasses - 1 → (a.fl c).Nodup
  apart : ∀ e e', a.Free e → a.Free e' → e ≠ e' → e.Disjoint e'
  aligned : ∀ e, a.Free e → 8 ∣ e.off
  below : ∀ e, a.Free e → e.stop ≤ a.offset ∧ e.stop ≤ a.size

/-- `e` was handed out and not given back. -/
structure Holds (a : Allocator) (e : Extent) : Prop where
  below : e.stop ≤ a.offset
  inside : e.stop ≤ a.size
  apart : ∀ f, a.Free f → e.Disjoint f

theorem not_free_init (size : Nat) (e : Extent) : ¬ (init size).Free e := by
  rintro ⟨c, _, _, hmem⟩
  simp [init] at hmem

theorem wf_init (size n : Nat) : ((init size).skip n).Wf := by
  have hnone : ∀ e, ¬ ((init size).skip n).Free e := not_free_init size
  exact ⟨rfl, fun c _ => List.nodup_nil, fun e _ h => absurd h (hnone e),
    fun e h => absurd h (hnone e), fun e h => absurd h (hnone e)⟩

/-- The offsets on all freelists, class by class. -/
def freeOffsets (a : Allocator) : List Nat := (List.range numSizeClasses).flatMap a.fl

/-- Nothing is on the freelist of the class of large blocks. -/
theorem Wf.class_lt (h : a.Wf) {c off : Nat} (hc : c ∈ List.range numSizeClasses)
    (hoff : off ∈ a.fl c) : c < numSizeClasses - 1 := by
  have hle := List.mem_range.mp hc
  by_contra hlast
  obtain rfl : c = numSizeClasses - 1 := by omega
  rw [h.last] at hoff
  cases hoff

/-- What is held does not start where a free block starts. -/
theorem Holds.offset_not_mem {e : Extent} (hheld : a.Holds e) (h : a.Wf) (hpos : 0 < e.len) :
    e.off ∉ a.freeOffsets := by
  intro hmem
  obtain ⟨c, hc, hoff⟩ := List.mem_flatMap.mp hmem
  have hlt := h.class_lt hc hoff
  have hdis := hheld.apart ⟨e.off, classSize c⟩ ⟨c, hlt, rfl, hoff⟩
  have hlen := (classSize_spec hlt).2.1
  simp only [Extent.Disjoint, Extent.stop] at hdis
  omega

/-- No offset is on the freelists twice. -/
theorem Wf.nodup_freeOffsets (h : a.Wf) : a.freeOffsets.Nodup := by
  rw [freeOffsets, List.nodup_flatMap]
  refine ⟨?_, ?_⟩
  · intro c hc
    by_cases hne : a.fl c = []
    · rw [hne]
      exact List.nodup_nil
    · obtain ⟨off, hoff⟩ := List.exists_mem_of_ne_nil _ hne
      exact h.nodup c (h.class_lt hc hoff)
  · refine List.Pairwise.imp_of_mem ?_ List.nodup_range
    intro c c' hc hc' hne off hoff hoff'
    have hc := h.class_lt hc hoff
    have hc' := h.class_lt hc' hoff'
    -- two blocks at one offset overlap, so they are one block and its class is known
    have hdis := h.apart ⟨off, classSize c⟩ ⟨off, classSize c'⟩ ⟨c, hc, rfl, hoff⟩
      ⟨c', hc', rfl, hoff'⟩ fun heq => hne (classSize_inj c hc c' hc' (Extent.mk.inj heq).2)
    have hpos := (classSize_spec hc).2.1
    have hpos' := (classSize_spec hc').2.1
    simp only [Extent.Disjoint, Extent.stop] at hdis
    omega

/-! ## One call -/

/-- `alloc` with the length of the block that it sets aside. -/
theorem alloc_eq (a : Allocator) (n : Nat) : a.alloc n =
    match (if sizeClass n < numSizeClasses - 1 then a.fl (sizeClass n) else []) with
    | off :: next => some (off, { a with fl := Function.update a.fl (sizeClass n) next })
    | [] =>
      if alignUp a.offset + blockLen n > a.size then none
      else some (alignUp a.offset, { a with offset := alignUp a.offset + blockLen n }) := by
  have hcls : sizeClass (if n = 0 then 1 else n) = sizeClass n := by
    split
    · subst n; rfl
    · rfl
  have hlen : (if sizeClass n < numSizeClasses - 1 then classSize (sizeClass n)
      else alignUp (if n = 0 then 1 else n)) = blockLen n := by
    unfold blockLen
    split
    · rfl
    · rename_i hbig
      have : 8192 < n := sizeClass_large.mp (Nat.le_of_not_lt hbig)
      rw [if_neg (by omega)]
  simp only [alloc, hcls, hlen]

/-- Everything a successful `alloc` can do: pop a recycled block, or bump. -/
theorem alloc_cases (h : a.alloc n = some (off, a')) :
    (∃ next, sizeClass n < numSizeClasses - 1 ∧ a.fl (sizeClass n) = off :: next ∧
      a' = { a with fl := Function.update a.fl (sizeClass n) next }) ∨
    (off = alignUp a.offset ∧ off + blockLen n ≤ a.size ∧
      a' = { a with offset := off + blockLen n }) := by
  rw [alloc_eq] at h
  split at h
  · rename_i off' next hfl
    obtain ⟨rfl, rfl⟩ : off' = off ∧ _ = a' := by simpa using h
    split at hfl
    · exact Or.inl ⟨next, ‹_›, hfl, rfl⟩
    · cases hfl
  · split at h
    · cases h
    · rename_i hfit
      obtain ⟨rfl, rfl⟩ : alignUp a.offset = off ∧ _ = a' := by simpa using h
      exact Or.inr ⟨rfl, Nat.le_of_not_lt hfit, rfl⟩

/-- Popping the head of a freelist takes exactly that block out of the free ones. -/
theorem free_pop_iff {c off : Nat} {next : List Nat} (hwf : a.Wf) (hc : c < numSizeClasses - 1)
    (hfl : a.fl c = off :: next) (e : Extent) :
    ({ a with fl := Function.update a.fl c next } : Allocator).Free e ↔
      a.Free e ∧ e ≠ ⟨off, classSize c⟩ := by
  have hnd : off ∉ next := (List.nodup_cons.mp (hfl ▸ hwf.nodup c hc)).1
  constructor
  · rintro ⟨c', hc', hlen, hmem⟩
    by_cases hcc : c' = c
    · subst hcc
      simp only [Function.update_self] at hmem
      refine ⟨⟨c', hc', hlen, by simp [hfl, hmem]⟩, ?_⟩
      rintro rfl
      exact hnd hmem
    · simp only [Function.update_of_ne hcc] at hmem
      refine ⟨⟨c', hc', hlen, hmem⟩, ?_⟩
      rintro rfl
      exact hcc (classSize_inj c' hc' c hc hlen.symm)
  · rintro ⟨⟨c', hc', hlen, hmem⟩, hne⟩
    refine ⟨c', hc', hlen, ?_⟩
    by_cases hcc : c' = c
    · subst hcc
      simp only [Function.update_self]
      rcases List.mem_cons.mp (hfl ▸ hmem) with heq | htl
      · exact absurd (by cases e; simp_all) hne
      · exact htl
    · simpa only [Function.update_of_ne hcc] using hmem

/-- Pushing a block onto a freelist adds exactly that block to the free ones. -/
theorem free_push_iff (a : Allocator) (off : Nat) {c : Nat} (hc : c < numSizeClasses - 1) (e : Extent) :
    ({ a with fl := Function.update a.fl c (off :: a.fl c) } : Allocator).Free e ↔
      a.Free e ∨ e = ⟨off, classSize c⟩ := by
  constructor
  · rintro ⟨c', hc', hlen, hmem⟩
    by_cases hcc : c' = c
    · subst hcc
      simp only [Function.update_self, List.mem_cons] at hmem
      rcases hmem with heq | hmem
      · exact Or.inr (by cases e; simp_all)
      · exact Or.inl ⟨c', hc', hlen, hmem⟩
    · simp only [Function.update_of_ne hcc] at hmem
      exact Or.inl ⟨c', hc', hlen, hmem⟩
  · rintro (⟨c', hc', hlen, hmem⟩ | rfl)
    · refine ⟨c', hc', hlen, ?_⟩
      by_cases hcc : c' = c
      · subst hcc
        simp [hmem]
      · simpa only [Function.update_of_ne hcc] using hmem
    · exact ⟨c, hc, rfl, by simp⟩

theorem alloc_size (h : a.alloc n = some (off, a')) : a'.size = a.size := by
  obtain ⟨next, _, _, rfl⟩ | ⟨_, _, rfl⟩ := alloc_cases h <;> rfl

/-- The popped block of class `sizeClass n` is a block for `n` bytes. -/
theorem free_head {next : List Nat} (hc : sizeClass n < numSizeClasses - 1)
    (hfl : a.fl (sizeClass n) = off :: next) : a.Free ⟨off, blockLen n⟩ := by
  refine ⟨sizeClass n, hc, ?_, by simp [hfl]⟩
  simp [blockLen, hc]

theorem alloc_wf (hwf : a.Wf) (h : a.alloc n = some (off, a')) : a'.Wf := by
  obtain ⟨next, hc, hfl, rfl⟩ | ⟨rfl, _, rfl⟩ := alloc_cases h
  · have hiff := free_pop_iff hwf hc hfl
    refine ⟨?_, ?_, ?_, ?_, ?_⟩
    · simpa [Function.update_of_ne (Nat.ne_of_gt hc)] using hwf.last
    · intro c hlt
      by_cases hcc : c = sizeClass n
      · subst hcc
        simpa using (List.nodup_cons.mp (hfl ▸ hwf.nodup _ hlt)).2
      · simpa [Function.update_of_ne hcc] using hwf.nodup c hlt
    · intro e e' he he' hne
      exact hwf.apart e e' ((hiff e).mp he).1 ((hiff e').mp he').1 hne
    · intro e he
      exact hwf.aligned e ((hiff e).mp he).1
    · intro e he
      exact hwf.below e ((hiff e).mp he).1
  · refine ⟨hwf.last, hwf.nodup, hwf.apart, hwf.aligned, ?_⟩
    intro e he
    have hb := hwf.below e he
    have hle := le_alignUp a.offset
    exact ⟨by simp only; omega, hb.2⟩

/-- What `alloc` hands out is aligned and held, and clear of all that was held. -/
theorem alloc_holds (hwf : a.Wf) (h : a.alloc n = some (off, a')) :
    8 ∣ off ∧ a'.Holds ⟨off, blockLen n⟩ ∧
      ∀ e, a.Holds e → a'.Holds e ∧ e.Disjoint ⟨off, blockLen n⟩ := by
  obtain ⟨next, hc, hfl, rfl⟩ | ⟨rfl, hfit, rfl⟩ := alloc_cases h
  · have hfree := free_head hc hfl
    have hblock : blockLen n = classSize (sizeClass n) := by simp [blockLen, hc]
    have hiff := free_pop_iff hwf hc hfl
    obtain ⟨hbelow, hinside⟩ := hwf.below _ hfree
    refine ⟨hwf.aligned _ hfree, ⟨hbelow, hinside, ?_⟩, ?_⟩
    · intro f hf
      obtain ⟨hf, hne⟩ := (hiff f).mp hf
      exact hwf.apart _ _ hfree hf (by rw [hblock]; exact hne.symm)
    · intro e he
      exact ⟨⟨he.below, he.inside, fun f hf => he.apart f ((hiff f).mp hf).1⟩,
        he.apart _ hfree⟩
  · have hle := le_alignUp a.offset
    refine ⟨dvd_alignUp _, ⟨Nat.le_refl _, hfit, ?_⟩, ?_⟩
    · intro f hf
      exact Or.inr (Nat.le_trans (hwf.below f hf).1 hle)
    · intro e he
      have hb := he.below
      exact ⟨⟨by simp only; omega, he.inside, he.apart⟩, Or.inl (Nat.le_trans hb hle)⟩

theorem free_size (a : Allocator) (offset size : Nat) : (a.free offset size).size = a.size := by
  simp only [free]
  split <;> rfl

/-- Giving back a held block keeps the freelists well formed, and every held extent
clear of the block stays held. -/
theorem free_spec {off n : Nat} (hwf : a.Wf) (hheld : a.Holds ⟨off, blockLen n⟩)
    (halign : 8 ∣ off) :
    (a.free off n).Wf ∧
      ∀ e, a.Holds e → e.Disjoint ⟨off, blockLen n⟩ → (a.free off n).Holds e := by
  simp only [free]
  split
  · exact ⟨hwf, fun e he _ => he⟩
  · rename_i hcls
    have hc : sizeClass n < numSizeClasses - 1 := Nat.lt_of_not_le hcls
    have hblock : blockLen n = classSize (sizeClass n) := by simp [blockLen, hc]
    rw [hblock] at hheld ⊢
    have hiff := free_push_iff a off hc
    refine ⟨⟨?_, ?_, ?_, ?_, ?_⟩, ?_⟩
    · simpa [Function.update_of_ne (Nat.ne_of_gt hc)] using hwf.last
    · intro c hlt
      by_cases hcc : c = sizeClass n
      · subst hcc
        simp only [Function.update_self, List.nodup_cons]
        refine ⟨?_, hwf.nodup _ hlt⟩
        intro hmem
        have hself := hheld.apart ⟨off, classSize (sizeClass n)⟩ ⟨_, hlt, rfl, hmem⟩
        have hpos := (classSize_spec hlt).2.1
        exact Extent.not_disjoint_self (by simp only; omega) hself
      · simpa [Function.update_of_ne hcc] using hwf.nodup c hlt
    · intro e e' he he' hne
      rcases (hiff e).mp he with he | rfl <;> rcases (hiff e').mp he' with he' | rfl
      · exact hwf.apart e e' he he' hne
      · exact (hheld.apart e he).symm
      · exact hheld.apart e' he'
      · exact absurd rfl hne
    · intro e he
      rcases (hiff e).mp he with he | rfl
      · exact hwf.aligned e he
      · exact halign
    · intro e he
      rcases (hiff e).mp he with he | rfl
      · exact hwf.below e he
      · exact ⟨hheld.below, hheld.inside⟩
    · intro e he hdis
      refine ⟨he.below, he.inside, ?_⟩
      intro f hf
      rcases (hiff f).mp hf with hf | rfl
      · exact he.apart f hf
      · exact hdis

/-! ## A lower bound on what is handed out -/

/-- Whatever is handed out next starts at `bound` or behind. -/
structure Above (bound : Nat) (a : Allocator) : Prop where
  bump : bound ≤ alignUp a.offset
  free : ∀ c off, off ∈ a.fl c → bound ≤ off

theorem above_init (size n : Nat) : ((init size).skip n).Above (alignUp n) :=
  ⟨Nat.le_refl _, fun _ _ h => nomatch h⟩

theorem Above.mono {bound bound' : Nat} (h : a.Above bound) (hle : bound' ≤ bound) :
    a.Above bound' :=
  ⟨hle.trans h.bump, fun c off hoff => hle.trans (h.free c off hoff)⟩

theorem Above.alloc {bound n off : Nat} (h : a.Above bound) (halloc : a.alloc n = some (off, a')) :
    bound ≤ off ∧ a'.Above bound := by
  obtain ⟨next, _, hfl, rfl⟩ | ⟨rfl, _, rfl⟩ := alloc_cases halloc
  · refine ⟨h.free (sizeClass n) off (by simp [hfl]), h.bump, fun c o ho => ?_⟩
    by_cases hc : c = sizeClass n
    · subst hc
      simp only [Function.update_self] at ho
      refine h.free (sizeClass n) o ?_
      rw [hfl]
      exact List.mem_cons_of_mem off ho
    · simp only [Function.update_of_ne hc] at ho
      exact h.free c o ho
  · refine ⟨h.bump, ?_, h.free⟩
    exact h.bump.trans ((Nat.le_add_right _ _).trans (le_alignUp _))

theorem Above.free_block {bound off n : Nat} (h : a.Above bound) (hoff : bound ≤ off) :
    (a.free off n).Above bound := by
  simp only [Allocator.free]
  split
  · exact h
  · refine ⟨h.bump, fun c o ho => ?_⟩
    by_cases hc : c = sizeClass n
    · subst hc
      simp only [Function.update_self, List.mem_cons] at ho
      rcases ho with rfl | ho
      · exact hoff
      · exact h.free _ o ho
    · simp only [Function.update_of_ne hc] at ho
      exact h.free c o ho

end Allocator

end Horreum.Arena
