/-
  Ds/Lists.lean --- a payload as a double-ended list.

  `LPush`, `LPop` and `RPop` do on the payload what they should do on the list it encodes.
  `RPush` does so too where it returns: on a payload without a count, and so on the list that is
  not there yet, it slices beyond the buffer that it has made.
-/
import Horreum.Ds.Records
import Horreum.Foundation.Runs
import Mathlib.Data.List.Induction

set_option autoImplicit false

namespace Horreum.Ds

open Foundation

variable {raw x : Bytes} {xs : List Bytes}

/-- A payload that encodes this list; one without a count encodes the empty one. -/
def EncodesList (raw : Bytes) (xs : List Bytes) : Prop := IsList raw xs ∨ raw.length < 4 ∧ xs = []

theorem EncodesList.lLen (h : EncodesList raw xs) : lLen raw = xs.length := by
  rcases h with h | ⟨hshort, rfl⟩
  · have hlen : 4 ≤ raw.length := h.bytes ▸ four_le_length_listBytes xs
    rw [Ds.lLen, if_neg (Nat.not_lt.mpr hlen), h.count]
  · rw [Ds.lLen, if_pos hshort]
    rfl

theorem EncodesList.few (h : EncodesList raw xs) : xs.length < 2 ^ 32 := by
  rcases h with h | ⟨_, rfl⟩
  · exact h.few
  · exact Nat.two_pow_pos 32

theorem EncodesList.short (h : EncodesList raw xs) : ∀ y ∈ xs, y.length < 2 ^ 32 := by
  rcases h with h | ⟨_, rfl⟩
  · exact h.short
  · simp

theorem encodesList_leftover (hfew : xs.length < 2 ^ 32) (hshort : ∀ y ∈ xs, y.length < 2 ^ 32) :
    EncodesList (leftover xs) xs := by
  rw [leftover]
  split
  · rename_i hnil
    exact .inr ⟨by decide, hnil⟩
  · exact .inl ⟨rfl, hfew, hshort⟩

theorem EncodesList.pop_nil (h : EncodesList raw []) : lPop raw = none ∧ rPop raw = none := by
  rcases h with h | ⟨hshort, _⟩
  · exact h.pop_nil
  · have hlen : raw.length < 8 := by omega
    simp only [lPop, rPop, hlen, if_true, and_self]

theorem EncodesList.lPush (h : EncodesList raw xs) (x : Bytes) : lPush raw x = listBytes (x :: xs) := by
  rcases h with h | ⟨hshort, rfl⟩
  · exact h.lPush x
  · have hlen : ¬ raw.length ≥ 4 := by omega
    simp [Ds.lPush, hlen, listBytes]

theorem EncodesList.lPop_cons (h : EncodesList raw (x :: xs)) :
    ∃ p, lPop raw = some p ∧ Pops raw x xs p := by
  rcases h with h | ⟨_, hnil⟩
  · exact h.lPop_cons
  · cases hnil

theorem EncodesList.rPop_concat (h : EncodesList raw (xs ++ [x])) :
    ∃ p, rPop raw = some p ∧ Pops raw x xs p := by
  rcases h with h | ⟨_, hnil⟩
  · exact h.rPop_concat
  · simp at hnil

/-- What a pop leaves encodes the rest. -/
theorem EncodesList.rest {ys : List Bytes} {p : Popped} (h : EncodesList raw xs)
    (hsub : List.Sublist ys xs) (hp : Pops raw x ys p) : EncodesList p.newRaw ys := by
  rw [hp.newRaw]
  exact encodesList_leftover (Nat.lt_of_le_of_lt hsub.length_le h.few) fun y hy => h.short y (hsub.mem hy)

/-! ## Appending -/

/-- The elements that up to `n` calls of `LPop` deliver. -/
def lPops : (n : Nat) → (raw : Bytes) → List Bytes
  | 0, _ => []
  | n + 1, raw =>
    match lPop raw with
    | none => []
    | some p => p.elem :: lPops n p.newRaw

theorem EncodesList.lPops (h : EncodesList raw xs) (n : Nat) : lPops n raw = xs.take n := by
  induction n generalizing raw xs with
  | zero => rfl
  | succ n ih =>
    cases xs with
    | nil => rw [Ds.lPops, h.pop_nil.1, List.take_nil]
    | cons x xs =>
      obtain ⟨p, hpop, hp⟩ := h.lPop_cons
      have hrest := h.rest (List.sublist_cons_self x xs) hp
      simp only [Ds.lPops, hpop, hp.elem, ih hrest, List.take_succ_cons]

/-- What `RPush` should do on the payload of a list. -/
def Appends (raw : Bytes) (xs : List Bytes) (x : Bytes) : Prop :=
  ∃ newRaw, rPush raw x = some newRaw ∧ newRaw = listBytes (xs ++ [x]) ∧
    lLen newRaw = lLen raw + 1 ∧
    (∃ p, rPop newRaw = some p ∧ p.elem = x ∧ EncodesList p.newRaw xs) ∧
    ∀ n, lPops n newRaw = (xs ++ [x]).take n

theorem appends_iff (h : EncodesList raw xs) (hx : x.length < 2 ^ 32) :
    Appends raw xs x ↔ 4 ≤ raw.length ∧ xs.length + 1 < 2 ^ 32 := by
  constructor
  · rintro ⟨newRaw, hpush, hbytes, hlen, _⟩
    have hcount : 4 ≤ raw.length := by
      by_contra hshort
      rw [rPush, if_neg hshort] at hpush
      cases hpush
    have hfew := h.few
    -- one element more than the count can hold makes it zero
    have hnew : lLen newRaw = (xs.length + 1) % 2 ^ 32 := by
      have hfour := four_le_length_listBytes (xs ++ [x])
      rw [hbytes, Ds.lLen, if_neg (Nat.not_lt.mpr hfour), listBytes, payloadCount, wordAt_zero,
        List.length_append]
      rfl
    rw [hnew, h.lLen] at hlen
    have hlt := Nat.mod_lt (xs.length + 1) (Nat.two_pow_pos 32)
    exact ⟨hcount, by omega⟩
  · rintro ⟨hcount, hfew⟩
    rcases h with h | ⟨hshort, _⟩
    · have hnew : EncodesList (listBytes (xs ++ [x])) (xs ++ [x]) := by
        refine .inl ⟨rfl, by rw [List.length_append]; exact hfew, fun y hy => ?_⟩
        rcases List.mem_append.mp hy with hy | hy
        · exact h.short y hy
        · exact List.mem_singleton.mp hy ▸ hx
      obtain ⟨p, hpop, hp⟩ := hnew.rPop_concat
      refine ⟨_, h.rPush x, rfl, ?_, ⟨p, hpop, hp.elem, ?_⟩, hnew.lPops⟩
      · have hold : EncodesList raw xs := .inl h
        rw [hnew.lLen, hold.lLen, List.length_append]
        rfl
      · exact hnew.rest (List.sublist_append_left xs [x]) hp
    · omega

theorem appends_iff_stored : Appends (listBytes [[1], []]) [[1], []] [7] :=
  (appends_iff (.inl ⟨rfl, by decide, by decide⟩) (by decide)).mpr (by decide)

/-- `RPush` to the list that is not there. -/
theorem rPush_panics : EncodesList [] [] ∧ ¬ Appends [] [] [7] := by
  refine ⟨.inr ⟨by decide, rfl⟩, ?_⟩
  rintro ⟨newRaw, hpush, _⟩
  cases hpush

/-! ## Double-ended lists -/

/-- The calls on a list. -/
inductive ListCall where
  | lPush (elem : Bytes)
  | lPop
  | rPop
  deriving DecidableEq, Repr

/-- A pop answers with the element, if there is one. -/
inductive ListReply where
  | pushed
  | popped (elem : Option Bytes)
  deriving DecidableEq, Repr

/-- Both pops return the payload they were given where they have no element. -/
def popReply (raw : Bytes) : Option Popped → ListReply × Bytes
  | none => (.popped none, raw)
  | some p => (.popped (some p.elem), p.newRaw)

/-- A call on the payload of a list. -/
def listStep (raw : Bytes) : ListCall → ListReply × Bytes
  | .lPush elem => (.pushed, lPush raw elem)
  | .lPop => popReply raw (lPop raw)
  | .rPop => popReply raw (rPop raw)

/-- The same on a list. -/
def listSpec (xs : List Bytes) : ListCall → ListReply × List Bytes
  | .lPush elem => (.pushed, elem :: xs)
  | .lPop => (.popped xs.head?, xs.tail)
  | .rPop => (.popped xs.getLast?, xs.dropLast)

theorem popReply_some {p : Popped} {pop : Bytes → Option Popped} (hpop : pop raw = some p)
    (hp : Pops raw x xs p) : popReply raw (pop raw) = (.popped (some x), leftover xs) := by
  rw [hpop, popReply, hp.elem, hp.newRaw]

theorem listStep_eq {call : ListCall} (hfew : xs.length < 2 ^ 32)
    (hshort : ∀ y ∈ xs, y.length < 2 ^ 32) :
    listStep (leftover xs) call = ((listSpec xs call).1, leftover (listSpec xs call).2) := by
  have henc := encodesList_leftover hfew hshort
  cases call with
  | lPush elem =>
    rw [listStep, henc.lPush elem]
    rfl
  | lPop =>
    cases xs with
    | nil => rfl
    | cons x xs =>
      obtain ⟨p, hpop, hp⟩ := henc.lPop_cons
      exact popReply_some hpop hp
  | rPop =>
    induction xs using List.reverseRecOn with
    | nil => rfl
    | append_singleton xs x _ =>
      obtain ⟨p, hpop, hp⟩ := henc.rPop_concat
      rw [listStep, popReply_some hpop hp, listSpec, List.getLast?_concat, List.dropLast_concat]

/-- An element that a record can hold. -/
def ListCall.Fits (call : ListCall) : Prop := ∀ elem, call = .lPush elem → elem.length < 2 ^ 32

theorem short_listSpec {call : ListCall} (hshort : ∀ y ∈ xs, y.length < 2 ^ 32) (hcall : call.Fits) :
    ∀ y ∈ (listSpec xs call).2, y.length < 2 ^ 32 := by
  intro y hy
  cases call with
  | lPush elem =>
    rcases List.mem_cons.mp hy with rfl | hy
    · exact hcall y rfl
    · exact hshort y hy
  | lPop => exact hshort y (List.mem_of_mem_tail hy)
  | rPop => exact hshort y (List.dropLast_subset xs hy)

/-- The payload of a list of such elements. -/
def StoresList (raw : Bytes) (xs : List Bytes) : Prop :=
  raw = leftover xs ∧ ∀ y ∈ xs, y.length < 2 ^ 32

theorem StoresList.step (raw : Bytes) (xs : List Bytes) (call : ListCall) (h : StoresList raw xs)
    (hfew : xs.length < 2 ^ 32) (_ : (listSpec xs call).2.length < 2 ^ 32) (hcall : call.Fits) :
    (listStep raw call).1 = (listSpec xs call).1 ∧
      StoresList (listStep raw call).2 (listSpec xs call).2 := by
  obtain ⟨rfl, hshort⟩ := h
  rw [listStep_eq hfew hshort]
  exact ⟨rfl, rfl, short_listSpec hshort hcall⟩

/-- Every run gives the answers of the list, and the payload stays that of the list. -/
theorem list_refines (calls : List ListCall)
    (hshort : ∀ elem, .lPush elem ∈ calls → elem.length < 2 ^ 32)
    (hfew : ∀ n, (expected listSpec [] (calls.take n)).2.length < 2 ^ 32) :
    (expected listStep [] calls).1 = (expected listSpec [] calls).1 ∧
      (expected listStep [] calls).2 = leftover (expected listSpec [] calls).2 ∧
      lLen (expected listStep [] calls).2 = (expected listSpec [] calls).2.length := by
  have hend := hfew calls.length
  rw [List.take_length] at hend
  obtain ⟨hanswers, hraw, hall⟩ := expected_refines StoresList.step calls [] [] ⟨rfl, by simp⟩
    (fun call hin elem heq => hshort elem (heq ▸ hin)) hfew
  refine ⟨hanswers, hraw, ?_⟩
  rw [hraw]
  exact (encodesList_leftover hend hall).lLen

theorem length_listSpec_le (calls : List ListCall) (xs : List Bytes) :
    (expected listSpec xs calls).2.length ≤ xs.length + calls.length := by
  induction calls generalizing xs with
  | nil => exact Nat.le_refl _
  | cons call calls ih =>
    have hstep : (listSpec xs call).2.length ≤ xs.length + 1 := by
      cases call with
      | lPush elem => exact Nat.le_refl _
      | lPop => simp only [listSpec, List.length_tail]; omega
      | rPop => simp only [listSpec, List.length_dropLast]; omega
    have hrest := ih (listSpec xs call).2
    rw [List.length_cons]
    exact hrest.trans (by omega)

theorem list_refines_both_ends :
    expected listStep [] [.lPush [1], .lPush [], .rPop, .lPop, .lPop] =
      ([.pushed, .pushed, .popped (some [1]), .popped (some []), .popped none], []) := by
  have h := list_refines [.lPush [1], .lPush [], .rPop, .lPop, .lPop]
    (by simp) fun n => Nat.lt_of_le_of_lt (length_listSpec_le _ []) (by
      rw [List.length_take]
      exact Nat.lt_of_le_of_lt (Nat.add_le_add_left (Nat.min_le_right _ _) _) (by decide))
  exact Prod.ext h.1 h.2.1

end Horreum.Ds
