/-
  Foundation/Streaming.lean --- reading items off a stream that arrives in pieces.

  A reader finds an item, a fault, or too little to tell, and more input changes neither an item nor a
  fault.  So cutting the stream into pieces gives the items and the fault of the whole (`collect_eq`),
  unless the items of the piece that brings the fault are thrown away (`accept_eq_iff`).
-/
import Mathlib.Data.List.Basic

set_option autoImplicit false

namespace Horreum.Foundation.Streaming

/-- What stands at the front of the input. -/
inductive Next (ε β : Type) where
  | short
  | fault (e : ε)
  | item (x : β)

/-- What is at the front of a stream, and that more bytes do not change it. -/
structure Reader (α ε β : Type) where
  next : List α → Next ε β
  size : β → Nat
  size_pos : ∀ x, 0 < size x
  size_le : ∀ {w x}, next w = .item x → size x ≤ w.length
  item_append : ∀ {w x} v, next w = .item x → next (w ++ v) = .item x
  fault_append : ∀ {w e} v, next w = .fault e → next (w ++ v) = .fault e

namespace Reader

variable {α ε β : Type} (r : Reader α ε β) {x : β}

/-- At most `fuel` verdicts from the front on: the items, then the fault or what is left. -/
def drain : (fuel : Nat) → List α → List β × Except ε (List α)
  | 0, w => ([], .ok w)
  | fuel + 1, w =>
    match r.next w with
    | .short => ([], .ok w)
    | .fault e => ([], .error e)
    | .item x =>
      let (xs, out) := drain fuel (w.drop (r.size x))
      (x :: xs, out)

/-- Each item takes up at least one place of the input, so this reads them all. -/
def readAll (w : List α) : List β × Except ε (List α) := r.drain (w.length + 1) w

theorem drain_of_item {w : List α} (h : r.next w = .item x) (fuel : Nat) :
    r.drain (fuel + 1) w =
      (x :: (r.drain fuel (w.drop (r.size x))).1, (r.drain fuel (w.drop (r.size x))).2) := by
  rw [drain, h]

theorem length_drop_size_lt {w : List α} (h : r.next w = .item x) :
    (w.drop (r.size x)).length < w.length := by
  have hpos := r.size_pos x
  have hle := r.size_le h
  rw [List.length_drop]
  omega

theorem drain_fuel : ∀ (fuel fuel' : Nat) (w : List α), w.length < fuel → w.length < fuel' →
    r.drain fuel w = r.drain fuel' w
  | 0, _, _, h, _ => absurd h (Nat.not_lt_zero _)
  | _ + 1, 0, _, _, h => absurd h (Nat.not_lt_zero _)
  | fuel + 1, fuel' + 1, w, h, h' => by
    cases hnext : r.next w with
    | short => rw [drain, drain, hnext]
    | fault e => rw [drain, drain, hnext]
    | item x =>
      have hlen := r.length_drop_size_lt hnext
      rw [r.drain_of_item hnext, r.drain_of_item hnext,
        drain_fuel fuel fuel' (w.drop (r.size x)) (by omega) (by omega)]

section ReadAll

variable {r} {w : List α}

theorem readAll_of_short (h : r.next w = .short) : r.readAll w = ([], .ok w) := by
  rw [readAll, drain, h]

theorem readAll_of_fault {e : ε} (h : r.next w = .fault e) : r.readAll w = ([], .error e) := by
  rw [readAll, drain, h]

theorem readAll_of_item (h : r.next w = .item x) : r.readAll w =
    (x :: (r.readAll (w.drop (r.size x))).1, (r.readAll (w.drop (r.size x))).2) := by
  rw [readAll, r.drain_of_item h, readAll,
    r.drain_fuel _ _ _ (r.length_drop_size_lt h) (Nat.lt_succ_self _)]

end ReadAll

/-- Induction along the items at the front of the input. -/
theorem front_induction {P : List α → Prop} (short : ∀ w, r.next w = .short → P w)
    (fault : ∀ w e, r.next w = .fault e → P w)
    (item : ∀ w x, r.next w = .item x → P (w.drop (r.size x)) → P w) (w : List α) : P w := by
  induction hn : w.length using Nat.strongRecOn generalizing w with
  | _ n ih =>
    cases hnext : r.next w with
    | short => exact short w hnext
    | fault e => exact fault w e hnext
    | item x => exact item w x hnext (ih _ (hn ▸ r.length_drop_size_lt hnext) _ rfl)

/-- The places the items take up. -/
def extent (xs : List β) : Nat := xs.foldr (fun x n => r.size x + n) 0

/-- What is left is what comes behind the items, and it holds no further one. -/
theorem readAll_rest (w : List α) : ∀ xs rest, r.readAll w = (xs, .ok rest) →
    r.extent xs ≤ w.length ∧ rest = w.drop (r.extent xs) ∧ r.next rest = .short := by
  induction w using r.front_induction with
  | short w hnext =>
    intro xs rest h
    rw [readAll_of_short hnext] at h
    cases h
    exact ⟨Nat.zero_le _, rfl, hnext⟩
  | fault w e hnext =>
    intro xs rest h
    rw [readAll_of_fault hnext] at h
    cases h
  | item w x hnext ih =>
    intro xs rest h
    rw [readAll_of_item hnext] at h
    rcases hread : r.readAll (w.drop (r.size x)) with ⟨ys, out⟩
    simp only [hread, Prod.mk.injEq] at h
    obtain ⟨rfl, rfl⟩ := h
    obtain ⟨hfit, hrest, hshort⟩ := ih ys rest hread
    have hle := r.size_le hnext
    have hsum : r.extent (x :: ys) = r.size x + r.extent ys := rfl
    rw [List.length_drop] at hfit
    rw [List.drop_drop] at hrest
    exact ⟨by omega, by rw [hsum]; exact hrest, hshort⟩

/-- Reading more input: a fault stays, and otherwise reading goes on with what was left. -/
theorem readAll_append (v : List α) (w : List α) : r.readAll (w ++ v) =
    match r.readAll w with
    | (xs, .error e) => (xs, .error e)
    | (xs, .ok rest) => (xs ++ (r.readAll (rest ++ v)).1, (r.readAll (rest ++ v)).2) := by
  induction w using r.front_induction with
  | short w hnext => rw [readAll_of_short hnext]; rfl
  | fault w e hnext => rw [readAll_of_fault hnext, readAll_of_fault (r.fault_append v hnext)]
  | item w x hnext ih =>
    rw [readAll_of_item hnext, readAll_of_item (r.item_append v hnext),
      List.drop_append_of_le_length (r.size_le hnext), ih]
    rcases r.readAll (w.drop (r.size x)) with ⟨xs, e | rest⟩ <;> rfl

/-! ## Pieces -/

/-- Feed the pieces one after another, each behind what the one before left over, up to the
first fault. -/
def collect : List α → List (List α) → List β × Option ε
  | _, [] => ([], none)
  | kept, piece :: pieces =>
    match r.readAll (kept ++ piece) with
    | (xs, .error e) => (xs, some e)
    | (xs, .ok rest) => (xs ++ (collect rest pieces).1, (collect rest pieces).2)

/-- The fault of an outcome. -/
def faultOf : Except ε (List α) → Option ε
  | .error e => some e
  | .ok _ => none

/-- However the stream is cut, its items and its fault are those of the whole stream. -/
theorem collect_eq (pieces : List (List α)) : ∀ kept, r.next kept = .short →
    r.collect kept pieces =
      ((r.readAll (kept ++ pieces.flatten)).1, faultOf (r.readAll (kept ++ pieces.flatten)).2) := by
  induction pieces with
  | nil =>
    intro kept hshort
    rw [List.flatten_nil, List.append_nil, readAll_of_short hshort]
    rfl
  | cons piece pieces ih =>
    intro kept _
    rw [List.flatten_cons, ← List.append_assoc, readAll_append, collect]
    rcases hread : r.readAll (kept ++ piece) with ⟨xs, e | rest⟩
    · rfl
    · simp only [ih rest (r.readAll_rest _ xs rest hread).2.2]

/-- Feed the pieces as in `collect`, and throw away the items that come together with a fault. -/
def accept : List α → List (List α) → List β
  | _, [] => []
  | kept, piece :: pieces =>
    match r.readAll (kept ++ piece) with
    | (_, .error _) => []
    | (xs, .ok rest) => xs ++ accept rest pieces

/-- The piece that brings the fault completes no item. -/
def FaultApart (kept : List α) (pieces : List (List α)) : Prop :=
  ∀ before piece after, pieces = before ++ piece :: after →
    faultOf (r.readAll (kept ++ before.flatten)).2 = none →
    faultOf (r.readAll (kept ++ (before ++ [piece]).flatten)).2 ≠ none →
    (r.readAll (kept ++ (before ++ [piece]).flatten)).1 = (r.readAll (kept ++ before.flatten)).1

section Accept

variable {r} {kept piece rest : List α} {pieces : List (List α)} {xs : List β}

theorem faultApart_of_fault {e : ε} (hshort : r.next kept = .short)
    (hread : r.readAll (kept ++ piece) = (xs, .error e)) :
    r.FaultApart kept (piece :: pieces) ↔ xs = [] := by
  constructor
  · intro h
    have hfirst := h [] piece pieces rfl
    simp only [List.flatten_nil, List.append_nil, readAll_of_short hshort, List.nil_append,
      List.flatten_cons, hread] at hfirst
    exact hfirst rfl (by simp [faultOf])
  · rintro rfl before q after hsplit hclean _
    cases before with
    | nil =>
      obtain ⟨rfl, _⟩ := List.cons_eq_cons.mp hsplit
      simp only [List.flatten_nil, List.append_nil, List.nil_append, List.flatten_cons, hread,
        readAll_of_short hshort]
    | cons b before =>
      obtain ⟨rfl, _⟩ := List.cons_eq_cons.mp hsplit
      rw [List.flatten_cons, ← List.append_assoc, readAll_append, hread] at hclean
      cases hclean

theorem faultApart_of_rest (hread : r.readAll (kept ++ piece) = (xs, .ok rest)) :
    r.FaultApart kept (piece :: pieces) ↔ r.FaultApart rest pieces := by
  have hgoesOn : ∀ ps : List (List α), r.readAll (kept ++ (piece :: ps).flatten) =
      (xs ++ (r.readAll (rest ++ ps.flatten)).1, (r.readAll (rest ++ ps.flatten)).2) := by
    intro ps
    rw [List.flatten_cons, ← List.append_assoc, readAll_append, hread]
  constructor
  · intro h before q after hsplit hclean hfault
    have hlater := h (piece :: before) q after (by rw [hsplit, List.cons_append])
    rw [List.cons_append, hgoesOn, hgoesOn] at hlater
    exact List.append_cancel_left (hlater hclean hfault)
  · intro h before q after hsplit hclean hfault
    cases before with
    | nil =>
      obtain ⟨rfl, _⟩ := List.cons_eq_cons.mp hsplit
      rw [List.nil_append, List.flatten_cons, List.flatten_nil, List.append_nil, hread] at hfault
      exact absurd rfl hfault
    | cons b before =>
      obtain ⟨rfl, htail⟩ := List.cons_eq_cons.mp hsplit
      rw [List.cons_append, hgoesOn] at hfault ⊢
      rw [hgoesOn] at hclean ⊢
      exact congrArg (xs ++ ·) (h before q after htail hclean hfault)

end Accept

/-- What is accepted stands at the front of the stream, in its order. -/
theorem accept_prefix (pieces : List (List α)) : ∀ kept,
    r.accept kept pieces <+: (r.readAll (kept ++ pieces.flatten)).1 := by
  induction pieces with
  | nil => exact fun _ => List.nil_prefix
  | cons piece pieces ih =>
    intro kept
    rw [List.flatten_cons, ← List.append_assoc, readAll_append, accept]
    rcases hread : r.readAll (kept ++ piece) with ⟨xs, e | rest⟩
    · exact List.nil_prefix
    · exact (List.prefix_append_right_inj xs).mpr (ih rest)

/-- All items of the stream are accepted exactly if the piece that brings the fault, if there is
one, completes none. -/
theorem accept_eq_iff (pieces : List (List α)) : ∀ kept, r.next kept = .short →
    (r.accept kept pieces = (r.readAll (kept ++ pieces.flatten)).1 ↔ r.FaultApart kept pieces) := by
  induction pieces with
  | nil =>
    intro kept hshort
    rw [List.flatten_nil, List.append_nil, readAll_of_short hshort]
    refine ⟨fun _ before q after hsplit => ?_, fun _ => rfl⟩
    exact absurd hsplit.symm (List.append_ne_nil_of_right_ne_nil _ (List.cons_ne_nil _ _))
  | cons piece pieces ih =>
    intro kept hshort
    rw [List.flatten_cons, ← List.append_assoc, readAll_append, accept]
    rcases hread : r.readAll (kept ++ piece) with ⟨xs, e | rest⟩
    · rw [faultApart_of_fault hshort hread]
      exact eq_comm
    · rw [faultApart_of_rest hread, ← ih rest (r.readAll_rest _ xs rest hread).2.2]
      exact List.append_right_inj xs

end Reader

end Horreum.Foundation.Streaming
