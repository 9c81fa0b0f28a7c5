/-
  Foundation/Text.lean --- searching, trimming and splitting of text as Go's `strings` and
  `bufio.Scanner` do it, on lists of bytes.

  `TrimSpace` also takes the spaces of Unicode, which are several bytes long; a byte that no such word
  contains stops it.  A scanner gives up on a line that does not fit its buffer.
-/
import Horreum.Foundation.Bytes
import Mathlib.Data.List.DropRight

set_option autoImplicit false

namespace Horreum.Foundation.Text

/-- A Go string constant of ASCII characters. -/
def ascii (s : String) : Bytes := s.toList.map fun c => UInt8.ofNat c.toNat

section Trim

variable {α : Type} {p : α → Bool} {c : α} {u v s : List α}

/-- The right end, for text of which the last part is trimmed and the rest is not. -/
theorem rdropWhile_append (hu : u = [] ∨ ∃ w d, u = w ++ [d] ∧ p d = false)
    (hv : ∀ d ∈ v, p d = true) : (u ++ v).rdropWhile p = u := by
  rw [List.rdropWhile, List.reverse_append,
    List.dropWhile_append_of_pos fun d hd => hv d (List.mem_reverse.mp hd)]
  rcases hu with rfl | ⟨w, d, rfl, hd⟩
  · rfl
  · rw [List.reverse_append, List.reverse_singleton, List.singleton_append,
      List.dropWhile_cons_of_neg (by rw [hd]; exact Bool.false_ne_true), List.reverse_cons,
      List.reverse_reverse]

/-- A character that is not trimmed keeps what stands before it. -/
theorem rdropWhile_keeps (hc : p c = false) :
    ∃ v', v' <+: v ∧ (u ++ c :: v).rdropWhile p = u ++ c :: v' := by
  induction v using List.reverseRecOn with
  | nil =>
    exact ⟨[], List.prefix_rfl,
      List.rdropWhile_concat_neg p u c (by rw [hc]; exact Bool.false_ne_true)⟩
  | append_singleton v d ih =>
    obtain ⟨v', hv', ih⟩ := ih
    have hassoc : u ++ c :: (v ++ [d]) = u ++ c :: v ++ [d] := by
      rw [← List.cons_append, List.append_assoc]
    rw [hassoc]
    by_cases hd : p d = true
    · refine ⟨v', hv'.trans (List.prefix_append v [d]), ?_⟩
      rw [List.rdropWhile_concat_pos _ _ _ hd, ih]
    · exact ⟨v ++ [d], List.prefix_rfl, by rw [List.rdropWhile_concat_neg _ _ _ hd, hassoc]⟩

variable [DecidableEq α]

/-- The first word of the list that stands in front of the text is removed. -/
def dropWord (words : List (List α)) (s : List α) : Option (List α) :=
  words.findSome? fun w => if w.isPrefixOf s then some (s.drop w.length) else none

/-- Words are removed as long as there is one. -/
def trimFront (words : List (List α)) : (fuel : Nat) → List α → List α
  | 0, s => s
  | fuel + 1, s =>
    match dropWord words s with
    | none => s
    | some rest => trimFront words fuel rest

/-- `strings.TrimFunc`, for the characters that are encoded by the words. -/
def trimWords (words : List (List α)) (s : List α) : List α :=
  let front := trimFront words s.length s
  (trimFront (words.map List.reverse) front.length front.reverse).reverse

variable {words : List (List α)} {fuel : Nat} {x y rest : List α}

theorem dropWord_eq_some (h : dropWord words s = some rest) : ∃ w ∈ words, s = w ++ rest := by
  obtain ⟨w, hw, h⟩ := List.exists_of_findSome?_eq_some h
  split at h
  · rename_i hfront
    obtain ⟨t, rfl⟩ := List.isPrefixOf_iff_prefix.mp hfront
    cases h
    exact ⟨w, hw, by rw [List.drop_left]⟩
  · cases h

/-- No word reaches past a character that is in no word. -/
theorem dropWord_stop (hc : ∀ w ∈ words, c ∉ w) (h : dropWord words (x ++ c :: y) = some rest) :
    ∃ x', x' <:+ x ∧ rest = x' ++ c :: y := by
  obtain ⟨w, hw, hsplit⟩ := dropWord_eq_some h
  rcases List.append_eq_append_iff.mp hsplit with ⟨t, rfl, ht⟩ | ⟨t, rfl, ht⟩
  · cases t with
    | nil => exact ⟨[], List.nil_suffix, ht.symm⟩
    | cons d t =>
      cases ht
      exact absurd (List.mem_append_right _ List.mem_cons_self) (hc _ hw)
  · exact ⟨t, List.suffix_append w t, ht⟩

theorem trimFront_stop (hc : ∀ w ∈ words, c ∉ w) (y : List α) : ∀ (fuel : Nat) (x : List α),
    ∃ x', x' <:+ x ∧ trimFront words fuel (x ++ c :: y) = x' ++ c :: y
  | 0, x => ⟨x, List.suffix_rfl, rfl⟩
  | fuel + 1, x => by
    rw [trimFront]
    split
    · exact ⟨x, List.suffix_rfl, rfl⟩
    · rename_i rest hdrop
      obtain ⟨x', hx', rfl⟩ := dropWord_stop hc hdrop
      obtain ⟨x'', hx'', htrim⟩ := trimFront_stop hc y fuel x'
      exact ⟨x'', hx''.trans hx', htrim⟩

theorem trimFront_head (hc : ∀ w ∈ words, c ∉ w) (y : List α) (fuel : Nat) :
    trimFront words fuel (c :: y) = c :: y := by
  obtain ⟨x', hx', htrim⟩ := trimFront_stop hc y fuel []
  rw [List.suffix_nil.mp hx'] at htrim
  exact htrim

theorem trimFront_append (hblank : ∀ b ∈ x, ∀ t, dropWord words (b :: t) = some t) :
    x.length ≤ fuel → trimFront words fuel (x ++ y) = trimFront words (fuel - x.length) y := by
  induction x generalizing fuel with
  | nil => exact fun _ => rfl
  | cons b x ih =>
    intro hfuel
    obtain ⟨fuel, rfl⟩ : ∃ k, fuel = k + 1 := ⟨fuel - 1, by rw [List.length_cons] at hfuel; omega⟩
    rw [List.cons_append, trimFront, hblank b List.mem_cons_self, List.length_cons,
      Nat.add_sub_add_right]
    exact ih (fun b hb => hblank b (List.mem_cons_of_mem _ hb)) (Nat.le_of_succ_le_succ hfuel)

theorem trimWords_eq (hblank : ∀ b ∈ x, ∀ t, dropWord words (b :: t) = some t)
    (hc : ∀ w ∈ words, c ∉ w) : trimWords words (x ++ c :: y) =
      (trimFront (words.map List.reverse) (c :: y).length (c :: y).reverse).reverse := by
  rw [trimWords, trimFront_append hblank (by rw [List.length_append]; exact Nat.le_add_right _ _),
    trimFront_head hc]

omit [DecidableEq α] in
theorem not_mem_map_reverse (hc : ∀ w ∈ words, c ∉ w) : ∀ w ∈ words.map List.reverse, c ∉ w := by
  intro w hw
  obtain ⟨w, hmem, rfl⟩ := List.mem_map.mp hw
  rw [List.mem_reverse]
  exact hc w hmem

/-- A trim keeps what stands between two characters that are in no word. -/
theorem trimWords_between {d : α} (hblank : ∀ b ∈ x, ∀ t, dropWord words (b :: t) = some t)
    (hc : ∀ w ∈ words, c ∉ w) (hd : ∀ w ∈ words, d ∉ w) (hsplit : c :: y = s ++ d :: v) :
    ∃ v', v' <+: v ∧ trimWords words (x ++ c :: y) = s ++ d :: v' := by
  obtain ⟨v', hv', htrim⟩ :=
    trimFront_stop (not_mem_map_reverse hd) s.reverse (c :: y).length v.reverse
  refine ⟨v'.reverse, List.reverse_suffix.mp (by rwa [List.reverse_reverse]), ?_⟩
  have hreverse : (c :: y).reverse = v.reverse ++ d :: s.reverse := by
    rw [hsplit, List.reverse_append, List.reverse_cons, List.append_assoc, List.singleton_append]
  rw [trimWords_eq hblank hc, hreverse, htrim, List.reverse_append, List.reverse_cons,
    List.reverse_reverse, List.append_assoc, List.singleton_append]

theorem trimWords_blank (hblank : ∀ b ∈ x, ∀ t, dropWord words (b :: t) = some t) :
    trimWords words x = [] := by
  have hfront := trimFront_append (y := []) hblank (Nat.le_refl x.length)
  rw [List.append_nil, Nat.sub_self] at hfront
  rw [trimWords, hfront]
  rfl

end Trim

section Index

variable {α : Type} [BEq α] [LawfulBEq α] {c : α} {u v : List α}

theorem idxOf?_append_cons (hu : c ∉ u) : (u ++ c :: v).idxOf? c = some u.length := by
  induction u with
  | nil => rw [List.nil_append, List.idxOf?_cons, if_pos (beq_self_eq_true c), List.length_nil]
  | cons d u ih =>
    have hd : ¬(d == c) = true := fun h => hu (by rw [eq_of_beq h]; exact List.mem_cons_self)
    rw [List.cons_append, List.idxOf?_cons, if_neg hd, ih fun h => hu (List.mem_cons_of_mem d h),
      Option.map_some, List.length_cons]

end Index

/-- A place in a list before which all is well, by its first element. -/
theorem exists_split_cons {α : Type} {p q : α → Prop} {a : α} {l : List α} :
    (∃ before x after, a :: l = before ++ x :: after ∧ (∀ y ∈ before, q y) ∧ p x) ↔
      p a ∨ (q a ∧ ∃ before x after, l = before ++ x :: after ∧ (∀ y ∈ before, q y) ∧ p x) := by
  constructor
  · rintro ⟨before, x, after, hsplit, hbefore, hx⟩
    cases before with
    | nil =>
      cases hsplit
      exact .inl hx
    | cons b before =>
      cases hsplit
      obtain ⟨ha, hbefore⟩ := List.forall_mem_cons.mp hbefore
      exact .inr ⟨ha, before, x, after, rfl, hbefore, hx⟩
  · rintro (ha | ⟨ha, before, x, after, rfl, hbefore, hx⟩)
    · exact ⟨[], a, l, rfl, fun _ h => absurd h List.not_mem_nil, ha⟩
    · exact ⟨a :: before, x, after, rfl, List.forall_mem_cons.mpr ⟨ha, hbefore⟩, hx⟩

/-! ## Spaces -/

/-- The characters of `unicode.IsSpace` in UTF-8. -/
def spaces : List Bytes :=
  [[9], [10], [11], [12], [13], [32], [0xC2, 0x85], [0xC2, 0xA0], [0xE1, 0x9A, 0x80],
   [0xE2, 0x80, 0x80], [0xE2, 0x80, 0x81], [0xE2, 0x80, 0x82], [0xE2, 0x80, 0x83],
   [0xE2, 0x80, 0x84], [0xE2, 0x80, 0x85], [0xE2, 0x80, 0x86], [0xE2, 0x80, 0x87],
   [0xE2, 0x80, 0x88], [0xE2, 0x80, 0x89], [0xE2, 0x80, 0x8A], [0xE2, 0x80, 0xA8],
   [0xE2, 0x80, 0xA9], [0xE2, 0x80, 0xAF], [0xE2, 0x81, 0x9F], [0xE3, 0x80, 0x80]]

/-- `strings.TrimSpace`.  Bytes that are no character are no space either. -/
def trimSpace (s : Bytes) : Bytes := trimWords spaces s

/-- A space or a tab. -/
def isBlank (b : UInt8) : Bool := b == 32 || b == 9

/-- A printed ASCII character. -/
def Solid (b : UInt8) : Prop := 32 < b ∧ b < 128

instance (b : UInt8) : Decidable (Solid b) := inferInstanceAs (Decidable (_ ∧ _))

variable {b c d : UInt8} {gap s u v : Bytes}

theorem forall_byte {p : UInt8 → Prop} (h : ∀ n < 256, p (UInt8.ofNat n)) (b : UInt8) : p b := by
  have hb := h b.toNat b.toNat_lt
  rwa [UInt8.ofNat_toNat] at hb

theorem Solid.not_blank : Solid c → isBlank c = false :=
  forall_byte (p := fun c => Solid c → isBlank c = false) (by decide +kernel) c

theorem Solid.not_mem_spaces (h : Solid c) : ∀ w ∈ spaces, c ∉ w := by
  have hall : (spaces.all fun w => w.all fun b => decide ¬Solid b) = true := by decide
  intro w hw hc
  exact of_decide_eq_true (List.all_eq_true.mp (List.all_eq_true.mp hall w hw) c hc) h

theorem dropWord_blank (h : isBlank b = true) (t : Bytes) : dropWord spaces (b :: t) = some t := by
  rw [isBlank, Bool.or_eq_true, beq_iff_eq, beq_iff_eq] at h
  rcases h with rfl | rfl <;> rfl

theorem trimSpace_between (hgap : ∀ b ∈ gap, isBlank b = true) (hc : Solid c) (hd : Solid d)
    (hsplit : c :: s = u ++ d :: v) :
    ∃ v', v' <+: v ∧ trimSpace (gap ++ c :: s) = u ++ d :: v' :=
  trimWords_between (fun b hb => dropWord_blank (hgap b hb)) hc.not_mem_spaces hd.not_mem_spaces
    hsplit

theorem trimSpace_ends (hgap : ∀ b ∈ gap, isBlank b = true) (hc : Solid c) (hd : Solid d)
    (hends : c :: s = u ++ [d]) : trimSpace (gap ++ c :: s) = c :: s := by
  obtain ⟨v', hv', htrim⟩ := trimSpace_between hgap hc hd hends
  rw [htrim, List.prefix_nil.mp hv', hends]

/-- A word of printed characters is what the trim leaves. -/
theorem trimSpace_word (hgap : ∀ b ∈ gap, isBlank b = true) (hs : ∀ b ∈ s, Solid b) :
    trimSpace (gap ++ s) = s := by
  cases s with
  | nil =>
    rw [List.append_nil]
    exact trimWords_blank fun b hb => dropWord_blank (hgap b hb)
  | cons c v =>
    have hends := (List.dropLast_append_getLast (List.cons_ne_nil c v)).symm
    exact trimSpace_ends hgap (hs c List.mem_cons_self) (hs _ (List.getLast_mem _)) hends

/-! ## Lines -/

/-- `dropCR` of `bufio.ScanLines`. -/
def dropCR (line : Bytes) : Bytes := if [13].isSuffixOf line then line.dropLast else line

/-- The tokens of a `bufio.Scanner` with a buffer of `limit` bytes, and whether it gives up: a line
and its newline have to fit, and the last line has to leave room for finding the end. -/
def scanLoop (limit : Nat) : (fuel : Nat) → Bytes → List Bytes × Bool
  | 0, _ => ([], false)
  | fuel + 1, data =>
    match (data.take limit).idxOf? 10 with
    | some i =>
      let (lines, tooLong) := scanLoop limit fuel (data.drop (i + 1))
      (dropCR (data.take i) :: lines, tooLong)
    | none =>
      if limit ≤ data.length then ([], true)
      else if data = [] then ([], false)
      else ([dropCR data], false)

/-- The lines, and whether one is too long. -/
def scanLines (limit : Nat) (data : Bytes) : List Bytes × Bool :=
  scanLoop limit (data.length + 1) data

/-- Lines, each with its newline. -/
def unlines (lines : List Bytes) : Bytes := lines.flatMap (· ++ [10])

variable {limit fuel : Nat} {line data : Bytes} {lines : List Bytes}

theorem scanLoop_line (hline : 10 ∉ line) (hshort : line.length < limit) :
    scanLoop limit (fuel + 1) (line ++ 10 :: data) =
      (dropCR line :: (scanLoop limit fuel data).1, (scanLoop limit fuel data).2) := by
  obtain ⟨k, hk⟩ : ∃ k, limit - line.length = k + 1 := ⟨limit - line.length - 1, by omega⟩
  have htake : (line ++ 10 :: data).take limit = line ++ 10 :: data.take k := by
    rw [List.take_append, List.take_of_length_le (Nat.le_of_lt hshort), hk, List.take_succ_cons]
  have hdrop : (line ++ 10 :: data).drop (line.length + 1) = data := by
    rw [List.drop_append, List.drop_of_length_le (Nat.le_succ _), Nat.add_sub_cancel_left]
    rfl
  rw [scanLoop, htake, idxOf?_append_cons hline]
  dsimp only
  rw [hdrop, List.take_left]

theorem scanLoop_long (hline : 10 ∉ line) (hlong : limit ≤ line.length) :
    scanLoop limit (fuel + 1) (line ++ data) = ([], true) := by
  have htake : (line ++ data).take limit = line.take limit := List.take_append_of_le_length hlong
  have hnone : (line.take limit).idxOf? 10 = none :=
    List.idxOf?_eq_none_iff.mpr fun h => hline (List.mem_of_mem_take h)
  rw [scanLoop, htake, hnone]
  dsimp only
  rw [if_pos (by rw [List.length_append]; omega)]

theorem unlines_cons : unlines (line :: lines) = line ++ 10 :: unlines lines := by
  rw [unlines, List.flatMap_cons, List.append_assoc]
  rfl

/-- What a scanner makes of printed lines. -/
theorem scanLoop_unlines (hlimit : 0 < limit) (hlines : ∀ line ∈ lines, 10 ∉ line) :
    (unlines lines).length < fuel →
    ((∀ line ∈ lines, line.length < limit) →
      scanLoop limit fuel (unlines lines) = (lines.map dropCR, false)) ∧
    ((∃ line ∈ lines, limit ≤ line.length) → (scanLoop limit fuel (unlines lines)).2 = true) := by
  induction lines generalizing fuel with
  | nil =>
    intro hfuel
    obtain ⟨fuel, rfl⟩ : ∃ k, fuel = k + 1 := ⟨fuel - 1, by omega⟩
    refine ⟨fun _ => ?_, fun ⟨_, hmem, _⟩ => absurd hmem List.not_mem_nil⟩
    rw [scanLoop, unlines, List.flatMap_nil, List.take_nil]
    exact if_neg (Nat.not_le_of_lt hlimit)
  | cons line lines ih =>
    intro hfuel
    obtain ⟨fuel, rfl⟩ : ∃ k, fuel = k + 1 := ⟨fuel - 1, by omega⟩
    have hline := hlines line List.mem_cons_self
    rw [unlines_cons, List.length_append, List.length_cons] at hfuel
    have hrest : (unlines lines).length < fuel := by omega
    obtain ⟨ihshort, ihlong⟩ := ih (fun l hl => hlines l (List.mem_cons_of_mem _ hl)) hrest
    rw [unlines_cons]
    constructor
    · intro hshort
      rw [scanLoop_line hline (hshort line List.mem_cons_self),
        ihshort fun l hl => hshort l (List.mem_cons_of_mem _ hl), List.map_cons]
    · rintro ⟨l, hl, hlong⟩
      by_cases hfirst : limit ≤ line.length
      · rw [scanLoop_long hline hfirst]
      · rw [scanLoop_line hline (Nat.lt_of_not_le hfirst)]
        rcases List.mem_cons.mp hl with rfl | hl
        · exact absurd hlong hfirst
        · exact ihlong ⟨l, hl, hlong⟩

theorem scanLines_unlines (hlimit : 0 < limit) (hlines : ∀ line ∈ lines, 10 ∉ line) :
    ((∀ line ∈ lines, line.length < limit) →
      scanLines limit (unlines lines) = (lines.map dropCR, false)) ∧
    ((∃ line ∈ lines, limit ≤ line.length) → (scanLines limit (unlines lines)).2 = true) :=
  scanLoop_unlines hlimit hlines (Nat.lt_succ_self _)

/-- The carriage return that a scanner drops would be trimmed in any case. -/
theorem rdropWhile_dropCR {p : UInt8 → Bool} (hp : p 13 = true) (line : Bytes) :
    (dropCR line).rdropWhile p = line.rdropWhile p := by
  unfold dropCR
  split
  · rename_i hcr
    obtain ⟨front, rfl⟩ := List.isSuffixOf_iff_suffix.mp hcr
    rw [List.dropLast_concat, List.rdropWhile_concat_pos _ _ _ hp]
  · rfl

end Horreum.Foundation.Text
