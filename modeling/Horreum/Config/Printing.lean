/-
  Config/Printing.lean --- what `ParseYAML` makes of printed configurations.

  Parsing gives the scalars of a document back, except that a `#` within a string can be taken for
  the start of a comment or can hide the comment that follows, and that a line can be too long for
  the scanner.
-/
import Horreum.Config.Documents
import Mathlib.Data.List.Nodup

set_option autoImplicit false

namespace Horreum.Yaml

open Foundation
open Foundation.Text

variable {b c d : UInt8} {u v w z s t : Bytes} {x : Setting}

/-! ## Printed lines -/

/-- What the first trim can leave of the end of a line. -/
def Tail.Leaves (x : Tail) (t : Bytes) : Prop :=
  (x.comment = none ∧ t = []) ∨
    (x.comment ≠ none ∧ ∃ w b c, t = w ++ b :: 35 :: c ∧ isBlank b = true ∧
      ∀ b ∈ w, isBlank b = true)

theorem trimLine_tail (x : Tail) (hd : Solid d) :
    ∃ t, x.Leaves t ∧ trimLine (u ++ [d] ++ x.bytes) = u ++ [d] ++ t := by
  cases hcomment : x.comment with
  | none =>
    refine ⟨[], .inl ⟨hcomment, rfl⟩, ?_⟩
    rw [Filler.bytes, hcomment, List.append_nil, List.append_nil]
    exact rdropWhile_append (.inr ⟨u, d, rfl, not_trailing_of_solid hd⟩)
      fun b hb => isTrailing_of_isBlank (x.gap.blank b hb)
  | some c =>
    have hgap := x.spaced (by rw [hcomment]; rfl)
    obtain ⟨c', _, htrim⟩ := rdropWhile_keeps (p := isTrailing) (c := 35)
      (u := u ++ [d] ++ x.gap.bytes) (v := c.text) rfl
    have hsplit := List.dropLast_append_getLast hgap
    refine ⟨x.gap.bytes ++ 35 :: c', .inr ⟨by rw [hcomment]; exact Option.some_ne_none c,
      x.gap.bytes.dropLast, x.gap.bytes.getLast hgap, c', ?_, ?_, ?_⟩, ?_⟩
    · nth_rewrite 1 [← hsplit]
      rw [List.append_assoc, List.singleton_append]
    · exact x.gap.blank _ (List.getLast_mem hgap)
    · exact fun b hb => x.gap.blank b ((List.dropLast_sublist _).subset hb)
    · rw [Filler.bytes, hcomment, trimLine, ← List.append_assoc, htrim, List.append_assoc]

/-- A comment behind text without a `#` is removed with the blanks before it. -/
theorem Tail.Leaves.uncommented {x : Tail} (ht : x.Leaves t) (hd : Solid d) (hz : 35 ∉ u ++ [d]) :
    uncommented (u ++ [d] ++ t) = u ++ [d] := by
  rcases ht with ⟨_, rfl⟩ | ⟨_, w, b, c, rfl, hb, hw⟩
  · rw [List.append_nil, uncommented_of_not_mem hz]
  · have hblanks : ∀ e ∈ w ++ [b], isBlank e = true := by
      intro e he
      rcases List.mem_append.mp he with he | he
      · exact hw e he
      · rwa [List.mem_singleton.mp he]
    have hfront : 35 ∉ u ++ [d] ++ (w ++ [b]) := by
      rw [List.mem_append, not_or]
      exact ⟨hz, fun h => absurd (hblanks 35 h) (by decide)⟩
    have hsplit : u ++ [d] ++ (w ++ b :: 35 :: c) = u ++ [d] ++ (w ++ [b]) ++ 35 :: c := by
      simp only [List.append_assoc, List.cons_append, List.nil_append]
    have hlast : (u ++ [d] ++ (w ++ [b])).getLast? = some b := by
      rw [← List.append_assoc, List.getLast?_concat]
    rw [hsplit, uncommented_append hfront, hlast, Option.all_some, if_pos hb,
      rdropWhile_append (.inr ⟨u, d, rfl, hd.not_blank⟩) hblanks]

theorem countIndent_append (hw : ∀ b ∈ w, isBlank b = true) (hc : Solid c) :
    countIndent (w ++ c :: s) = w.length := by
  induction w with
  | nil => rw [List.nil_append, countIndent, hc.not_blank, if_neg Bool.false_ne_true, List.length_nil]
  | cons b w ih =>
    rw [List.cons_append, countIndent, hw b List.mem_cons_self, if_pos rfl,
      ih fun b hb => hw b (List.mem_cons_of_mem _ hb), List.length_cons]

theorem content_of_trimLine (hw : ∀ b ∈ w, isBlank b = true) (hc : Solid c)
    (h : trimLine t = w ++ c :: s) :
    content t = uncommented (c :: s) ∧ countIndent (trimLine t) = w.length := by
  rw [content, h, List.dropWhile_append_of_pos hw,
    List.dropWhile_cons_of_neg (by rw [hc.not_blank]; exact Bool.false_ne_true)]
  exact ⟨rfl, countIndent_append hw hc⟩

theorem parseLine_filler (s : State) (x : Filler) :
    parseLine s x.bytes = some (.ok { s with lineNum := s.lineNum + 1 }) := by
  have hcontent : content x.bytes = [] := by
    cases hcomment : x.comment with
    | none =>
      have htrim : trimLine x.bytes = [] := by
        rw [Filler.bytes, hcomment, List.append_nil]
        exact rdropWhile_append (u := []) (.inl rfl)
          fun b hb => isTrailing_of_isBlank (x.gap.blank b hb)
      rw [content, htrim]
      rfl
    | some c =>
      obtain ⟨c', _, htrim⟩ := rdropWhile_keeps (p := isTrailing) (c := 35) (u := x.gap.bytes)
        (v := c.text) rfl
      have hline : trimLine x.bytes = x.gap.bytes ++ 35 :: c' := by
        rw [Filler.bytes, hcomment, trimLine, htrim]
      rw [(content_of_trimLine x.gap.blank (by decide) hline).1]
      exact uncommented_append (u := []) List.not_mem_nil
  rw [parseLine_eq, if_pos hcontent]

/-- The sections above a line. -/
def ancestors (n : Nat) (stack : List StackItem) : List StackItem :=
  stack.dropWhile fun item => decide (n ≤ item.indent)

theorem trimQuotes_key (k : Key) : trimQuotes (trimSpace k.name) = k.name := by
  have hspace : trimSpace ([] ++ k.name) = k.name :=
    trimSpace_word (fun _ h => absurd h List.not_mem_nil) fun b hb => (k.bare b hb).1
  have hquote : ∀ b ∈ k.name, ¬isQuote b = true := by
    intro b hb
    rw [(k.bare b hb).not_quote]
    exact Bool.false_ne_true
  have hfront : k.name.dropWhile isQuote = k.name :=
    List.dropWhile_eq_self_iff.mpr fun h => hquote _ (List.getElem_mem h)
  have hback : k.name.rdropWhile isQuote = k.name :=
    List.rdropWhile_eq_self_iff.mpr fun h => hquote _ (List.getLast_mem h)
  rw [List.nil_append] at hspace
  rw [hspace, trimQuotes, hfront, hback]

/-- A line of the parser with the key of a printed one. -/
theorem parseEntry_key (s : State) (k : Key) (indent : Nat) (line v : Bytes) :
    parseEntry s indent line (k.name ++ 58 :: v) =
      if trimSpace v = [] ∧ [58].isSuffixOf (k.name ++ 58 :: v) then
        some (.ok { s with stack := ⟨indent, k.name⟩ :: ancestors indent s.stack })
      else (stripQuotes (trimSpace v)).map fun val => .ok { s with
        stack := ancestors indent s.stack
        kv := (fullKey (ancestors indent s.stack) k.name, val) :: s.kv } := by
  rw [parseEntry_append (k.not_mem (by decide))]
  dsimp only
  rw [trimQuotes_key]
  rfl

theorem parseLine_heading (s : State) (x : Heading) : parseLine s x.bytes = some (.ok { s with
    lineNum := s.lineNum + 1
    stack := ⟨x.margin.bytes.length, x.key.name⟩ ::
      ancestors x.margin.bytes.length s.stack }) := by
  have hcolon : Solid 58 := by decide
  obtain ⟨c, k, hname, hc⟩ := x.key.head
  obtain ⟨t, ht, htrim⟩ := trimLine_tail (u := x.margin.bytes ++ x.key.name) x.tail hcolon
  have hline : trimLine x.bytes = x.margin.bytes ++ c :: (k ++ [58] ++ t) := by
    rw [Heading.bytes]
    simp only [hname, List.append_assoc, List.cons_append] at htrim ⊢
    exact htrim
  obtain ⟨hcontent, hindent⟩ := content_of_trimLine x.margin.blank hc hline
  have hkey : content x.bytes = x.key.name ++ [58] := by
    rw [hcontent, ← List.cons_append, ← List.cons_append, ← hname]
    refine ht.uncommented hcolon ?_
    rw [List.mem_append, not_or]
    exact ⟨x.key.not_mem (by decide), by decide⟩
  have hsection : trimSpace [] = [] ∧ [58].isSuffixOf (x.key.name ++ [58]) = true :=
    ⟨rfl, List.isSuffixOf_iff_suffix.mpr (List.suffix_append _ _)⟩
  rw [parseLine_eq, hindent, hkey,
    if_neg (List.append_ne_nil_of_right_ne_nil _ (List.cons_ne_nil _ _)), parseEntry_key,
    if_pos hsection]

/-! ## Settings -/

/-- What a line stores, if it does not panic. -/
def Setting.stored (x : Setting) : Option Bytes := stripQuotes (value x.bytes)

theorem Setting.content_eq (x : Setting) : ∃ t, x.tail.Leaves t ∧
    content x.bytes =
      uncommented (x.key.name ++ 58 :: (x.gap.bytes ++ (x.scalar.bytes ++ t))) ∧
    countIndent (trimLine x.bytes) = x.margin.bytes.length := by
  obtain ⟨c, k, hname, hc⟩ := x.key.head
  obtain ⟨_, _, u, d, _, hends, _, hd⟩ := x.scalar.ends
  obtain ⟨t, ht, htrim⟩ := trimLine_tail
    (u := x.margin.bytes ++ (x.key.name ++ 58 :: (x.gap.bytes ++ u))) x.tail hd
  have hline : trimLine x.bytes =
      x.margin.bytes ++ c :: (k ++ 58 :: (x.gap.bytes ++ (x.scalar.bytes ++ t))) := by
    rw [Setting.bytes, hends]
    simp only [hname, List.append_assoc, List.cons_append] at htrim ⊢
    exact htrim
  obtain ⟨hcontent, hindent⟩ := content_of_trimLine x.margin.blank hc hline
  refine ⟨t, ht, ?_, hindent⟩
  rw [hcontent, hname, List.cons_append]

theorem Setting.not_mem_front (x : Setting) : 35 ∉ x.key.name ++ 58 :: x.gap.bytes := by
  rw [List.mem_append, List.mem_cons, not_or, not_or]
  exact ⟨x.key.not_mem (by decide), by decide, x.gap.not_mem rfl⟩

/-- The first `#` of a string, and what stands before it. -/
theorem Setting.uncommented_hash (x : Setting) (hraw : x.scalar.raw = u ++ 35 :: v) (hu : 35 ∉ u)
    (t : Bytes) : uncommented (x.key.name ++ 58 :: (x.gap.bytes ++ (x.scalar.bytes ++ t))) =
      if u.getLast?.any isBlank then
        (x.key.name ++ 58 :: x.gap.bytes ++ 34 :: u).rdropWhile isBlank
      else x.key.name ++ 58 :: (x.gap.bytes ++ 34 :: (x.scalar.raw ++ 34 :: t)) := by
  have hkind : x.scalar.kind = .text :=
    Scalar.text_of_mem (by rw [hraw]; exact List.mem_append_right _ List.mem_cons_self)
  have hbytes : x.scalar.bytes ++ t = 34 :: (x.scalar.raw ++ 34 :: t) := by
    rw [Scalar.bytes_text hkind, List.cons_append, List.append_assoc, List.singleton_append]
  have hsplit : x.key.name ++ 58 :: (x.gap.bytes ++ 34 :: (x.scalar.raw ++ 34 :: t)) =
      x.key.name ++ 58 :: x.gap.bytes ++ 34 :: u ++ 35 :: (v ++ 34 :: t) := by
    simp only [hraw, List.append_assoc, List.cons_append]
  have hfront : 35 ∉ x.key.name ++ 58 :: x.gap.bytes ++ 34 :: u := by
    rw [List.mem_append, List.mem_cons, not_or, not_or]
    exact ⟨x.not_mem_front, by decide, hu⟩
  have hlast : (x.key.name ++ 58 :: x.gap.bytes ++ 34 :: u).getLast?.all isBlank =
      u.getLast?.any isBlank := by
    induction u using List.reverseRecOn with
    | nil =>
      rw [List.getLast?_concat]
      rfl
    | append_singleton u b _ =>
      rw [← List.cons_append, ← List.append_assoc, List.getLast?_concat, List.getLast?_concat]
      rfl
  rw [hbytes, hsplit, uncommented_append hfront, hlast]

theorem Setting.content_plain (h : x.Plain) :
    content x.bytes = x.key.name ++ 58 :: (x.gap.bytes ++ x.scalar.bytes) := by
  obtain ⟨t, ht, hcontent, _⟩ := x.content_eq
  rw [hcontent]
  by_cases hmem : 35 ∈ x.scalar.raw
  · obtain ⟨hcomment, hspared⟩ := h.resolve_left (not_not.mpr hmem)
    obtain rfl : t = [] := by
      rcases ht with ⟨_, rfl⟩ | ⟨hsome, _⟩
      · rfl
      · exact absurd hcomment hsome
    obtain ⟨u, v, hraw, hu⟩ := List.eq_append_cons_of_mem hmem
    rw [x.uncommented_hash hraw hu, hspared u v hraw hu, if_neg Bool.false_ne_true,
      Scalar.bytes_text (Scalar.text_of_mem hmem)]
  · obtain ⟨_, _, u, d, _, hends, _, hd⟩ := x.scalar.ends
    have hsplit : ∀ t, x.key.name ++ 58 :: (x.gap.bytes ++ (x.scalar.bytes ++ t)) =
        x.key.name ++ 58 :: x.gap.bytes ++ u ++ [d] ++ t := by
      intro t
      simp only [hends, List.append_assoc, List.cons_append]
    have hfree : 35 ∉ x.key.name ++ 58 :: x.gap.bytes ++ u ++ [d] := by
      rw [List.append_assoc, ← hends, List.mem_append, not_or]
      exact ⟨x.not_mem_front, Scalar.not_mem_bytes hmem⟩
    have hwhole := hsplit []
    rw [List.append_nil, List.append_nil] at hwhole
    rw [hsplit, ht.uncommented hd hfree, hwhole]

/-- Otherwise the text behind the colon is not the quoted string. -/
theorem Setting.content_broken (h : ¬x.Plain) : ∃ y,
    content x.bytes = x.key.name ++ 58 :: (x.gap.bytes ++ 34 :: y) ∧
    trimSpace (x.gap.bytes ++ 34 :: y) ≠ 34 :: (x.scalar.raw ++ [34]) := by
  have hquote : Solid 34 := by decide
  have hhash : Solid 35 := by decide
  obtain ⟨hmem, hbroken⟩ := not_or.mp h
  obtain ⟨t, ht, hcontent, _⟩ := x.content_eq
  rw [hcontent]
  by_cases hspared : Spared x.scalar.raw
  · -- The comment is not cut, because the first `#` of the line is not its own.
    obtain ⟨u, v, hraw, hu⟩ := List.eq_append_cons_of_mem (not_not.mp hmem)
    rw [x.uncommented_hash hraw hu, hspared u v hraw hu, if_neg Bool.false_ne_true]
    refine ⟨_, rfl, fun heq => ?_⟩
    rcases ht with ⟨hnone, _⟩ | ⟨_, w, b, c, rfl, _⟩
    · exact hbroken ⟨hnone, hspared⟩
    · have hsplit : 34 :: (x.scalar.raw ++ 34 :: (w ++ b :: 35 :: c)) =
          34 :: (x.scalar.raw ++ 34 :: (w ++ [b])) ++ 35 :: c := by
        simp only [List.append_assoc, List.cons_append, List.nil_append]
      obtain ⟨c', _, htrim⟩ := trimSpace_between x.gap.blank hquote hhash hsplit
      have hlen := congrArg List.length (htrim.symm.trans heq)
      simp only [List.length_append, List.length_cons, List.length_nil] at hlen
      omega
  · -- The string is cut at its first `#`.
    unfold Spared at hspared
    push Not at hspared
    obtain ⟨u, v, hraw, hu, hblank⟩ := hspared
    rw [x.uncommented_hash hraw hu, if_pos (Bool.eq_true_of_not_eq_false hblank)]
    obtain ⟨u', hu', hcut⟩ := rdropWhile_keeps (p := isBlank) (c := 34)
      (u := x.key.name ++ 58 :: x.gap.bytes) (v := u) rfl
    refine ⟨u', ?_, fun heq => ?_⟩
    · rw [hcut, List.append_assoc, List.cons_append]
    · obtain ⟨u'', hu'', htrim⟩ := trimSpace_between (u := []) (v := u') x.gap.blank hquote hquote rfl
      have hlen := congrArg List.length (htrim.symm.trans heq)
      have hle := (hu''.trans hu').length_le
      simp only [hraw, List.length_append, List.length_cons, List.length_nil] at hlen
      omega

/-- A line stores its scalar exactly if it is plain. -/
theorem Setting.stored_eq_iff (x : Setting) : x.stored = some x.scalar.raw ↔ x.Plain := by
  have hcolon : 58 ∉ x.key.name := x.key.not_mem (by decide)
  constructor
  · intro hstored
    by_contra hplain
    have hkind : x.scalar.kind = .text :=
      Scalar.text_of_mem (not_not.mp (not_or.mp hplain).1)
    obtain ⟨y, hcontent, hvalue⟩ := Setting.content_broken hplain
    obtain ⟨y', _, htrim⟩ := trimSpace_between (u := []) (v := y) x.gap.blank
      (by decide : Solid 34) (by decide : Solid 34) rfl
    rw [htrim, List.nil_append] at hvalue
    rw [Setting.stored, value_of_append hcolon hcontent, htrim, List.nil_append] at hstored
    rcases stripQuotes_cases (34 :: y') with ⟨_, hnone⟩ | ⟨q, m, _, hquoted, hsome⟩ | hsame
    · rw [hnone] at hstored
      cases hstored
    · rw [hsome] at hstored
      cases hstored
      cases hquoted
      exact hvalue rfl
    · rw [hsame] at hstored
      have hmem : 34 ∈ x.scalar.raw := Option.some.inj hstored ▸ List.mem_cons_self
      exact (x.scalar.quotable hkind).1 hmem
  · intro hplain
    obtain ⟨c, s, u, d, hcons, hends, hc, hd⟩ := x.scalar.ends
    rw [Setting.stored, value_of_append hcolon (Setting.content_plain hplain), hcons,
      trimSpace_ends x.gap.blank hc hd (hcons.symm.trans hends), ← hcons, stripQuotes_bytes]

theorem parseLine_setting (s : State) (x : Setting) :
    parseLine s x.bytes = x.stored.map fun val => .ok { s with
      lineNum := s.lineNum + 1
      stack := ancestors x.margin.bytes.length s.stack
      kv := (fullKey (ancestors x.margin.bytes.length s.stack) x.key.name, val) :: s.kv } := by
  obtain ⟨_, _, _, hindent⟩ := x.content_eq
  have hshape : ∃ c y, content x.bytes = x.key.name ++ 58 :: (x.gap.bytes ++ c :: y) ∧ Solid c := by
    by_cases hplain : x.Plain
    · obtain ⟨c, y, _, _, hcons, _, hc, _⟩ := x.scalar.ends
      exact ⟨c, y, by rw [Setting.content_plain hplain, hcons], hc⟩
    · obtain ⟨y, hcontent, _⟩ := Setting.content_broken hplain
      exact ⟨34, y, hcontent, by decide⟩
  obtain ⟨c, y, hcontent, hc⟩ := hshape
  obtain ⟨y', _, htrim⟩ := trimSpace_between (u := []) (v := y) x.gap.blank hc hc rfl
  have hvalue : ¬(trimSpace (x.gap.bytes ++ c :: y) = [] ∧
      [58].isSuffixOf (x.key.name ++ 58 :: (x.gap.bytes ++ c :: y)) = true) := by
    rw [htrim]
    exact fun h => List.cons_ne_nil c y' h.1
  rw [parseLine_eq, hindent, Setting.stored,
    value_of_append (x.key.not_mem (by decide)) hcontent, hcontent,
    if_neg (List.append_ne_nil_of_right_ne_nil _ (List.cons_ne_nil _ _)), parseEntry_key,
    if_neg hvalue]

/-! ## Blocks -/

/-- The pair that a setting stores. -/
def storedAt (p : Bytes × Setting) : Option (Bytes × Bytes) := p.2.stored.map (p.1, ·)

theorem ancestors_ancestors {n m : Nat} (h : n ≤ m) (stack : List StackItem) :
    ancestors n (ancestors m stack) = ancestors n stack := by
  induction stack with
  | nil => rfl
  | cons item stack ih =>
    by_cases hm : m ≤ item.indent
    · have hn : n ≤ item.indent := Nat.le_trans h hm
      rw [ancestors, ancestors, ancestors, List.dropWhile_cons_of_pos (by simpa using hm),
        List.dropWhile_cons_of_pos (by simpa using hn)]
      exact ih
    · have hkeep : ancestors m (item :: stack) = item :: stack :=
        List.dropWhile_cons_of_neg (by simpa using hm)
      rw [hkeep]

theorem ancestors_cons {n m : Nat} (h : n < m) (key : Bytes) (stack : List StackItem) :
    ancestors m (⟨n, key⟩ :: stack) = ⟨n, key⟩ :: stack :=
  List.dropWhile_cons_of_neg (by simpa using h)

theorem ancestors_pop (n : Nat) (key : Bytes) (stack : List StackItem) :
    ancestors n (⟨n, key⟩ :: stack) = ancestors n stack :=
  List.dropWhile_cons_of_pos (by simp)

section MapM

variable {α β γ : Type} (f : α → Option β) (g : List β → Option γ)

theorem mapM_cons_bind (a : α) (l : List α) : ((a :: l).mapM f).bind g =
    (f a).bind fun b => (l.mapM f).bind fun bs => g (b :: bs) := by
  rw [List.mapM_cons]
  cases f a with
  | none => rfl
  | some b => cases l.mapM f <;> rfl

theorem mapM_append_bind (l m : List α) : ((l ++ m).mapM f).bind g =
    (l.mapM f).bind fun bs => (m.mapM f).bind fun cs => g (bs ++ cs) := by
  rw [List.mapM_append]
  cases l.mapM f with
  | none => rfl
  | some bs => cases m.mapM f <;> rfl

end MapM

/-- The stack behind a block. -/
def Block.stackAfter : {n : Nat} → Block n → List StackItem → List StackItem
  | _, .done, stack => stack
  | _, .filler _ rest, stack => rest.stackAfter stack
  | n, .setting _ _ rest, stack => rest.stackAfter (ancestors n stack)
  | n, .nest x _ _ body rest, stack =>
    rest.stackAfter (body.stackAfter (⟨n, x.key.name⟩ :: ancestors n stack))

/-- A block leaves the sections above it on the stack: what it has pushed is deeper. -/
theorem Block.ancestors_stackAfter {n : Nat} (t : Block n) :
    ∀ stack, ancestors n (t.stackAfter stack) = ancestors n stack := by
  induction t with
  | done => exact fun _ => rfl
  | filler x rest ih => exact ih
  | setting x width rest ih =>
    intro stack
    exact (ih _).trans (ancestors_ancestors (Nat.le_refl _) stack)
  | @nest n m x width deeper body rest ihBody ihRest =>
    intro stack
    rw [Block.stackAfter, ihRest, ← ancestors_ancestors (Nat.le_of_lt deeper), ihBody,
      ancestors_ancestors (Nat.le_of_lt deeper), ancestors_pop, ancestors_ancestors (Nat.le_refl n)]

/-- The names of the sections on a stack, from the outermost. -/
def sections (stack : List StackItem) : List Bytes := stack.reverse.map StackItem.key

/-- The lines of a block store its settings, below the sections that are open. -/
theorem parseLines_block {n : Nat} (t : Block n) : ∀ (s : State) (more : List Bytes),
    parseLines s (t.lines ++ more) =
      ((t.settings (sections (ancestors n s.stack))).mapM storedAt).bind fun kv =>
        parseLines ⟨s.lineNum + t.lines.length, t.stackAfter s.stack, kv.reverse ++ s.kv⟩ more := by
  induction t with
  | done => exact fun _ _ => rfl
  | filler x rest ih =>
    intro s more
    rw [Block.lines, List.cons_append, parseLines, parseLine_filler, List.length_cons,
      Nat.add_comm rest.lines.length, ← Nat.add_assoc]
    exact ih _ more
  | setting x width rest ih =>
    intro s more
    subst width
    rw [Block.lines, List.cons_append, parseLines, parseLine_setting, Block.settings,
      mapM_cons_bind, storedAt, List.length_cons, Nat.add_comm rest.lines.length, ← Nat.add_assoc]
    cases x.stored with
    | none => rfl
    | some val =>
      refine (ih _ more).trans ?_
      dsimp only
      rw [ancestors_ancestors (Nat.le_refl _)]
      simp only [Option.map_some, Option.bind_some, List.reverse_cons, List.append_assoc,
        List.singleton_append]
      rfl
  | @nest n m x width deeper body rest ihBody ihRest =>
    intro s more
    subst width
    have hopen : sections (⟨x.margin.bytes.length, x.key.name⟩ ::
        ancestors x.margin.bytes.length s.stack) =
          sections (ancestors x.margin.bytes.length s.stack) ++ [x.key.name] := by
      rw [sections, List.reverse_cons, List.map_append, List.map_singleton, sections]
    -- Behind the body the section is popped with it, and the rest is where the heading was.
    have hclosed : ancestors x.margin.bytes.length (body.stackAfter
        (⟨x.margin.bytes.length, x.key.name⟩ :: ancestors x.margin.bytes.length s.stack)) =
          ancestors x.margin.bytes.length s.stack := by
      rw [← ancestors_ancestors (Nat.le_of_lt deeper), body.ancestors_stackAfter,
        ancestors_ancestors (Nat.le_of_lt deeper), ancestors_pop,
        ancestors_ancestors (Nat.le_refl _)]
    rw [Block.lines, List.cons_append, List.append_assoc, parseLines, parseLine_heading,
      Block.settings, mapM_append_bind]
    refine (ihBody _ _).trans ?_
    dsimp only
    rw [ancestors_cons deeper, hopen]
    refine congrArg (Option.bind _) (funext fun kv => (ihRest _ more).trans ?_)
    dsimp only
    rw [hclosed, List.length_cons, List.length_append]
    refine congrArg (Option.bind _) (funext fun kv' => ?_)
    rw [List.reverse_append, List.append_assoc, Block.stackAfter]
    congr 2
    omega

/-! ## Documents -/

theorem parseLines_dropCR : ∀ (lines : List Bytes) (s : State),
    parseLines s (lines.map dropCR) = parseLines s lines
  | [], _ => rfl
  | line :: lines, s => by
    have hline : parseLine s (dropCR line) = parseLine s line := by
      rw [parseLine, parseLine, trimLine, trimLine, rdropWhile_dropCR rfl]
    rw [List.map_cons, parseLines, parseLines, hline]
    simp only [parseLines_dropCR lines]

variable {d : Document} {cfg : Config}

theorem parseYAML_short (hshort : ∀ line ∈ d.lines, line.length < maxScanTokenSize) :
    parseYAML d.bytes = (d.settings.mapM storedAt).map fun kv => toConfig kv.reverse := by
  have hrun : parseLines ⟨0, [], []⟩ d.block.lines = (d.settings.mapM storedAt).bind fun kv =>
      parseLines ⟨0 + d.block.lines.length, d.block.stackAfter [], kv.reverse ++ []⟩ [] := by
    have hblock := parseLines_block d.block ⟨0, [], []⟩ []
    rw [List.append_nil] at hblock
    exact hblock
  have hscan := (scanLines_unlines (by decide) d.block.oneLine).1 hshort
  rw [parseYAML, Document.bytes, Document.lines, hscan]
  dsimp only
  rw [parseLines_dropCR, hrun]
  cases d.settings.mapM storedAt with
  | none => rfl
  | some kv =>
    rw [Option.bind_some, parseLines, List.append_nil]
    rfl

theorem short_of_parseYAML (h : parseYAML d.bytes = some (.ok cfg)) :
    ∀ line ∈ d.lines, line.length < maxScanTokenSize := by
  by_contra hlong
  push Not at hlong
  have htooLong := (scanLines_unlines (by decide) d.block.oneLine).2 hlong
  rw [parseYAML, Document.bytes, Document.lines] at h
  dsimp only at h
  rw [htooLong] at h
  split at h <;> cases h

theorem lookup_of_mem {β : Type} {l : List (Bytes × β)} {k : Bytes} {x : β}
    (hnodup : (l.map Prod.fst).Nodup) (hmem : (k, x) ∈ l) : l.lookup k = some x := by
  obtain ⟨front, back, rfl⟩ := List.append_of_mem hmem
  refine List.lookup_eq_some_iff.mpr ⟨front, back, rfl, fun p hp => ?_⟩
  rw [List.map_append, List.map_cons, List.nodup_append] at hnodup
  rw [bne_iff_ne]
  exact fun heq => hnodup.2.2 p.1 (List.mem_map_of_mem hp) k List.mem_cons_self heq.symm

/-- The pairs of a file that is read without a panic. -/
theorem mapM_storedAt {settings : List (Bytes × Setting)} {kv : List (Bytes × Bytes)}
    (h : settings.mapM storedAt = some kv) : kv.map Prod.fst = settings.map Prod.fst ∧
      ∀ p ∈ settings, ∃ val, p.2.stored = some val ∧ (p.1, val) ∈ kv := by
  induction settings generalizing kv with
  | nil =>
    cases h
    exact ⟨rfl, fun _ h => absurd h List.not_mem_nil⟩
  | cons p settings ih =>
    rw [List.mapM_cons] at h
    obtain ⟨q, hq, h⟩ := Option.bind_eq_some_iff.mp h
    obtain ⟨rest, hrest, h⟩ := Option.bind_eq_some_iff.mp h
    cases h
    obtain ⟨hkeys, hpairs⟩ := ih hrest
    obtain ⟨val, hval, rfl⟩ := Option.map_eq_some_iff.mp hq
    refine ⟨by rw [List.map_cons, List.map_cons, hkeys], List.forall_mem_cons.mpr ⟨?_, ?_⟩⟩
    · exact ⟨val, hval, List.mem_cons_self⟩
    · intro p hp
      obtain ⟨val, hval, hmem⟩ := hpairs p hp
      exact ⟨val, hval, List.mem_cons_of_mem _ hmem⟩

theorem mapM_storedAt_plain {settings : List (Bytes × Setting)} (h : ∀ p ∈ settings, p.2.Plain) :
    settings.mapM storedAt = some (settings.map fun p => (p.1, p.2.scalar.raw)) := by
  induction settings with
  | nil => rfl
  | cons p settings ih =>
    have hstored := p.2.stored_eq_iff.mpr (h p List.mem_cons_self)
    rw [List.mapM_cons, storedAt, hstored, ih fun q hq => h q (List.mem_cons_of_mem _ hq)]
    rfl

theorem Document.get_of_mem {f : ConfigField} (hmem : (f.path, x) ∈ d.settings) :
    d.get f = some x.scalar.value ∧ f.kind = x.scalar.kind := by
  obtain ⟨g, hpath, hkind⟩ := d.recognised _ hmem
  obtain rfl := ConfigField.eq_of_path_eq hpath
  have hlookup : d.settings.lookup g.path = some x := lookup_of_mem d.distinct hmem
  exact ⟨by rw [Document.get, hlookup], hkind⟩

/-- The pairs of a document give its values back. -/
theorem Document.expected (d : Document) (f : ConfigField) :
    expected (d.settings.map fun p => (p.1, p.2.scalar.raw)).reverse f = .ok (d.get f) := by
  cases hlookup : d.settings.lookup f.path with
  | none =>
    have hnone : ((d.settings.map fun p => (p.1, p.2.scalar.raw)).reverse).lookup f.path =
        none := by
      rw [List.lookup_eq_none_iff] at hlookup ⊢
      intro q hq
      obtain ⟨p, hp, rfl⟩ := List.mem_map.mp (List.mem_reverse.mp hq)
      exact hlookup p hp
    rw [Yaml.expected, hnone, Document.get, hlookup]
  | some x =>
    have hmem : (f.path, x) ∈ d.settings := by
      obtain ⟨front, back, hsplit, _⟩ := List.lookup_eq_some_iff.mp hlookup
      rw [hsplit]
      exact List.mem_append_right _ List.mem_cons_self
    obtain ⟨hget, hkind⟩ := Document.get_of_mem hmem
    have hsome : ((d.settings.map fun p => (p.1, p.2.scalar.raw)).reverse).lookup f.path =
        some x.scalar.raw := by
      refine lookup_of_mem ?_ (List.mem_reverse.mpr (List.mem_map.mpr ⟨_, hmem, rfl⟩))
      rw [List.map_reverse, List.nodup_reverse, List.map_map]
      exact d.distinct
    rw [Yaml.expected, hsome, hget]
    dsimp only
    rw [hkind, x.scalar.reads]
    rfl

/-- Parsing inverts printing exactly for documents with lines that the scanner takes and strings in
which a `#` does no harm. -/
theorem parseYAML_print_iff (d : Document) :
    (∃ cfg, parseYAML d.bytes = some (.ok cfg) ∧ ∀ f, cfg.get f = d.get f) ↔
      (∀ line ∈ d.lines, line.length < maxScanTokenSize) ∧ ∀ p ∈ d.settings, p.2.Plain := by
  constructor
  · rintro ⟨cfg, hparse, hget⟩
    have hshort := short_of_parseYAML hparse
    refine ⟨hshort, fun p hp => ?_⟩
    rw [parseYAML_short hshort] at hparse
    obtain ⟨kv, hkv, hconfig⟩ := Option.map_eq_some_iff.mp hparse
    obtain ⟨hkeys, hpairs⟩ := mapM_storedAt hkv
    obtain ⟨path, x⟩ := p
    obtain ⟨val, hval, hmem⟩ := hpairs _ hp
    by_cases hkind : x.scalar.kind = .text
    · -- A string is stored as it is, so the field tells what was stored.
      obtain ⟨f, rfl, hf⟩ := d.recognised _ hp
      have hfield := get_of_toConfig hconfig f
      have hnodup : (kv.reverse.map Prod.fst).Nodup := by
        rw [List.map_reverse, List.nodup_reverse, hkeys]
        exact d.distinct
      have hreads := x.scalar.reads
      rw [expected, lookup_of_mem hnodup (List.mem_reverse.mpr hmem), hget,
        (Document.get_of_mem hp).1, hf, hkind] at hfield
      rw [hkind] at hreads
      have hsame : some (Value.text val) = some (Value.text x.scalar.raw) :=
        (Except.ok.inj hfield).trans (congrArg some (Except.ok.inj hreads).symm)
      cases hsame
      exact x.stored_eq_iff.mp hval
    · exact .inl fun hhash => absurd (Scalar.text_of_mem hhash) hkind
  · rintro ⟨hshort, hplain⟩
    rw [parseYAML_short hshort, mapM_storedAt_plain hplain]
    obtain ⟨cfg, hcfg⟩ := toConfig_ok fun f => ⟨_, d.expected f⟩
    refine ⟨cfg, by rw [Option.map_some, hcfg], fun f => ?_⟩
    exact Except.ok.inj ((get_of_toConfig hcfg f).symm.trans (d.expected f))

/-! ## Strings with a number sign -/

/-- That many spaces. -/
def blanks (n : Nat) : Blanks where
  bytes := List.replicate n 32
  blank b hb := by
    rw [List.eq_of_mem_replicate hb]
    rfl

/-- Nothing behind the value. -/
def emptyTail : Tail := ⟨⟨blanks 0, none⟩, by decide⟩

/-- A comment behind the value. -/
def commentTail : Tail := ⟨⟨blanks 1, some ⟨ascii " main", by decide⟩⟩, by decide⟩

/-- The key of the section. -/
def serverKey : Key := ⟨ascii "server", by decide, bare_of_all (by decide)⟩

/-- The key of the address. -/
def addrKey : Key := ⟨ascii "addr", by decide, bare_of_all (by decide)⟩

/-- The section `server` with the setting `addr`. -/
def addrBlock (raw : Bytes) (h : 34 ∉ raw ∧ 10 ∉ raw) (tail : Tail) : Block 0 :=
  .nest ⟨blanks 0, serverKey, emptyTail⟩ rfl (by decide : 0 < 2)
    (.setting ⟨blanks 2, addrKey, blanks 1, (Value.text raw).scalar h, tail⟩ rfl .done)
    .done

/-- A document that sets the address only. -/
def addrDocument (raw : Bytes) (h : 34 ∉ raw ∧ 10 ∉ raw) (tail : Tail) : Document where
  width := 0
  block := addrBlock raw h tail
  recognised p hp := by
    have hpath : ConfigField.serverAddr.path = [46].intercalate [ascii "server", ascii "addr"] := by
      decide
    obtain rfl := List.mem_singleton.mp hp
    exact ⟨.serverAddr, hpath, rfl⟩
  distinct := List.nodup_singleton _

/-- A string is cut at its `#`, a lone quote is left of one, and the quotes and the comment stay
with a third. -/
theorem parseYAML_hash :
    (addrDocument (ascii "a #b") (by decide) emptyTail).bytes =
        ascii "server:\n  addr: \"a #b\"\n" ∧
    (parseYAML (addrDocument (ascii "a #b") (by decide) emptyTail).bytes).map
        (fun r => r.toOption.bind (·.get .serverAddr)) = some (some (.text (ascii "\"a"))) ∧
    parseYAML (addrDocument (ascii " #b") (by decide) emptyTail).bytes = none ∧
    (parseYAML (addrDocument (ascii "a#b") (by decide) commentTail).bytes).map
        (fun r => r.toOption.bind (·.get .serverAddr)) =
      some (some (.text (ascii "\"a#b\" # main"))) := by
  refine ⟨?_, ?_, ?_, ?_⟩ <;> decide +kernel

end Horreum.Yaml
