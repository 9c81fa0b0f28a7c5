/-
  Config/Documents.lean --- printed configurations.

  A document is a tree of sections and settings together with its layout.  It prints to a text of the
  supported subset, with strings in double quotes and numbers bare; a number or a Boolean may have
  any spelling that is read as its value.
-/
import Horreum.Config.Fields

set_option autoImplicit false

namespace Horreum.Yaml

open Foundation
open Foundation.Text
open Foundation.Decimal

/-! ## Documents -/

/-- A character of a key or of a bare scalar. -/
def Bare (b : UInt8) : Prop := Solid b ∧ b ≠ 34 ∧ b ≠ 35 ∧ b ≠ 39 ∧ b ≠ 58

instance (b : UInt8) : Decidable (Bare b) := inferInstanceAs (Decidable (_ ∧ _))

theorem bare_of_all {s : Bytes} (h : (s.all fun b => decide (Bare b)) = true) :
    ∀ b ∈ s, Bare b := fun b hb => of_decide_eq_true (List.all_eq_true.mp h b hb)

/-- A key of plain characters. -/
structure Key where
  name : Bytes
  nonempty : name ≠ []
  bare : ∀ b ∈ name, Bare b

/-- A value and its spelling. -/
structure Scalar where
  kind : Kind
  raw : Bytes
  value : Value
  reads : kind.read raw = .ok value
  quotable : kind = .text → 34 ∉ raw ∧ 10 ∉ raw

/-- The kind of a value. -/
def Value.kind : Value → Kind
  | .text _ => .text
  | .int _ => .int
  | .uint _ => .uint
  | .bool _ => .bool

/-- The values that a document can hold: strings that fit into quotes, and the numbers of Go. -/
def Value.Fits : Value → Prop
  | .text s => 34 ∉ s ∧ 10 ∉ s
  | .int z => -2 ^ 63 ≤ z ∧ z < 2 ^ 63
  | .uint n => n < 2 ^ 64
  | .bool _ => True

/-- A value as it is written. -/
def Value.spelling : Value → Bytes
  | .text s => s
  | .int z => decimalInt z
  | .uint n => decimal n
  | .bool b => if b then ascii "true" else ascii "false"

theorem Value.read_spelling {x : Value} (h : x.Fits) : x.kind.read x.spelling = .ok x := by
  cases x with
  | text s => rfl
  | int z =>
    rw [Value.kind, Value.spelling, Kind.read, atoi_decimalInt h.1 h.2]
    rfl
  | uint n =>
    rw [Value.kind, Value.spelling, Kind.read, parseUint_decimal h]
    rfl
  | bool b => cases b <;> decide

/-- A scalar for each of them. -/
def Value.scalar (x : Value) (h : x.Fits) : Scalar where
  kind := x.kind
  raw := x.spelling
  value := x
  reads := Value.read_spelling h
  quotable hkind := by
    cases x with
    | text s => exact h
    | int z => cases hkind
    | uint n => cases hkind
    | bool b => cases hkind

/-- Blanks. -/
structure Blanks where
  bytes : Bytes
  blank : ∀ b ∈ bytes, isBlank b = true

/-- A comment on one line. -/
structure Comment where
  text : Bytes
  oneLine : 10 ∉ text

/-- A blank line or a line with only a comment. -/
structure Filler where
  gap : Blanks
  comment : Option Comment

/-- The end of a line; a comment stands behind a space. -/
structure Tail extends Filler where
  spaced : comment.isSome = true → gap.bytes ≠ []

/-- A line with a key and a value. -/
structure Setting where
  margin : Blanks
  key : Key
  gap : Blanks
  scalar : Scalar
  tail : Tail

/-- A line that opens a section. -/
structure Heading where
  margin : Blanks
  key : Key
  tail : Tail

/-- The lines of one nesting level, at the indentation `n`; the body of a section is deeper. -/
inductive Block : (n : Nat) → Type where
  | done {n : Nat} : Block n
  | filler {n : Nat} (x : Filler) (rest : Block n) : Block n
  | setting {n : Nat} (x : Setting) (width : x.margin.bytes.length = n) (rest : Block n) : Block n
  | nest {n m : Nat} (x : Heading) (width : x.margin.bytes.length = n) (deeper : n < m)
      (body : Block m) (rest : Block n) : Block n

/-- The settings of a block with their paths, below the sections `path`. -/
def Block.settings {n : Nat} (path : List Bytes) : Block n → List (Bytes × Setting)
  | .done => []
  | .filler _ rest => rest.settings path
  | .setting x _ rest => ([46].intercalate (path ++ [x.key.name]), x) :: rest.settings path
  | .nest x _ _ body rest => body.settings (path ++ [x.key.name]) ++ rest.settings path

/-- A tree of settings that `ParseYAML` knows, no one of them twice. -/
structure Document where
  width : Nat
  block : Block width
  recognised : ∀ p ∈ block.settings [],
    ∃ f : ConfigField, f.path = p.1 ∧ f.kind = p.2.scalar.kind
  distinct : ((block.settings []).map Prod.fst).Nodup

/-- The settings of a document with their paths. -/
def Document.settings (d : Document) : List (Bytes × Setting) := d.block.settings []

/-- What a document says about a field. -/
def Document.get (d : Document) (f : ConfigField) : Option Value :=
  match d.settings.lookup f.path with
  | none => f.kind.absent
  | some x => some x.scalar.value

/-! ## Printing -/

/-- A scalar in the file; texts are quoted. -/
def Scalar.bytes (x : Scalar) : Bytes :=
  match x.kind with
  | .text => 34 :: (x.raw ++ [34])
  | .int | .uint | .bool => x.raw

/-- An empty line or a comment. -/
def Filler.bytes (x : Filler) : Bytes :=
  x.gap.bytes ++ match x.comment with
    | none => []
    | some c => 35 :: c.text

/-- The line of a setting. -/
def Setting.bytes (x : Setting) : Bytes :=
  x.margin.bytes ++ (x.key.name ++ 58 :: (x.gap.bytes ++ (x.scalar.bytes ++ x.tail.bytes)))

/-- The line of a heading. -/
def Heading.bytes (x : Heading) : Bytes :=
  x.margin.bytes ++ (x.key.name ++ 58 :: x.tail.bytes)

/-- The lines of a block. -/
def Block.lines {n : Nat} : Block n → List Bytes
  | .done => []
  | .filler x rest => x.bytes :: rest.lines
  | .setting x _ rest => x.bytes :: rest.lines
  | .nest x _ _ body rest => x.bytes :: (body.lines ++ rest.lines)

/-- The lines of a document. -/
def Document.lines (d : Document) : List Bytes := d.block.lines

/-- The text of a document. -/
def Document.bytes (d : Document) : Bytes := unlines d.lines

/-- The first `#` of a string does not look like a comment. -/
def Spared (raw : Bytes) : Prop :=
  ∀ u v, raw = u ++ 35 :: v → 35 ∉ u → u.getLast?.any isBlank = false

/-- The value has no `#`, or it has one that is spared and no comment follows. -/
def Setting.Plain (x : Setting) : Prop :=
  35 ∉ x.scalar.raw ∨ (x.tail.comment = none ∧ Spared x.scalar.raw)

/-! ## Characters -/

variable {b c d : UInt8} {u v w z s t : Bytes} {x : Scalar}

theorem bare_of_isDigit : isDigit b = true → Bare b :=
  forall_byte (p := fun b => isDigit b = true → Bare b) (by decide +kernel) b

theorem bare_of_toLower : Bare (if 65 ≤ b ∧ b ≤ 90 then b + 32 else b) → Bare b :=
  forall_byte (p := fun b => Bare (if 65 ≤ b ∧ b ≤ 90 then b + 32 else b) → Bare b)
    (by decide +kernel) b

theorem not_trailing_of_solid : Solid b → isTrailing b = false :=
  forall_byte (p := fun b => Solid b → isTrailing b = false) (by decide +kernel) b

theorem Bare.not_quote : Bare b → isQuote b = false :=
  forall_byte (p := fun b => Bare b → isQuote b = false) (by decide +kernel) b

theorem isTrailing_of_isBlank : isBlank b = true → isTrailing b = true :=
  forall_byte (p := fun b => isBlank b = true → isTrailing b = true) (by decide +kernel) b

theorem bare_of_parseBool {x : Bool} (h : parseBool s = .ok x) : s ≠ [] ∧ ∀ b ∈ s, Bare b := by
  have hword : ∀ {w : Bytes}, (w.all fun b => decide (Bare b)) = true → w ≠ [] → toLower s = w →
      s ≠ [] ∧ ∀ b ∈ s, Bare b := by
    rintro w hbare hne rfl
    refine ⟨fun hnil => hne (by rw [hnil]; rfl), fun b hb => bare_of_toLower ?_⟩
    exact bare_of_all hbare _ (List.mem_map_of_mem hb)
  unfold parseBool at h
  dsimp only at h
  split at h
  · rename_i hyes
    rcases hyes with heq | heq | heq | heq <;> exact hword (by decide) (by decide) heq
  · split at h
    · rename_i hno
      rcases hno with heq | heq | heq | heq <;> exact hword (by decide) (by decide) heq
    · cases h

theorem Scalar.bare (x : Scalar) (h : x.kind ≠ .text) : x.raw ≠ [] ∧ ∀ b ∈ x.raw, Bare b := by
  have hreads := x.reads
  cases hkind : x.kind with
  | text => exact absurd hkind h
  | int =>
    rw [hkind, Kind.read] at hreads
    obtain ⟨z, hz, _⟩ := map_eq_ok hreads
    obtain ⟨hne, hdigits⟩ := digits_of_atoi (mapError_eq_ok hz)
    refine ⟨hne, fun b hb => ?_⟩
    rcases hdigits b hb with hdigit | rfl | rfl
    · exact bare_of_isDigit hdigit
    · decide
    · decide
  | uint =>
    rw [hkind, Kind.read] at hreads
    obtain ⟨n, hn, _⟩ := map_eq_ok hreads
    obtain ⟨hne, hdigits⟩ := digits_of_parseUint (mapError_eq_ok hn)
    exact ⟨hne, fun b hb => bare_of_isDigit (hdigits b hb)⟩
  | bool =>
    rw [hkind, Kind.read] at hreads
    obtain ⟨b, hb, _⟩ := map_eq_ok hreads
    exact bare_of_parseBool hb

theorem Scalar.bytes_text (h : x.kind = .text) : x.bytes = 34 :: (x.raw ++ [34]) := by
  rw [Scalar.bytes, h]

theorem Scalar.bytes_bare (h : x.kind ≠ .text) : x.bytes = x.raw := by
  unfold Scalar.bytes
  split
  · rename_i hkind
    exact absurd hkind h
  all_goals rfl

theorem Scalar.text_of_mem (h : 35 ∈ x.raw) : x.kind = .text := by
  by_contra hkind
  exact ((x.bare hkind).2 35 h).2.2.1 rfl

theorem Scalar.not_mem_bytes (h : 35 ∉ x.raw) : 35 ∉ x.bytes := by
  by_cases hkind : x.kind = .text
  · rw [Scalar.bytes_text hkind]
    simp [h]
  · rwa [Scalar.bytes_bare hkind]

/-- A printed scalar starts and ends with a printed character. -/
theorem Scalar.ends (x : Scalar) : ∃ c s u d, x.bytes = c :: s ∧ x.bytes = u ++ [d] ∧
    Solid c ∧ Solid d := by
  by_cases hkind : x.kind = .text
  · rw [Scalar.bytes_text hkind]
    exact ⟨34, x.raw ++ [34], 34 :: x.raw, 34, rfl, rfl, by decide, by decide⟩
  · obtain ⟨hne, hbare⟩ := x.bare hkind
    rw [Scalar.bytes_bare hkind]
    refine ⟨x.raw.head hne, x.raw.tail, x.raw.dropLast, x.raw.getLast hne, ?_, ?_, ?_, ?_⟩
    · exact (List.cons_head_tail hne).symm
    · exact (List.dropLast_append_getLast hne).symm
    · exact (hbare _ (List.head_mem hne)).1
    · exact (hbare _ (List.getLast_mem hne)).1

theorem stripQuotes_bytes (x : Scalar) : stripQuotes x.bytes = some x.raw := by
  by_cases hkind : x.kind = .text
  · rw [Scalar.bytes_text hkind, stripQuotes_quoted rfl]
  · obtain ⟨hne, hbare⟩ := x.bare hkind
    rw [Scalar.bytes_bare hkind]
    have hmem : ∀ q m, isQuote q = true → x.raw ≠ q :: m := by
      intro q m hq heq
      have hq' := (hbare q (by rw [heq]; exact List.mem_cons_self)).not_quote
      rw [hq] at hq'
      cases hq'
    rcases stripQuotes_cases x.raw with ⟨heq | heq, _⟩ | ⟨q, m, hq, heq, _⟩ | hsame
    · exact absurd heq (hmem 34 [] rfl)
    · exact absurd heq (hmem 39 [] rfl)
    · exact absurd heq (hmem q _ hq)
    · exact hsame

theorem Key.not_mem (k : Key) (h : ¬Bare b) : b ∉ k.name := fun hb => h (k.bare b hb)

theorem Key.head (k : Key) : ∃ c s, k.name = c :: s ∧ Solid c :=
  ⟨k.name.head k.nonempty, k.name.tail, (List.cons_head_tail k.nonempty).symm,
    (k.bare _ (List.head_mem k.nonempty)).1⟩

theorem Blanks.not_mem (x : Blanks) (h : isBlank b = false) : b ∉ x.bytes := by
  intro hb
  rw [x.blank b hb] at h
  cases h

/-! ## Lines -/

theorem Filler.oneLine (x : Filler) : 10 ∉ x.bytes := by
  rw [Filler.bytes, List.mem_append, not_or]
  refine ⟨x.gap.not_mem rfl, ?_⟩
  cases x.comment with
  | none => exact List.not_mem_nil
  | some c =>
    rw [List.mem_cons, not_or]
    exact ⟨by decide, c.oneLine⟩

theorem Scalar.oneLine (x : Scalar) : 10 ∉ x.bytes := by
  by_cases hkind : x.kind = .text
  · rw [Scalar.bytes_text hkind]
    simp [(x.quotable hkind).2]
  · rw [Scalar.bytes_bare hkind]
    exact fun h => absurd ((x.bare hkind).2 10 h) (by decide)

theorem Setting.oneLine (x : Setting) : 10 ∉ x.bytes := by
  simp only [Setting.bytes, List.mem_append, List.mem_cons, not_or]
  exact ⟨x.margin.not_mem rfl, x.key.not_mem (by decide), by decide, x.gap.not_mem rfl,
    x.scalar.oneLine, x.tail.oneLine⟩

theorem Heading.oneLine (x : Heading) : 10 ∉ x.bytes := by
  simp only [Heading.bytes, List.mem_append, List.mem_cons, not_or]
  exact ⟨x.margin.not_mem rfl, x.key.not_mem (by decide), by decide, x.tail.oneLine⟩

theorem Block.oneLine {n : Nat} (t : Block n) : ∀ line ∈ t.lines, 10 ∉ line := by
  induction t with
  | done => exact fun _ h => absurd h List.not_mem_nil
  | filler x rest ih => exact List.forall_mem_cons.mpr ⟨x.oneLine, ih⟩
  | setting x width rest ih => exact List.forall_mem_cons.mpr ⟨x.oneLine, ih⟩
  | nest x width deeper body rest ihBody ihRest =>
    exact List.forall_mem_cons.mpr ⟨x.oneLine, List.forall_mem_append.mpr ⟨ihBody, ihRest⟩⟩

end Horreum.Yaml
