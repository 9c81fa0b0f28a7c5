/-
  Config/Yaml.lean --- `ParseYAML` in `internal/config/config.go`.

  A line is trimmed, its comment is cut, it is split at its first colon, and the quotes of the value
  are removed; sections are kept on a stack.  Of all the slices one can be out of range: for a value
  that is a single quote `val[1:len(val)-1]` is `val[1:0]`, a panic.
-/
import Horreum.Foundation.Decimal
import Horreum.Foundation.Slicing

set_option autoImplicit false

namespace Horreum.Yaml

open Foundation
open Foundation.Text
open Foundation.Decimal

/-- The section `server`. -/
structure ServerConfig where
  addr : Bytes
  transport : Bytes
  shards : Option Int
  regionSize : Bytes
  evictCapacity : Option Nat
  tlsCert : Bytes
  tlsKey : Bytes
  shutdownTimeout : Bytes
  deriving DecidableEq, Repr

/-- The section `storage`. -/
structure StorageConfig where
  persistentPath : Bytes
  durable : Option Bool
  deriving DecidableEq, Repr

/-- The section `metrics`. -/
structure MetricsConfig where
  addr : Bytes
  deriving DecidableEq, Repr

/-- The section `compression`. -/
structure CompressionConfig where
  algorithm : Bytes
  minSize : Option Int
  deriving DecidableEq, Repr

/-- The section `logging`. -/
structure LoggingConfig where
  level : Bytes
  format : Bytes
  slowLogThreshold : Bytes
  deriving DecidableEq, Repr

/-- The section `security`. -/
structure SecurityConfig where
  encryptionKeyPath : Bytes
  deriving DecidableEq, Repr

/-- The configuration. -/
structure Config where
  server : ServerConfig
  storage : StorageConfig
  metrics : MetricsConfig
  compression : CompressionConfig
  logging : LoggingConfig
  security : SecurityConfig
  deriving DecidableEq, Repr

/-- The settings that `ParseYAML` looks for. -/
inductive ConfigField where
  | serverAddr
  | serverTransport
  | serverShards
  | serverRegionSize
  | serverEvictCapacity
  | serverTLSCert
  | serverTLSKey
  | serverShutdownTimeout
  | storagePersistentPath
  | storageDurable
  | metricsAddr
  | compressionAlgorithm
  | compressionMinSize
  | loggingLevel
  | loggingFormat
  | loggingSlowLogThreshold
  | securityEncryptionKeyPath
  deriving DecidableEq, Repr

/-- The key of a setting in the map. -/
def ConfigField.path : ConfigField → Bytes
  | .serverAddr => ascii "server.addr"
  | .serverTransport => ascii "server.transport"
  | .serverShards => ascii "server.shards"
  | .serverRegionSize => ascii "server.region_size"
  | .serverEvictCapacity => ascii "server.evict_capacity"
  | .serverTLSCert => ascii "server.tls_cert"
  | .serverTLSKey => ascii "server.tls_key"
  | .serverShutdownTimeout => ascii "server.shutdown_timeout"
  | .storagePersistentPath => ascii "storage.persistent_path"
  | .storageDurable => ascii "storage.durable"
  | .metricsAddr => ascii "metrics.addr"
  | .compressionAlgorithm => ascii "compression.algorithm"
  | .compressionMinSize => ascii "compression.min_size"
  | .loggingLevel => ascii "logging.level"
  | .loggingFormat => ascii "logging.format"
  | .loggingSlowLogThreshold => ascii "logging.slow_log_threshold"
  | .securityEncryptionKeyPath => ascii "security.encryption_key_path"

/-- Why a value is refused. -/
inductive ValueError where
  | num (e : NumError)
  /-- `cannot parse as bool` -/
  | notBool
  deriving DecidableEq, Repr

/-- The errors of `ParseYAML`. -/
inductive Error where
  /-- `line %d: missing colon in YAML line: %q` -/
  | missingColon (lineNum : Nat) (line : Bytes)
  /-- `bufio.Scanner: token too long` -/
  | tooLong
  /-- `invalid <path> %q: ...` -/
  | invalid (field : ConfigField) (v : Bytes) (cause : ValueError)
  deriving DecidableEq, Repr

/-- An open section and its indentation. -/
structure StackItem where
  indent : Nat
  key : Bytes
  deriving DecidableEq, Repr

/-- The variables of the line loop.  The top of the stack comes first, and so does the pair that was
stored last, which is the one that the map holds. -/
structure State where
  lineNum : Nat
  stack : List StackItem
  kv : List (Bytes × Bytes)
  deriving DecidableEq, Repr

/-! ## The line loop -/

/-- The cutset of a line. -/
def isTrailing (b : UInt8) : Bool := b == 32 || b == 9 || b == 13 || b == 10

/-- The line without blanks at its end. -/
def trimLine (text : Bytes) : Bytes := text.rdropWhile isTrailing

/-- The number of leading blanks. -/
def countIndent : Bytes → Nat
  | [] => 0
  | b :: line => if isBlank b then countIndent line + 1 else 0

/-- Only the first `#` is looked at. -/
def stripComment (trimmed : Bytes) : Option Bytes :=
  match trimmed.idxOf? 35 with
  | none => some trimmed
  | some idx => do
    let cut ← (if idx = 0 then some true else trimmed[idx - 1]?.map isBlank)
    if cut then (slice? trimmed 0 idx).map (List.rdropWhile isBlank) else some trimmed

/-- A double or single quote. -/
def isQuote (b : UInt8) : Bool := b == 34 || b == 39

/-- The cutset of the key is both quotes. -/
def trimQuotes (key : Bytes) : Bytes := (key.dropWhile isQuote).rdropWhile isQuote

/-- Take off one pair of quotes. -/
def stripQuotes (val : Bytes) : Option Bytes :=
  if ([34].isPrefixOf val && [34].isSuffixOf val) ||
      ([39].isPrefixOf val && [39].isSuffixOf val) then
    slice? val 1 (val.length - 1)
  else some val

/-- The path of a key, with dots. -/
def fullKey (stack : List StackItem) (key : Bytes) : Bytes :=
  [46].intercalate (stack.reverse.map StackItem.key ++ [key])

/-- A line that is left with something behind its comment. -/
def parseEntry (s : State) (indent : Nat) (line trimmed : Bytes) : Option (Except Error State) :=
  match trimmed.idxOf? 58 with
  | none => some (.error (.missingColon s.lineNum line))
  | some colonIdx => do
    let key ← slice? trimmed 0 colonIdx
    let val ← slice? trimmed (colonIdx + 1) trimmed.length
    let key := trimQuotes (trimSpace key)
    let val := trimSpace val
    let stack := s.stack.dropWhile fun item => decide (indent ≤ item.indent)
    if val = [] ∧ [58].isSuffixOf trimmed then
      some (.ok { s with stack := ⟨indent, key⟩ :: stack })
    else do
      let val ← stripQuotes val
      some (.ok { s with stack := stack, kv := (fullKey stack key, val) :: s.kv })

/-- One line of the file. -/
def parseLine (s : State) (text : Bytes) : Option (Except Error State) := do
  let s := { s with lineNum := s.lineNum + 1 }
  let line := trimLine text
  let indent := countIndent line
  let trimmed ← slice? line indent line.length
  if trimmed = [] ∨ [35].isPrefixOf trimmed then some (.ok s)
  else do
    let trimmed ← stripComment trimmed
    if trimmed = [] then some (.ok s) else parseEntry s indent line trimmed

/-- All lines, up to the first error. -/
def parseLines : State → List Bytes → Option (Except Error State)
  | s, [] => some (.ok s)
  | s, text :: texts =>
    match parseLine s text with
    | none => none
    | some (.error e) => some (.error e)
    | some (.ok s) => parseLines s texts

/-! ## The mapping -/

/-- The words are ASCII, and no other letter becomes one of theirs in lower case. -/
def toLower (s : Bytes) : Bytes := s.map fun b => if 65 ≤ b ∧ b ≤ 90 then b + 32 else b

/-- The spellings of a truth value. -/
def parseBool (s : Bytes) : Except ValueError Bool :=
  let s := toLower s
  if s = ascii "true" ∨ s = ascii "yes" ∨ s = ascii "on" ∨ s = ascii "1" then .ok true
  else if s = ascii "false" ∨ s = ascii "no" ∨ s = ascii "off" ∨ s = ascii "0" then .ok false
  else .error .notBool

/-- A setting that is kept as it is. -/
def verbatim (kv : List (Bytes × Bytes)) (f : ConfigField) : Bytes := (kv.lookup f.path).getD []

/-- A setting that has to be parsed. -/
def parsed {α : Type} (parse : Bytes → Except ValueError α) (kv : List (Bytes × Bytes))
    (f : ConfigField) : Except Error (Option α) :=
  match kv.lookup f.path with
  | none => .ok none
  | some v => (parse v).mapError (.invalid f v) |>.map some

/-- Read the known keys; a key that is not there keeps its zero value. -/
def toConfig (kv : List (Bytes × Bytes)) : Except Error Config := do
  let shards ← parsed (fun v => (atoi v).mapError .num) kv .serverShards
  let evictCapacity ← parsed (fun v => (parseUint v).mapError .num) kv .serverEvictCapacity
  let durable ← parsed parseBool kv .storageDurable
  let minSize ← parsed (fun v => (atoi v).mapError .num) kv .compressionMinSize
  return {
    server := {
      addr := verbatim kv .serverAddr
      transport := verbatim kv .serverTransport
      shards := shards
      regionSize := verbatim kv .serverRegionSize
      evictCapacity := evictCapacity
      tlsCert := verbatim kv .serverTLSCert
      tlsKey := verbatim kv .serverTLSKey
      shutdownTimeout := verbatim kv .serverShutdownTimeout }
    storage := { persistentPath := verbatim kv .storagePersistentPath, durable := durable }
    metrics := { addr := verbatim kv .metricsAddr }
    compression := { algorithm := verbatim kv .compressionAlgorithm, minSize := minSize }
    logging := {
      level := verbatim kv .loggingLevel
      format := verbatim kv .loggingFormat
      slowLogThreshold := verbatim kv .loggingSlowLogThreshold }
    security := { encryptionKeyPath := verbatim kv .securityEncryptionKeyPath } }

/-- The longest line that the scanner takes. -/
def maxScanTokenSize : Nat := 64 * 1024

/-- `none` is a panic. -/
def parseYAML (data : Bytes) : Option (Except Error Config) :=
  let (lines, tooLong) := scanLines maxScanTokenSize data
  match parseLines ⟨0, [], []⟩ lines with
  | none => none
  | some (.error e) => some (.error e)
  | some (.ok s) => some (if tooLong then .error .tooLong else toConfig s.kv)

/-! ## What is left of a line -/

variable {s s' : State} {line trimmed k u v : Bytes} {indent : Nat}

/-- What `stripComment` returns. -/
def uncommented (trimmed : Bytes) : Bytes :=
  match trimmed.idxOf? 35 with
  | none => trimmed
  | some idx =>
    let front := trimmed.take idx
    if front.getLast?.all isBlank then front.rdropWhile isBlank else trimmed

/-- A line without its indentation and its comment. -/
def content (text : Bytes) : Bytes := uncommented ((trimLine text).dropWhile isBlank)

theorem uncommented_of_not_mem (h : 35 ∉ trimmed) : uncommented trimmed = trimmed := by
  rw [uncommented, List.idxOf?_eq_none_iff.mpr h]

theorem uncommented_append (hu : 35 ∉ u) : uncommented (u ++ 35 :: v) =
    if u.getLast?.all isBlank then u.rdropWhile isBlank else u ++ 35 :: v := by
  rw [uncommented, idxOf?_append_cons hu]
  dsimp only
  rw [List.take_left]

theorem stripComment_eq (trimmed : Bytes) : stripComment trimmed = some (uncommented trimmed) := by
  by_cases hmem : 35 ∈ trimmed
  · obtain ⟨u, v, rfl, hu⟩ := List.eq_append_cons_of_mem hmem
    have hbefore : (if u.length = 0 then some true
        else (u ++ 35 :: v)[u.length - 1]?.map isBlank) = some (u.getLast?.all isBlank) := by
      induction u using List.reverseRecOn with
      | nil => rfl
      | append_singleton u b _ => simp
    rw [stripComment, uncommented_append hu, idxOf?_append_cons hu]
    dsimp only
    rw [hbefore, Option.bind_eq_bind, Option.bind_some, slice?_front (by simp), List.take_left]
    split <;> rfl
  · rw [stripComment, uncommented_of_not_mem hmem, List.idxOf?_eq_none_iff.mpr hmem]

theorem drop_countIndent (line : Bytes) : countIndent line ≤ line.length ∧
    line.drop (countIndent line) = line.dropWhile isBlank := by
  induction line with
  | nil => exact ⟨Nat.le_refl _, rfl⟩
  | cons b line ih =>
    rw [countIndent, List.dropWhile_cons]
    split
    · exact ⟨Nat.succ_le_succ ih.1, ih.2⟩
    · exact ⟨Nat.zero_le _, rfl⟩

/-- All slices up to the colon are in range. -/
theorem parseLine_eq (s : State) (text : Bytes) : parseLine s text =
    if content text = [] then some (.ok { s with lineNum := s.lineNum + 1 })
    else parseEntry { s with lineNum := s.lineNum + 1 } (countIndent (trimLine text))
      (trimLine text) (content text) := by
  obtain ⟨hindent, hdrop⟩ := drop_countIndent (trimLine text)
  rw [parseLine, slice?_rest hindent, hdrop, content, Option.bind_eq_bind, Option.bind_some,
    stripComment_eq]
  generalize (trimLine text).dropWhile isBlank = trimmed
  split
  · rename_i hskip
    have hnil : uncommented trimmed = [] := by
      rcases hskip with rfl | hhash
      · rfl
      · obtain ⟨v, rfl⟩ := List.isPrefixOf_iff_prefix.mp hhash
        exact uncommented_append (u := []) List.not_mem_nil
    rw [if_pos hnil]
  · rfl

/-! ## A line with a colon -/

theorem parseEntry_of_not_mem (h : 58 ∉ trimmed) :
    parseEntry s indent line trimmed = some (.error (.missingColon s.lineNum line)) := by
  rw [parseEntry, List.idxOf?_eq_none_iff.mpr h]

/-- The line is cut at its first colon. -/
theorem parseEntry_append (hk : 58 ∉ k) : parseEntry s indent line (k ++ 58 :: v) =
    let stack := s.stack.dropWhile fun item => decide (indent ≤ item.indent)
    let key := trimQuotes (trimSpace k)
    if trimSpace v = [] ∧ [58].isSuffixOf (k ++ 58 :: v) then
      some (.ok { s with stack := ⟨indent, key⟩ :: stack })
    else (stripQuotes (trimSpace v)).map fun val =>
      .ok { s with stack := stack, kv := (fullKey stack key, val) :: s.kv } := by
  have hlen : k.length + 1 ≤ (k ++ 58 :: v).length := by
    rw [List.length_append, List.length_cons]
    omega
  have hrest : (k ++ 58 :: v).drop (k.length + 1) = v := by
    rw [← List.singleton_append, ← List.append_assoc]
    exact List.drop_left' (by rw [List.length_append, List.length_singleton])
  rw [parseEntry, idxOf?_append_cons hk]
  dsimp only
  rw [slice?_front (Nat.le_of_succ_le hlen), slice?_rest hlen, List.take_left, hrest]
  dsimp only [Option.bind_eq_bind, Option.bind_some]
  split
  · rfl
  · exact Option.map_eq_bind.symm

theorem quoted_iff {q : UInt8} {val : Bytes} : ([q].isPrefixOf val && [q].isSuffixOf val) = true ↔
    val = [q] ∨ ∃ m, val = q :: (m ++ [q]) := by
  rw [Bool.and_eq_true, List.isPrefixOf_iff_prefix, List.isSuffixOf_iff_suffix]
  constructor
  · rintro ⟨⟨t, rfl⟩, hlast⟩
    rw [List.singleton_append, List.suffix_cons_iff] at hlast
    rcases hlast with heq | ⟨m, rfl⟩
    · exact .inl heq.symm
    · exact .inr ⟨m, rfl⟩
  · rintro (rfl | ⟨m, rfl⟩)
    · exact ⟨List.prefix_rfl, List.suffix_rfl⟩
    · exact ⟨⟨m ++ [q], rfl⟩, ⟨q :: m, rfl⟩⟩

theorem stripQuotes_quoted {q : UInt8} (hq : isQuote q = true) (m : Bytes) :
    stripQuotes (q :: (m ++ [q])) = some m := by
  have hslice : slice? (q :: (m ++ [q])) 1 ((q :: (m ++ [q])).length - 1) = some m := by
    refine slice?_append (a := [q]) (b := m) rfl ?_
    rw [List.length_cons, List.length_append, List.length_singleton]
    omega
  rw [isQuote, Bool.or_eq_true, beq_iff_eq, beq_iff_eq] at hq
  have hquoted : (([34].isPrefixOf (q :: (m ++ [q])) && [34].isSuffixOf (q :: (m ++ [q]))) ||
      ([39].isPrefixOf (q :: (m ++ [q])) && [39].isSuffixOf (q :: (m ++ [q])))) = true := by
    rw [Bool.or_eq_true, quoted_iff, quoted_iff]
    rcases hq with rfl | rfl
    · exact .inl (.inr ⟨m, rfl⟩)
    · exact .inr (.inr ⟨m, rfl⟩)
  rw [stripQuotes, if_pos hquoted, hslice]

theorem stripQuotes_cases (val : Bytes) :
    ((val = [34] ∨ val = [39]) ∧ stripQuotes val = none) ∨
    (∃ q m, isQuote q = true ∧ val = q :: (m ++ [q]) ∧ stripQuotes val = some m) ∨
    stripQuotes val = some val := by
  by_cases hquoted : (([34].isPrefixOf val && [34].isSuffixOf val) ||
      ([39].isPrefixOf val && [39].isSuffixOf val)) = true
  · rw [Bool.or_eq_true, quoted_iff, quoted_iff] at hquoted
    rcases hquoted with (rfl | ⟨m, rfl⟩) | (rfl | ⟨m, rfl⟩)
    · exact .inl ⟨.inl rfl, rfl⟩
    · exact .inr (.inl ⟨34, m, rfl, rfl, stripQuotes_quoted rfl m⟩)
    · exact .inl ⟨.inr rfl, rfl⟩
    · exact .inr (.inl ⟨39, m, rfl, rfl, stripQuotes_quoted rfl m⟩)
  · exact .inr (.inr (if_neg hquoted))

/-- The one slice that can be out of range. -/
theorem stripQuotes_eq_none_iff (val : Bytes) : stripQuotes val = none ↔ val = [34] ∨ val = [39] := by
  constructor
  · intro hnone
    rcases stripQuotes_cases val with ⟨hlone, _⟩ | ⟨_, m, _, _, hsome⟩ | hsome
    · exact hlone
    · rw [hnone] at hsome
      cases hsome
    · rw [hnone] at hsome
      cases hsome
  · rintro (rfl | rfl) <;> rfl

/-! ## Panics -/

/-- What stands behind the first colon of a line. -/
def value (text : Bytes) : Bytes := trimSpace ((content text).dropWhile (· != 58)).tail

/-- A line of which the value is one quote. -/
def LoneQuote (text : Bytes) : Prop := value text = [34] ∨ value text = [39]

/-- A line that ends the parsing with an error. -/
def NoColon (text : Bytes) : Prop := content text ≠ [] ∧ 58 ∉ content text

theorem bne_of_not_mem {b c : UInt8} (hc : c ∉ u) (hb : b ∈ u) : (b != c) = true := by
  rw [bne_iff_ne]
  rintro rfl
  exact hc hb

theorem value_of_not_mem {text : Bytes} (h : 58 ∉ content text) : value text = [] := by
  rw [value, List.dropWhile_eq_nil_iff.mpr fun _ => bne_of_not_mem h]
  rfl

theorem value_of_append {text : Bytes} (hk : 58 ∉ k) (h : content text = k ++ 58 :: v) :
    value text = trimSpace v := by
  rw [value, h, List.dropWhile_append_of_pos fun _ => bne_of_not_mem hk,
    List.dropWhile_cons_of_neg (by decide), List.tail_cons]

/-- The outcome of a line does not depend on what came before. -/
theorem parseLine_cases (s : State) (text : Bytes) :
    (LoneQuote text ∧ parseLine s text = none) ∨
    (¬LoneQuote text ∧ NoColon text ∧ ∃ e, parseLine s text = some (.error e)) ∨
    (¬LoneQuote text ∧ ¬NoColon text ∧ ∃ s', parseLine s text = some (.ok s')) := by
  have hempty : 58 ∉ content text → ¬LoneQuote text := by
    intro hcolon hlone
    rw [LoneQuote, value_of_not_mem hcolon] at hlone
    exact absurd hlone (by decide)
  rw [parseLine_eq]
  by_cases hnil : content text = []
  · have hcolon : 58 ∉ content text := by
      rw [hnil]
      exact List.not_mem_nil
    exact .inr (.inr ⟨hempty hcolon, fun h => h.1 hnil, _, if_pos hnil⟩)
  rw [if_neg hnil]
  by_cases hcolon : 58 ∈ content text
  · obtain ⟨k, v, hcontent, hk⟩ := List.eq_append_cons_of_mem hcolon
    rw [hcontent, parseEntry_append hk]
    dsimp only
    have hno : ¬NoColon text := fun h => h.2 hcolon
    by_cases hsection : trimSpace v = [] ∧ [58].isSuffixOf (k ++ 58 :: v) = true
    · have hlone : ¬LoneQuote text := by
        rw [LoneQuote, value_of_append hk hcontent, hsection.1]
        decide
      exact .inr (.inr ⟨hlone, hno, _, if_pos hsection⟩)
    rw [if_neg hsection]
    cases hstrip : stripQuotes (trimSpace v) with
    | none =>
      refine .inl ⟨?_, rfl⟩
      rw [LoneQuote, value_of_append hk hcontent]
      exact (stripQuotes_eq_none_iff _).mp hstrip
    | some val =>
      refine .inr (.inr ⟨fun hlone => ?_, hno, _, rfl⟩)
      rw [LoneQuote, value_of_append hk hcontent, ← stripQuotes_eq_none_iff, hstrip] at hlone
      cases hlone
  · exact .inr (.inl ⟨hempty hcolon, ⟨hnil, hcolon⟩, _, parseEntry_of_not_mem hcolon⟩)

/-- The loop panics at the first line with a lone quote, unless an error stops it before. -/
theorem parseLines_eq_none_iff (lines : List Bytes) : ∀ s : State, parseLines s lines = none ↔
    ∃ before line after, lines = before ++ line :: after ∧ (∀ l ∈ before, ¬NoColon l) ∧
      LoneQuote line := by
  induction lines with
  | nil =>
    refine fun s => ⟨fun h => ?_, fun ⟨before, line, after, h, _⟩ => ?_⟩
    · cases h
    · exact absurd h.symm (List.append_ne_nil_of_right_ne_nil _ (List.cons_ne_nil _ _))
  | cons text texts ih =>
    intro s
    rw [exists_split_cons, parseLines]
    rcases parseLine_cases s text with ⟨hlone, hline⟩ | ⟨hlone, hno, e, hline⟩ |
      ⟨hlone, hno, s', hline⟩
    · rw [hline]
      exact ⟨fun _ => .inl hlone, fun _ => rfl⟩
    · rw [hline]
      refine ⟨fun h => ?_, ?_⟩
      · cases h
      · rintro (hquote | ⟨hcolon, _⟩)
        · exact absurd hquote hlone
        · exact absurd hno hcolon
    · rw [hline]
      dsimp only
      rw [ih s']
      refine ⟨fun hlater => .inr ⟨hno, hlater⟩, ?_⟩
      rintro (hquote | ⟨_, hlater⟩)
      · exact absurd hquote hlone
      · exact hlater

/-- A file is parsed to a configuration or an error exactly if no line up to the first one without
a colon has a lone quote as its value. -/
theorem parseYAML_returns_iff (data : Bytes) : (∃ result, parseYAML data = some result) ↔
    ∀ before line after, (scanLines maxScanTokenSize data).1 = before ++ line :: after →
      (∀ l ∈ before, ¬NoColon l) → ¬LoneQuote line := by
  have hnone : parseYAML data = none ↔
      parseLines ⟨0, [], []⟩ (scanLines maxScanTokenSize data).1 = none := by
    rw [parseYAML]
    dsimp only
    split
    · rename_i h
      exact ⟨fun _ => h, fun _ => rfl⟩
    all_goals
      rename_i h
      rw [h]
      exact ⟨fun h => (by cases h), fun h => (by cases h)⟩
  rw [← Option.ne_none_iff_exists', ne_eq, hnone, parseLines_eq_none_iff]
  push Not
  rfl

/-- The file `a: "`. -/
theorem parseYAML_lone_quote : parseYAML (ascii "a: \"") = none := by
  decide +kernel

end Horreum.Yaml
