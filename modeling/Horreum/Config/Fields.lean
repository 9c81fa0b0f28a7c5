/-
  Config/Fields.lean --- the fields of `Config` as one map.

  The mapping of `ParseYAML` treats each setting by itself: it is kept as it is or parsed as a number
  or as a Boolean, and one that is missing leaves the zero value.
-/
import Horreum.Config.Yaml
import Horreum.Foundation.Runs

set_option autoImplicit false

namespace Horreum.Yaml

open Foundation
open Foundation.Decimal

/-- The types of configuration values. -/
inductive Kind where
  | text
  | int
  | uint
  | bool
  deriving DecidableEq, Repr

/-- A configuration value. -/
inductive Value where
  | text (s : Bytes)
  | int (z : Int)
  | uint (n : Nat)
  | bool (b : Bool)
  deriving DecidableEq, Repr

/-- How the mapping reads a value. -/
def Kind.read : Kind → Bytes → Except ValueError Value
  | .text, v => .ok (.text v)
  | .int, v => ((atoi v).mapError .num).map .int
  | .uint, v => ((parseUint v).mapError .num).map .uint
  | .bool, v => (parseBool v).map .bool

/-- What a field holds that was not set: the zero value of a string, or a nil pointer. -/
def Kind.absent : Kind → Option Value
  | .text => some (.text [])
  | .int | .uint | .bool => none

/-- The type of a field. -/
def ConfigField.kind : ConfigField → Kind
  | .serverShards | .compressionMinSize => .int
  | .serverEvictCapacity => .uint
  | .storageDurable => .bool
  | .serverAddr | .serverTransport | .serverRegionSize | .serverTLSCert | .serverTLSKey
  | .serverShutdownTimeout | .storagePersistentPath | .metricsAddr | .compressionAlgorithm
  | .loggingLevel | .loggingFormat | .loggingSlowLogThreshold | .securityEncryptionKeyPath => .text

/-- Every field. -/
def ConfigField.all : List ConfigField :=
  [.serverAddr, .serverTransport, .serverShards, .serverRegionSize, .serverEvictCapacity,
   .serverTLSCert, .serverTLSKey, .serverShutdownTimeout, .storagePersistentPath, .storageDurable,
   .metricsAddr, .compressionAlgorithm, .compressionMinSize, .loggingLevel, .loggingFormat,
   .loggingSlowLogThreshold, .securityEncryptionKeyPath]

theorem ConfigField.mem_all (f : ConfigField) : f ∈ ConfigField.all := by
  cases f <;> decide

/-- The field with the given key. -/
def fieldAt (path : Bytes) : Option ConfigField := ConfigField.all.find? fun f => f.path == path

/-- What the configuration has for a field. -/
def Config.get (cfg : Config) : ConfigField → Option Value
  | .serverAddr => some (.text cfg.server.addr)
  | .serverTransport => some (.text cfg.server.transport)
  | .serverShards => cfg.server.shards.map .int
  | .serverRegionSize => some (.text cfg.server.regionSize)
  | .serverEvictCapacity => cfg.server.evictCapacity.map .uint
  | .serverTLSCert => some (.text cfg.server.tlsCert)
  | .serverTLSKey => some (.text cfg.server.tlsKey)
  | .serverShutdownTimeout => some (.text cfg.server.shutdownTimeout)
  | .storagePersistentPath => some (.text cfg.storage.persistentPath)
  | .storageDurable => cfg.storage.durable.map .bool
  | .metricsAddr => some (.text cfg.metrics.addr)
  | .compressionAlgorithm => some (.text cfg.compression.algorithm)
  | .compressionMinSize => cfg.compression.minSize.map .int
  | .loggingLevel => some (.text cfg.logging.level)
  | .loggingFormat => some (.text cfg.logging.format)
  | .loggingSlowLogThreshold => some (.text cfg.logging.slowLogThreshold)
  | .securityEncryptionKeyPath => some (.text cfg.security.encryptionKeyPath)

/-- No two fields are looked up under one key. -/
theorem ConfigField.eq_of_path_eq {f g : ConfigField} (h : f.path = g.path) : f = g := by
  have hfind : ∀ f ∈ ConfigField.all, fieldAt f.path = some f := by decide +kernel
  exact Option.some.inj ((hfind f f.mem_all).symm.trans
    ((congrArg fieldAt h).trans (hfind g g.mem_all)))

/-- The value that a field is to have for the pairs of a file. -/
def expected (kv : List (Bytes × Bytes)) (f : ConfigField) : Except Error (Option Value) :=
  match kv.lookup f.path with
  | none => .ok f.kind.absent
  | some v => (f.kind.read v).mapError (.invalid f v) |>.map some

variable {kv : List (Bytes × Bytes)} {cfg : Config} {f : ConfigField}

/-- A field that is parsed, if the parser and the kind of the field agree. -/
theorem expected_of_parsed {α : Type} {parse : Bytes → Except ValueError α} {o : Option α}
    {mk : α → Value} (hread : ∀ v, f.kind.read v = (parse v).map mk) (habsent : f.kind.absent = none)
    (h : parsed parse kv f = .ok o) : expected kv f = .ok (o.map mk) := by
  unfold parsed at h
  unfold expected
  cases hlookup : kv.lookup f.path with
  | none =>
    rw [hlookup] at h
    cases h
    exact congrArg Except.ok habsent
  | some v =>
    rw [hlookup] at h
    obtain ⟨x, hx, rfl⟩ := map_eq_ok h
    dsimp only
    rw [hread, mapError_eq_ok hx]
    rfl

theorem expected_verbatim (hkind : f.kind = .text) :
    expected kv f = .ok (some (.text (verbatim kv f))) := by
  rw [expected, verbatim, hkind]
  cases kv.lookup f.path <;> rfl

/-- Each field of the result holds what it is to hold. -/
theorem get_of_toConfig (h : toConfig kv = .ok cfg) (f : ConfigField) :
    expected kv f = .ok (cfg.get f) := by
  obtain ⟨shards, hshards, h⟩ := bind_eq_ok h
  obtain ⟨evictCapacity, hevict, h⟩ := bind_eq_ok h
  obtain ⟨durable, hdurable, h⟩ := bind_eq_ok h
  obtain ⟨minSize, hminSize, h⟩ := bind_eq_ok h
  cases h
  cases f
  case serverShards => exact expected_of_parsed (fun _ => rfl) rfl hshards
  case serverEvictCapacity => exact expected_of_parsed (fun _ => rfl) rfl hevict
  case storageDurable => exact expected_of_parsed (fun _ => rfl) rfl hdurable
  case compressionMinSize => exact expected_of_parsed (fun _ => rfl) rfl hminSize
  all_goals exact expected_verbatim rfl

theorem parsed_of_expected {α : Type} {parse : Bytes → Except ValueError α} {mk : α → Value}
    {x : Option Value} (hread : ∀ v, f.kind.read v = (parse v).map mk)
    (h : expected kv f = .ok x) : ∃ o, parsed parse kv f = .ok o := by
  unfold expected at h
  unfold parsed
  cases hlookup : kv.lookup f.path with
  | none => exact ⟨none, rfl⟩
  | some v =>
    rw [hlookup] at h
    obtain ⟨y, hy, _⟩ := map_eq_ok h
    have hparse := mapError_eq_ok hy
    rw [hread] at hparse
    obtain ⟨a, ha, _⟩ := map_eq_ok hparse
    exact ⟨some a, by dsimp only; rw [ha]; rfl⟩

/-- The mapping fails only at a field that cannot be read. -/
theorem toConfig_ok (h : ∀ f, ∃ x, expected kv f = .ok x) : ∃ cfg, toConfig kv = .ok cfg := by
  have hparsed : ∀ {α : Type} {parse : Bytes → Except ValueError α} {mk : α → Value}
      (f : ConfigField), (∀ v, f.kind.read v = (parse v).map mk) →
      ∃ o, parsed parse kv f = .ok o := by
    intro α parse mk f hread
    obtain ⟨x, hx⟩ := h f
    exact parsed_of_expected hread hx
  obtain ⟨shards, hshards⟩ := hparsed .serverShards (fun _ => rfl)
  obtain ⟨evictCapacity, hevict⟩ := hparsed .serverEvictCapacity (fun _ => rfl)
  obtain ⟨durable, hdurable⟩ := hparsed .storageDurable (fun _ => rfl)
  obtain ⟨minSize, hminSize⟩ := hparsed .compressionMinSize (fun _ => rfl)
  rw [toConfig, hshards, hevict, hdurable, hminSize]
  exact ⟨_, rfl⟩

end Horreum.Yaml
