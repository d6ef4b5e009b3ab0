import SchemaStore.Settings
import SchemaStore.Text.Utf8
import SchemaStore.Toml.Document

/-!
# Loading settings

Settings are read from the root table of a TOML document. The path must be there; the keyspace and
the durability have defaults. A durability is written as its name, or as a table with the name as its
only key and nothing in it. Keys of other names are ignored.
-/

namespace SchemaStore

/-- Why settings cannot be loaded. -/
inductive SettingsError
  /-- There is no file of this path. -/
  | noFile (path : String)
  /-- The file of this path is not UTF-8. -/
  | notText (path : String)
  /-- The text is no TOML, or its table does not hold settings. -/
  | malformed
deriving DecidableEq

/-- An error in words. What is wrong with a malformed text is not told. -/
def SettingsError.message : SettingsError → String
  | .noFile path =>
    "failed to read config file '" ++ path ++ "': No such file or directory (os error 2)"
  | .notText path =>
    "failed to read config file '" ++ path ++ "': stream did not contain valid UTF-8"
  | .malformed => "failed to parse config"

/-- A container with nothing in it. -/
def Toml.Value.isEmpty : Toml.Value → Bool
  | .table _ [] => true
  | .array [] => true
  | _ => false

/-- The text a value is. -/
def Toml.Value.text? : Toml.Value → Option String
  | .text s => some s
  | _ => none

/-- The durability a value is. -/
def Durability.ofToml? : Toml.Value → Option Durability
  | .text name => ofName? name
  | .table _ [(name, v)] => if v.isEmpty then ofName? name else none
  | _ => none

namespace Settings

/-- A setting that has a default. -/
def optional {α : Type} (t : Toml.Table) (key : String) (read : Toml.Value → Option α)
    (default : α) : Option α :=
  match t.lookup key with
  | none => some default
  | some v => read v

/-- The settings a table holds. -/
def ofTable? (t : Toml.Table) : Option Settings := do
  let path ← (t.lookup "path").bind Toml.Value.text?
  let defaults := atPath path
  let keyspace ← optional t "keyspace" Toml.Value.text? defaults.keyspace
  let durability ← optional t "durability" Durability.ofToml? defaults.durability
  return ⟨path, keyspace, durability⟩

/-- The settings a text holds. -/
def parse (text : String) : Except SettingsError Settings :=
  match (Toml.Table.parse? text).bind ofTable? with
  | some s => .ok s
  | none => .error .malformed

/-- The settings a file holds, given its bytes if there is such a file. -/
def ofFile (path : String) (content : Option Bytes) : Except SettingsError Settings :=
  match content with
  | none => .error (.noFile path)
  | some bytes =>
    match Utf8.decode? bytes with
    | some text => parse text
    | none => .error (.notText path)

/-- The settings are those a store at their path has by default. -/
def isDefault (s : Settings) : Bool := s == atPath s.path

end Settings

end SchemaStore
