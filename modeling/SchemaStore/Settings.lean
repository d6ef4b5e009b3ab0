/-!
# Settings of a persistent store

Where a persistent store lives, which of its keyspaces is used, and how far a write is pushed before
it is acknowledged.
-/

namespace SchemaStore

/-- When a write is on disk. Nothing a store answers depends on it. -/
inductive Durability
  /-- Data and metadata are synced after every write. -/
  | syncAll
  /-- Data is synced after every write. -/
  | syncData
  /-- A write reaches the buffers of the operating system. -/
  | buffer
  /-- Writes reach the disk in the background. -/
  | background
deriving DecidableEq

namespace Durability

/-- Every level. -/
def all : List Durability := [.syncAll, .syncData, .buffer, .background]

/-- The name of a level. -/
def name : Durability → String
  | .syncAll => "sync-all"
  | .syncData => "sync-data"
  | .buffer => "buffer"
  | .background => "none"

/-- The level of a name. -/
def ofName? (name : String) : Option Durability := all.find? fun d => d.name == name

end Durability

/-- The settings of a persistent store. -/
structure Settings where
  path : String
  keyspace : String
  durability : Durability
deriving DecidableEq

namespace Settings

/-- The settings of a store at a path, all others as they are by default. -/
def atPath (path : String) : Settings := ⟨path, "entries", .syncAll⟩

/-- Use another keyspace. -/
def withKeyspace (s : Settings) (keyspace : String) : Settings := { s with keyspace := keyspace }

/-- Use another durability. -/
def withDurability (s : Settings) (durability : Durability) : Settings :=
  { s with durability := durability }

end Settings

end SchemaStore
