import SchemaStore.Codec.Merge
import SchemaStore.Settings
import SchemaStore.Store.Call
import SchemaStore.Text.Utf8

/-!
# A store of bytes

A keyspace maps byte keys to byte values in the order of the bytes. Texts are written as UTF-8, and a
value that is not UTF-8 cannot be read. A batch is prepared first and applied at once, so a batch
that fails changes nothing: a batch of merges reads each key once, merges later texts for it into the
earlier result, and writes the results together.
-/

namespace SchemaStore

/-- Why a keyspace refuses an operation. -/
inductive KeyspaceError
  /-- The value under the key is not UTF-8. -/
  | notText (key : String)
  /-- The key is empty or too long to be written. -/
  | unwritableKey (key : String)
deriving DecidableEq

/-- A refusal in words. -/
def KeyspaceError.message : KeyspaceError → String
  | .notText key => "value stored under '" ++ key ++ "' is not valid UTF-8"
  | .unwritableKey key => "key '" ++ key ++ "' cannot be written"

/-- A store of byte values under byte keys. -/
structure Keyspace where
  entries : SortedMap Bytes Bytes

namespace Keyspace

/-- The keyspace without entries. -/
def empty : Keyspace := ⟨.empty⟩

/-- A key that can be written: of 1 to 65535 bytes. -/
def accepts (key : Bytes) : Bool := 0 < key.length && key.length ≤ 65535

/-- Put raw bytes. -/
def setBytes (s : Keyspace) (key value : Bytes) : Keyspace := ⟨s.entries.insert key value⟩

/-- Put a text. -/
def set (s : Keyspace) (key text : String) : Keyspace :=
  s.setBytes (Utf8.encode key) (Utf8.encode text)

/-- Remove the entry under raw bytes. -/
def removeBytes (s : Keyspace) (key : Bytes) : Keyspace := ⟨s.entries.erase key⟩

/-- Remove the entry under a text key. -/
def remove (s : Keyspace) (key : String) : Keyspace := s.removeBytes (Utf8.encode key)

/-- Read the text under a key. -/
def get (s : Keyspace) (key : String) : Except KeyspaceError (Option String) :=
  match s.entries.find? (Utf8.encode key) with
  | none => .ok none
  | some bytes =>
    match Utf8.decode? bytes with
    | some text => .ok (some text)
    | none => .error (.notText key)

/-- The results of some merges by key: a key is read when it is merged first. -/
def merged (s : Keyspace) :
    List (String × String) → SortedMap String String → Except KeyspaceError (SortedMap String String)
  | [], pending => .ok pending
  | (key, text) :: rest, pending =>
    match pending.find? key with
    | some earlier => merged s rest (pending.insert key (Codec.shallowMerge (some earlier) text))
    | none =>
      match s.get key with
      | .ok existing => merged s rest (pending.insert key (Codec.shallowMerge existing text))
      | .error e => .error e

/-- Check that every key can be written. -/
def checkKeys : List String → Except KeyspaceError Unit
  | [] => .ok ()
  | key :: rest => if accepts (Utf8.encode key) then checkKeys rest else .error (.unwritableKey key)

/-- Put several texts at once. -/
def setAll (s : Keyspace) (entries : List (String × String)) : Except KeyspaceError Keyspace := do
  checkKeys (entries.map (·.1))
  return entries.foldl (fun s e => s.set e.1 e.2) s

/-- Remove several entries at once. -/
def removeAll (s : Keyspace) (keys : List String) : Except KeyspaceError Keyspace := do
  checkKeys keys
  return keys.foldl remove s

/-- Merge several texts at once. -/
def mergeAll (s : Keyspace) (entries : List (String × String)) : Except KeyspaceError Keyspace := do
  let results ← s.merged entries .empty
  s.setAll results.entries

/-- Remove the entries under all keys at once. -/
def clear (s : Keyspace) : Keyspace := s.entries.keys.foldl removeBytes s

/-- Every key as a text, in the order of the bytes. -/
def keys (s : Keyspace) : List String := s.entries.keys.map Utf8.decodeLossy

/-- The reply of an operation that leaves the store alone. -/
def reading {α : Type} (s : Keyspace) (answer : Except KeyspaceError α) :
    Reply KeyspaceError Keyspace α :=
  ⟨answer, s, []⟩

/-- The reply of an operation that replaces the store unless it fails. -/
def writing (s : Keyspace) (result : Except KeyspaceError Keyspace) :
    Reply KeyspaceError Keyspace Unit :=
  match result with
  | .ok s => ⟨.ok (), s, []⟩
  | .error e => ⟨.error e, s, []⟩

/-- Perform an operation. -/
def perform (s : Keyspace) : (c : Call) → Reply KeyspaceError Keyspace c.Answer
  | .get key => s.reading (s.get key)
  | .set key text => s.writing (s.setAll [(key, text)])
  | .remove key => s.writing (s.removeAll [key])
  | .merge key text => s.writing (s.mergeAll [(key, text)])
  | .multiGet keys => s.reading (List.mapM (fun key => (s.get key).map fun text => (key, text)) keys)
  | .multiSet entries => s.writing (s.setAll entries)
  | .multiMerge entries => s.writing (s.mergeAll entries)
  | .multiRemove keys => s.writing (s.removeAll keys)
  | .allKeys => s.reading (.ok s.keys)
  | .clear => ⟨.ok (), s.clear, [Event.onCount "clearing fjall store" s.entries.size]⟩
  | .flush => s.reading (.ok ())

instance : RawStore Keyspace KeyspaceError where
  perform c s := s.perform c

end Keyspace

/-- A database: keyspaces by name. -/
structure Database where
  keyspaces : SortedMap String Keyspace

/-- Why a database cannot be opened. -/
inductive OpenError
  /-- The name of the keyspace is empty or too long. -/
  | badName (name : String)
  /-- The database is open already. -/
  | inUse
deriving DecidableEq

/-- A keyspace of a database, open under some settings, beside the database as it was on opening. -/
structure OpenDatabase where
  settings : Settings
  database : Database
  keyspace : Keyspace

namespace Database

/-- The database without keyspaces. -/
def empty : Database := ⟨.empty⟩

/-- What an attempt to open a keyspace reports. -/
def opening (settings : Settings) : Event :=
  ⟨.info, "opening fjall store", [("keyspace", settings.keyspace)]⟩

/-- Open a keyspace, which is empty if it is new. Its name has 1 to 255 bytes. -/
def openKeyspace (d : Database) (settings : Settings) : Except OpenError OpenDatabase :=
  let length := (Utf8.encode settings.keyspace).length
  if 0 < length ∧ length ≤ 255 then
    .ok ⟨settings, d, (d.keyspaces.find? settings.keyspace).getD .empty⟩
  else .error (.badName settings.keyspace)

end Database

namespace OpenDatabase

/-- Close a keyspace. What was written to it is in the database, whatever the durability. -/
def close (o : OpenDatabase) : Database :=
  ⟨o.database.keyspaces.insert o.settings.keyspace o.keyspace⟩

instance : RawStore OpenDatabase KeyspaceError where
  perform c o :=
    let reply := o.keyspace.perform c
    ⟨reply.answer, { o with keyspace := reply.store }, reply.events⟩

/-- Open the directory of a database that is open: only one may have it. -/
def openAgain (_ : OpenDatabase) : Except OpenError OpenDatabase := .error .inUse

end OpenDatabase

end SchemaStore
