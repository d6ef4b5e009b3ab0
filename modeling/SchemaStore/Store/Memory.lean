import SchemaStore.Codec.Merge
import SchemaStore.Store.Call

/-!
# A store in memory

`MemoryStore` keeps its entries in a sorted map. It never fails, and a batch is applied entry by
entry.
-/

namespace SchemaStore

/-- A store that keeps its entries in memory. -/
structure MemoryStore where
  entries : SortedMap String String

namespace MemoryStore

/-- The store without entries. -/
def empty : MemoryStore := ⟨.empty⟩

/-- The store that holds some entries, of which a later one replaces an earlier one. -/
def ofList (entries : List (String × String)) : MemoryStore := ⟨.ofList entries⟩

/-- The text under a key. -/
def get (m : MemoryStore) (key : String) : Option String := m.entries.find? key

/-- Put a text under a key. -/
def set (m : MemoryStore) (key text : String) : MemoryStore := ⟨m.entries.insert key text⟩

/-- Remove the entry under a key. -/
def remove (m : MemoryStore) (key : String) : MemoryStore := ⟨m.entries.erase key⟩

/-- Merge a text into the one under a key. -/
def merge (m : MemoryStore) (key text : String) : MemoryStore :=
  m.set key (Codec.shallowMerge (m.get key) text)

/-- The answer to a call. -/
def answer (m : MemoryStore) : (c : Call) → c.Answer
  | .get key => m.get key
  | .multiGet keys => keys.map fun key => (key, m.get key)
  | .allKeys => m.entries.keys
  | .set .. | .remove _ | .merge .. | .multiSet _ | .multiMerge _ | .multiRemove _ | .clear
  | .flush => ()

/-- The store after a call. -/
def after (m : MemoryStore) : Call → MemoryStore
  | .set key text => m.set key text
  | .remove key => m.remove key
  | .merge key text => m.merge key text
  | .multiSet entries => entries.foldl (fun m e => m.set e.1 e.2) m
  | .multiMerge entries => entries.foldl (fun m e => m.merge e.1 e.2) m
  | .multiRemove keys => keys.foldl remove m
  | .clear => empty
  | .get _ | .multiGet _ | .allKeys | .flush => m

instance : RawStore MemoryStore Empty where
  perform c m := ⟨.ok (m.answer c), m.after c, []⟩

/-- How many entries there are. -/
def size (m : MemoryStore) : Nat := m.entries.size

/-- Whether there is no entry. -/
def isEmpty (m : MemoryStore) : Bool := m.entries.isEmpty

end MemoryStore

end SchemaStore
