import SchemaStore.Event

/-!
# Stores of texts

A store holds texts under text keys and answers the eleven operations of `Call`. Performing a call
gives a `Reply`: the answer or the store's own failure, the store afterwards, and what was reported
meanwhile. Any type with `perform` is a store; several facades share one by taking turns on it.
-/

namespace SchemaStore

/-- An operation on a store. -/
inductive Call
  /-- Read the text under a key. -/
  | get (key : String)
  /-- Put a text under a key. -/
  | set (key text : String)
  /-- Remove the entry under a key. -/
  | remove (key : String)
  /-- Merge a text into the one under a key. -/
  | merge (key text : String)
  /-- Read the texts under several keys. -/
  | multiGet (keys : List String)
  /-- Put several texts. -/
  | multiSet (entries : List (String × String))
  /-- Merge several texts. -/
  | multiMerge (entries : List (String × String))
  /-- Remove several entries. -/
  | multiRemove (keys : List String)
  /-- List every key. -/
  | allKeys
  /-- Remove every entry. -/
  | clear
  /-- Answer the reads that are held back. -/
  | flush
deriving DecidableEq

namespace Call

/-- The answers to a call. A read of several keys is answered by one name and text per key. -/
def Answer : Call → Type
  | .get _ => Option String
  | .multiGet _ => List (String × Option String)
  | .allKeys => List String
  | .set .. | .remove _ | .merge .. | .multiSet _ | .multiMerge _ | .multiRemove _ | .clear
  | .flush => Unit

/-- The name of the operation. -/
def name : Call → String
  | .get _ => "get"
  | .set .. => "set"
  | .remove _ => "remove"
  | .merge .. => "merge"
  | .multiGet _ => "multi_get"
  | .multiSet _ => "multi_set"
  | .multiMerge _ => "multi_merge"
  | .multiRemove _ => "multi_remove"
  | .allKeys => "get_all_keys"
  | .clear => "clear"
  | .flush => "flush_get_requests"

end Call

/-- What performing an operation gives. -/
structure Reply (ε σ α : Type) where
  answer : Except ε α
  store : σ
  events : List Event

/-- A store: its states `σ` and its failures `ε`. -/
class RawStore (σ : Type) (ε : outParam Type) where
  perform : (c : Call) → σ → Reply ε σ c.Answer

end SchemaStore
