import SchemaStore.Json.Problem

/-!
# Events

Operations report what they do as events: a level, a message and named fields, all as text. The
events of an operation are part of its result, in the order in which they happened.
-/

namespace SchemaStore

/-- How important an event is. -/
inductive Level
  /-- A second attempt at reading a text. -/
  | trace
  /-- An operation. -/
  | debug
  /-- The life of a store. -/
  | info
  /-- An unexpected answer of a store. -/
  | warn
  /-- A refused argument. -/
  | error
deriving DecidableEq

/-- Something that happened. -/
structure Event where
  level : Level
  message : String
  fields : List (String × String)
deriving DecidableEq

namespace Event

/-- An operation on one key. -/
def onKey (message key : String) : Event := ⟨.debug, message, [("key", key)]⟩

/-- An operation on some keys. -/
def onKeys (message : String) (keys : List String) : Event :=
  ⟨.debug, message, [("keys", Text.quotedList keys)]⟩

/-- An operation on a number of entries. -/
def onCount (message : String) (count : Nat) : Event :=
  ⟨.debug, message, [("count", String.ofList (Nat.toDigits 10 count))]⟩

/-- An operation on the whole store. -/
def onStore (message : String) : Event := ⟨.debug, message, []⟩

/-- A first attempt at reading a text failed. -/
def fellBack (message : String) (complaint : Complaint) : Event :=
  ⟨.trace, message, [("error", complaint.message)]⟩

end Event

/-- A result with what was reported on the way to it. -/
structure Logged (α : Type) where
  value : α
  events : List Event

end SchemaStore
