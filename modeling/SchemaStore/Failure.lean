import SchemaStore.Codec.Merge

/-!
# Failures of a facade

What can go wrong in an operation on declared keys: the store fails, a value cannot be written or
read, a value cannot be merged, or a store answers a read of several keys with something else than
was asked. `ε` is the type of the store's own failures.
-/

namespace SchemaStore

/-- Why an operation failed. -/
inductive Failure (ε : Type)
  /-- The store failed. -/
  | store (e : ε)
  /-- The value for the key has no text. -/
  | encode (key : String) (complaint : Complaint)
  /-- The text under the key is no value of its shape. -/
  | decode (key : String) (complaint : Complaint)
  /-- The value for the key is no object and no array. -/
  | mergeArgument (key : String) (found : Codec.Unmergeable)
  /-- The answer to a read of several keys names something else than was expected. -/
  | batchMismatch (expected found : String)
deriving DecidableEq

namespace Failure

variable {ε : Type}

/-- What stands for the end of an answer in a mismatch. -/
def endOfResponse : String := "end of response"

/-- A failure in words, given those of the store. -/
def message (storeMessage : ε → String) : Failure ε → String
  | .store e => storeMessage e
  | .encode key c => "failed to encode value for key '" ++ key ++ "': " ++ c.message
  | .decode key c => "failed to decode value for key '" ++ key ++ "': " ++ c.message
  | .mergeArgument key found =>
    "merge on key '" ++ key ++ "' requires an object or array, got " ++ found.words
  | .batchMismatch expected found =>
    "batch response mismatch: expected " ++ expected ++ ", found " ++ found

/-- The operation was refused for its argument, before it reached the store. -/
def isInvalidArgument : Failure ε → Bool
  | .mergeArgument .. => true
  | _ => false

/-- The store reported the failure. -/
def isStore : Failure ε → Bool
  | .store _ => true
  | _ => false

/-- The store's own failure. -/
def storeError? : Failure ε → Option ε
  | .store e => some e
  | _ => none

end Failure

end SchemaStore
