import SchemaStore.Batch
import SchemaStore.Codec.Legacy
import SchemaStore.Store.Call

/-!
# Facades

A facade gives access to the keys of one schema in a store that others may use too. `Op` lists its
operations and `Op.run` performs one: values are encoded before the store is asked, at most one call
reaches the store, and texts are decoded after it has answered. A failure on the way ends the
operation. Nothing is kept between operations, so facades of different schemas may share a store.
-/

namespace SchemaStore

/-- An operation of a facade. -/
inductive Op (S : Schema)
  /-- Read the value under a key. -/
  | get (k : S.Key)
  /-- Read a value that was written without the codec. -/
  | getLegacy (k : S.Key)
  /-- Put a value under a key. -/
  | set (k : S.Key) (v : S.Val k)
  /-- Remove the value under a key. -/
  | remove (k : S.Key)
  /-- Merge a value into the one under a key. -/
  | merge (k : S.MergeKey) (v : S.Val k.val)
  /-- Read the values under several keys. -/
  | multiGet (keys : List S.Key)
  /-- Put several values. -/
  | multiSet (entries : List S.Entry)
  /-- Merge several values. -/
  | multiMerge (entries : List S.MergeEntry)
  /-- Remove several values. -/
  | multiRemove (keys : List S.Key)
  /-- List every key of the store, declared or not. -/
  | allKeys
  /-- List the declared keys the store has entries for. -/
  | storedKeys
  /-- Remove every entry of the store, under declared keys or not. -/
  | clear
  /-- Let the store answer the reads it holds back. -/
  | flush

namespace Op

variable {S : Schema} {σ ε : Type}

/-- What an operation gives. -/
def Answer : Op S → Type
  | .get k => Option (S.Val k)
  | .getLegacy k => Option (S.Val k)
  | .multiGet _ => List (Batch.Slot S)
  | .allKeys => List String
  | .storedKeys => List S.Key
  | .set .. | .remove _ | .merge .. | .multiSet _ | .multiMerge _ | .multiRemove _ | .clear
  | .flush => Unit

/-- What is reported before anything else. -/
def opening : Op S → List Event
  | .get k => [.onKey "get" (Schema.name k)]
  | .getLegacy k => [.onKey "get (legacy parsing)" (Schema.name k)]
  | .set k _ => [.onKey "set" (Schema.name k)]
  | .remove k => [.onKey "remove" (Schema.name k)]
  | .merge k _ => [.onKey "merge" (Schema.name k.val)]
  | .multiGet keys => [.onKeys "multi_get" (Batch.names keys)]
  | .multiSet _ => []
  | .multiMerge _ => []
  | .multiRemove keys => [.onKeys "multi_remove" (Batch.names keys)]
  | .allKeys => [.onStore "get_all_keys"]
  | .storedKeys => [.onStore "get_all_keys"]
  | .clear => [.onStore "clear"]
  | .flush => [.onStore "flush_get_requests"]

/-- Ask the store. -/
def ask [RawStore σ ε] (c : Call) (store : σ) : Reply (Failure ε) σ c.Answer :=
  let reply := RawStore.perform c store
  ⟨reply.answer.mapError .store, reply.store, reply.events⟩

/-- Report something before a reply. -/
def after {α : Type} (events : List Event) (reply : Reply (Failure ε) σ α) :
    Reply (Failure ε) σ α :=
  ⟨reply.answer, reply.store, events ++ reply.events⟩

/-- Make something of the answer, and report on it. -/
def interpret {α β : Type} (f : α → Logged (Except (Failure ε) β)) (reply : Reply (Failure ε) σ α) :
    Reply (Failure ε) σ β :=
  match reply with
  | ⟨.error e, store, events⟩ => ⟨.error e, store, events⟩
  | ⟨.ok a, store, events⟩ => ⟨(f a).value, store, events ++ (f a).events⟩

/-- End an operation before the store is asked. -/
def refuse {α : Type} (f : Failure ε) (store : σ) (events : List Event) : Reply (Failure ε) σ α :=
  ⟨.error f, store, events⟩

/-- The value of the text under a key. -/
def readValue (k : S.Key) : Option String → Logged (Except (Failure ε) (Option (S.Val k)))
  | none => ⟨.ok none, []⟩
  | some raw => ⟨(Batch.decodeText k raw).map some, Codec.decodeEvents (Schema.shape k) raw⟩

/-- The value of the text under a key, when it was written without the codec. -/
def readLegacy (k : S.Key) : Option String → Logged (Except (Failure ε) (Option (S.Val k)))
  | none => ⟨.ok none, []⟩
  | some raw =>
    ⟨((Codec.decodeLegacy (Schema.shape k) raw).mapError (.decode (Schema.name k))).map some, []⟩

/-- The declared keys among the keys of the store, in the order of the store. -/
def declared (keys : List String) : List S.Key := keys.filterMap S.key?

/-- Perform an operation after its opening report. -/
def body [RawStore σ ε] : (op : Op S) → σ → Reply (Failure ε) σ op.Answer
  | .get k, store => interpret (readValue k) (ask (.get (Schema.name k)) store)
  | .getLegacy k, store => interpret (readLegacy k) (ask (.get (Schema.name k)) store)
  | .set k v, store =>
    match Batch.encodeEntry ⟨k, v⟩ with
    | .error f => refuse f store []
    | .ok (name, text) => ask (.set name text) store
  | .remove k, store => ask (.remove (Schema.name k)) store
  | .merge k v, store =>
    match Batch.encodeMergeEntry ⟨k, v⟩ with
    | .error f => refuse f store (Batch.refusalEvents f)
    | .ok (name, text) => ask (.merge name text) store
  | .multiGet keys, store =>
    interpret (Batch.decode keys) (ask (.multiGet (Batch.names keys)) store)
  | .multiSet entries, store =>
    match Batch.encode entries with
    | .error f => refuse f store []
    | .ok texts => after [.onCount "multi_set" texts.length] (ask (.multiSet texts) store)
  | .multiMerge entries, store =>
    match Batch.encodeMergeLogged entries with
    | ⟨.error f, events⟩ => refuse f store events
    | ⟨.ok texts, _⟩ => after [.onCount "multi_merge" texts.length] (ask (.multiMerge texts) store)
  | .multiRemove keys, store => ask (.multiRemove (Batch.names keys)) store
  | .allKeys, store => ask .allKeys store
  | .storedKeys, store => interpret (fun keys => ⟨.ok (declared keys), []⟩) (ask .allKeys store)
  | .clear, store => ask .clear store
  | .flush, store => ask .flush store

/-- Perform an operation. -/
def run [RawStore σ ε] (op : Op S) (store : σ) : Reply (Failure ε) σ op.Answer :=
  after op.opening (op.body store)

end Op

/-- A facade in a diagnostic, on one line and on several. The schema is shown by a given path. -/
def Facade.describe (path raw : String) : String × String :=
  ("TypedStore \x7b schema: " ++ Text.quoted path ++ ", raw: " ++ raw ++ " \x7d",
    "TypedStore \x7b\n    schema: " ++ Text.quoted path ++ ",\n    raw: " ++ raw ++ ",\n\x7d")

/-- Show the outcome of an operation to a callback, once, and return it with what that gave. -/
def withCallback {α β : Type} (callback : α → β) (outcome : α) : α × β :=
  (outcome, callback outcome)

end SchemaStore
