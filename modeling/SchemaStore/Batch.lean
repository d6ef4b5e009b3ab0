import SchemaStore.Failure
import SchemaStore.Schema

/-!
# Batches

An operation on several keys takes them in a given order, repetitions included. The names and texts
that are sent follow that order, and the first position that cannot be written decides the failure.
The answer to a read is matched position by position: each entry must bear the name that was asked
for at its place, and nothing may be missing or left over.
-/

namespace SchemaStore.Batch

variable {S : Schema} {ε : Type}

/-- A key of a batch with the value that was read for it, if there is one. -/
abbrev Slot (S : Schema) : Type := (k : S.Key) × Option (S.Val k)

/-- The names of some keys. -/
def names (keys : List S.Key) : List String := keys.map Schema.name

/-- The text of one entry. -/
def encodeEntry (e : S.Entry) : Except (Failure ε) (String × String) :=
  match Codec.encode (Schema.shape e.1) e.2 with
  | .ok text => .ok (Schema.name e.1, text)
  | .error c => .error (.encode (Schema.name e.1) c)

/-- The texts of some entries. -/
def encode : List S.Entry → Except (Failure ε) (List (String × String))
  | [] => .ok []
  | e :: rest =>
    match encodeEntry e with
    | .error f => .error f
    | .ok entry => (encode rest).map (entry :: ·)

/-- The text of one entry to merge. -/
def encodeMergeEntry (e : S.MergeEntry) : Except (Failure ε) (String × String) :=
  match Codec.encodeComposite (Schema.shape e.1.val) e.2 with
  | .ok text => .ok (Schema.name e.1.val, text)
  | .error (.unwritable c) => .error (.encode (Schema.name e.1.val) c)
  | .error (.unmergeable found) => .error (.mergeArgument (Schema.name e.1.val) found)

/-- The texts of some entries to merge. -/
def encodeMerge : List S.MergeEntry → Except (Failure ε) (List (String × String))
  | [] => .ok []
  | e :: rest =>
    match encodeMergeEntry e with
    | .error f => .error f
    | .ok entry => (encodeMerge rest).map (entry :: ·)

/-- What is reported when an argument is refused. -/
def refusalEvents : Failure ε → List Event
  | .mergeArgument key found =>
    [⟨.error, "refusing to merge non-composite value", [("key", key), ("found", found.words)]⟩]
  | _ => []

/-- The texts of some entries to merge, with what is reported. -/
def encodeMergeLogged (entries : List S.MergeEntry) :
    Logged (Except (Failure ε) (List (String × String))) :=
  match encodeMerge entries with
  | .ok texts => ⟨.ok texts, []⟩
  | .error f => ⟨.error f, refusalEvents f⟩

/-- The value of one text of an answer. -/
def decodeText (k : S.Key) (raw : String) : Except (Failure ε) (S.Val k) :=
  (Codec.decode (Schema.shape k) raw).mapError (.decode (Schema.name k))

/-- The value of one text of an answer, if there is a text, with what is reported. -/
def decodeSlot (k : S.Key) : Option String → Logged (Except (Failure ε) (Slot S))
  | none => ⟨.ok ⟨k, none⟩, []⟩
  | some raw =>
    ⟨(decodeText k raw).map fun v => ⟨k, some v⟩, Codec.decodeEvents (Schema.shape k) raw⟩

/-- Match the answer to a read of some keys with the keys, position by position. -/
def decode : List S.Key → List (String × Option String) → Logged (Except (Failure ε) (List (Slot S)))
  | [], [] => ⟨.ok [], []⟩
  | [], (name, _) :: _ =>
    ⟨.error (.batchMismatch Failure.endOfResponse name),
      [⟨.warn, "batch response has extra entries", [("found", name)]⟩]⟩
  | k :: _, [] =>
    ⟨.error (.batchMismatch (Schema.name k) Failure.endOfResponse),
      [⟨.warn, "batch response ended early", [("expected", Schema.name k)]⟩]⟩
  | k :: keys, (name, text) :: rest =>
    if name ≠ Schema.name k then
      ⟨.error (.batchMismatch (Schema.name k) name),
        [⟨.warn, "batch response out of order", [("expected", Schema.name k), ("found", name)]⟩]⟩
    else
      match decodeSlot k text with
      | ⟨.error f, events⟩ => ⟨.error f, events⟩
      | ⟨.ok slot, events⟩ =>
        let after := decode keys rest
        ⟨after.value.map (slot :: ·), events ++ after.events⟩

end SchemaStore.Batch
