import SchemaStore.Proofs.Facade.Monitored

/-!
# What an operation reports of itself

Events of the level `debug` are the reports of operations, and `Op.report` is the one an operation
makes. Decoding, refusing and matching answers are reported at other levels, so beside its own report
there are only those the store makes of its call (`Op.atDebug_run_of_call`), and a store in memory
makes none. A single value is reported before it is encoded. A batch of values is reported once all
of them have been encoded, which is never for one that is refused (`Op.atDebug_run_of_refused`). So
every operation is reported exactly once but for such a batch (`Op.run_reported`), which is not
reported at all (`Catalog.not_every_operation_reported`).
-/

namespace SchemaStore

/-! ## Events of one level -/

namespace Event

/-- The reports of operations among some events. -/
def atDebug (events : List Event) : List Event := events.filter fun e => e.level = .debug

@[simp]
theorem atDebug_append (events later : List Event) :
    atDebug (events ++ later) = atDebug events ++ atDebug later :=
  List.filter_append ..

end Event

open Event

/-- The calls on a store report no operations of their own. -/
class RawStore.Quiet (σ : Type) {ε : Type} [RawStore σ ε] : Prop where
  atDebug_perform : ∀ (c : Call) (s : σ), atDebug (RawStore.perform c s).events = []

instance : RawStore.Quiet MemoryStore where
  atDebug_perform _ _ := rfl

/-- A call that is made to fail is not reported either. -/
instance {σ ε : Type} [RawStore σ ε] [RawStore.Quiet σ] : RawStore.Quiet (Monitored σ) where
  atDebug_perform c m := by
    simp only [RawStore.perform]
    split
    · rfl
    · exact RawStore.Quiet.atDebug_perform c m.store

/-! ## Encoding, reading and refusing -/

theorem Codec.atDebug_decodeEvents (s : Shape) (raw : String) : atDebug (decodeEvents s raw) = [] := by
  rw [decodeEvents]
  split
  · rfl
  · cases Attempt.first raw with
    | bare => rfl
    | json => rfl

variable {S : Schema} {σ ε : Type}

namespace Batch

theorem length_of_mapM {α β : Type} {f : α → Except (Failure ε) β} {as : List α} {bs : List β}
    (h : List.mapM f as = .ok bs) : bs.length = as.length :=
  (forall₂_of_mapM (R := fun _ _ => True) h fun _ _ _ _ _ => trivial).length_eq

theorem length_of_encode {entries : List S.Entry} {texts : List (String × String)}
    (h : (encode entries : Except (Failure ε) _) = .ok texts) : texts.length = entries.length := by
  rw [encode_eq_mapM] at h
  exact length_of_mapM h

theorem length_of_encodeMerge {entries : List S.MergeEntry} {texts : List (String × String)}
    (h : (encodeMerge entries : Except (Failure ε) _) = .ok texts) :
    texts.length = entries.length := by
  rw [encodeMerge_eq_mapM] at h
  exact length_of_mapM h

theorem atDebug_refusalEvents (f : Failure ε) : atDebug (refusalEvents f) = [] := by
  cases f <;> rfl

theorem atDebug_decodeSlot (k : S.Key) (text : Option String) :
    atDebug (decodeSlot k text : Logged (Except (Failure ε) (Slot S))).events = [] := by
  cases text with
  | none => rfl
  | some raw => exact Codec.atDebug_decodeEvents _ raw

/-- Matching an answer with the keys may report a mismatch, but no operation. -/
theorem atDebug_decode (keys : List S.Key) (answer : List (String × Option String)) :
    atDebug (decode keys answer : Logged (Except (Failure ε) (List (Slot S)))).events = [] := by
  induction keys generalizing answer with
  | nil =>
    cases answer with
    | nil => rfl
    | cons entry rest => rfl
  | cons k keys ih =>
    cases answer with
    | nil => rfl
    | cons entry rest =>
      have hslot := atDebug_decodeSlot (ε := ε) k entry.2
      rw [decode]
      split
      · rfl
      · split
        · next heq =>
          rw [heq] at hslot
          exact hslot
        · next heq =>
          rw [heq] at hslot
          rw [atDebug_append, hslot, ih]
          rfl

end Batch

namespace Op

theorem atDebug_readValue (k : S.Key) (text : Option String) :
    atDebug (readValue k text : Logged (Except (Failure ε) _)).events = [] := by
  cases text with
  | none => rfl
  | some raw => exact Codec.atDebug_decodeEvents _ raw

theorem atDebug_readLegacy (k : S.Key) (text : Option String) :
    atDebug (readLegacy k text : Logged (Except (Failure ε) _)).events = [] := by
  cases text with
  | none => rfl
  | some raw => rfl

/-- What is made of an answer adds no report to that of the call. -/
theorem atDebug_interpret {α β : Type} {f : α → Logged (Except (Failure ε) β)}
    (hf : ∀ a, atDebug (f a).events = []) (reply : Reply (Failure ε) σ α) :
    atDebug (interpret f reply).events = atDebug reply.events := by
  obtain ⟨answer, store, events⟩ := reply
  cases answer with
  | error e => rfl
  | ok a =>
    show atDebug (events ++ (f a).events) = atDebug events
    rw [atDebug_append, hf, List.append_nil]

/-! ## The report of an operation -/

/-- The report of an operation: what it is, with the names of its keys or the number of its
entries. -/
def report : Op S → Event
  | .get k => .onKey "get" (Schema.name k)
  | .getLegacy k => .onKey "get (legacy parsing)" (Schema.name k)
  | .set k _ => .onKey "set" (Schema.name k)
  | .remove k => .onKey "remove" (Schema.name k)
  | .merge k _ => .onKey "merge" (Schema.name k.val)
  | .multiGet keys => .onKeys "multi_get" (Batch.names keys)
  | .multiSet entries => .onCount "multi_set" entries.length
  | .multiMerge entries => .onCount "multi_merge" entries.length
  | .multiRemove keys => .onKeys "multi_remove" (Batch.names keys)
  | .allKeys | .storedKeys => .onStore "get_all_keys"
  | .clear => .onStore "clear"
  | .flush => .onStore "flush_get_requests"

/-- The operation sends several values. -/
def isValueBatch : Op S → Bool
  | .multiSet _ | .multiMerge _ => true
  | _ => false

/-- An operation opens with its report unless it sends several values. -/
theorem atDebug_opening (op : Op S) :
    atDebug op.opening = if op.isValueBatch then [] else [op.report] := by
  cases op <;> rfl

section Run

variable [RawStore σ ε] {op : Op S}

/-- The report that a batch of values has not opened with follows when its values are encoded. -/
theorem atDebug_body_of_call {c : Call} (h : (op.call : Except (Failure ε) Call) = .ok c)
    (store : σ) : atDebug (op.body store).events =
      (if op.isValueBatch then [op.report] else []) ++ atDebug (RawStore.perform c store).events := by
  cases op with
  | get k =>
    cases h
    exact atDebug_interpret (atDebug_readValue k) _
  | getLegacy k =>
    cases h
    exact atDebug_interpret (atDebug_readLegacy k) _
  | multiGet keys =>
    cases h
    exact atDebug_interpret (Batch.atDebug_decode keys) _
  | storedKeys =>
    cases h
    exact atDebug_interpret (fun _ => rfl) _
  | set k v =>
    obtain ⟨t, ht, rfl⟩ := exists_of_map_ok h
    rw [body, ht]
    rfl
  | merge k v =>
    obtain ⟨t, ht, rfl⟩ := exists_of_map_ok h
    rw [body, ht]
    rfl
  | multiSet entries =>
    obtain ⟨texts, htexts, rfl⟩ := exists_of_map_ok h
    rw [report, ← Batch.length_of_encode htexts, body, htexts]
    rfl
  | multiMerge entries =>
    obtain ⟨texts, htexts, rfl⟩ := exists_of_map_ok h
    rw [report, ← Batch.length_of_encodeMerge htexts, body, Batch.encodeMergeLogged, htexts]
    rfl
  | remove k | multiRemove keys | allKeys | clear | flush =>
    cases h
    rfl

/-- An operation that makes a call is reported before the store is asked, whatever comes of it. -/
theorem atDebug_run_of_call {c : Call} (h : (op.call : Except (Failure ε) Call) = .ok c) (store : σ) :
    atDebug (op.run store).events = op.report :: atDebug (RawStore.perform c store).events := by
  show atDebug (op.opening ++ (op.body store).events) = _
  rw [atDebug_append, atDebug_opening, atDebug_body_of_call h]
  cases op.isValueBatch with
  | false => rfl
  | true => rfl

/-- An operation that is refused has no report but the one it opens with. -/
theorem atDebug_run_of_refused {f : Failure ε} (h : op.call = .error f) (store : σ) :
    atDebug (op.run store).events = if op.isValueBatch then [] else [op.report] := by
  show atDebug (op.opening ++ (op.body store).events) = _
  rw [atDebug_append, atDebug_opening, body_of_refused h, refuse, Batch.atDebug_refusalEvents,
    List.append_nil]

end Run

/-- On a store in memory, of which any calls may be made to fail, an operation is reported exactly
once, whatever it answers, unless it is a batch of values one of which cannot be sent. Such a batch is
not reported at all. -/
theorem run_reported (op : Op S) (m : Monitored MemoryStore) :
    atDebug (op.run m).events =
      if op.isValueBatch ∧ (op.refusal? (ε := MonitorError Empty)).isSome then [] else [op.report] := by
  cases hcall : (op.call : Except (Failure (MonitorError Empty)) Call) with
  | error f =>
    have hrefused : op.refusal? = some f := by rw [refusal?_eq, hcall, errorOf]
    rw [atDebug_run_of_refused hcall, hrefused]
    simp only [Option.isSome_some, and_true]
  | ok c =>
    have haccepted : op.refusal? (ε := MonitorError Empty) = none := by
      rw [refusal?_eq, hcall, errorOf]
    rw [atDebug_run_of_call hcall, RawStore.Quiet.atDebug_perform, haccepted]
    simp only [Option.isSome_none, Bool.false_eq_true, and_false, if_false]

end Op

namespace Catalog

/-- A number of hits to merge, which is neither an object nor an array. -/
def mergesHit : Op prefs :=
  .multiMerge [⟨hitsMerge, ⟨0, by decide⟩⟩]

/-- Not every operation is reported: the batch of one number to merge is refused before it reports
itself, on an empty store that fails no call. -/
theorem not_every_operation_reported :
    ¬ ∀ (S : Schema) (op : Op S) (m : Monitored MemoryStore),
      (atDebug (op.run m).events).length = 1 := by
  intro hevery
  have hone := hevery prefs mergesHit (.of .empty)
  have hnone : atDebug (mergesHit.run (Monitored.of MemoryStore.empty)).events = [] := rfl
  rw [hnone] at hone
  cases hone

/-- A batch with a map that cannot be written, since its keys are pairs. -/
def setsTuples : Op extra :=
  .multiSet [⟨⟨3, by decide⟩, SortedMap.ofList (α := (KeyShape.pair (.int .u8) (.int .u8)).Val)
    [((⟨1, by decide⟩, ⟨2, by decide⟩), ⟨3, by decide⟩)]⟩]

example : (setsTuples.run (Monitored.of MemoryStore.empty)).events = [] := rfl

end Catalog

end SchemaStore
